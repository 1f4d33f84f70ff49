import Sandix.Machinery.Forest
import Sandix.Kernel.Resource

/-!
# Kernel/ResourceTree — resource trees in memory

`Linked h p t f` says that the heap holds the forest `f` as the children of `p`, with `t` after the
last of them; `Ordered h lo hi f` that its ranges nest, in address order, between `lo` and `hi`.  A
`ResourceTree` is both, from a root down.

The two edits the code makes are `linked_store`, which swings the pointer to what follows a run of
siblings, and `linked_reparent`, which hands a run of siblings to a new parent.
-/

namespace Sandix

open Machinery Forest

/-- The heap holds the forest as the children of `p`, followed by `t`. -/
def Linked (h : ResHeap) (p : ℕ) (t : Option ℕ) : Forest ℕ → Prop
  | nil => True
  | node i c s => ((h i).parent = some p ∧ (h i).child = c.headOr none ∧
      (h i).sibling = s.headOr t) ∧ Linked h i none c ∧ Linked h p t s

/-- The ranges nest between `lo` and `hi`, siblings in address order and disjoint. -/
def Ordered (h : ResHeap) (lo hi : ℕ) : Forest ℕ → Prop
  | nil => True
  | node i c s => (lo ≤ (h i).start ∧ (h i).start ≤ (h i).stop ∧ (h i).stop < hi) ∧
      Ordered h (h i).start ((h i).stop + 1) c ∧ Ordered h ((h i).stop + 1) hi s

/-- The well-formed tree of root `root` and forest `kids` of children. -/
structure ResourceTree (h : ResHeap) (root : ℕ) (kids : Forest ℕ) : Prop where
  child_eq : (h root).child = kids.headOr none
  linked : Linked h root none kids
  range : (h root).start ≤ (h root).stop
  ordered : Ordered h (h root).start ((h root).stop + 1) kids
  nodup : (root :: kids.ids).Nodup

variable {h h' : ResHeap} {p : ℕ} {t : Option ℕ} {lo hi : ℕ}

/-! ## Linked forests -/

/-- Only the nodes of the forest matter. -/
theorem Linked.congr : ∀ {f : Forest ℕ} {p : ℕ} {t : Option ℕ}, (∀ i ∈ f.ids, h' i = h i) →
    Linked h p t f → Linked h' p t f
  | nil, _, _, _, _ => trivial
  | node i c s, p, t, heq, ⟨hi, hc, hs⟩ => by
      simp only [ids, List.forall_mem_cons, List.forall_mem_append] at heq
      refine ⟨?_, hc.congr heq.2.1, hs.congr heq.2.2⟩
      rwa [heq.1]

theorem linked_append : ∀ {f g : Forest ℕ},
    Linked h p t (f ++ g) ↔ Linked h p (g.headOr t) f ∧ Linked h p t g
  | nil, g => by simp [Linked]
  | node i c s, g => by
      rw [node_append, Linked, Linked, linked_append, headOr_append]
      simp only [and_assoc]

/-- The link at the end of a run of siblings that starts at `p`. -/
def linkAfter (p : Link) : Forest ℕ → Link
  | nil => p
  | node i _ s => linkAfter (.sibling i) s

theorem load_linkAfter : ∀ {f : Forest ℕ} {l : Link}, l.load h = f.headOr t → Linked h p t f →
    (linkAfter l f).load h = t
  | nil, _, hl, _ => hl
  | node i _ _, _, _, ⟨hi, _, hs⟩ => load_linkAfter (l := .sibling i) hi.2.2 hs

theorem linkAfter_append (l : Link) : ∀ f g : Forest ℕ,
    linkAfter l (f ++ g) = linkAfter (linkAfter l f) g := by
  intro f
  induction f generalizing l with
  | nil => exact fun _ => rfl
  | node i c s _ ih => exact fun g => ih (.sibling i) g

theorem linkAfter_owner : ∀ (f : Forest ℕ) (l : Link),
    (linkAfter l f).owner = l.owner ∨ (linkAfter l f).owner ∈ f.tops
  | nil, _ => Or.inl rfl
  | node i c s, l => by
      right
      rcases linkAfter_owner s (.sibling i) with h | h
      · exact h ▸ List.mem_cons_self
      · exact List.mem_cons_of_mem i h

/-! ## Storing through a link -/

theorem store_of_ne (v : Option ℕ) (l : Link) {i : ℕ} (hi : i ≠ l.owner) :
    l.store h v i = h i := by
  cases l <;> exact Function.update_of_ne hi _ _

theorem load_store (h : ResHeap) (v : Option ℕ) (l : Link) : l.load (l.store h v) = v := by
  cases l <;> simp [Link.load, Link.store]

/-- A store leaves the other fields. -/
theorem store_frame (h : ResHeap) (v : Option ℕ) (l : Link) (i : ℕ) :
    (l.store h v i).start = (h i).start ∧ (l.store h v i).stop = (h i).stop ∧
    (l.store h v i).parent = (h i).parent := by
  by_cases hi : i = l.owner
  · subst hi
    cases l <;> simp [Link.store, Link.owner]
  · rw [store_of_ne v l hi]
    exact ⟨rfl, rfl, rfl⟩

theorem store_sibling_child (h : ResHeap) (v : Option ℕ) (r i : ℕ) :
    (Link.store h v (.sibling r) i).child = (h i).child := by
  by_cases hi : i = r
  · subst hi
    simp [Link.store]
  · rw [store_of_ne v (.sibling r) hi]

/-- A link at the end of a nonempty run is a `sibling` field. -/
theorem linkAfter_node (l : Link) (i : ℕ) (c : Forest ℕ) : ∀ s : Forest ℕ,
    ∃ r ∈ (node i c s).tops, linkAfter l (node i c s) = .sibling r := by
  intro s
  induction s generalizing l i c with
  | nil => exact ⟨i, List.mem_cons_self, rfl⟩
  | node j d s _ ih =>
    obtain ⟨r, hr, heq⟩ := ih (.sibling i) j d
    exact ⟨r, List.mem_cons_of_mem i hr, heq⟩

/-- **Swinging the last link of a run** of siblings to `v`: the run is linked as before, followed
by `v`, and the pointer to the run still leads to it. -/
theorem linked_store {v : Option ℕ} : ∀ {f : Forest ℕ} {l : Link}, Linked h p t f →
    l.load h = f.headOr t → (l.owner :: f.ids).Nodup →
    Linked ((linkAfter l f).store h v) p v f ∧ l.load ((linkAfter l f).store h v) = f.headOr v
  | nil, l, _, _, _ => ⟨trivial, load_store h v l⟩
  | node i c s, l, ⟨⟨hpar, hchild, hsib⟩, hc, hs⟩, hl, hnd => by
      simp only [ids, List.nodup_cons, List.mem_cons, List.mem_append, List.nodup_append,
        not_or] at hnd
      obtain ⟨⟨hli, hlc, hls⟩, ⟨hic, his⟩, hndc, hnds, hdisj⟩ := hnd
      obtain ⟨ihlinked, ihload⟩ := linked_store (l := .sibling i) (v := v) hs hsib
        (List.nodup_cons.mpr ⟨his, hnds⟩)
      have howner := linkAfter_owner s (.sibling i)
      have hkeep : ∀ j, j ≠ i → j ∉ s.ids → (linkAfter (.sibling i) s).store h v j = h j := by
        intro j hj hjs
        refine store_of_ne v _ fun hjo => ?_
        rcases howner with ho | ho
        · exact hj (hjo.trans ho)
        · exact hjs (hjo ▸ tops_subset_ids s _ ho)
      refine ⟨⟨⟨?_, ?_, ihload⟩, ?_, ihlinked⟩, ?_⟩
      · rw [(store_frame h v _ i).2.2, hpar]
      · cases s with
        | nil => rw [linkAfter, linkAfter, store_sibling_child, hchild]
        | node j d s =>
          obtain ⟨r, -, hr⟩ := linkAfter_node (.sibling i) j d s
          rw [linkAfter, hr, store_sibling_child, hchild]
      · refine hc.congr fun j hj => hkeep j ?_ ?_
        · rintro rfl
          exact hic hj
        · exact fun hjs => hdisj j hj j hjs rfl
      · have hlo : (linkAfter (.sibling i) s).store h v l.owner = h l.owner := hkeep _ hli hls
        cases l with
        | child r => exact (congrArg Resource.child hlo).trans hl
        | sibling r => exact (congrArg Resource.sibling hlo).trans hl

/-! ## Handing siblings to a new parent -/

/-- The heap after the roots of the forest have been given the parent `new`. -/
def reparent (new : ℕ) (h : ResHeap) : Forest ℕ → ResHeap
  | nil => h
  | node i _ s => reparent new (setParent h i (some new)) s

theorem reparent_of_notMem {new j : ℕ} : ∀ {f : Forest ℕ} {h : ResHeap}, j ∉ f.tops →
    reparent new h f j = h j
  | nil, _, _ => rfl
  | node i c s, h, hj => by
      rw [tops, List.mem_cons, not_or] at hj
      rw [reparent, reparent_of_notMem hj.2]
      exact Function.update_of_ne hj.1 _ _

/-- Only the parent changes. -/
theorem setParent_frame (h : ResHeap) (r : ℕ) (v : Option ℕ) (j : ℕ) :
    (setParent h r v j).start = (h j).start ∧ (setParent h r v j).stop = (h j).stop ∧
    (setParent h r v j).sibling = (h j).sibling ∧ (setParent h r v j).child = (h j).child := by
  unfold setParent
  by_cases hj : j = r
  · subst hj
    simp
  · rw [Function.update_of_ne hj]
    exact ⟨rfl, rfl, rfl, rfl⟩

theorem reparent_range (new j : ℕ) : ∀ (f : Forest ℕ) (h : ResHeap),
    (reparent new h f j).start = (h j).start ∧ (reparent new h f j).stop = (h j).stop
  | nil, _ => ⟨rfl, rfl⟩
  | node i c s, h => by
      obtain ⟨hstart, hstop⟩ := reparent_range new j s (setParent h i (some new))
      obtain ⟨hstart', hstop', -⟩ := setParent_frame h i (some new) j
      exact ⟨hstart.trans hstart', hstop.trans hstop'⟩

/-- **Handing over a run of siblings** leaves it linked under its new parent. -/
theorem linked_reparent {new : ℕ} : ∀ {f : Forest ℕ} {h : ResHeap} {p : ℕ} {t : Option ℕ},
    Linked h p t f → f.ids.Nodup → Linked (reparent new h f) new t f
  | nil, _, _, _, _, _ => trivial
  | node i c s, h, p, t, ⟨⟨_, hchild, hsib⟩, hc, hs⟩, hnd => by
      simp only [ids, List.nodup_cons, List.mem_append, List.nodup_append, not_or] at hnd
      obtain ⟨⟨hic, his⟩, hndc, hnds, hdisj⟩ := hnd
      have hne : ∀ j, j ≠ i → setParent h i (some new) j = h j :=
        fun j hj => Function.update_of_ne hj _ _
      have hi : reparent new (setParent h i (some new)) s i = setParent h i (some new) i :=
        reparent_of_notMem fun hm => his (tops_subset_ids s i hm)
      obtain ⟨-, -, hsib', hchild'⟩ := setParent_frame h i (some new) i
      rw [reparent]
      refine ⟨⟨?_, ?_, ?_⟩, ?_, ?_⟩
      · rw [hi]
        simp [setParent]
      · rw [hi, hchild', hchild]
      · rw [hi, hsib', hsib]
      · refine hc.congr fun j hj => ?_
        have hjs : j ∉ s.tops := fun hm => hdisj j hj j (tops_subset_ids s j hm) rfl
        rw [reparent_of_notMem hjs, hne j]
        rintro rfl
        exact hic hj
      · refine linked_reparent (hs.congr fun j hj => hne j ?_) hnds
        rintro rfl
        exact his hj

/-! ## Ordered forests -/

/-- Only the ranges matter. -/
theorem Ordered.congr : ∀ {f : Forest ℕ} {lo hi : ℕ},
    (∀ i ∈ f.ids, (h' i).start = (h i).start ∧ (h' i).stop = (h i).stop) →
    Ordered h lo hi f → Ordered h' lo hi f
  | nil, _, _, _, _ => trivial
  | node i c s, lo, hi, heq, ⟨hr, hc, hs⟩ => by
      simp only [ids, List.forall_mem_cons, List.forall_mem_append] at heq
      obtain ⟨⟨hstart, hstop⟩, hceq, hseq⟩ := heq
      rw [Ordered, hstart, hstop]
      exact ⟨hr, hc.congr hceq, hs.congr hseq⟩

theorem Ordered.weaken : ∀ {f : Forest ℕ} {lo hi lo' hi' : ℕ}, Ordered h lo hi f → lo' ≤ lo →
    hi ≤ hi' → Ordered h lo' hi' f
  | nil, _, _, _, _, _, _, _ => trivial
  | node _ _ _, _, _, _, _, ⟨hr, hc, hs⟩, hlo, hhi =>
      ⟨⟨by omega, hr.2.1, by omega⟩, hc, hs.weaken le_rfl hhi⟩

/-- Every node, however deep, is between the bounds. -/
theorem Ordered.bounds : ∀ {f : Forest ℕ} {lo hi : ℕ}, Ordered h lo hi f → ∀ i ∈ f.ids,
    lo ≤ (h i).start ∧ (h i).start ≤ (h i).stop ∧ (h i).stop < hi
  | node i c s, lo, hi, ⟨hr, hc, hs⟩, j, hj => by
      rw [ids, List.mem_cons, List.mem_append] at hj
      rcases hj with rfl | hj | hj
      · exact hr
      · have := hc.bounds j hj
        omega
      · have := hs.bounds j hj
        omega

/-- Two runs on either side of `m`. -/
theorem Ordered.append {m : ℕ} : ∀ {f g : Forest ℕ} {lo : ℕ}, Ordered h lo m f → Ordered h m hi g →
    lo ≤ m → m ≤ hi → Ordered h lo hi (f ++ g)
  | nil, _, _, _, hg, hlo, _ => hg.weaken hlo le_rfl
  | node _ _ _, _, _, ⟨hr, hc, hs⟩, hg, _, hm =>
      ⟨⟨hr.1, hr.2.1, by omega⟩, hc, hs.append hg (by omega) hm⟩

theorem Ordered.left : ∀ {f g : Forest ℕ} {lo : ℕ}, Ordered h lo hi (f ++ g) → Ordered h lo hi f
  | nil, _, _, _ => trivial
  | node _ _ _, _, _, ⟨hr, hc, hs⟩ => ⟨hr, hc, hs.left⟩

theorem Ordered.right : ∀ {f g : Forest ℕ} {lo : ℕ}, Ordered h lo hi (f ++ g) → Ordered h lo hi g
  | nil, _, _, hg => hg
  | node _ _ _, _, _, ⟨hr, _, hs⟩ => hs.right.weaken (by omega) le_rfl

/-- A run up to a tree is bounded by what bounds the tree. -/
theorem Ordered.cut {m i : ℕ} {c s : Forest ℕ} (him : (h i).stop < m) : ∀ {f : Forest ℕ} {lo : ℕ},
    Ordered h lo hi (f ++ node i c s) → Ordered h lo m (f ++ node i c nil)
  | nil, _, ⟨hr, hc, _⟩ => ⟨⟨hr.1, hr.2.1, him⟩, hc, trivial⟩
  | node j d f, _, ⟨hr, hd, hf⟩ => by
      have hi := hf.right.1
      exact ⟨⟨hr.1, hr.2.1, by omega⟩, hd, hf.cut him⟩

/-- A run that keeps within its bounds with one more tree. -/
theorem Ordered.extend {m i : ℕ} {c s : Forest ℕ} (him : (h i).stop < m) :
    ∀ {f : Forest ℕ} {lo lo' : ℕ}, Ordered h lo m f → Ordered h lo' hi (f ++ node i c s) →
      lo ≤ (h i).start → Ordered h lo m (f ++ node i c nil)
  | nil, _, _, _, ⟨hr, hc, _⟩, hlo => ⟨⟨hlo, hr.2.1, him⟩, hc, trivial⟩
  | node _ _ _, _, _, ⟨hr, hd, hf⟩, ⟨_, _, hfi⟩, _ => ⟨hr, hd, hf.extend him hfi hfi.right.1.1⟩

/-- The children of a tree can be replaced by others that fit in it. -/
theorem Ordered.replace {i : ℕ} {c c' s : Forest ℕ}
    (hc' : Ordered h (h i).start ((h i).stop + 1) c') : ∀ {f : Forest ℕ} {lo : ℕ},
    Ordered h lo hi (f ++ node i c s) → Ordered h lo hi (f ++ node i c' s)
  | nil, _, ⟨hr, _, hs⟩ => ⟨hr, hc', hs⟩
  | node _ _ _, _, ⟨hr, hd, hf⟩ => ⟨hr, hd, Ordered.replace hc' hf⟩

/-! ## Ranges -/

/-- The ranges of `a` and `b` share an address. -/
def Overlaps (h : ResHeap) (a b : ℕ) : Prop :=
  (h a).start ≤ (h b).stop ∧ (h b).start ≤ (h a).stop

/-- The range of `a` is contained in that of `b`. -/
def Within (h : ResHeap) (a b : ℕ) : Prop :=
  (h b).start ≤ (h a).start ∧ (h a).stop ≤ (h b).stop

/-- The ranges overlap and neither contains the other. -/
def PartialOverlap (h : ResHeap) (a b : ℕ) : Prop :=
  Overlaps h a b ∧ ¬ Within h a b ∧ ¬ Within h b a

/-- The range of `a` is a range, and contained in that of `b`. -/
def LiesInside (h : ResHeap) (a b : ℕ) : Prop := (h a).start ≤ (h a).stop ∧ Within h a b

/-- Strict descent in the tree of root `root` and children `kids`. -/
def TreeAnc (root : ℕ) (kids : Forest ℕ) (a b : ℕ) : Prop :=
  (a = root ∧ b ∈ kids.ids) ∨ kids.Anc a b

end Sandix
