import Sandix.Kernel.ResourceRelease

/-!
# Kernel/ResourceRun — a run of calls on a resource tree

What the tree is for: the resources a root has granted, in the order they came (`Holdings`).  A request
is granted where it meets nothing, an insertion where it does not cut across anything, and a release
takes back a resource with all that is over nothing but it.  One resource is **over** another when it
contains it and, where their ranges are equal, came later; the tree keeps nothing else, so

* `resourceRun_refines` — a run of calls returns what the list says, and leaves the tree it says;
* `resourceRun_canonical` — two runs that end with the same resources end with the same pointers.
-/

namespace Sandix

open Machinery Forest

/-! ## The calls -/

/-- The calls on the tree of one root. -/
inductive ResourceOp
  | request (new : ℕ)
  | insert (new : ℕ)
  | release (old : ℕ)
deriving DecidableEq, Repr

/-- `conflict ? -EBUSY : 0`. -/
def busyOf (conflict : Option ℕ) : ℤ := if conflict = none then 0 else -EBUSY

/-- `request_resource`, `insert_resource` and `release_resource`. -/
def ResourceOp.exec (fuel root : ℕ) (h : ResHeap) : ResourceOp → Exec (ℤ × ResHeap)
  | .request new => do
    let (conflict, h) ← requestResource fuel h root new
    pure (busyOf conflict, h)
  | .insert new => do
    let (conflict, h) ← insertResource fuel h root new
    pure (busyOf conflict, h)
  | .release old => releaseResource fuel h old

/-- What the calls return, and the heap after them. -/
def resourceRun (fuel root : ℕ) : List ResourceOp → ResHeap → Exec (List ℤ × ResHeap)
  | [], h => .ok ([], h)
  | op :: ops, h => do
    let (ret, h) ← op.exec fuel root h
    let (rets, h) ← resourceRun fuel root ops h
    pure (ret :: rets, h)

/-! ## What a tree holds -/

instance (h : ResHeap) (a b : ℕ) : Decidable (Within h a b) := inferInstanceAs (Decidable (_ ∧ _))

instance (h : ResHeap) (a b : ℕ) : Decidable (Overlaps h a b) := inferInstanceAs (Decidable (_ ∧ _))

instance (h : ResHeap) (a b : ℕ) : Decidable (PartialOverlap h a b) :=
  inferInstanceAs (Decidable (_ ∧ _ ∧ _))

instance (h : ResHeap) (a b : ℕ) : Decidable (LiesInside h a b) := inferInstanceAs (Decidable (_ ∧ _))

/-- Of two resources on the list, `a` contains `b`, and came later if `b` contains `a`. -/
def Over (h : ResHeap) (held : List ℕ) (a b : ℕ) : Prop :=
  a ∈ held ∧ b ∈ held ∧ Within h b a ∧ (Within h a b → [a, b].Sublist held)

instance (h : ResHeap) (held : List ℕ) (a b : ℕ) : Decidable (Over h held a b) :=
  inferInstanceAs (Decidable (_ ∧ _ ∧ _ ∧ (_ → _)))

/-- The resources granted, the newest first, and those that came back with others below them: these
still lead to what was below them. -/
structure Holdings where
  held : List ℕ
  spent : List ℕ
deriving DecidableEq, Repr

/-- A root that has granted nothing. -/
def Holdings.empty : Holdings := ⟨[], []⟩

/-- One more resource is granted. -/
def Holdings.grant (s : Holdings) (new : ℕ) : Holdings := { s with held := new :: s.held }

/-- `i` comes back with `old`. -/
def Gone (h : ResHeap) (held : List ℕ) (old i : ℕ) : Prop := i = old ∨ Over h held old i

instance (h : ResHeap) (held : List ℕ) (old i : ℕ) : Decidable (Gone h held old i) :=
  inferInstanceAs (Decidable (_ ∨ _))

/-- A resource comes back, with what it is over. -/
def Holdings.release (h : ResHeap) (s : Holdings) (old : ℕ) : Holdings where
  held := s.held.filter fun i => ¬Gone h s.held old i
  spent := s.spent ++ s.held.filter fun i => Gone h s.held old i ∧ ∃ j ∈ s.held, Over h s.held i j

/-- What a call returns, and what is granted after it. -/
def ResourceOp.next (h : ResHeap) (root : ℕ) (s : Holdings) : ResourceOp → ℤ × Holdings
  | .request new =>
    if LiesInside h new root ∧ ∀ c ∈ s.held, ¬Overlaps h c new then (0, s.grant new) else (-EBUSY, s)
  | .insert new =>
    if LiesInside h new root ∧ ∀ c ∈ s.held, ¬PartialOverlap h c new then (0, s.grant new)
    else (-EBUSY, s)
  | .release old => (0, s.release h old)

/-- What the calls return, and what is granted after them. -/
def holdingsRun (h : ResHeap) (root : ℕ) : List ResourceOp → Holdings → List ℤ × Holdings
  | [], s => ([], s)
  | op :: ops, s =>
    let r := holdingsRun h root ops (op.next h root s).2
    ((op.next h root s).1 :: r.1, r.2)

/-- What a caller may do: ask for a loose resource without children, give back one that was granted. -/
def ResourceOp.Proper (root : ℕ) (s : Holdings) : ResourceOp → Prop
  | .request new => new ≠ root ∧ new ∉ s.held ∧ new ∉ s.spent
  | .insert new => new ≠ root ∧ new ∉ s.held ∧ new ∉ s.spent
  | .release old => old ∈ s.held

/-- Every call of the run is proper when it is made. -/
def ProperRun (h : ResHeap) (root : ℕ) : List ResourceOp → Holdings → Prop
  | [], _ => True
  | op :: ops, s => op.Proper root s ∧ ProperRun h root ops (op.next h root s).2

instance (root : ℕ) (s : Holdings) : (op : ResourceOp) → Decidable (op.Proper root s)
  | .request new => inferInstanceAs (Decidable (new ≠ root ∧ new ∉ s.held ∧ new ∉ s.spent))
  | .insert new => inferInstanceAs (Decidable (new ≠ root ∧ new ∉ s.held ∧ new ∉ s.spent))
  | .release old => inferInstanceAs (Decidable (old ∈ s.held))

instance decidableProperRun (h : ResHeap) (root : ℕ) :
    (ops : List ResourceOp) → (s : Holdings) → Decidable (ProperRun h root ops s)
  | [], _ => isTrue trivial
  | op :: ops, s =>
    have := decidableProperRun h root ops (op.next h root s).2
    inferInstanceAs (Decidable (_ ∧ _))

variable {h h' h₀ : ResHeap} {root new old fuel lo hi a b p : ℕ} {kids kids' f : Forest ℕ}
  {s : Holdings}

/-! ## What the ranges say about the tree -/

theorem Ordered.within_of_anc : ∀ {f : Forest ℕ} {lo hi : ℕ}, Ordered h lo hi f → f.Anc a b →
    Within h b a
  | node i c s, lo, hi, ⟨hr, hc, hs⟩, hanc => by
      rcases hanc with ⟨rfl, hb⟩ | hanc | hanc
      · have hbounds := hc.bounds b hb
        exact ⟨hbounds.1, by omega⟩
      · exact hc.within_of_anc hanc
      · exact hs.within_of_anc hanc

/-- **Nested or disjoint.** -/
theorem Ordered.related : ∀ {f : Forest ℕ} {lo hi : ℕ}, Ordered h lo hi f → a ∈ f.ids → b ∈ f.ids →
    a ≠ b → Overlaps h a b → f.Anc a b ∨ f.Anc b a
  | node i c s, lo, hi, ⟨hr, hc, hs⟩, ha, hb, hne, ⟨hab, hba⟩ => by
      have hin : ∀ j ∈ c.ids, (h j).start ≤ (h i).stop ∧ (h j).stop ≤ (h i).stop := fun j hj => by
        have hbounds := hc.bounds j hj
        omega
      have hout : ∀ j ∈ s.ids, (h i).stop < (h j).start := fun j hj => (hs.bounds j hj).1
      rw [ids, List.mem_cons, List.mem_append] at ha hb
      simp only [Anc]
      rcases ha with rfl | ha | ha <;> rcases hb with rfl | hb | hb
      · exact absurd rfl hne
      · exact Or.inl (Or.inl ⟨rfl, hb⟩)
      · exact absurd (hout b hb) (by omega)
      · exact Or.inr (Or.inl ⟨rfl, ha⟩)
      · exact (hc.related ha hb hne ⟨hab, hba⟩).imp (Or.inr ∘ Or.inl) (Or.inr ∘ Or.inl)
      · have h₁ := hin a ha
        have h₂ := hout b hb
        omega
      · have h₁ := hout a ha
        omega
      · have h₁ := hin b hb
        have h₂ := hout a ha
        omega
      · exact (hs.related ha hb hne ⟨hab, hba⟩).imp (Or.inr ∘ Or.inr) (Or.inr ∘ Or.inr)

theorem Ordered.inOrder : ∀ {f : Forest ℕ} {lo hi : ℕ}, Ordered h lo hi f →
    f.InOrder fun i => (h i).start
  | nil, _, _, _ => trivial
  | node i c s, lo, hi, ⟨hr, hc, hs⟩ => by
      refine ⟨fun j hj => ?_, hc.inOrder, hs.inOrder⟩
      have hbounds := hs.bounds j hj
      dsimp only
      omega

/-- What meets a resource meets a root. -/
theorem Ordered.overlaps_tops : ∀ {f : Forest ℕ} {lo hi : ℕ}, Ordered h lo hi f → b ∈ f.ids →
    Overlaps h b new → ∃ c ∈ f.tops, Overlaps h c new
  | node i c s, lo, hi, ⟨hr, hc, hs⟩, hb, hover => by
      rw [ids, List.mem_cons, List.mem_append] at hb
      rcases hb with rfl | hb | hb
      · exact ⟨b, List.mem_cons_self, hover⟩
      · have hbounds := hc.bounds b hb
        exact ⟨i, List.mem_cons_self, by have := hover.1; omega, by have := hover.2; omega⟩
      · obtain ⟨t, ht, hover⟩ := hs.overlaps_tops hb hover
        exact ⟨t, List.mem_cons_of_mem i ht, hover⟩

/-- The parent of a node is the root, or over it. -/
theorem Linked.parent_eq : ∀ {f : Forest ℕ} {p : ℕ} {t : Option ℕ}, Linked h p t f → b ∈ f.ids →
    ∃ q, (h b).parent = some q ∧ ((q = p ∧ b ∈ f.tops) ∨ f.Anc q b)
  | node i c s, p, t, ⟨hi, hc, hs⟩, hb => by
      rw [ids, List.mem_cons, List.mem_append] at hb
      rcases hb with rfl | hb | hb
      · exact ⟨p, hi.1, Or.inl ⟨rfl, List.mem_cons_self⟩⟩
      · obtain ⟨q, hq, ⟨rfl, -⟩ | hanc⟩ := hc.parent_eq hb
        · exact ⟨q, hq, Or.inr (Or.inl ⟨rfl, hb⟩)⟩
        · exact ⟨q, hq, Or.inr (Or.inr (Or.inl hanc))⟩
      · obtain ⟨q, hq, ⟨rfl, hb⟩ | hanc⟩ := hs.parent_eq hb
        · exact ⟨q, hq, Or.inl ⟨rfl, List.mem_cons_of_mem i hb⟩⟩
        · exact ⟨q, hq, Or.inr (Or.inr (Or.inr hanc))⟩

/-- What is above a node is its parent, or above that. -/
theorem Linked.parent_of_anc : ∀ {f : Forest ℕ} {p : ℕ} {t : Option ℕ}, Linked h p t f → f.Anc a b →
    ∃ q, (h b).parent = some q ∧ (q = a ∨ f.Anc a q) ∧ f.Anc q b
  | node i c s, p, t, ⟨hi, hc, hs⟩, hanc => by
      rcases hanc with ⟨rfl, hb⟩ | hanc | hanc
      · obtain ⟨q, hq, ⟨rfl, -⟩ | hanc⟩ := hc.parent_eq hb
        · exact ⟨q, hq, Or.inl rfl, Or.inl ⟨rfl, hb⟩⟩
        · exact ⟨q, hq, Or.inr (Or.inl ⟨rfl, (mem_ids_of_anc hanc).1⟩), Or.inr (Or.inl hanc)⟩
      · obtain ⟨q, hq, hqa, hqb⟩ := hc.parent_of_anc hanc
        exact ⟨q, hq, hqa.imp_right (Or.inr ∘ Or.inl), Or.inr (Or.inl hqb)⟩
      · obtain ⟨q, hq, hqa, hqb⟩ := hs.parent_of_anc hanc
        exact ⟨q, hq, hqa.imp_right (Or.inr ∘ Or.inr), Or.inr (Or.inr hqb)⟩

/-- A node with nothing below it leads to nothing. -/
theorem Linked.child_of_leaf : ∀ {f : Forest ℕ} {p : ℕ} {t : Option ℕ}, Linked h p t f → a ∈ f.ids →
    (∀ b, ¬f.Anc a b) → (h a).child = none
  | node i c s, p, t, ⟨hi, hc, hs⟩, ha, hleaf => by
      rw [ids, List.mem_cons, List.mem_append] at ha
      rcases ha with rfl | ha | ha
      · cases c with
        | nil => exact hi.2.1
        | node j d u => exact absurd (Or.inl ⟨rfl, List.mem_cons_self⟩) (hleaf j)
      · exact hc.child_of_leaf ha fun b hanc => hleaf b (Or.inr (Or.inl hanc))
      · exact hs.child_of_leaf ha fun b hanc => hleaf b (Or.inr (Or.inr hanc))

/-! ## Equal ranges

The new resource goes under those that contain it and are larger: read off its parent. -/

theorem requestStep_parent {l : Link} {out : Option ℕ × ResHeap}
    (hstep : requestStep h p new l = .ok (.inr out)) :
    (out.1 = none → (out.2 new).parent = some p) ∧ (out.1 ≠ none → out.2 = h) := by
  unfold requestStep at hstep
  split at hstep
  · cases hstep
    exact ⟨fun _ => by simp [setParent], fun hne => absurd rfl hne⟩
  · split_ifs at hstep
    · cases hstep
      exact ⟨fun _ => by simp [setParent], fun hne => absurd rfl hne⟩
    · cases hstep
    · cases hstep
      exact ⟨fun hnone => absurd hnone (Option.some_ne_none _), fun _ => rfl⟩

/-- A request that succeeds names the parent; one that fails changes nothing. -/
theorem requestResource_parent {r : Option ℕ} (hreq : requestResource fuel h p new = .ok (r, h')) :
    (r = none → (h' new).parent = some p) ∧ (r ≠ none → h' = h) := by
  have hroot : (Except.ok (some p, h) : Exec (Option ℕ × ResHeap)) = .ok (r, h') →
      (r = none → (h' new).parent = some p) ∧ (r ≠ none → h' = h) := by
    rintro ⟨⟩
    exact ⟨fun hnone => absurd hnone (Option.some_ne_none _), fun _ => rfl⟩
  unfold requestResource at hreq
  split_ifs at hreq
  · exact hroot hreq
  · exact hroot hreq
  · exact hroot hreq
  · exact Exec.loop_inv (b := (r, h')) (fun _ => True) _ (fun _ _ => trivial)
      (fun _ hstep => requestStep_parent hstep) trivial hreq

/-- Taking a run over, `new` gets the parent of the run, unless it is on the run itself. -/
theorem captureRun_parent {first next : ℕ} {r : Option ℕ}
    (hrun : captureRun fuel h p new first next = .ok (r, h')) :
    (h' new).parent = some p ∨ (h' new).parent = some new := by
  unfold captureRun at hrun
  obtain ⟨h₃, hloop, hrest⟩ := Exec.bind_eq_ok.mp hrun
  have hparent : (h₃ new).parent = some p ∨ (h₃ new).parent = some new := by
    refine Exec.loop_inv (fun s : ResHeap × Option ℕ => (s.1 new).parent = some p ∨
      (s.1 new).parent = some new) (fun h₃ => (h₃ new).parent = some p ∨ (h₃ new).parent = some new)
      ?_ ?_ (Or.inl ?_) hloop
    · rintro ⟨h₁, _ | i⟩ s' hs hstep
      · cases hstep
      · cases hstep
        by_cases hi : new = i
        · subst hi
          exact Or.inr (by simp [setParent])
        · have hsame : setParent h₁ i (some new) new = h₁ new := setParent_of_ne hi
          dsimp only
          rwa [hsame]
    · rintro ⟨h₁, _ | i⟩ s' hs hstep
      · cases hstep
        exact hs
      · cases hstep
    · rw [(store_frame _ none (.sibling next) new).2.2]
      simp
  split_ifs at hrest
  · cases hrest
    rwa [(store_frame h₃ _ (.child p) new).2.2]
  · split at hrest
    · cases hrest
    · obtain ⟨before, -, hdone⟩ := Exec.bind_eq_ok.mp hrest
      cases hdone
      rwa [(store_frame h₃ _ (.sibling before) new).2.2]

/-- What one round of `__insert_resource` can do: go down to a larger resource, link `new` in, or fail. -/
theorem insertStep_cases {out : (ResHeap × ℕ) ⊕ (Option ℕ × ResHeap)}
    (hstep : insertStep fuel new (h, p) = .ok out) :
    (∃ first, out = .inl (h, first) ∧ ¬Within h first new) ∨
    (∃ r h', out = .inr (r, h') ∧ ((h' new).parent = some p ∨ (h' new).parent = some new)) ∨
    ∃ c, out = .inr (some c, h) := by
  obtain ⟨⟨conflict, h₁⟩, hreq, hrest⟩ := Exec.bind_eq_ok.mp hstep
  obtain ⟨hnone, hsome⟩ := requestResource_parent hreq
  cases conflict with
  | none =>
    cases hrest
    exact Or.inr (Or.inl ⟨none, h₁, rfl, Or.inl (hnone rfl)⟩)
  | some first =>
    obtain rfl := hsome (by simp)
    dsimp only at hrest
    split_ifs at hrest with hself hnew hcut
    · cases hrest
      exact Or.inr (Or.inr ⟨first, rfl⟩)
    · cases hrest
      exact Or.inr (Or.inr ⟨first, rfl⟩)
    · obtain ⟨last, -, hlast⟩ := Exec.bind_eq_ok.mp hrest
      cases last with
      | inl next =>
        cases hlast
        exact Or.inr (Or.inr ⟨next, rfl⟩)
      | inr next =>
        obtain ⟨⟨r, h₂⟩, hrun, hdone⟩ := Exec.bind_eq_ok.mp hlast
        cases hdone
        exact Or.inr (Or.inl ⟨r, h₂, rfl, captureRun_parent hrun⟩)
    · cases hrest
      refine Or.inl ⟨first, rfl, fun hwithin => ?_⟩
      obtain ⟨hstart, hstop⟩ := hwithin
      omega

/-- **The parent an insertion gives** is where it began, or not within the new resource. -/
theorem insertResource_parent (hins : insertResource fuel h root new = .ok (none, h')) :
    ∃ q, (h' new).parent = some q ∧ (q = root ∨ q = new ∨ ¬Within h q new) := by
  refine Exec.loop_inv (fun s : ResHeap × ℕ => s.1 = h ∧ (s.2 = root ∨ ¬Within h s.2 new))
    (fun out : Option ℕ × ResHeap => out.1 = none → ∃ q, (out.2 new).parent = some q ∧
      (q = root ∨ q = new ∨ ¬Within h q new)) ?_ ?_ (s := (h, root)) ⟨rfl, Or.inl rfl⟩ hins rfl
  · rintro ⟨h₁, q⟩ s' ⟨rfl, -⟩ hstep
    rcases insertStep_cases hstep with ⟨first, hout, hlarger⟩ | ⟨_, _, hout, -⟩ | ⟨_, hout⟩
    · cases hout
      exact ⟨rfl, Or.inr hlarger⟩
    · cases hout
    · cases hout
  · rintro ⟨h₁, q⟩ ⟨r, h₂⟩ ⟨rfl, hq⟩ hstep rfl
    rcases insertStep_cases hstep with ⟨_, hout, -⟩ | ⟨_, _, hout, hpar | hpar⟩ | ⟨_, hout⟩
    · cases hout
    · cases hout
      exact ⟨q, hpar, hq.imp_right Or.inr⟩
    · cases hout
      exact ⟨new, hpar, Or.inr (Or.inl rfl)⟩
    · cases hout

/-! ## The tree of a list -/

/-- The ranges of the resources are as they were. -/
def SameRanges (h h' : ResHeap) : Prop :=
  ∀ i, (h' i).start = (h i).start ∧ (h' i).stop = (h i).stop

namespace SameRanges

variable (hsame : SameRanges h h')

include hsame

theorem within : Within h' a b ↔ Within h a b := by
  simp only [Within, (hsame a).1, (hsame a).2, (hsame b).1, (hsame b).2]

theorem overlaps : Overlaps h' a b ↔ Overlaps h a b := by
  simp only [Overlaps, (hsame a).1, (hsame a).2, (hsame b).1, (hsame b).2]

theorem partialOverlap : PartialOverlap h' a b ↔ PartialOverlap h a b := by
  simp only [PartialOverlap, hsame.overlaps, hsame.within]

theorem liesInside : LiesInside h' a b ↔ LiesInside h a b := by
  simp only [LiesInside, hsame.within, (hsame a).1, (hsame a).2]

end SameRanges

/-- The tree of what has been granted; the ranges are those of `h₀`, and so is what the root hangs
from. -/
structure Keeps (h₀ h : ResHeap) (root : ℕ) (s : Holdings) (kids : Forest ℕ) : Prop where
  tree : ResourceTree h root kids
  nodes : kids.ids.Perm s.held
  anc : ∀ a b, kids.Anc a b ↔ Over h₀ s.held a b
  range : SameRanges h₀ h
  hung : (h root).parent = (h₀ root).parent ∧ (h root).sibling = (h₀ root).sibling
  loose : ∀ i, i ∉ root :: s.held → i ∉ s.spent → (h i).child = none

theorem pair_sublist_cons {l : List ℕ} :
    [a, b].Sublist (new :: l) ↔ (a = new ∧ b ∈ l) ∨ [a, b].Sublist l := by
  rw [List.cons_sublist_cons', List.singleton_sublist, or_comm]

theorem over_of_granted (ha : a ≠ new) (hb : b ≠ new) :
    Over h₀ (new :: s.held) a b ↔ Over h₀ s.held a b := by
  simp only [Over, List.mem_cons, ha, hb, false_or, pair_sublist_cons, false_and]

theorem Over.within {held : List ℕ} (h : Over h₀ held a b) : Within h₀ b a := h.2.2.1

/-- Of two resources in a list without repetition one comes first. -/
theorem Over.irrefl {held : List ℕ} (hnd : held.Nodup) : ¬Over h₀ held a a := fun h => by
  have hpair := hnd.sublist (h.2.2.2 h.2.2.1)
  simp at hpair

section Keeps

variable (hk : Keeps h₀ h root s kids)

include hk

theorem Keeps.mem_iff : a ∈ kids.ids ↔ a ∈ s.held := hk.nodes.mem_iff

theorem Keeps.nodup : kids.ids.Nodup := (List.nodup_cons.mp hk.tree.nodup).2

theorem Keeps.fresh (hroot : new ≠ root) (hnew : new ∉ s.held) : new ∉ root :: kids.ids := by
  rw [List.mem_cons, hk.mem_iff]
  exact not_or.mpr ⟨hroot, hnew⟩

/-- **One more resource.**  It is over what it contains, and only what is larger is over it. -/
theorem Keeps.granted (hnew : new ∉ root :: kids.ids) (hgrown : Grown h h' root new kids kids')
    (hframe : ∀ i, i ≠ new → i ≠ root → i ∉ kids.ids → h' i = h i)
    (hhung : (h' root).parent = (h root).parent ∧ (h' root).sibling = (h root).sibling)
    (hlarger : ∀ a, kids'.Anc a new → ¬Within h₀ a new) : Keeps h₀ h' root (s.grant new) kids' := by
  have hrange : SameRanges h₀ h' := fun i =>
    ⟨(hgrown.range i).1.trans (hk.range i).1, (hgrown.range i).2.trans (hk.range i).2⟩
  have hnodes : kids'.ids.Perm (new :: s.held) := hgrown.nodes.trans (hk.nodes.cons new)
  have hheld : new ∉ s.held := fun hm => hnew (List.mem_cons_of_mem _ (hk.mem_iff.mpr hm))
  have hwithin : ∀ {a b}, kids'.Anc a b → Within h₀ b a := fun hanc =>
    hrange.within.mp (hgrown.tree.ordered.within_of_anc hanc)
  have hrelated : ∀ {a b}, a ∈ new :: s.held → b ∈ new :: s.held → a ≠ b → Within h₀ b a →
      kids'.Anc a b ∨ kids'.Anc b a := fun {a b} ha hb hne hin => by
    have hb' := hnodes.mem_iff.mpr hb
    refine hgrown.tree.ordered.related (hnodes.mem_iff.mpr ha) hb' hne (hrange.overlaps.mpr ?_)
    have hb'' := (hgrown.tree.ordered.bounds b hb').2.1
    rw [(hrange b).1, (hrange b).2] at hb''
    obtain ⟨hstart, hstop⟩ := hin
    exact ⟨by omega, by omega⟩
  refine ⟨hgrown.tree, hnodes, fun a b => ?_, hrange,
    ⟨hhung.1.trans hk.hung.1, hhung.2.trans hk.hung.2⟩, fun i hi hspent => ?_⟩
  · by_cases ha : a = new
    · subst ha
      by_cases hb : b = a
      · subst hb
        have hnd : (b :: s.held).Nodup := hnodes.nodup_iff.mp (List.nodup_cons.mp hgrown.tree.nodup).2
        exact iff_of_false (anc_irrefl (List.nodup_cons.mp hgrown.tree.nodup).2) (Over.irrefl hnd)
      · constructor
        · intro hanc
          have hbmem : b ∈ s.held := by
            have hm := hnodes.mem_iff.mp (mem_ids_of_anc hanc).2
            exact (List.mem_cons.mp hm).resolve_left hb
          exact ⟨List.mem_cons_self, List.mem_cons_of_mem _ hbmem, hwithin hanc,
            fun _ => pair_sublist_cons.mpr (Or.inl ⟨rfl, hbmem⟩)⟩
        · rintro ⟨hamem, hbmem, hin, -⟩
          exact (hrelated hamem hbmem (Ne.symm hb) hin).resolve_right fun hanc => hlarger b hanc hin
    · by_cases hb : b = new
      · subst hb
        constructor
        · intro hanc
          exact ⟨hnodes.mem_iff.mp (mem_ids_of_anc hanc).1, List.mem_cons_self, hwithin hanc,
            fun hin => absurd hin (hlarger a hanc)⟩
        · rintro ⟨hamem, hbmem, hin, hnewer⟩
          refine (hrelated hamem hbmem ha hin).resolve_right fun hanc => ?_
          rcases pair_sublist_cons.mp (hnewer (hwithin hanc)) with ⟨hab, -⟩ | hsub
          · exact ha hab
          · exact hheld (hsub.subset (by simp))
      · rw [show (s.grant new).held = new :: s.held from rfl, over_of_granted ha hb, ← hk.anc a b]
        have hanc := hgrown.anc a b ha hb
        have hroot : ∀ c, c = root → ¬(kids'.Anc c b ∨ kids.Anc c b) := by
          rintro c rfl (hc | hc)
          · exact (List.nodup_cons.mp hgrown.tree.nodup).1 (mem_ids_of_anc hc).1
          · exact (List.nodup_cons.mp hk.tree.nodup).1 (mem_ids_of_anc hc).1
        by_cases har : a = root
        · exact iff_of_false (fun hc => hroot a har (Or.inl hc)) fun hc => hroot a har (Or.inr hc)
        · simpa [TreeAnc, har] using hanc
  · simp only [Holdings.grant, List.mem_cons, not_or] at hi hspent
    rw [hframe i hi.2.1 hi.1 fun hm => hi.2.2 (hk.mem_iff.mp hm)]
    exact hk.loose i (by simp [hi]) hspent

/-- A resource that is over nothing leads to nothing. -/
theorem Keeps.child_of_leaf (ha : a ∈ kids.ids) (hleaf : ∀ b, ¬Over h₀ s.held a b) :
    (h a).child = none :=
  hk.tree.linked.child_of_leaf ha fun b hanc => hleaf b ((hk.anc a b).mp hanc)

/-- **A resource comes back**, with what it is over. -/
theorem Keeps.released (hun : Unlinked h h' root old (kids.excise true old)) :
    Keeps h₀ h' root (s.release h₀ old) (kids.excise true old) := by
  have hheld : s.held.Nodup := hk.nodes.nodup_iff.mp hk.nodup
  have hkids : (kids.excise true old).ids.Nodup := hk.nodup.sublist (excise_ids_sublist kids)
  have hmem : ∀ i, i ∈ (kids.excise true old).ids ↔ i ∈ s.held ∧ ¬Gone h₀ s.held old i := fun i => by
    rw [mem_excise_true_iff hk.nodup, hk.mem_iff, hk.anc, Gone, not_or]
  have hstay : ∀ i, i ∈ (s.release h₀ old).held ↔ i ∈ s.held ∧ ¬Gone h₀ s.held old i := fun i => by
    simp [Holdings.release, List.mem_filter]
  have hsub : (s.release h₀ old).held.Sublist s.held := List.filter_sublist
  refine ⟨hun.tree hk.tree, ?_, fun a b => ?_, fun i => ?_,
    ⟨hun.parent_eq.trans hk.hung.1, hun.sibling_eq.trans hk.hung.2⟩, fun i hi hspent => ?_⟩
  · refine (List.perm_ext_iff_of_nodup hkids (hheld.sublist hsub)).mpr fun i => ?_
    rw [hmem, hstay]
  · have hanc : ∀ {c}, ¬Gone h₀ s.held old c → c ≠ old ∧ ¬kids.Anc old c := fun {c} hc =>
      ⟨fun hco => hc (Or.inl hco), fun hco => hc (Or.inr ((hk.anc old c).mp hco))⟩
    constructor
    · intro hab
      obtain ⟨ha, hb⟩ := mem_ids_of_anc hab
      have ha' := (hmem a).mp ha
      have hb' := (hmem b).mp hb
      obtain ⟨hbo, hbanc⟩ := hanc hb'.2
      obtain ⟨-, -, hin, hnewer⟩ :=
        (hk.anc a b).mp ((anc_excise_true (hanc ha'.2).1 hbo hk.nodup hbanc).mp hab)
      refine ⟨(hstay a).mpr ha', (hstay b).mpr hb', hin, fun hback => ?_⟩
      have hpair := (hnewer hback).filter fun i => ¬Gone h₀ s.held old i
      simpa [ha'.2, hb'.2, Holdings.release] using hpair
    · rintro ⟨ha, hb, hin, hnewer⟩
      have ha' := (hstay a).mp ha
      have hb' := (hstay b).mp hb
      obtain ⟨hbo, hbanc⟩ := hanc hb'.2
      refine (anc_excise_true (hanc ha'.2).1 hbo hk.nodup hbanc).mpr ((hk.anc a b).mpr ?_)
      exact ⟨ha'.1, hb'.1, hin, fun hback => (hnewer hback).trans hsub⟩
  · exact ⟨(hun.range i).1.trans (hk.range i).1, (hun.range i).2.trans (hk.range i).2⟩
  · rw [List.mem_cons, not_or, hstay] at hi
    obtain ⟨hroot, hgone⟩ := hi
    have hchild : (h' i).child = (h i).child := by
      by_cases hio : i = old
      · rw [hio, hun.old_eq]
      · rw [hun.frame i hroot hio fun hm => hgone ((hmem i).mp hm)]
    rw [hchild]
    have hspent' : i ∉ s.spent ∧ (i ∈ s.held → Gone h₀ s.held old i → ∀ b, ¬Over h₀ s.held i b) := by
      simp only [Holdings.release, List.mem_append, List.mem_filter, decide_eq_true_eq, not_or,
        not_and, not_exists] at hspent
      exact ⟨hspent.1, fun hm hg b hover => hspent.2 hm hg b hover.2.1 hover⟩
    by_cases hm : i ∈ s.held
    · have hg : Gone h₀ s.held old i := by
        by_contra hg
        exact hgone ⟨hm, hg⟩
      exact hk.child_of_leaf (hk.mem_iff.mpr hm) (hspent'.2 hm hg)
    · exact hk.loose i (by simp [hroot, hm]) hspent'.1

section Grant

variable (hfresh : new ∉ root :: kids.ids) (hleaf : (h new).child = none) (hfuel : kids.ids.length < fuel)

include hfresh hleaf hfuel

theorem Keeps.request : ∃ h' kids',
    (ResourceOp.request new).exec fuel root h = .ok (((ResourceOp.request new).next h₀ root s).1, h') ∧
      Keeps h₀ h' root ((ResourceOp.request new).next h₀ root s).2 kids' := by
  obtain ⟨r, h', hreq, hiff, hgrown, hfail⟩ := requestResource_exact hk.tree hfresh hleaf hfuel
  have hiff' : r = none ↔ LiesInside h₀ new root ∧ ∀ c ∈ s.held, ¬Overlaps h₀ c new := by
    rw [hiff, hk.range.liesInside]
    refine and_congr_right fun _ => ⟨fun hno c hc hover => ?_, fun hno c hc hover => ?_⟩
    · obtain ⟨t, ht, hover⟩ :=
        hk.tree.ordered.overlaps_tops (hk.mem_iff.mpr hc) (hk.range.overlaps.mpr hover)
      exact hno t ht hover
    · exact hno c (hk.mem_iff.mp (tops_subset_ids kids c hc)) (hk.range.overlaps.mp hover)
  cases r with
  | none =>
    have hcond := hiff'.mp rfl
    obtain ⟨kids', hgrown⟩ := hgrown rfl
    obtain ⟨hrange, f, g, rfl, -, -, rfl⟩ := requestResource_linkIn hk.tree hfuel hreq
    rw [(hk.range new).1, (hk.range new).2] at hrange
    simp only [ResourceOp.exec, hreq, Exec.ok_bind, Exec.pure_eq_ok, busyOf, ResourceOp.next,
      if_pos hcond, if_true]
    have hroot : root ∉ (f ++ g).ids := (List.nodup_cons.mp hk.tree.nodup).1
    rw [ids_append, List.mem_append, not_or] at hroot
    refine ⟨_, kids', rfl, hk.granted hfresh hgrown (fun i hin hir hi => ?_)
      (linkIn_parent (fun heq => hfresh (heq ▸ List.mem_cons_self)) hroot.1) fun c hanc hin => ?_⟩
    · rw [ids_append, List.mem_append, not_or] at hi
      exact linkIn_of_ne hin hir hi.1
    · -- a resource above `new` would contain it, and nothing granted meets it
      have hc := (mem_ids_of_anc hanc).1
      have hcn : c ≠ new := by
        rintro rfl
        exact anc_irrefl (List.nodup_cons.mp hgrown.tree.nodup).2 hanc
      have hheld : c ∈ s.held :=
        hk.mem_iff.mp ((List.mem_cons.mp (hgrown.nodes.mem_iff.mp hc)).resolve_left hcn)
      have hcrange := (hk.tree.ordered.bounds c (hk.mem_iff.mpr hheld)).2.1
      rw [(hk.range c).1, (hk.range c).2] at hcrange
      obtain ⟨hstart, hstop⟩ := hin
      exact hcond.2 c hheld ⟨by omega, by omega⟩
  | some c =>
    have hcond : ¬(LiesInside h₀ new root ∧ ∀ c ∈ s.held, ¬Overlaps h₀ c new) := fun hcond =>
      nomatch hiff'.mpr hcond
    obtain ⟨rfl, -⟩ := hfail c rfl
    simp only [ResourceOp.exec, hreq, Exec.ok_bind, Exec.pure_eq_ok, busyOf, ResourceOp.next,
      if_neg hcond, reduceCtorEq, if_false]
    exact ⟨_, kids, rfl, hk⟩

theorem Keeps.insert : ∃ h' kids',
    (ResourceOp.insert new).exec fuel root h = .ok (((ResourceOp.insert new).next h₀ root s).1, h') ∧
      Keeps h₀ h' root ((ResourceOp.insert new).next h₀ root s).2 kids' := by
  have hrefused : ∀ {c}, insertResource fuel h root new = .ok (some c, h) →
      ¬(LiesInside h₀ new root ∧ ∀ c ∈ s.held, ¬PartialOverlap h₀ c new) → ∃ h' kids',
      (ResourceOp.insert new).exec fuel root h = .ok (((ResourceOp.insert new).next h₀ root s).1, h') ∧
        Keeps h₀ h' root ((ResourceOp.insert new).next h₀ root s).2 kids' := fun {c} hins hcond => by
    simp only [ResourceOp.exec, hins, Exec.ok_bind, Exec.pure_eq_ok, busyOf, ResourceOp.next,
      if_neg hcond, reduceCtorEq, if_false]
    exact ⟨_, kids, rfl, hk⟩
  by_cases hin : LiesInside h new root
  · rcases insertLoop_spec (hk.tree.searching hfresh hleaf hin) hfuel hfuel with
      ⟨h', kids', hins, hplace, hno⟩ | ⟨c, hc, hins, hpart⟩
    · have hcond : LiesInside h₀ new root ∧ ∀ c ∈ s.held, ¬PartialOverlap h₀ c new :=
        ⟨hk.range.liesInside.mp hin, fun c hc hpart =>
          hno c (hk.mem_iff.mpr hc) (hk.range.partialOverlap.mpr hpart)⟩
      have hgrown := hplace.grown hk.tree hfresh
      obtain ⟨q, hq, hlarger⟩ := insertResource_parent hins
      have hins' : insertResource fuel h root new = .ok (none, h') := hins
      simp only [ResourceOp.exec, hins', Exec.ok_bind, Exec.pure_eq_ok, busyOf, ResourceOp.next,
        if_pos hcond, if_true]
      refine ⟨_, kids', rfl, hk.granted hfresh hgrown hplace.frame
        ⟨hplace.parent_eq, hplace.sibling_eq⟩ fun c hanc hback => ?_⟩
      -- what is above `new` contains its parent, which is larger
      obtain ⟨q', hq', hup, hqnew⟩ := hplace.linked.parent_of_anc hanc
      obtain rfl : q = q' := Option.some.inj (hq.symm.trans hq')
      have hroot : root ∉ kids'.ids := (List.nodup_cons.mp hgrown.tree.nodup).1
      rcases hlarger with rfl | rfl | hlarger
      · exact hroot (mem_ids_of_anc hqnew).1
      · exact anc_irrefl (List.nodup_cons.mp hgrown.tree.nodup).2 hqnew
      · rcases hup with rfl | hup
        · exact hlarger (hk.range.within.mpr hback)
        · have hqc := hplace.ordered.within_of_anc hup
          have hback' := hk.range.within.mpr hback
          exact hlarger ⟨hback'.1.trans hqc.1, hqc.2.trans hback'.2⟩
    · exact hrefused hins fun hcond =>
        hcond.2 c (hk.mem_iff.mp hc) (hk.range.partialOverlap.mp hpart)
  · exact hrefused (insertResource_outside (by omega) hin) fun hcond =>
      hin (hk.range.liesInside.mpr hcond.1)

end Grant

/-- **One call.** -/
theorem Keeps.exec {op : ResourceOp} (hop : op.Proper root s) (hfuel : s.held.length < fuel) :
    ∃ h' kids', op.exec fuel root h = .ok ((op.next h₀ root s).1, h') ∧
      Keeps h₀ h' root (op.next h₀ root s).2 kids' := by
  have hlen : kids.ids.length < fuel := by rwa [hk.nodes.length_eq]
  cases op with
  | request new =>
    obtain ⟨hroot, hnew, hspent⟩ := hop
    exact hk.request (hk.fresh hroot hnew) (hk.loose new (by simp [hroot, hnew]) hspent) hlen
  | insert new =>
    obtain ⟨hroot, hnew, hspent⟩ := hop
    exact hk.insert (hk.fresh hroot hnew) (hk.loose new (by simp [hroot, hnew]) hspent) hlen
  | release old =>
    obtain ⟨h', hrun, hun⟩ := @rawReleaseResource_unlinked h old fuel true kids root hk.tree.child_eq
      hk.tree.linked hk.tree.nodup (hk.mem_iff.mpr hop) hlen.le
    exact ⟨h', _, hrun, hk.released hun⟩

end Keeps

theorem ResourceOp.length_next (h : ResHeap) (root : ℕ) (s : Holdings) (op : ResourceOp) :
    (op.next h root s).2.held.length ≤ s.held.length + 1 := by
  cases op with
  | request new => rw [ResourceOp.next]; split_ifs <;> simp [Holdings.grant]
  | insert new => rw [ResourceOp.next]; split_ifs <;> simp [Holdings.grant]
  | release old => exact (List.length_filter_le _ _).trans (Nat.le_succ _)

/-- **A run of calls.** -/
theorem Keeps.run : ∀ {ops : List ResourceOp} {h : ResHeap} {s : Holdings} {kids : Forest ℕ},
    Keeps h₀ h root s kids → ProperRun h₀ root ops s → s.held.length + ops.length ≤ fuel →
    ∃ h' kids', resourceRun fuel root ops h = .ok ((holdingsRun h₀ root ops s).1, h') ∧
      Keeps h₀ h' root (holdingsRun h₀ root ops s).2 kids'
  | [], h, s, kids, hk, _, _ => ⟨h, kids, rfl, hk⟩
  | op :: ops, h, s, kids, hk, ⟨hop, hops⟩, hfuel => by
      rw [List.length_cons] at hfuel
      have hlen := op.length_next h₀ root s
      obtain ⟨h₁, kids₁, hexec, hk₁⟩ := @Keeps.exec h h₀ root fuel kids s hk op hop (by omega)
      obtain ⟨h₂, kids₂, hrun, hk₂⟩ := hk₁.run hops (by omega)
      refine ⟨h₂, kids₂, ?_, hk₂⟩
      simp only [resourceRun, hexec, hrun, Exec.ok_bind, Exec.pure_eq_ok, holdingsRun]

/-- A root without children, and no resource with any. -/
structure Untouched (h : ResHeap) (root : ℕ) : Prop where
  range : (h root).start ≤ (h root).stop
  child : ∀ i, (h i).child = none

theorem Untouched.keeps (hu : Untouched h root) : Keeps h h root .empty nil where
  tree := ⟨hu.child root, trivial, hu.range, trivial, by simp [ids]⟩
  nodes := List.Perm.nil
  anc a b := by simp [Anc, Over, Holdings.empty]
  range _ := ⟨rfl, rfl⟩
  hung := ⟨rfl, rfl⟩
  loose i _ _ := hu.child i

/-- The innermost of the resources over `b`, or the root where there is none. -/
def Innermost (h : ResHeap) (root : ℕ) (held : List ℕ) (b q : ℕ) : Prop :=
  (q = root ∧ ∀ a, ¬Over h held a b) ∨ (Over h held q b ∧ ∀ a, Over h held a b → a = q ∨ Over h held a q)

/-- The parents are the innermost. -/
theorem Keeps.parent (hk : Keeps h₀ h root s kids) (hb : b ∈ s.held) :
    ∃ q, (h b).parent = some q ∧ Innermost h₀ root s.held b q := by
  by_cases hover : ∃ a, Over h₀ s.held a b
  · obtain ⟨a, ha⟩ := hover
    obtain ⟨q, hq, -, hqb⟩ := hk.tree.linked.parent_of_anc ((hk.anc a b).mpr ha)
    refine ⟨q, hq, Or.inr ⟨(hk.anc q b).mp hqb, fun c hc => ?_⟩⟩
    obtain ⟨q', hq', hup, -⟩ := hk.tree.linked.parent_of_anc ((hk.anc c b).mpr hc)
    obtain rfl : q = q' := Option.some.inj (hq.symm.trans hq')
    exact hup.imp Eq.symm (hk.anc c q).mp
  · rw [not_exists] at hover
    obtain ⟨q, hq, ⟨rfl, -⟩ | hanc⟩ := hk.tree.linked.parent_eq (hk.mem_iff.mpr hb)
    · exact ⟨q, hq, Or.inl ⟨rfl, hover⟩⟩
    · exact absurd ((hk.anc q b).mp hanc) (hover q)

theorem Untouched.run {ops : List ResourceOp} (hu : Untouched h root)
    (hops : ProperRun h root ops .empty) (hfuel : ops.length ≤ fuel) :
    ∃ h' kids, resourceRun fuel root ops h = .ok ((holdingsRun h root ops .empty).1, h') ∧
      Keeps h h' root (holdingsRun h root ops .empty).2 kids := by
  have hlen : Holdings.empty.held.length + ops.length ≤ fuel := by simpa [Holdings.empty] using hfuel
  exact hu.keeps.run hops hlen

/-- **A run of calls is a run on the list.**  Every call returns, with the result the list gives; the
tree is well-formed over what the list holds, one resource is above another exactly where it is over it,
and the parent of each is the innermost over it. -/
theorem resourceRun_refines {ops : List ResourceOp} (hu : Untouched h root)
    (hops : ProperRun h root ops .empty) (hfuel : ops.length ≤ fuel) :
    ∃ h' kids, resourceRun fuel root ops h = .ok ((holdingsRun h root ops .empty).1, h') ∧
      Keeps h h' root (holdingsRun h root ops .empty).2 kids ∧
      ∀ b ∈ (holdingsRun h root ops .empty).2.held, ∃ q, (h' b).parent = some q ∧
        Innermost h root (holdingsRun h root ops .empty).2.held b q := by
  obtain ⟨h', kids, hrun, hk⟩ := hu.run hops hfuel
  exact ⟨h', kids, hrun, hk, fun b hb => hk.parent hb⟩

/-- A root over `[0, 99]`, and loose resources: two over `[10, 19]`, one around them, and one that cuts
across that. -/
def looseHeap : ResHeap
  | 0 => ⟨0, 99, none, none, none⟩
  | 1 => ⟨10, 19, none, none, none⟩
  | 2 => ⟨5, 30, none, none, none⟩
  | 3 => ⟨10, 19, none, none, none⟩
  | _ => ⟨25, 40, none, none, none⟩

theorem looseHeap_untouched : Untouched looseHeap 0 where
  range := by decide
  child i := by
    unfold looseHeap
    split <;> rfl

/-- The second `[10, 19]` takes the first over; what cuts across is refused until the resource around them
comes back. -/
def looseOps : List ResourceOp := [.insert 1, .insert 2, .insert 3, .request 4, .release 2, .request 4]

theorem resourceRun_refines_loose :
    (holdingsRun looseHeap 0 looseOps .empty).1 = [0, 0, 0, -EBUSY, 0, 0] ∧
    ∃ h' kids, resourceRun 6 0 looseOps looseHeap = .ok ((holdingsRun looseHeap 0 looseOps .empty).1, h') ∧
      Keeps looseHeap h' 0 (holdingsRun looseHeap 0 looseOps .empty).2 kids ∧
      ∀ b ∈ (holdingsRun looseHeap 0 looseOps .empty).2.held, ∃ q, (h' b).parent = some q ∧
        Innermost looseHeap 0 (holdingsRun looseHeap 0 looseOps .empty).2.held b q :=
  ⟨by decide, resourceRun_refines looseHeap_untouched (by decide) le_rfl⟩

/-! ## The pointers of a list -/

theorem Linked.unique : ∀ {f : Forest ℕ} {p : ℕ} {t : Option ℕ}, Linked h p t f → Linked h' p t f →
    ∀ i ∈ f.ids, (h i).parent = (h' i).parent ∧ (h i).child = (h' i).child ∧
      (h i).sibling = (h' i).sibling
  | node i c s, p, t, ⟨⟨hpar, hchild, hsib⟩, hc, hs⟩, ⟨⟨hpar', hchild', hsib'⟩, hc', hs'⟩, j, hj => by
      rw [ids, List.mem_cons, List.mem_append] at hj
      rcases hj with rfl | hj | hj
      · exact ⟨hpar.trans hpar'.symm, hchild.trans hchild'.symm, hsib.trans hsib'.symm⟩
      · exact hc.unique hc' j hj
      · exact hs.unique hs' j hj

/-- The same resources, those of one range in the same order. -/
structure SameHoldings (h : ResHeap) (l l' : List ℕ) : Prop where
  perm : l.Perm l'
  equal : ∀ a b, Within h a b → Within h b a → ([a, b].Sublist l ↔ [a, b].Sublist l')

theorem SameHoldings.over {l l' : List ℕ} (hsame : SameHoldings h l l') :
    Over h l a b ↔ Over h l' a b := by
  rw [Over, Over, hsame.perm.mem_iff, hsame.perm.mem_iff]
  refine and_congr_right fun _ => and_congr_right fun _ => and_congr_right fun hin => ?_
  exact forall_congr' fun hback => hsame.equal a b hback hin

theorem Keeps.inOrder (hk : Keeps h₀ h root s kids) : kids.InOrder fun i => (h₀ i).start := by
  have hord := hk.tree.ordered.inOrder
  rwa [show (fun i => (h i).start) = fun i => (h₀ i).start from funext fun i => (hk.range i).1] at hord

/-- **The tree is a function of what it holds.**  Two runs of proper calls on a root that starts empty
which end with the same resources, those of one range in the same order, end with the same pointers, of
the root too, whatever else was granted, refused and given back. -/
theorem resourceRun_canonical {ops ops' : List ResourceOp} {h₁ h₂ : ResHeap} {rets rets' : List ℤ}
    (hu : Untouched h root) (hops : ProperRun h root ops .empty) (hops' : ProperRun h root ops' .empty)
    (hfuel : ops.length ≤ fuel) (hfuel' : ops'.length ≤ fuel)
    (hrun : resourceRun fuel root ops h = .ok (rets, h₁))
    (hrun' : resourceRun fuel root ops' h = .ok (rets', h₂))
    (hsame : SameHoldings h (holdingsRun h root ops .empty).2.held
      (holdingsRun h root ops' .empty).2.held) :
    ∀ i ∈ root :: (holdingsRun h root ops .empty).2.held, (h₁ i).parent = (h₂ i).parent ∧
      (h₁ i).child = (h₂ i).child ∧ (h₁ i).sibling = (h₂ i).sibling := by
  obtain ⟨_, kids, hrun₁, hk⟩ := hu.run hops hfuel
  obtain ⟨_, kids', hrun₂, hk'⟩ := hu.run hops' hfuel'
  cases hrun.symm.trans hrun₁
  cases hrun'.symm.trans hrun₂
  have hperm : kids.ids.Perm kids'.ids := hk.nodes.trans (hsame.perm.trans hk'.nodes.symm)
  obtain rfl : kids = kids' := eq_of_anc_iff hk.inOrder hk'.inOrder hk.nodup hperm fun a b => by
    rw [hk.anc, hk'.anc, hsame.over]
  intro i hi
  rcases List.mem_cons.mp hi with rfl | hi
  · exact ⟨hk.hung.1.trans hk'.hung.1.symm, hk.tree.child_eq.trans hk'.tree.child_eq.symm,
      hk.hung.2.trans hk'.hung.2.symm⟩
  · exact hk.tree.linked.unique hk'.tree.linked i (hk.mem_iff.mpr hi)

/-- The order in which a resource and one around it come does not matter, nor what was refused and given
back in between. -/
theorem resourceRun_canonical_loose : ∃ h₁ h₂,
    resourceRun 5 0 [.insert 1, .insert 2] looseHeap = .ok ([0, 0], h₁) ∧
    resourceRun 5 0 [.insert 2, .insert 3, .request 4, .release 3, .insert 1] looseHeap =
      .ok ([0, 0, -EBUSY, 0, 0], h₂) ∧
    ∀ i ∈ [0, 2, 1], (h₁ i).parent = (h₂ i).parent ∧
      (h₁ i).child = (h₂ i).child ∧ (h₁ i).sibling = (h₂ i).sibling := by
  have hops : ProperRun looseHeap 0 [.insert 1, .insert 2] .empty := by decide
  have hops' : ProperRun looseHeap 0
      [.insert 2, .insert 3, .request 4, .release 3, .insert 1] .empty := by decide
  obtain ⟨h₁, -, hrun₁, -⟩ := looseHeap_untouched.run hops (by decide : _ ≤ 5)
  obtain ⟨h₂, -, hrun₂, -⟩ := looseHeap_untouched.run hops' (le_refl 5)
  have hsame : SameHoldings looseHeap [2, 1] [1, 2] := by
    refine ⟨List.Perm.swap 1 2 [], fun a b hab hba => iff_of_false (fun hsub => ?_) fun hsub => ?_⟩
    · obtain ⟨rfl, rfl⟩ : a = 2 ∧ b = 1 := by simpa using hsub.eq_of_length rfl
      exact absurd hab (by decide)
    · obtain ⟨rfl, rfl⟩ : a = 1 ∧ b = 2 := by simpa using hsub.eq_of_length rfl
      exact absurd hba (by decide)
  exact ⟨h₁, h₂, hrun₁, hrun₂, resourceRun_canonical looseHeap_untouched hops hops' (by decide) le_rfl
    hrun₁ hrun₂ hsame⟩

end Sandix
