import Sandix.Kernel.ResourceTree

/-!
# Kernel/ResourceInsert — insertion into the resource tree is exact

Both functions look among the children of a resource for the first that overlaps the new one
(`requestLoop_spec`).  When there is none, the new resource goes between two siblings
(`linkIn_linked`); when the run of children that overlap it lies within it, it takes the run over
(`takeOver_linked`); when a child contains it, the search goes on below that child.

* `resource_insertion_exact` — when `__insert_resource` and `__request_resource` succeed, and what
  they leave.
-/

namespace Sandix

open Machinery Forest

variable {h : ResHeap} {root new fuel lo hi : ℕ} {kids : Forest ℕ}

/-! ## Looking for the first overlap -/

/-- The heap with `new` linked between the runs `a` and `b` of children of `root`. -/
def linkIn (h : ResHeap) (root new : ℕ) (a b : Forest ℕ) : ResHeap :=
  setParent ((linkAfter (.child root) a).store (Link.store h (b.headOr none) (.sibling new))
    (some new)) new (some root)

theorem requestLoop_spec (new : ℕ) (hchild : (h root).child = kids.headOr none)
    (hlink : Linked h root none kids) (hord : Ordered h lo hi kids)
    (hfuel : kids.tops.length < fuel) :
    ∃ r, Exec.loop (requestStep h root new) fuel (.child root) = .ok r ∧
      ∃ a b, kids = a ++ b ∧ Ordered h lo (h new).start a ∧
        ((Ordered h ((h new).stop + 1) hi b ∧ r = (none, linkIn h root new a b)) ∨
        ∃ i c s, b = node i c s ∧ Overlaps h i new ∧ r = (some i, h)) := by
  refine Exec.loop_spec (requestStep h root new)
    (fun k l => ∃ a b, kids = a ++ b ∧ l = linkAfter (.child root) a ∧
      Ordered h lo (h new).start a ∧ b.tops.length = k) _ ?_
    ⟨nil, kids, rfl, rfl, trivial, rfl⟩ hfuel
  rintro k l ⟨a, b, rfl, rfl, ha, rfl⟩
  have hsplit := linked_append.mp hlink
  have hload : (linkAfter (.child root) a).load h = b.headOr none :=
    load_linkAfter (hchild.trans (headOr_append _ a b)) hsplit.1
  unfold requestStep
  simp only [hload]
  cases b with
  | nil => exact Or.inr ⟨_, rfl, a, nil, rfl, ha, Or.inl ⟨trivial, rfl⟩⟩
  | node i c s =>
    simp only [headOr]
    have hb := hord.right
    split_ifs with hpast hbefore
    · refine Or.inr ⟨_, rfl, a, node i c s, rfl, ha, Or.inl ⟨?_, rfl⟩⟩
      exact ⟨⟨hpast, hb.1.2⟩, hb.2⟩
    · refine Or.inl ⟨s.tops.length, .sibling i, rfl, by simp [tops], a ++ node i c nil, s, ?_, ?_, ?_,
        rfl⟩
      · rw [append_assoc]
        rfl
      · rw [linkAfter_append]
        rfl
      · exact hord.cut hbefore
    · exact Or.inr ⟨_, rfl, a, node i c s, rfl, ha, Or.inr ⟨i, c, s, rfl, ⟨by omega, by omega⟩, rfl⟩⟩

/-! ## Between two siblings -/

/-- Fresh nodes and the parts of a split, as one list of distinctions. -/
theorem nodup_split {a b : Forest ℕ} (hnd : (root :: (a ++ b).ids).Nodup)
    (hnew : new ∉ root :: (a ++ b).ids) :
    (root ∉ a.ids ∧ root ∉ b.ids ∧ a.ids.Nodup ∧ b.ids.Nodup ∧ ∀ i ∈ a.ids, i ∉ b.ids) ∧
    (new ≠ root ∧ new ∉ a.ids ∧ new ∉ b.ids) := by
  simp only [ids_append, List.nodup_cons, List.mem_append, List.nodup_append, not_or,
    List.mem_cons] at hnd hnew
  obtain ⟨⟨hra, hrb⟩, hnda, hndb, hdisj⟩ := hnd
  exact ⟨⟨hra, hrb, hnda, hndb, fun i hi hb => hdisj i hi i hb rfl⟩, hnew⟩

/-- A store at the end of the run `a` of children of `root` is not seen elsewhere. -/
theorem store_linkAfter_of_ne {a : Forest ℕ} {v : Option ℕ} {j : ℕ} (hroot : j ≠ root)
    (ha : j ∉ a.ids) : (linkAfter (.child root) a).store h v j = h j := by
  refine store_of_ne v _ fun hj => ?_
  rcases linkAfter_owner a (.child root) with ho | ho
  · exact hroot (hj.trans ho)
  · exact ha (hj ▸ tops_subset_ids a _ ho)

theorem linkIn_range (h : ResHeap) (root new : ℕ) (a b : Forest ℕ) (j : ℕ) :
    (linkIn h root new a b j).start = (h j).start ∧
    (linkIn h root new a b j).stop = (h j).stop := by
  unfold linkIn
  have h₁ := store_frame h (b.headOr none) (.sibling new) j
  have h₂ := store_frame (Link.store h (b.headOr none) (.sibling new)) (some new)
    (linkAfter (.child root) a) j
  have h₃ := setParent_frame ((linkAfter (.child root) a).store
    (Link.store h (b.headOr none) (.sibling new)) (some new)) new (some root) j
  exact ⟨h₃.1.trans (h₂.1.trans h₁.1), h₃.2.1.trans (h₂.2.1.trans h₁.2.1)⟩

/-- Nothing outside the tree is touched. -/
theorem linkIn_of_ne {a b : Forest ℕ} {j : ℕ} (hnew : j ≠ new) (hroot : j ≠ root)
    (ha : j ∉ a.ids) : linkIn h root new a b j = h j := by
  unfold linkIn setParent
  rw [Function.update_of_ne hnew, store_linkAfter_of_ne hroot ha]
  exact store_of_ne _ (.sibling new) hnew

/-- The run before `new` leads to it, and `new` on to the run after it. -/
theorem linkIn_run {a b : Forest ℕ} (hchild : (h root).child = (a ++ b).headOr none)
    (hlink : Linked h root none (a ++ b)) (hnd : (root :: (a ++ b).ids).Nodup)
    (hnew : new ∉ root :: (a ++ b).ids) :
    Linked (linkIn h root new a b) root (some new) a ∧
    Link.load (linkIn h root new a b) (.child root) = a.headOr (some new) ∧
    linkIn h root new a b new = { h new with parent := some root, sibling := b.headOr none } := by
  obtain ⟨⟨hra, hrb, hnda, hndb, hdisj⟩, hnr, hna, hnb⟩ := nodup_split hnd hnew
  have hla := (linked_append.mp hlink).1
  -- the heap after the store to `new`, and after the store through the link
  set h₁ := Link.store h (b.headOr none) (.sibling new) with hh₁
  set h₂ := (linkAfter (.child root) a).store h₁ (some new) with hh₂
  have h₁_of_ne : ∀ j, j ≠ new → h₁ j = h j := fun j hj => store_of_ne _ (.sibling new) hj
  have hla₁ : Linked h₁ root (b.headOr none) a :=
    hla.congr fun j hj => h₁_of_ne j fun hjn => hna (hjn ▸ hj)
  have hload₁ : Link.load h₁ (.child root) = a.headOr (b.headOr none) := by
    rw [← headOr_append, ← hchild]
    exact congrArg Resource.child (h₁_of_ne root hnr.symm)
  obtain ⟨hla₂, hload₂⟩ := linked_store (v := some new) hla₁ hload₁
    (List.nodup_cons.mpr ⟨hra, hnda⟩)
  have h₃_of_ne : ∀ j, j ≠ new → linkIn h root new a b j = h₂ j :=
    fun j hj => Function.update_of_ne hj _ _
  have h₂_new : h₂ new = h₁ new := store_linkAfter_of_ne hnr hna
  refine ⟨hla₂.congr fun j hj => h₃_of_ne j fun hjn => hna (hjn ▸ hj), ?_, ?_⟩
  · rw [← hload₂]
    exact congrArg Resource.child (h₃_of_ne root hnr.symm)
  · unfold linkIn setParent
    rw [Function.update_self, ← hh₁, ← hh₂, h₂_new, hh₁]
    simp [Link.store]

/-- **A new leaf between two runs of siblings.** -/
theorem linkIn_linked {a b : Forest ℕ} (hchild : (h root).child = (a ++ b).headOr none)
    (hlink : Linked h root none (a ++ b)) (hnd : (root :: (a ++ b).ids).Nodup)
    (hnew : new ∉ root :: (a ++ b).ids) (hleaf : (h new).child = none) :
    Linked (linkIn h root new a b) root none (a ++ node new nil b) ∧
    (linkIn h root new a b root).child = (a ++ node new nil b).headOr none := by
  obtain ⟨⟨-, hrb, -, -, hdisj⟩, -, -, hnb⟩ := nodup_split hnd hnew
  obtain ⟨hrun, hload, hself⟩ := linkIn_run hchild hlink hnd hnew
  refine ⟨linked_append.mpr ⟨hrun, ⟨?_, ?_, ?_⟩, trivial, ?_⟩, ?_⟩
  · rw [hself]
  · rw [hself]
    exact hleaf
  · rw [hself]
  · refine (linked_append.mp hlink).2.congr fun j hj => linkIn_of_ne ?_ ?_ ?_
    · exact fun hjn => hnb (hjn ▸ hj)
    · exact fun hjr => hrb (hjr ▸ hj)
    · exact fun hja => hdisj j hja hj
  · rw [headOr_append]
    exact hload

/-! ## Taking a run over -/

/-- The resource does not contain `new`, or has the same range. -/
def NotOver (h : ResHeap) (i new : ℕ) : Prop :=
  ((h i).start > (h new).start ∨ (h i).stop < (h new).stop) ∨
    ((h i).start = (h new).start ∧ (h i).stop = (h new).stop)

/-- From an overlapping child that does not contain `new`: a child that overlaps it partially, or the
last of the run of children that lie within it. -/
theorem captureLoop_spec {first : ℕ} {c s : Forest ℕ} (hlink : Linked h root none (node first c s))
    (hord : Ordered h lo hi (node first c s)) (hover : Overlaps h first new)
    (hnot : NotOver h first new) (hfuel : (node first c s).tops.length < fuel) :
    ∃ r, Exec.loop (captureStep h new) fuel first = .ok r ∧
      ((∃ next ∈ (node first c s).ids, r = .inl next ∧ PartialOverlap h next new) ∨
      ∃ m g next, node first c s = m ++ g ∧ m ≠ nil ∧ r = .inr next ∧
        (∀ l, linkAfter l m = .sibling next) ∧
        Ordered h (h new).start ((h new).stop + 1) m ∧ Ordered h ((h new).stop + 1) hi g) := by
  refine Exec.loop_spec (captureStep h new)
    (fun k next => ∃ m d g, node first c s = m ++ node next d g ∧
      Ordered h (h new).start ((h new).stop + 1) m ∧ Overlaps h next new ∧ NotOver h next new ∧
      (node next d g).tops.length = k) _ ?_ ⟨nil, c, s, rfl, trivial, hover, hnot, rfl⟩ hfuel
  rintro k next ⟨m, d, g, heq, hm, hover, hnot, rfl⟩
  rw [heq] at hlink hord ⊢
  unfold captureStep
  split_ifs with hout
  · refine Or.inr ⟨_, rfl, Or.inl ⟨next, by simp [ids], rfl, hover, ?_, ?_⟩⟩
    · rintro ⟨h₁, h₂⟩
      omega
    · rintro ⟨h₁, h₂⟩
      unfold NotOver at hnot
      omega
  · have hin : (h new).start ≤ (h next).start ∧ (h next).stop ≤ (h new).stop := by omega
    have hnode := hord.right
    have hm' := hm.extend (Nat.lt_succ_of_le hin.2) hord hin.1
    have hsib := (linked_append.mp hlink).2.1.2.2
    have hlast : ∀ l, linkAfter l (m ++ node next d nil) = .sibling next := by
      intro l
      rw [linkAfter_append]
      rfl
    have hne : m ++ node next d nil ≠ nil := by cases m <;> simp
    have hcut : m ++ node next d g = m ++ node next d nil ++ g := by
      rw [append_assoc]
      rfl
    rw [hsib]
    cases g with
    | nil =>
      exact Or.inr ⟨_, rfl, Or.inr ⟨_, nil, next, hcut, hne, rfl, hlast, hm', trivial⟩⟩
    | node j e g =>
      have hj := hnode.2.2
      simp only [headOr]
      split_ifs with hpast
      · exact Or.inr ⟨_, rfl, Or.inr ⟨_, node j e g, next, hcut, hne, rfl, hlast, hm',
          ⟨hpast, hj.1.2⟩, hj.2⟩⟩
      · have hstart := hj.1
        have hnext := hnode.1
        refine Or.inl ⟨(node j e g).tops.length, j, rfl, by simp [tops], m ++ node next d nil, e, g, hcut,
          hm', ⟨by omega, by omega⟩, Or.inl (Or.inl (by omega)), rfl⟩

/-- The heap with the fields of `new` set: a child of `root` before `g`, with children `m`. -/
def enter (h : ResHeap) (root new : ℕ) (m g : Forest ℕ) : ResHeap :=
  Function.update h new
    { h new with parent := some root, sibling := g.headOr none, child := m.headOr none }

/-- The heap once the run `m` also ends before `g` and has `new` for its parent. -/
def handOver (h : ResHeap) (root new : ℕ) (m g : Forest ℕ) : ResHeap :=
  reparent new ((linkAfter (.child new) m).store (enter h root new m g) none) m

/-- The heap once `new` has taken the place of `m` among the children of `root`, after `a`. -/
def takeOver (h : ResHeap) (root new : ℕ) (a m g : Forest ℕ) : ResHeap :=
  (linkAfter (.child root) a).store (handOver h root new m g) (some new)

theorem reparentLoop {p : ℕ} : ∀ {m : Forest ℕ} {h : ResHeap} {fuel : ℕ}, Linked h p none m →
    m.ids.Nodup → m.tops.length < fuel →
    Exec.loop (reparentStep new) fuel (h, m.headOr none) = .ok (reparent new h m)
  | nil, h, fuel + 1, _, _, _ => Exec.loop_done rfl
  | node i c s, h, fuel + 1, ⟨⟨_, _, hsib⟩, _, hs⟩, hnd, hfuel => by
      simp only [ids, List.nodup_cons, List.mem_append, List.nodup_append, not_or] at hnd
      obtain ⟨⟨-, his⟩, -, hnds, -⟩ := hnd
      have hstep : reparentStep new (h, (node i c s).headOr none) =
          .ok (.inl (setParent h i (some new), s.headOr none)) := by
        rw [← hsib, ← (setParent_frame h i (some new) i).2.2.1]
        rfl
      rw [Exec.loop_next hstep, reparent]
      refine reparentLoop (hs.congr fun j hj => ?_) hnds (by simp [tops] at hfuel; omega)
      have hji : j ≠ i := fun hji => his (hji ▸ hj)
      exact Function.update_of_ne hji _ _

theorem beforeLoop {p first : ℕ} : ∀ {t d : Forest ℕ} {j fuel : ℕ},
    Linked h p (some first) (node j d t) → first ∉ (node j d t).ids →
    (node j d t).tops.length < fuel →
    ∃ last, Exec.loop (beforeStep h first) fuel j = .ok last ∧
      ∀ l, linkAfter l (node j d t) = .sibling last
  | nil, d, j, fuel + 1, ⟨⟨_, _, hsib⟩, _⟩, _, _ => by
      refine ⟨j, Exec.loop_done ?_, fun l => rfl⟩
      rw [headOr] at hsib
      rw [beforeStep, hsib, if_pos rfl]
  | node k e t, d, j, fuel + 1, ⟨⟨_, _, hsib⟩, _, ht⟩, hfirst, hfuel => by
      simp only [ids, List.mem_cons, List.mem_append, not_or] at hfirst
      obtain ⟨-, -, hk, hke, hkt⟩ := hfirst
      have hstep : beforeStep h first j = .ok (.inl k) := by
        rw [headOr] at hsib
        rw [beforeStep, hsib, if_neg fun hf => hk (Option.some.inj hf).symm]
      have hfirst' : first ∉ (node k e t).ids := by
        simp only [ids, List.mem_cons, List.mem_append, not_or]
        exact ⟨hk, hke, hkt⟩
      have hfuel' : (node k e t).tops.length < fuel := by
        simp only [tops, List.length_cons] at hfuel ⊢
        omega
      obtain ⟨last, hloop, hlast⟩ := beforeLoop ht hfirst' hfuel'
      exact ⟨last, by rw [Exec.loop_next hstep, hloop], fun l => hlast (.sibling j)⟩

/-- What keeps the parts of `root`, `a`, `m`, `g` and `new` apart. -/
structure Apart (root new : ℕ) (a m g : Forest ℕ) : Prop where
  root_a : root ∉ a.ids
  root_m : root ∉ m.ids
  root_g : root ∉ g.ids
  nodup_a : a.ids.Nodup
  nodup_m : m.ids.Nodup
  a_m : ∀ i ∈ a.ids, i ∉ m.ids
  a_g : ∀ i ∈ a.ids, i ∉ g.ids
  m_g : ∀ i ∈ m.ids, i ∉ g.ids
  new_root : new ≠ root
  new_a : new ∉ a.ids
  new_m : new ∉ m.ids
  new_g : new ∉ g.ids

theorem apart {a m g : Forest ℕ} (hnd : (root :: (a ++ (m ++ g)).ids).Nodup)
    (hnew : new ∉ root :: (a ++ (m ++ g)).ids) : Apart root new a m g := by
  simp only [ids_append, List.nodup_cons, List.mem_append, List.nodup_append, not_or,
    List.mem_cons] at hnd hnew
  obtain ⟨⟨hra, hrm, hrg⟩, hnda, ⟨hndm, -, hmg⟩, hdisj⟩ := hnd
  obtain ⟨hnr, hna, hnm, hng⟩ := hnew
  exact ⟨hra, hrm, hrg, hnda, hndm, fun i hi hm => hdisj i hi i (Or.inl hm) rfl,
    fun i hi hg => hdisj i hi i (Or.inr hg) rfl, fun i hi hg => hmg i hi i hg rfl, hnr, hna, hnm, hng⟩

section TakeOver

variable {a m g : Forest ℕ}

theorem handOver_of_ne {j : ℕ} (hnew : j ≠ new) (hm : j ∉ m.ids) :
    handOver h root new m g j = h j := by
  have hm' : j ∉ m.tops := fun hj => hm (tops_subset_ids m j hj)
  rw [handOver, reparent_of_notMem hm', store_linkAfter_of_ne hnew hm]
  exact Function.update_of_ne hnew _ _

theorem enter_range (h : ResHeap) (root new : ℕ) (m g : Forest ℕ) (j : ℕ) :
    (enter h root new m g j).start = (h j).start ∧ (enter h root new m g j).stop = (h j).stop := by
  unfold enter
  by_cases hj : j = new
  · subst hj
    rw [Function.update_self]
    exact ⟨rfl, rfl⟩
  · rw [Function.update_of_ne hj]
    exact ⟨rfl, rfl⟩

theorem takeOver_range (h : ResHeap) (root new : ℕ) (a m g : Forest ℕ) (j : ℕ) :
    (takeOver h root new a m g j).start = (h j).start ∧
    (takeOver h root new a m g j).stop = (h j).stop := by
  have h₁ := enter_range h root new m g j
  have h₂ := store_frame (enter h root new m g) none (linkAfter (.child new) m) j
  have h₃ := reparent_range new j m
    ((linkAfter (.child new) m).store (enter h root new m g) none)
  have h₄ := store_frame (handOver h root new m g) (some new) (linkAfter (.child root) a) j
  exact ⟨h₄.1.trans (h₃.1.trans (h₂.1.trans h₁.1)), h₄.2.1.trans (h₃.2.trans (h₂.2.1.trans h₁.2))⟩

/-- The run ends, with `root` still for its parent, once its last link is cleared. -/
theorem enter_linked (hne : m ≠ nil) (hap : Apart root new a m g)
    (hlink : Linked h root (g.headOr none) m) :
    Linked ((linkAfter (.child new) m).store (enter h root new m g) none) root none m := by
  have hm : Linked (enter h root new m g) root (g.headOr none) m := by
    refine hlink.congr fun j hj => ?_
    have hjn : j ≠ new := fun hjn => hap.new_m (hjn ▸ hj)
    exact Function.update_of_ne hjn _ _
  have hload : Link.load (enter h root new m g) (.child new) = m.headOr (g.headOr none) := by
    cases m with
    | nil => exact absurd rfl hne
    | node i c s => simp [Link.load, enter, headOr]
  exact (linked_store hm hload (List.nodup_cons.mpr ⟨hap.new_m, hap.nodup_m⟩)).1

/-- The record of `new` after the hand-over. -/
theorem handOver_new (hne : m ≠ nil) (hap : Apart root new a m g) :
    handOver h root new m g new =
      { h new with parent := some root, sibling := g.headOr none, child := m.headOr none } := by
  have hm' : new ∉ m.tops := fun hj => hap.new_m (tops_subset_ids m new hj)
  have howner : new ≠ (linkAfter (.child new) m).owner := by
    cases m with
    | nil => exact absurd rfl hne
    | node i c s =>
      obtain ⟨r, hr, heq⟩ := linkAfter_node (.child new) i c s
      rw [heq]
      exact fun hnr => hap.new_m (hnr ▸ tops_subset_ids _ r hr)
  rw [handOver, reparent_of_notMem hm', store_of_ne none _ howner]
  exact Function.update_self _ _ _

/-- **Taking over a run of siblings.** -/
theorem takeOver_linked (hne : m ≠ nil) (hap : Apart root new a m g)
    (hchild : (h root).child = (a ++ (m ++ g)).headOr none)
    (hlink : Linked h root none (a ++ (m ++ g))) :
    Linked (takeOver h root new a m g) root none (a ++ node new m g) ∧
    (takeOver h root new a m g root).child = (a ++ node new m g).headOr none := by
  obtain ⟨hla, hlmg⟩ := linked_append.mp hlink
  obtain ⟨hlm, hlg⟩ := linked_append.mp hlmg
  have hm₃ : Linked (handOver h root new m g) new none m :=
    linked_reparent (enter_linked hne hap hlm) hap.nodup_m
  have ha₃ : Linked (handOver h root new m g) root ((m ++ g).headOr none) a :=
    hla.congr fun j hj =>
      handOver_of_ne (fun hjn => hap.new_a (hjn ▸ hj)) (hap.a_m j hj)
  have hroot₃ : Link.load (handOver h root new m g) (.child root) =
      a.headOr ((m ++ g).headOr none) := by
    rw [← headOr_append, ← hchild]
    exact congrArg Resource.child (handOver_of_ne hap.new_root.symm hap.root_m)
  obtain ⟨ha₄, hroot₄⟩ := linked_store (v := some new) ha₃ hroot₃
    (List.nodup_cons.mpr ⟨hap.root_a, hap.nodup_a⟩)
  have hnew₄ : takeOver h root new a m g new = handOver h root new m g new :=
    store_linkAfter_of_ne hap.new_root hap.new_a
  refine ⟨linked_append.mpr ⟨ha₄, ⟨?_, ?_, ?_⟩, ?_, ?_⟩, ?_⟩
  · rw [hnew₄, handOver_new hne hap]
  · rw [hnew₄, handOver_new hne hap]
  · rw [hnew₄, handOver_new hne hap]
  · refine hm₃.congr fun j hj => store_linkAfter_of_ne ?_ ?_
    · exact fun hjr => hap.root_m (hjr ▸ hj)
    · exact fun hja => hap.a_m j hja hj
  · refine hlg.congr fun j hj => ?_
    have hjr : j ≠ root := fun hjr => hap.root_g (hjr ▸ hj)
    have hja : j ∉ a.ids := fun hja => hap.a_g j hja hj
    have hjn : j ≠ new := fun hjn => hap.new_g (hjn ▸ hj)
    have hjm : j ∉ m.ids := fun hjm => hap.m_g j hjm hj
    exact (store_linkAfter_of_ne hjr hja).trans (handOver_of_ne hjn hjm)
  · rw [headOr_append]
    exact hroot₄

/-- The end of `__insert_resource` takes the run over. -/
theorem captureRun_eq {first next : ℕ} {c s : Forest ℕ} (hm : m = node first c s)
    (hap : Apart root new a m g) (hchild : (h root).child = (a ++ (m ++ g)).headOr none)
    (hlink : Linked h root none (a ++ (m ++ g))) (hnext : ∀ l, linkAfter l m = .sibling next)
    (hfuel : a.tops.length < fuel ∧ m.tops.length < fuel) :
    captureRun fuel h root new first next = .ok (none, takeOver h root new a m g) := by
  have hne : m ≠ nil := by simp [hm]
  obtain ⟨hla, hlmg⟩ := linked_append.mp hlink
  obtain ⟨hlm, -⟩ := linked_append.mp hlmg
  have hfirst : m.headOr none = some first := by rw [hm, headOr]
  have hsib : (h next).sibling = g.headOr none := by
    have hload : (linkAfter (.child root) a).load h = (m ++ g).headOr none :=
      load_linkAfter (hchild.trans (headOr_append _ _ _)) hla
    have hlast := load_linkAfter (hload.trans (headOr_append _ _ _)) hlm
    rw [hnext] at hlast
    exact hlast
  have hloop : Exec.loop (reparentStep new) fuel
      ((linkAfter (.child new) m).store (enter h root new m g) none, m.headOr none) =
      .ok (handOver h root new m g) :=
    reparentLoop (enter_linked hne hap hlm) hap.nodup_m hfuel.2
  have henter : Function.update h new
      { h new with parent := some root, sibling := g.headOr none, child := some first } =
      enter h root new m g := by rw [enter, hfirst]
  rw [hnext, hfirst] at hloop
  have hroot : (handOver h root new m g root).child = a.headOr (some first) := by
    rw [handOver_of_ne hap.new_root.symm hap.root_m, hchild, hm]
    exact headOr_append none a _
  have ha₃ : Linked (handOver h root new m g) root (some first) a := by
    refine Linked.congr (fun j hj => ?_) (h := h) (by rw [hm] at hla; exact hla)
    exact handOver_of_ne (fun hjn => hap.new_a (hjn ▸ hj)) (hap.a_m j hj)
  have hfirst_a : first ∉ a.ids := fun hfa => hap.a_m first hfa (by simp [hm, ids])
  unfold captureRun
  rw [hsib, henter]
  dsimp only
  rw [hloop]
  cases a with
  | nil =>
    simp only [Exec.ok_bind, hroot, headOr, if_true]
    rfl
  | node j d t =>
    have hj : j ≠ first := by
      rintro rfl
      exact hfirst_a (by simp [ids])
    obtain ⟨last, hbefore, hlast⟩ := beforeLoop ha₃ hfirst_a hfuel.1
    simp only [Exec.ok_bind, hroot, headOr, Option.some.injEq, hj, if_false, hbefore]
    rw [takeOver, hlast]
    rfl

end TakeOver

/-! ## The descent -/

/-- What the search below `p` is called with: its children `kids`, and `new` inside `p`. -/
structure Searching (h : ResHeap) (p new : ℕ) (kids : Forest ℕ) : Prop where
  child_eq : (h p).child = kids.headOr none
  linked : Linked h p none kids
  ordered : Ordered h (h p).start ((h p).stop + 1) kids
  nodup : (p :: kids.ids).Nodup
  fresh : new ∉ p :: kids.ids
  leaf : (h new).child = none
  inside : LiesInside h new p

/-- What a successful insertion below `p` leaves: the children `kids'`, over the same ranges, and the
rest of the heap as it was. -/
structure Inserted (h h' : ResHeap) (p new : ℕ) (kids kids' : Forest ℕ) : Prop where
  child_eq : (h' p).child = kids'.headOr none
  linked : Linked h' p none kids'
  ordered : Ordered h (h p).start ((h p).stop + 1) kids'
  perm : kids'.ids.Perm (new :: kids.ids)
  anc : ∀ a b, a ≠ new → b ≠ new → (kids'.Anc a b ↔ kids.Anc a b)
  range : ∀ i, (h' i).start = (h i).start ∧ (h' i).stop = (h i).stop
  frame : ∀ i, i ≠ new → i ≠ p → i ∉ kids.ids → h' i = h i
  parent_eq : (h' p).parent = (h p).parent
  sibling_eq : (h' p).sibling = (h p).sibling

theorem not_partialOverlap_of_lt {i : ℕ} (hi : (h i).stop < (h new).start) :
    ¬ PartialOverlap h i new := by
  rintro ⟨⟨-, hle⟩, -⟩
  omega

theorem not_partialOverlap_of_gt {i : ℕ} (hi : (h new).stop < (h i).start) :
    ¬ PartialOverlap h i new := by
  rintro ⟨⟨hle, -⟩, -⟩
  omega

variable {p : ℕ} {a b : Forest ℕ}

/-- A store at the end of the run `a` leaves the other links of `p`. -/
theorem store_linkAfter_frame (h : ResHeap) (v : Option ℕ) (hp : p ∉ a.ids) :
    ((linkAfter (.child p) a).store h v p).parent = (h p).parent ∧
    ((linkAfter (.child p) a).store h v p).sibling = (h p).sibling := by
  refine ⟨(store_frame h v _ p).2.2, ?_⟩
  cases a with
  | nil => simp [linkAfter, Link.store]
  | node i c s =>
    obtain ⟨r, hr, heq⟩ := linkAfter_node (.child p) i c s
    have hpr : p ≠ r := fun hpr => hp (hpr ▸ tops_subset_ids _ r hr)
    rw [heq, store_of_ne v (.sibling r) hpr]

/-- Linking `new` in below `p` leaves the other two pointers of `p` alone. -/
theorem linkIn_parent (hnp : new ≠ p) (hpa : p ∉ a.ids) :
    (linkIn h p new a b p).parent = (h p).parent ∧ (linkIn h p new a b p).sibling = (h p).sibling := by
  have hp : linkIn h p new a b p =
      (linkAfter (.child p) a).store (Link.store h (b.headOr none) (.sibling new)) (some new) p :=
    Function.update_of_ne hnp.symm _ _
  have hp₁ : Link.store h (b.headOr none) (.sibling new) p = h p :=
    store_of_ne _ (.sibling new) hnp.symm
  have hlinks := store_linkAfter_frame (Link.store h (b.headOr none) (.sibling new)) (some new) hpa
  rw [hp, hlinks.1, hlinks.2, hp₁]
  exact ⟨rfl, rfl⟩

/-- `new` between two runs. -/
theorem Searching.linkIn (hs : Searching h p new (a ++ b)) (ha : Ordered h (h p).start (h new).start a)
    (hb : Ordered h ((h new).stop + 1) ((h p).stop + 1) b) :
    Inserted h (linkIn h p new a b) p new (a ++ b) (a ++ node new nil b) := by
  obtain ⟨⟨hpa, hpb, -⟩, hnp, hna, hnb⟩ := nodup_split hs.nodup hs.fresh
  obtain ⟨hlink, hchild⟩ := linkIn_linked hs.child_eq hs.linked hs.nodup hs.fresh hs.leaf
  obtain ⟨hrange, hlo, hhi⟩ := hs.inside
  have hnode : Ordered h (h new).start ((h p).stop + 1) (node new nil b) :=
    ⟨⟨le_rfl, hrange, by omega⟩, trivial, hb⟩
  have hp := linkIn_parent (h := h) (b := b) hnp hpa
  refine ⟨hchild, hlink, ha.append hnode hlo (by omega), ?_, ?_, ?_, ?_, hp.1, hp.2⟩
  · simp only [ids_append, ids, List.nil_append]
    exact List.perm_middle
  · intro x y hx hy
    simp [anc_append, Anc, hx]
  · exact linkIn_range h p new a b
  · intro i hin hip hi
    rw [ids_append, List.mem_append, not_or] at hi
    exact linkIn_of_ne hin hip hi.1

/-- `new` in the place of a run. -/
theorem Searching.takeOver {m g : Forest ℕ} (hs : Searching h p new (a ++ (m ++ g))) (hne : m ≠ nil)
    (ha : Ordered h (h p).start (h new).start a)
    (hm : Ordered h (h new).start ((h new).stop + 1) m)
    (hg : Ordered h ((h new).stop + 1) ((h p).stop + 1) g) :
    Inserted h (takeOver h p new a m g) p new (a ++ (m ++ g)) (a ++ node new m g) := by
  have hap := apart hs.nodup hs.fresh
  obtain ⟨hlink, hchild⟩ := takeOver_linked hne hap hs.child_eq hs.linked
  obtain ⟨hrange, hlo, hhi⟩ := hs.inside
  have hnode : Ordered h (h new).start ((h p).stop + 1) (node new m g) :=
    ⟨⟨le_rfl, hrange, by omega⟩, hm, hg⟩
  have hp₁ : handOver h p new m g p = h p := handOver_of_ne hap.new_root.symm hap.root_m
  have hlinks := store_linkAfter_frame (handOver h p new m g) (some new) hap.root_a
  refine ⟨hchild, hlink, ha.append hnode hlo (by omega), ?_, ?_, ?_, ?_, ?_, ?_⟩
  · simp only [ids_append, ids]
    exact List.perm_middle
  · intro x y hx hy
    simp [anc_append, Anc, hx]
  · exact takeOver_range h p new a m g
  · intro i hin hip hi
    simp only [ids_append, List.mem_append, not_or] at hi
    exact (store_linkAfter_of_ne hip hi.1).trans (handOver_of_ne hin hi.2.1)
  · rw [Sandix.takeOver, hlinks.1, hp₁]
  · rw [Sandix.takeOver, hlinks.2, hp₁]

/-- An insertion below the child `i`, seen from `p`. -/
theorem Searching.descend {i : ℕ} {c c' s : Forest ℕ} {h' : ResHeap}
    (hs : Searching h p new (a ++ node i c s)) (hi : Inserted h h' i new c c') :
    Inserted h h' p new (a ++ node i c s) (a ++ node i c' s) := by
  have hnd := hs.nodup
  have hfresh := hs.fresh
  simp only [ids_append, ids, List.nodup_cons, List.mem_cons, List.mem_append, List.nodup_append,
    not_or] at hnd hfresh
  obtain ⟨⟨hpa, hpi, hpc, hps⟩, hnda, ⟨⟨hic, his⟩, hndc, hnds, hcs⟩, hdisj⟩ := hnd
  obtain ⟨hnp, hna, hni, hnc, hns⟩ := hfresh
  obtain ⟨hla, ⟨hpar, hchild, hsib⟩, hlc, hls⟩ := linked_append.mp hs.linked
  have hkeep : ∀ j, j ≠ new → j ≠ i → j ∉ c.ids → h' j = h j := hi.frame
  have hp : h' p = h p := hkeep p (Ne.symm hnp) hpi hpc
  refine ⟨?_, linked_append.mpr ⟨?_, ⟨?_, hi.child_eq, ?_⟩, hi.linked, ?_⟩, ?_, ?_, ?_, hi.range, ?_,
    ?_, ?_⟩
  · rw [hp, hs.child_eq, headOr_append, headOr_append]
    rfl
  · refine hla.congr fun j hj => hkeep j ?_ ?_ ?_
    · exact fun hjn => hna (hjn ▸ hj)
    · exact fun hji => hdisj j hj i (Or.inl rfl) hji
    · exact fun hjc => hdisj j hj j (Or.inr (Or.inl hjc)) rfl
  · rw [hi.parent_eq, hpar]
  · rw [hi.sibling_eq, hsib]
  · refine hls.congr fun j hj => hkeep j ?_ ?_ ?_
    · exact fun hjn => hns (hjn ▸ hj)
    · exact fun hji => his (hji ▸ hj)
    · exact fun hjc => hcs j hjc j hj rfl
  · exact Ordered.replace hi.ordered hs.ordered
  · simp only [ids_append, ids]
    have hperm : (a.ids ++ i :: (c'.ids ++ s.ids)).Perm (a.ids ++ i :: (new :: c.ids ++ s.ids)) :=
      ((hi.perm.append_right s.ids).cons i).append_left a.ids
    have hfront : ((a.ids ++ [i]) ++ new :: (c.ids ++ s.ids)).Perm
        (new :: ((a.ids ++ [i]) ++ (c.ids ++ s.ids))) := List.perm_middle
    simpa using hperm.trans (by simpa using hfront)
  · intro x y hx hy
    have hmem : y ∈ c'.ids ↔ y ∈ c.ids := by
      rw [hi.perm.mem_iff, List.mem_cons]
      exact or_iff_right hy
    simp only [anc_append, Anc, hmem, hi.anc x y hx hy]
  · intro j hjn hjp hj
    simp only [ids_append, ids, List.mem_cons, List.mem_append, not_or] at hj
    exact hkeep j hjn hj.2.1 hj.2.2.1
  · rw [hp]
  · rw [hp]

/-- The search below the child that contains `new`. -/
theorem Searching.below {i : ℕ} {c s : Forest ℕ} (hs : Searching h p new (a ++ node i c s))
    (hin : LiesInside h new i) : Searching h i new c := by
  have hnd := hs.nodup
  have hfresh := hs.fresh
  simp only [ids_append, ids, List.nodup_cons, List.mem_cons, List.mem_append, List.nodup_append,
    not_or] at hnd hfresh
  obtain ⟨-, -, ⟨⟨hic, -⟩, hndc, -⟩, -⟩ := hnd
  obtain ⟨-, -, hni, hnc, -⟩ := hfresh
  obtain ⟨-, ⟨-, hchild, -⟩, hlc, -⟩ := linked_append.mp hs.linked
  exact ⟨hchild, hlc, hs.ordered.right.2.1, List.nodup_cons.mpr ⟨hic, hndc⟩,
    by simp [hni, hnc], hs.leaf, hin⟩

/-- The outcome of the search among `kids` below `p`: `new` is in and nothing overlaps it partially,
or the heap is as it was and something does. -/
def Settled (h : ResHeap) (p new : ℕ) (kids : Forest ℕ) (x : Exec (Option ℕ × ResHeap)) : Prop :=
  (∃ h' kids', x = .ok (none, h') ∧ Inserted h h' p new kids kids' ∧
    ∀ c ∈ kids.ids, ¬ PartialOverlap h c new) ∨
  ∃ c ∈ kids.ids, x = .ok (some c, h) ∧ PartialOverlap h c new

/-- `__request_resource` below a resource that contains `new` runs its loop. -/
theorem Searching.requestResource_eq (hs : Searching h p new kids) :
    requestResource fuel h p new = Exec.loop (requestStep h p new) fuel (.child p) := by
  obtain ⟨hrange, hlo, hhi⟩ := hs.inside
  unfold requestResource
  rw [if_neg (by omega), if_neg (by omega), if_neg (by omega)]

/-- A run of children of which the first overlaps `new` without containing it. -/
theorem Searching.settled_capture {i : ℕ} {c s : Forest ℕ} {r : ℕ ⊕ ℕ}
    (hs : Searching h p new (a ++ node i c s)) (ha : Ordered h (h p).start (h new).start a)
    (hfuel : (a ++ node i c s).ids.length < fuel) (hover : Overlaps h i new)
    (hnot : NotOver h i new) (hr : Exec.loop (captureStep h new) fuel i = .ok r) :
    Settled h p new (a ++ node i c s)
      (r.elim (fun next => .ok (some next, h)) (captureRun fuel h p new i)) := by
  have hlen := length_tops_le (node i c s)
  have hlena := length_tops_le a
  rw [ids_append, List.length_append] at hfuel
  have htops : (node i c s).tops.length < fuel := by omega
  have hspec := captureLoop_spec (linked_append.mp hs.linked).2 hs.ordered.right hover hnot htops
  rw [hr] at hspec
  obtain ⟨r', hr', hspec⟩ := hspec
  obtain rfl : r = r' := Except.ok.inj hr'
  rcases hspec with ⟨next, hnext, rfl, hpart⟩ | ⟨m, g, next, heq, hne, rfl, hlast, hm, hg⟩
  · exact Or.inr ⟨next, by simp [hnext], rfl, hpart⟩
  · obtain ⟨s', hm'⟩ : ∃ s', m = node i c s' := by
      cases m with
      | nil => exact absurd rfl hne
      | node j d s' =>
        rw [node_append, Forest.node.injEq] at heq
        exact ⟨s', by rw [heq.1, heq.2.1]⟩
    rw [heq] at hs hlen ⊢
    rw [tops_append, List.length_append] at hlen
    rw [heq] at hfuel
    refine Or.inl ⟨_, _, captureRun_eq hm' (apart hs.nodup hs.fresh) hs.child_eq hs.linked hlast
      ⟨by omega, by omega⟩, hs.takeOver hne ha hm hg, ?_⟩
    intro d hd
    simp only [ids_append, List.mem_append] at hd
    rcases hd with hd | hd | hd
    · exact not_partialOverlap_of_lt (ha.bounds d hd).2.2
    · have hin := hm.bounds d hd
      exact fun hpart => hpart.2.1 ⟨hin.1, Nat.lt_succ_iff.mp hin.2.2⟩
    · exact not_partialOverlap_of_gt (hg.bounds d hd).1

/-- An outcome below the child that contains `new` is the outcome. -/
theorem Searching.settled_descend {i : ℕ} {c s : Forest ℕ} {x : Exec (Option ℕ × ResHeap)}
    (hs : Searching h p new (a ++ node i c s)) (ha : Ordered h (h p).start (h new).start a)
    (hin : LiesInside h new i) (hx : Settled h i new c x) :
    Settled h p new (a ++ node i c s) x := by
  rcases hx with ⟨h', c', hx, hins, hno⟩ | ⟨d, hd, hx, hpart⟩
  · refine Or.inl ⟨h', a ++ node i c' s, hx, hs.descend hins, fun d hd => ?_⟩
    simp only [ids_append, ids, List.mem_append, List.mem_cons] at hd
    rcases hd with hd | rfl | hd | hd
    · exact not_partialOverlap_of_lt (ha.bounds d hd).2.2
    · exact fun hpart => hpart.2.2 hin.2
    · exact hno d hd
    · have hlt := (hs.ordered.right.2.2.bounds d hd).1
      have hle := hin.2.2
      exact not_partialOverlap_of_gt (by omega)
  · exact Or.inr ⟨d, by simp [ids, hd], hx, hpart⟩

/-- **The search settles.**  The induction is on the budget of the descent; the heap is the one the
search began with as long as it goes on. -/
theorem insertLoop_spec : ∀ {n p : ℕ} {kids : Forest ℕ}, Searching h p new kids →
    kids.ids.length < n → kids.ids.length < fuel →
    Settled h p new kids (Exec.loop (insertStep fuel new) n (h, p))
  | 0, _, _, _, hn, _ => absurd hn (Nat.not_lt_zero _)
  | n + 1, p, kids, hs, hn, hfuel => by
      have hlen := length_tops_le kids
      obtain ⟨r, hr, a, b, rfl, ha, hcase⟩ := requestLoop_spec new hs.child_eq hs.linked hs.ordered
        (hlen.trans_lt hfuel)
      rw [← hs.requestResource_eq] at hr
      rcases hcase with ⟨hb, rfl⟩ | ⟨i, c, s, rfl, hover, rfl⟩
      · have hstep : insertStep fuel new (h, p) = .ok (.inr (none, Sandix.linkIn h p new a b)) := by
          simp only [insertStep, hr, Exec.ok_bind, Exec.pure_eq_ok]
        refine Or.inl ⟨_, _, Exec.loop_done hstep, hs.linkIn ha hb, fun c hc => ?_⟩
        rw [ids_append, List.mem_append] at hc
        rcases hc with hc | hc
        · exact not_partialOverlap_of_lt (ha.bounds c hc).2.2
        · exact not_partialOverlap_of_gt (hb.bounds c hc).1
      · have hip : i ≠ p := by
          rintro rfl
          exact (List.nodup_cons.mp hs.nodup).1 (by simp [ids])
        have hin : i ≠ new := by
          rintro rfl
          exact hs.fresh (by simp [ids])
        by_cases hnot : NotOver h i new
        · have htops : (node i c s).tops.length < fuel := by
            simp only [tops_append, List.length_append] at hlen
            omega
          obtain ⟨r, hcap, -⟩ := captureLoop_spec (linked_append.mp hs.linked).2 hs.ordered.right hover
            hnot htops
          have hset := hs.settled_capture ha hfuel hover hnot hcap
          have hcond := hnot
          unfold NotOver at hcond
          have hstep : insertStep fuel new (h, p) = (r.elim (fun next => .ok (some next, h))
              (captureRun fuel h p new i) : Exec _) >>= fun out => .ok (.inr out) := by
            simp only [insertStep, hr, Exec.ok_bind, Exec.pure_eq_ok, hip, hin, if_false, hcap]
            rw [if_pos hcond]
            cases r <;> rfl
          rw [Exec.loop_of_step_bind hstep]
          exact hset
        · have hstep : insertStep fuel new (h, p) = .ok (.inl (h, i)) := by
            simp only [insertStep, hr, Exec.ok_bind, Exec.pure_eq_ok, hip, hin, if_false]
            rw [if_neg (by unfold NotOver at hnot; exact hnot)]
          have hlies : LiesInside h new i := by
            unfold NotOver at hnot
            exact ⟨hs.inside.1, by omega, by omega⟩
          simp only [ids_append, ids, List.length_append, List.length_cons] at hn hfuel
          rw [Exec.loop_next hstep]
          exact hs.settled_descend ha hlies (insertLoop_spec (hs.below hlies) (by omega) (by omega))

/-! ## Exactness -/

/-- What a successful insertion leaves: a well-formed tree over the old nodes and `new`, in which the
old nodes descend from one another as before. -/
structure Grown (h h' : ResHeap) (root new : ℕ) (kids kids' : Forest ℕ) : Prop where
  tree : ResourceTree h' root kids'
  nodes : kids'.ids.Perm (new :: kids.ids)
  anc : ∀ a b, a ≠ new → b ≠ new → (TreeAnc root kids' a b ↔ TreeAnc root kids a b)
  range : ∀ i, (h' i).start = (h i).start ∧ (h' i).stop = (h i).stop

theorem ResourceTree.searching (htree : ResourceTree h root kids) (hnew : new ∉ root :: kids.ids)
    (hleaf : (h new).child = none) (hin : LiesInside h new root) : Searching h root new kids :=
  ⟨htree.child_eq, htree.linked, htree.ordered, htree.nodup, hnew, hleaf, hin⟩

theorem Inserted.grown {h' : ResHeap} {kids' : Forest ℕ} (hins : Inserted h h' root new kids kids')
    (htree : ResourceTree h root kids) (hnew : new ∉ root :: kids.ids) :
    Grown h h' root new kids kids' := by
  obtain ⟨hstart, hstop⟩ := hins.range root
  have hnd : (root :: kids'.ids).Nodup := by
    have hperm : (root :: kids'.ids).Perm (new :: root :: kids.ids) :=
      (hins.perm.cons root).trans (List.Perm.swap new root kids.ids)
    exact hperm.nodup_iff.mpr (List.nodup_cons.mpr ⟨hnew, htree.nodup⟩)
  refine ⟨⟨hins.child_eq, hins.linked, ?_, ?_, hnd⟩, hins.perm, ?_, hins.range⟩
  · rw [hstart, hstop]
    exact htree.range
  · rw [hstart, hstop]
    exact hins.ordered.congr fun i _ => hins.range i
  · intro a b ha hb
    have hmem : b ∈ kids'.ids ↔ b ∈ kids.ids := by
      rw [hins.perm.mem_iff, List.mem_cons]
      exact or_iff_right hb
    unfold TreeAnc
    rw [hmem, hins.anc a b ha hb]

/-- Out of the range of the root, both functions return it. -/
theorem requestResource_outside (hout : ¬ LiesInside h new root) :
    requestResource fuel h root new = .ok (some root, h) := by
  unfold requestResource
  split_ifs with h₁ h₂ h₃
  · rfl
  · rfl
  · rfl
  · exact absurd ⟨by omega, by omega, by omega⟩ hout

theorem insertResource_outside (hfuel : 0 < fuel) (hout : ¬ LiesInside h new root) :
    insertResource fuel h root new = .ok (some root, h) := by
  obtain ⟨n, hn⟩ := Nat.exists_eq_succ_of_ne_zero hfuel.ne'
  have hstep : insertStep fuel new (h, root) = .ok (.inr (some root, h)) := by
    simp only [insertStep, requestResource_outside hout, Exec.ok_bind, Exec.pure_eq_ok, if_true]
  unfold insertResource
  nth_rewrite 2 [hn]
  exact Exec.loop_done hstep

/-- Whether `__insert_resource` succeeds, what it leaves, and what it returns where it fails. -/
def InsertExact (h : ResHeap) (root new : ℕ) (kids : Forest ℕ) (r : Option ℕ) (h' : ResHeap) :
    Prop :=
  (r = none ↔ LiesInside h new root ∧ ∀ c ∈ root :: kids.ids, ¬ PartialOverlap h c new) ∧
  (r = none → ∃ kids', Grown h h' root new kids kids') ∧
  ∀ c, r = some c → h' = h ∧
    ((c = root ∧ ¬ LiesInside h new root) ∨ (c ∈ kids.ids ∧ PartialOverlap h c new))

/-- Whether `__request_resource` succeeds, what it leaves, and what it returns where it fails. -/
def RequestExact (h : ResHeap) (root new : ℕ) (kids : Forest ℕ) (r : Option ℕ) (h' : ResHeap) :
    Prop :=
  (r = none ↔ LiesInside h new root ∧ ∀ c ∈ kids.tops, ¬ Overlaps h c new) ∧
  (r = none → ∃ kids', Grown h h' root new kids kids') ∧
  ∀ c, r = some c → h' = h ∧
    ((c = root ∧ ¬ LiesInside h new root) ∨ (c ∈ kids.tops ∧ Overlaps h c new))

section Exact

variable (htree : ResourceTree h root kids) (hnew : new ∉ root :: kids.ids)
  (hleaf : (h new).child = none) (hfuel : kids.ids.length < fuel)

include htree hnew hleaf hfuel

theorem insertResource_exact :
    ∃ r h', insertResource fuel h root new = .ok (r, h') ∧ InsertExact h root new kids r h' := by
  by_cases hin : LiesInside h new root
  · have hroot : ¬ PartialOverlap h root new := fun hpart => hpart.2.2 hin.2
    have hset := insertLoop_spec (htree.searching hnew hleaf hin) hfuel hfuel
    rcases hset with ⟨h', kids', hx, hins, hno⟩ | ⟨c, hc, hx, hpart⟩
    · refine ⟨none, h', hx, ?_, fun _ => ⟨kids', hins.grown htree hnew⟩, fun c hc => by simp at hc⟩
      exact iff_of_true rfl ⟨hin, List.forall_mem_cons.mpr ⟨hroot, hno⟩⟩
    · refine ⟨some c, h, hx, ?_, fun hc => by simp at hc, ?_⟩
      · exact iff_of_false (by simp) fun hno => hno.2 c (List.mem_cons_of_mem _ hc) hpart
      · rintro d ⟨rfl⟩
        exact ⟨rfl, Or.inr ⟨hc, hpart⟩⟩
  · refine ⟨some root, h, insertResource_outside (by omega) hin, ?_, fun hc => by simp at hc, ?_⟩
    · exact iff_of_false (by simp) fun hno => hin hno.1
    · rintro d ⟨rfl⟩
      exact ⟨rfl, Or.inl ⟨rfl, hin⟩⟩

theorem requestResource_exact :
    ∃ r h', requestResource fuel h root new = .ok (r, h') ∧ RequestExact h root new kids r h' := by
  have hlen := length_tops_le kids
  by_cases hin : LiesInside h new root
  · have hs := htree.searching hnew hleaf hin
    obtain ⟨r, hr, a, b, rfl, ha, hcase⟩ := requestLoop_spec new hs.child_eq hs.linked hs.ordered
      (hlen.trans_lt hfuel)
    rw [← hs.requestResource_eq] at hr
    rcases hcase with ⟨hb, rfl⟩ | ⟨i, c, s, rfl, hover, rfl⟩
    · refine ⟨none, _, hr, ?_, fun _ => ⟨_, (hs.linkIn ha hb).grown htree hnew⟩,
        fun c hc => by simp at hc⟩
      refine iff_of_true rfl ⟨hin, fun c hc hover => ?_⟩
      rw [tops_append, List.mem_append] at hc
      rcases hc with hc | hc
      · have hlt := (ha.bounds c (tops_subset_ids a c hc)).2.2
        have hle := hover.2
        omega
      · have hlt := (hb.bounds c (tops_subset_ids b c hc)).1
        have hle := hover.1
        omega
    · have hi : i ∈ (a ++ node i c s).tops := by simp [tops]
      refine ⟨some i, h, hr, ?_, fun hc => by simp at hc, ?_⟩
      · exact iff_of_false (by simp) fun hno => hno.2 i hi hover
      · rintro d ⟨rfl⟩
        exact ⟨rfl, Or.inr ⟨hi, hover⟩⟩
  · refine ⟨some root, h, requestResource_outside hin, ?_, fun hc => by simp at hc, ?_⟩
    · exact iff_of_false (by simp) fun hno => hin hno.1
    · rintro d ⟨rfl⟩
      exact ⟨rfl, Or.inl ⟨rfl, hin⟩⟩

/-- **Insertion into the resource tree is exact.**  Both functions return, succeed on exactly the
resources the tree has room for, leave a well-formed tree then, and leave everything as it was and
name what is in the way otherwise. -/
theorem resource_insertion_exact :
    (∃ r h', insertResource fuel h root new = .ok (r, h') ∧ InsertExact h root new kids r h') ∧
    ∃ r h', requestResource fuel h root new = .ok (r, h') ∧ RequestExact h root new kids r h' :=
  ⟨insertResource_exact htree hnew hleaf hfuel, requestResource_exact htree hnew hleaf hfuel⟩

end Exact

/-- A root over `[0, 99]` with one child over `[10, 19]`, and the loose resource `[5, 30]`. -/
def sampleHeap : ResHeap
  | 0 => ⟨0, 99, none, none, some 1⟩
  | 1 => ⟨10, 19, some 0, none, none⟩
  | _ => ⟨5, 30, none, none, none⟩

theorem sampleHeap_tree : ResourceTree sampleHeap 0 (node 1 nil nil) := by
  refine ⟨rfl, ⟨⟨rfl, rfl, rfl⟩, trivial, trivial⟩, by decide, ⟨by decide, trivial, trivial⟩, by decide⟩

/-- The loose resource takes the child over; it cannot be requested. -/
theorem resource_insertion_exact_sample :
    (∃ r h', insertResource 2 sampleHeap 0 2 = .ok (r, h') ∧
      InsertExact sampleHeap 0 2 (node 1 nil nil) r h') ∧
    ∃ r h', requestResource 2 sampleHeap 0 2 = .ok (r, h') ∧
      RequestExact sampleHeap 0 2 (node 1 nil nil) r h' :=
  resource_insertion_exact sampleHeap_tree (by decide) rfl (by decide)

end Sandix
