import Sandix.Kernel.ResourceInsert

/-!
# Kernel/ResourceRelease — taking a resource out of the tree

`__release_resource` looks for `old` among the children of its parent (`releaseLoop_walk`), and swings
the link that leads to it: to the resource after it (`unlink_drop`), or to its first child, with the
last one leading on (`unlink_keep`).  On forests it is `excise`.

* `resource_release_exact` — what a release leaves, when it fails, and that it undoes a request.
-/

namespace Sandix

open Machinery Forest

variable {h h' : ResHeap} {root new old p fuel : ℕ} {kids a c s : Forest ℕ} {drop : Bool}

/-! ## Looking for `old` -/

theorem releaseLoop_walk {t : Option ℕ} {n : ℕ} : ∀ {f : Forest ℕ} {l : Link}, l.load h = f.headOr t →
    Linked h p t f → old ∉ f.tops →
    Exec.loop (releaseStep fuel h old drop) (f.tops.length + n) l =
      Exec.loop (releaseStep fuel h old drop) n (linkAfter l f)
  | nil, l, _, _, _ => by rw [tops, List.length_nil, Nat.zero_add, linkAfter]
  | node i c s, l, hl, ⟨⟨_, _, hsib⟩, _, hs⟩, hold => by
      rw [tops, List.mem_cons, not_or] at hold
      have hstep : releaseStep fuel h old drop l = .ok (.inl (.sibling i)) := by
        rw [releaseStep, hl, headOr]
        exact if_neg (Ne.symm hold.1)
      rw [tops, List.length_cons, Nat.succ_add, Exec.loop_next hstep, linkAfter]
      exact releaseLoop_walk hsib hs hold.2

/-- The resources from `r` on, along the `sibling` fields, to the null pointer. -/
def Siblings (h : ResHeap) : Option ℕ → List ℕ → Prop
  | none, [] => True
  | some i, j :: l => i = j ∧ Siblings h (h i).sibling l
  | _, _ => False

/-- Where `old` is not among them, the loop comes to the end and changes nothing. -/
theorem releaseLoop_absent : ∀ {l : List ℕ} {p : Link} {n : ℕ}, Siblings h (p.load h) l → old ∉ l →
    l.length < n → Exec.loop (releaseStep fuel h old drop) n p = .ok (-EINVAL, h)
  | [], p, n + 1, hl, _, _ => by
      refine Exec.loop_done ?_
      cases hload : p.load h with
      | none => rw [releaseStep, hload]
      | some i =>
        rw [hload] at hl
        exact absurd hl id
  | j :: l, p, n + 1, hl, hold, hn => by
      rw [List.mem_cons, not_or] at hold
      cases hload : p.load h with
      | none =>
        rw [hload] at hl
        exact absurd hl id
      | some i =>
        rw [hload] at hl
        obtain ⟨rfl, hrest⟩ := hl
        have hstep : releaseStep fuel h old drop p = .ok (.inl (.sibling i)) := by
          rw [releaseStep, hload]
          exact if_neg (Ne.symm hold.1)
        rw [Exec.loop_next hstep]
        exact releaseLoop_absent hrest hold.2 (Nat.lt_of_succ_lt_succ hn)

/-! ## Handing the children over -/

theorem adoptLoop : ∀ {s c : Forest ℕ} {i fuel : ℕ} {h : ResHeap}, Linked h old none (node i c s) →
    (node i c s).ids.Nodup → old ∉ (node i c s).ids → (h old).parent = some p →
    (node i c s).tops.length ≤ fuel →
    ∃ last, Exec.loop (adoptStep old) fuel (h, i) = .ok (reparent p h (node i c s), last) ∧
      ∀ l, linkAfter l (node i c s) = .sibling last
  | nil, c, i, fuel + 1, h, ⟨⟨_, _, hsib⟩, _⟩, _, _, hpar, _ => by
      refine ⟨i, Exec.loop_done ?_, fun _ => rfl⟩
      have hsib' : (setParent h i (some p) i).sibling = none :=
        (setParent_frame h i (some p) i).2.2.1.trans hsib
      simp only [adoptStep, hpar, hsib', reparent]
  | node k e t, c, i, fuel + 1, h, ⟨⟨_, _, hsib⟩, _, hs⟩, hnd, hold, hpar, hfuel => by
      rw [ids, List.nodup_cons, List.mem_append, not_or, List.nodup_append] at hnd
      rw [ids, List.mem_cons, List.mem_append, not_or, not_or] at hold
      have hne : ∀ j, j ≠ i → setParent h i (some p) j = h j := fun j hj => Function.update_of_ne hj _ _
      have hsib' : (setParent h i (some p) i).sibling = some k :=
        (setParent_frame h i (some p) i).2.2.1.trans hsib
      have hstep : adoptStep old (h, i) = .ok (.inl (setParent h i (some p), k)) := by
        simp only [adoptStep, hpar, hsib']
      have hs' : Linked (setParent h i (some p)) old none (node k e t) :=
        hs.congr fun j hj => hne j fun hji => hnd.1.2 (hji ▸ hj)
      have hpar' : (setParent h i (some p) old).parent = some p := by rw [hne old hold.1, hpar]
      obtain ⟨last, hloop, hlast⟩ := adoptLoop hs' hnd.2.2.1 hold.2.2 hpar'
        (Nat.le_of_succ_le_succ hfuel)
      exact ⟨last, (Exec.loop_next hstep).trans hloop, fun l => hlast (.sibling i)⟩

/-! ## Swinging the links -/

/-- What a release below `p` leaves: the children `kids'`, `old` cut off, and the rest of the heap — with
what was taken out of the tree — as it was. -/
structure Unlinked (h h' : ResHeap) (p old : ℕ) (kids' : Forest ℕ) : Prop where
  child_eq : (h' p).child = kids'.headOr none
  linked : Linked h' p none kids'
  old_eq : h' old = { h old with parent := none }
  range : ∀ i, (h' i).start = (h i).start ∧ (h' i).stop = (h i).stop
  frame : ∀ i, i ≠ p → i ≠ old → i ∉ kids'.ids → h' i = h i
  parent_eq : (h' p).parent = (h p).parent
  sibling_eq : (h' p).sibling = (h p).sibling

theorem setParent_of_ne {v : Option ℕ} {j : ℕ} (hj : j ≠ old) : setParent h old v j = h j :=
  Function.update_of_ne hj _ _

theorem setParent_of_mem {v : Option ℕ} {f : Forest ℕ} {j : ℕ} (hold : old ∉ f.ids) (hj : j ∈ f.ids) :
    setParent h old v j = h j := setParent_of_ne fun hjo => hold (hjo ▸ hj)

section Unlink

variable (hap : Apart p old a c s) (hchild : (h p).child = (a ++ node old c s).headOr none)
  (hlink : Linked h p none (a ++ node old c s))

include hap hchild hlink

/-- With the trees below it: the link to `old` leads to the resource after it. -/
theorem unlink_drop :
    Unlinked h (setParent ((linkAfter (.child p) a).store h (s.headOr none)) old none) p old (a ++ s) := by
  obtain ⟨hla, -, -, hls⟩ := linked_append.mp hlink
  set h₁ := (linkAfter (.child p) a).store h (s.headOr none) with hh₁
  have hload : Link.load h (.child p) = a.headOr (some old) := hchild.trans (headOr_append _ _ _)
  obtain ⟨hla₁, hload₁⟩ := linked_store (v := s.headOr none) hla hload
    (List.nodup_cons.mpr ⟨hap.root_a, hap.nodup_a⟩)
  have hkeep : ∀ j, j ≠ p → j ∉ a.ids → h₁ j = h j := fun j hjp hja => store_linkAfter_of_ne hjp hja
  have hp := setParent_of_ne (h := h₁) (v := none) hap.new_root.symm
  have hlinks := store_linkAfter_frame h (s.headOr none) hap.root_a
  refine ⟨?_, linked_append.mpr ⟨?_, ?_⟩, ?_, fun i => ?_, fun i hip hio hi => ?_, ?_, ?_⟩
  · rw [hp, headOr_append]
    exact hload₁
  · exact hla₁.congr fun j hj => setParent_of_mem hap.new_a hj
  · refine hls.congr fun j hj => (setParent_of_mem hap.new_g hj).trans ?_
    exact hkeep j (fun hjp => hap.root_g (hjp ▸ hj)) fun hja => hap.a_g j hja hj
  · rw [setParent, Function.update_self, hkeep old hap.new_root hap.new_a]
  · have hset := setParent_frame h₁ old none i
    have hstore := store_frame h (s.headOr none) (linkAfter (.child p) a) i
    exact ⟨hset.1.trans hstore.1, hset.2.1.trans hstore.2.1⟩
  · rw [ids_append, List.mem_append, not_or] at hi
    rw [setParent_of_ne hio, hkeep i hip hi.1]
  · rw [hp, hlinks.1]
  · rw [hp, hlinks.2]

/-- Leaving them: the link to `old` leads to its first child, and the last child on to what was after
it. -/
theorem unlink_keep (hne : c ≠ nil) :
    Unlinked h (setParent ((linkAfter (.child old) c).store ((linkAfter (.child p) a).store
      (reparent p h c) (c.headOr none)) (s.headOr none)) old none) p old (a ++ (c ++ s)) := by
  obtain ⟨hla, ⟨-, hchild', -⟩, hlc, hls⟩ := linked_append.mp hlink
  set h₁ := reparent p h c with hh₁
  set h₂ := (linkAfter (.child p) a).store h₁ (c.headOr none) with hh₂
  set h₃ := (linkAfter (.child old) c).store h₂ (s.headOr none) with hh₃
  have hkeep₁ : ∀ j, j ∉ c.ids → h₁ j = h j := fun j hj =>
    reparent_of_notMem fun hm => hj (tops_subset_ids c j hm)
  have hkeep₂ : ∀ j, j ≠ p → j ∉ a.ids → h₂ j = h₁ j := fun j hjp hja => store_linkAfter_of_ne hjp hja
  have hlast : ∃ r ∈ c.ids, linkAfter (.child old) c = .sibling r := by
    cases c with
    | nil => exact absurd rfl hne
    | node i d t =>
      obtain ⟨r, hr, heq⟩ := linkAfter_node (.child old) i d t
      exact ⟨r, tops_subset_ids _ r hr, heq⟩
  have hkeep₃ : ∀ j, j ∉ c.ids → h₃ j = h₂ j := fun j hj => by
    obtain ⟨r, hr, heq⟩ := hlast
    rw [hh₃, heq]
    exact store_of_ne _ (.sibling r) fun hjr => hj (hjr ▸ hr)
  have hkeep : ∀ j, j ≠ p → j ∉ a.ids → j ∉ c.ids → h₃ j = h j := fun j hjp hja hjc => by
    rw [hkeep₃ j hjc, hkeep₂ j hjp hja, hkeep₁ j hjc]
  -- the run before `old` leads to its children
  have hload₁ : Link.load h₁ (.child p) = a.headOr (some old) :=
    (congrArg Resource.child (hkeep₁ p hap.root_m)).trans (hchild.trans (headOr_append _ _ _))
  obtain ⟨hla₂, hload₂⟩ := linked_store (v := c.headOr none)
    (hla.congr fun j hj => hkeep₁ j (hap.a_m j hj)) hload₁
    (List.nodup_cons.mpr ⟨hap.root_a, hap.nodup_a⟩)
  -- the children lead on to the run after it
  have hlc₂ : Linked h₂ p none c := (linked_reparent hlc hap.nodup_m).congr fun j hj =>
    hkeep₂ j (fun hjp => hap.root_m (hjp ▸ hj)) fun hja => hap.a_m j hja hj
  have hold₂ : Link.load h₂ (.child old) = c.headOr none := by
    rw [← hchild']
    exact congrArg Resource.child ((hkeep₂ old hap.new_root hap.new_a).trans (hkeep₁ old hap.new_m))
  obtain ⟨hlc₃, -⟩ := linked_store (v := s.headOr none) hlc₂ hold₂
    (List.nodup_cons.mpr ⟨hap.new_m, hap.nodup_m⟩)
  have hfirst : c.headOr none = (c ++ s).headOr none := by
    rw [headOr_append, headOr_of_ne_nil none _ hne]
  have hp : setParent h₃ old none p = h₂ p :=
    (setParent_of_ne hap.new_root.symm).trans (hkeep₃ p hap.root_m)
  have hlinks := store_linkAfter_frame h₁ (c.headOr none) hap.root_a
  refine ⟨?_, linked_append.mpr ⟨?_, linked_append.mpr ⟨?_, ?_⟩⟩, ?_, fun i => ?_,
    fun i hip hio hi => ?_, ?_, ?_⟩
  · rw [hp, headOr_append, ← hfirst]
    exact hload₂
  · rw [← hfirst]
    exact hla₂.congr fun j hj => (setParent_of_mem hap.new_a hj).trans (hkeep₃ j (hap.a_m j hj))
  · exact hlc₃.congr fun j hj => setParent_of_mem hap.new_m hj
  · refine hls.congr fun j hj => (setParent_of_mem hap.new_g hj).trans ?_
    exact hkeep j (fun hjp => hap.root_g (hjp ▸ hj)) (fun hja => hap.a_g j hja hj)
      fun hjc => hap.m_g j hjc hj
  · rw [setParent, Function.update_self, hkeep old hap.new_root hap.new_a hap.new_m]
  · have hset := setParent_frame h₃ old none i
    have hstore₃ := store_frame h₂ (s.headOr none) (linkAfter (.child old) c) i
    have hstore₂ := store_frame h₁ (c.headOr none) (linkAfter (.child p) a) i
    have hrep := reparent_range p i c h
    exact ⟨hset.1.trans (hstore₃.1.trans (hstore₂.1.trans hrep.1)),
      hset.2.1.trans (hstore₃.2.1.trans (hstore₂.2.1.trans hrep.2))⟩
  · simp only [ids_append, List.mem_append, not_or] at hi
    rw [setParent_of_ne hio, hkeep i hip hi.1 hi.2.1]
  · rw [hp, hlinks.1, hkeep₁ p hap.root_m]
  · rw [hp, hlinks.2, hkeep₁ p hap.root_m]

end Unlink

/-! ## The release -/

section Release

variable (hap : Apart p old a c s) (hchild : (h p).child = (a ++ node old c s).headOr none)
  (hlink : Linked h p none (a ++ node old c s)) {l : Link} (hl : l = linkAfter (.child p) a)

include hap hchild hlink hl

/-- The round that finds `old`. -/
theorem releaseStep_found (hfuel : c.tops.length ≤ fuel) :
    ∃ h', releaseStep fuel h old drop l = .ok (.inr (0, h')) ∧
      Unlinked h h' p old (a ++ if drop then s else c ++ s) := by
  obtain ⟨hla, ⟨hpar, hchild', hsib⟩, hlc, -⟩ := linked_append.mp hlink
  have hload : l.load h = some old := by
    rw [hl]
    exact load_linkAfter (hchild.trans (headOr_append _ _ _)) hla
  have hdrop := unlink_drop hap hchild hlink
  rw [← hl, ← hsib] at hdrop
  cases drop with
  | true => exact ⟨_, by rw [releaseStep, hload]; exact if_pos rfl, hdrop⟩
  | false =>
    cases c with
    | nil =>
      refine ⟨_, ?_, hdrop⟩
      rw [releaseStep, hload]
      dsimp only
      rw [if_pos rfl, hchild', headOr]
    | node i d t =>
      obtain ⟨last, hloop, hlast⟩ := adoptLoop hlc hap.nodup_m hap.new_m hpar hfuel
      have hkeep := unlink_keep hap hchild hlink (by simp)
      have hrep : reparent p h (node i d t) old = h old :=
        reparent_of_notMem fun hm => hap.new_m (tops_subset_ids _ old hm)
      have hstore : l.store (reparent p h (node i d t)) (some i) old = h old := by
        rw [hl, store_linkAfter_of_ne hap.new_root hap.new_a, hrep]
      rw [hlast, ← hl, ← hsib] at hkeep
      refine ⟨_, ?_, hkeep⟩
      rw [releaseStep, hload]
      simp only [if_true, hchild', headOr, hloop, Exec.ok_bind, Exec.pure_eq_ok, hrep, hstore]

end Release

/-- **`__release_resource` below a parent that has `old` among its children.** -/
theorem rawReleaseResource_child (hap : Apart p old a c s)
    (hchild : (h p).child = (a ++ node old c s).headOr none)
    (hlink : Linked h p none (a ++ node old c s)) (hfuel : (a ++ node old c s).ids.length ≤ fuel) :
    ∃ h', rawReleaseResource fuel h old drop = .ok (0, h') ∧
      Unlinked h h' p old (a ++ if drop then s else c ++ s) := by
  obtain ⟨hla, ⟨hpar, -, -⟩, -⟩ := linked_append.mp hlink
  have hlena := length_tops_le a
  have hlenc := length_tops_le c
  simp only [ids_append, ids, List.length_append, List.length_cons] at hfuel
  obtain ⟨h', hstep, hun⟩ := @releaseStep_found h old p fuel a c s drop hap hchild hlink _ rfl (by omega)
  obtain ⟨n, rfl⟩ : ∃ n, fuel = a.tops.length + (n + 1) := ⟨fuel - a.tops.length - 1, by omega⟩
  refine ⟨h', ?_, hun⟩
  have hold : old ∉ a.tops := fun hm => hap.new_a (tops_subset_ids a old hm)
  have hload : Link.load h (.child p) = a.headOr (some old) := hchild.trans (headOr_append _ _ _)
  rw [rawReleaseResource, hpar]
  dsimp only
  rw [releaseLoop_walk hload hla hold, Exec.loop_done hstep]

/-- A release below the child `i`, seen from `p`. -/
theorem Unlinked.descend {i : ℕ} {c' : Forest ℕ} (hun : Unlinked h h' i old c')
    (hsub : ∀ j ∈ c'.ids, j ∈ c.ids) (hold : old ∈ c.ids)
    (hchild : (h p).child = (a ++ node i c s).headOr none)
    (hlink : Linked h p none (a ++ node i c s)) (hnd : (p :: (a ++ node i c s).ids).Nodup) :
    Unlinked h h' p old (a ++ node i c' s) := by
  simp only [ids_append, ids, List.nodup_cons, List.mem_cons, List.mem_append, List.nodup_append,
    not_or] at hnd
  obtain ⟨⟨hpa, hpi, hpc, hps⟩, hnda, ⟨⟨hic, his⟩, hndc, hnds, hcs⟩, hdisj⟩ := hnd
  obtain ⟨hla, ⟨hpar, hchild', hsib⟩, hlc, hls⟩ := linked_append.mp hlink
  have hkeep : ∀ j, j ≠ i → j ∉ c.ids → h' j = h j := fun j hji hjc =>
    hun.frame j hji (fun hjo => hjc (hjo ▸ hold)) fun hj => hjc (hsub j hj)
  have hp : h' p = h p := hkeep p hpi hpc
  refine ⟨?_, linked_append.mpr ⟨?_, ⟨?_, hun.child_eq, ?_⟩, hun.linked, ?_⟩, hun.old_eq, hun.range,
    ?_, ?_, ?_⟩
  · rw [hp, hchild, headOr_append, headOr_append]
    rfl
  · refine hla.congr fun j hj => hkeep j ?_ ?_
    · exact fun hji => hdisj j hj i (Or.inl rfl) hji
    · exact fun hjc => hdisj j hj j (Or.inr (Or.inl hjc)) rfl
  · rw [hun.parent_eq, hpar]
  · rw [hun.sibling_eq, hsib]
  · refine hls.congr fun j hj => hkeep j ?_ ?_
    · exact fun hji => his (hji ▸ hj)
    · exact fun hjc => hcs j hjc j hj rfl
  · intro j hjp hjo hj
    simp only [ids_append, ids, List.mem_append, List.mem_cons, not_or] at hj
    exact hun.frame j hj.2.1 hjo hj.2.2.1
  · rw [hp]
  · rw [hp]

/-- **`__release_resource`, from any resource above `old`.**  By induction on the way down to it. -/
theorem rawReleaseResource_unlinked {kids : Forest ℕ} {p : ℕ} (hchild : (h p).child = kids.headOr none)
    (hlink : Linked h p none kids) (hnd : (p :: kids.ids).Nodup) (hold : old ∈ kids.ids)
    (hfuel : kids.ids.length ≤ fuel) :
    ∃ h', rawReleaseResource fuel h old drop = .ok (0, h') ∧
      Unlinked h h' p old (kids.excise drop old) := by
  rcases mem_ids_split hold with ⟨a, c, s, rfl⟩ | ⟨a, i, c, s, rfl, hc⟩
  · have hnd' := hnd
    simp only [ids_append, ids, List.nodup_cons, List.mem_cons, List.mem_append, List.nodup_append,
      not_or] at hnd'
    obtain ⟨⟨hpa, hpo, hpc, hps⟩, hnda, ⟨⟨hoc, hos⟩, hndc, hnds, hcs⟩, hdisj⟩ := hnd'
    have hoa : old ∉ a.ids := fun hm => hdisj old hm old (Or.inl rfl) rfl
    have hap : Apart p old a c s := ⟨hpa, hpc, hps, hnda, hndc,
      fun j hj hm => hdisj j hj j (Or.inr (Or.inl hm)) rfl,
      fun j hj hg => hdisj j hj j (Or.inr (Or.inr hg)) rfl, fun j hj hg => hcs j hj j hg rfl,
      Ne.symm hpo, hoa, hoc, hos⟩
    obtain ⟨h', hrun, hun⟩ := @rawReleaseResource_child h old p fuel a c s drop hap hchild hlink hfuel
    refine ⟨h', hrun, ?_⟩
    rwa [excise_append hoa, excise, if_pos rfl]
  · have hnd' := hnd
    simp only [ids_append, ids, List.nodup_cons, List.mem_cons, List.mem_append, List.nodup_append,
      not_or] at hnd'
    obtain ⟨-, -, ⟨⟨hic, his⟩, hndc, hnds, hcs⟩, hdisj⟩ := hnd'
    obtain ⟨-, ⟨-, hchild', -⟩, hlc, -⟩ := linked_append.mp hlink
    have hlen : c.ids.length < (a ++ node i c s).ids.length := by
      simp only [ids_append, ids, List.length_append, List.length_cons]
      omega
    obtain ⟨h', hrun, hun⟩ := rawReleaseResource_unlinked hchild' hlc
      (List.nodup_cons.mpr ⟨hic, hndc⟩) hc (hlen.le.trans hfuel)
    refine ⟨h', hrun, ?_⟩
    have hio : i ≠ old := fun hio => hic (hio ▸ hc)
    rw [excise_append fun hm => hdisj old hm old (Or.inr (Or.inl hc)) rfl, excise, if_neg hio,
      excise_of_notMem fun hm => hcs old hc old hm rfl]
    exact hun.descend (fun j hj => (excise_ids_sublist c).subset hj) hc hchild hlink hnd
termination_by kids.ids.length

theorem Ordered.excise : ∀ {f : Forest ℕ} {lo hi : ℕ}, Ordered h lo hi f →
    Ordered h lo hi (f.excise drop old)
  | nil, _, _, _ => trivial
  | node i c s, lo, hi, ⟨hr, hc, hs⟩ => by
      rw [Forest.excise]
      split_ifs
      · exact hs.weaken (by omega) le_rfl
      · exact (hc.weaken hr.1 le_rfl).append hs (by omega) (by omega)
      · exact ⟨hr, hc.excise, hs.excise⟩

/-- A release leaves a well-formed tree. -/
theorem Unlinked.tree (hun : Unlinked h h' root old (kids.excise drop old))
    (htree : ResourceTree h root kids) : ResourceTree h' root (kids.excise drop old) := by
  obtain ⟨hstart, hstop⟩ := hun.range root
  refine ⟨hun.child_eq, hun.linked, ?_, ?_, ?_⟩
  · rw [hstart, hstop]
    exact htree.range
  · rw [hstart, hstop]
    exact (Ordered.excise htree.ordered).congr fun i _ => hun.range i
  · exact ((excise_ids_sublist kids).cons_cons root).nodup htree.nodup

/-! ## A request, released -/

theorem store_congr {h₁ : ResHeap} {l : Link} {v : Option ℕ} {i : ℕ} (hi : h₁ i = h i) :
    l.store h₁ v i = l.store h v i := by
  by_cases hio : i = l.owner
  · cases l with
    | child r =>
      obtain rfl : i = r := hio
      simp [Link.store, hi]
    | sibling r =>
      obtain rfl : i = r := hio
      simp [Link.store, hi]
  · rw [store_of_ne _ l hio, hi, store_of_ne _ l hio]

/-- A link stored to and then set back. -/
theorem store_back {h₁ : ResHeap} {l : Link} {v : Option ℕ} {i : ℕ} (hi : h₁ i = l.store h v i) :
    l.store h₁ (l.load h) i = h i := by
  rw [store_congr hi]
  by_cases hio : i = l.owner
  · cases l with
    | child r =>
      obtain rfl : i = r := hio
      simp [Link.store, Link.load]
    | sibling r =>
      obtain rfl : i = r := hio
      simp [Link.store, Link.load]
  · rw [store_of_ne _ l hio, store_of_ne _ l hio]

theorem ResourceTree.congr {h' : ResHeap} (htree : ResourceTree h root kids)
    (hsame : ∀ i ∈ root :: kids.ids, h' i = h i) : ResourceTree h' root kids := by
  obtain ⟨hroot, hkids⟩ := List.forall_mem_cons.mp hsame
  refine ⟨?_, htree.linked.congr hkids, ?_, ?_, htree.nodup⟩
  · rw [hroot, htree.child_eq]
  · rw [hroot]
    exact htree.range
  · rw [hroot]
    exact htree.ordered.congr fun i hi => by rw [hkids i hi]; exact ⟨rfl, rfl⟩

/-- The request, as the search leaves it. -/
theorem requestResource_linkIn {h₁ : ResHeap} (htree : ResourceTree h root kids)
    (hfuel : kids.ids.length < fuel) (hreq : requestResource fuel h root new = .ok (none, h₁)) :
    (h new).start ≤ (h new).stop ∧ ∃ a b, kids = a ++ b ∧ Ordered h (h root).start (h new).start a ∧
      Ordered h ((h new).stop + 1) ((h root).stop + 1) b ∧ h₁ = linkIn h root new a b := by
  by_cases hin : LiesInside h new root
  · obtain ⟨r, hr, a, b, hab, ha, hcase⟩ := requestLoop_spec new htree.child_eq htree.linked htree.ordered
      ((length_tops_le kids).trans_lt hfuel)
    obtain ⟨hrange, hlo, hhi⟩ := hin
    unfold requestResource at hreq
    rw [if_neg (by omega), if_neg (by omega), if_neg (by omega), hr] at hreq
    rcases hcase with ⟨hb, rfl⟩ | ⟨i, c, s, -, -, rfl⟩
    · cases hreq
      exact ⟨hrange, a, b, hab, ha, hb, rfl⟩
    · cases hreq
  · rw [requestResource_outside hin] at hreq
    cases hreq

/-- A root that requests itself has no children, and is its own child until it is released. -/
theorem releaseResource_request_self {n : ℕ} (hleaf : (h root).child = none) :
    ∃ h₂, releaseResource (n + 1) (linkIn h root root nil nil) root = .ok (0, h₂) ∧
      (∀ i, i ≠ root → h₂ i = h i) ∧ h₂ root =
        { h root with parent := none, sibling := (linkIn h root root nil nil root).sibling } := by
  have hroot : linkIn h root root nil nil root =
      { h root with parent := some root, sibling := none, child := some root } := by
    simp [linkIn, linkAfter, setParent, Link.store, headOr]
  have hne : ∀ i, i ≠ root → linkIn h root root nil nil i = h i := fun i hi =>
    linkIn_of_ne hi hi (by simp [ids])
  generalize linkIn h root root nil nil = h₁ at hroot hne ⊢
  refine ⟨setParent (Link.store h₁ none (.child root)) root none, ?_, fun i hi => ?_, ?_⟩
  · have hstep : releaseStep (n + 1) h₁ root true (.child root) =
        .ok (.inr (0, setParent (Link.store h₁ none (.child root)) root none)) := by
      simp [releaseStep, Link.load, hroot]
    rw [releaseResource, rawReleaseResource, hroot]
    exact Exec.loop_done hstep
  · rw [setParent_of_ne hi, store_of_ne _ (.child root) hi, hne i hi]
  · simp [setParent, Link.store, hroot, hleaf]

/-- A new leaf, released. -/
theorem releaseResource_request {a b : Forest ℕ} (hchild : (h root).child = (a ++ b).headOr none)
    (hlink : Linked h root none (a ++ b)) (hnd : (root :: (a ++ b).ids).Nodup)
    (hnew : new ∉ root :: (a ++ b).ids) (hfuel : a.tops.length < fuel) :
    ∃ h₂, releaseResource fuel (linkIn h root new a b) new = .ok (0, h₂) ∧
      (∀ i, i ≠ new → h₂ i = h i) ∧ h₂ new =
        { h new with parent := none, sibling := (linkIn h root new a b new).sibling } := by
  obtain ⟨-, hnr, hna, -⟩ := nodup_split hnd hnew
  obtain ⟨hrun, hload₁, hnew₁⟩ := linkIn_run hchild hlink hnd hnew
  have hload : (linkAfter (.child root) a).load h = b.headOr none :=
    load_linkAfter (hchild.trans (headOr_append _ a b)) (linked_append.mp hlink).1
  have hback : ∀ i, i ≠ new → linkIn h root new a b i =
      (linkAfter (.child root) a).store h (some new) i := fun i hi => by
    have hsame : Link.store h (b.headOr none) (.sibling new) i = h i := store_of_ne _ (.sibling new) hi
    rw [linkIn, setParent_of_ne hi]
    exact store_congr hsame
  generalize linkIn h root new a b = h₁ at hrun hload₁ hnew₁ hback ⊢
  have hload' : (linkAfter (.child root) a).load h₁ = some new := load_linkAfter hload₁ hrun
  obtain ⟨n, rfl⟩ : ∃ n, fuel = a.tops.length + (n + 1) := ⟨fuel - a.tops.length - 1, by omega⟩
  refine ⟨setParent ((linkAfter (.child root) a).store h₁ (b.headOr none)) new none, ?_, fun i hi => ?_,
    ?_⟩
  · have hstep : releaseStep (a.tops.length + (n + 1)) h₁ new true (linkAfter (.child root) a) =
        .ok (.inr (0, setParent ((linkAfter (.child root) a).store h₁ (b.headOr none)) new none)) := by
      simp [releaseStep, hload', hnew₁]
    rw [releaseResource, rawReleaseResource, hnew₁]
    dsimp only
    rw [releaseLoop_walk hload₁ hrun fun hm => hna (tops_subset_ids a new hm), Exec.loop_done hstep]
  · rw [setParent_of_ne hi, ← hload]
    exact store_back (hback i hi)
  · rw [setParent, Function.update_self, store_linkAfter_of_ne hnr hna, hnew₁]

/-! ## Exactness -/

/-- **Releasing resources keeps the tree well-formed.**  A release takes exactly `old` and what is below
it out of the tree, or `old` alone, its children taking its place; where `old` is not among the children
of its parent it fails and changes nothing; and it undoes a request, whatever was requested. -/
theorem resource_release_exact (htree : ResourceTree h root kids) (hfuel : kids.ids.length < fuel) :
    (∀ old ∈ kids.ids, ∀ drop, ∃ h', rawReleaseResource fuel h old drop = .ok (0, h') ∧
      ResourceTree h' root (kids.excise drop old) ∧ Unlinked h h' root old (kids.excise drop old)) ∧
    (∀ old, (∀ j, j ∈ (kids.excise true old).ids ↔ j ∈ kids.ids ∧ j ≠ old ∧ ¬kids.Anc old j) ∧
      (kids.excise false old).ids = kids.ids.erase old ∧
      ∀ a b, a ≠ old → b ≠ old → ((kids.excise false old).Anc a b ↔ kids.Anc a b)) ∧
    (∀ old p l drop, (h old).parent = some p → Siblings h (h p).child l → old ∉ l → l.length < fuel →
      rawReleaseResource fuel h old drop = .ok (-EINVAL, h)) ∧
    ∀ new h₁, requestResource fuel h root new = .ok (none, h₁) →
      ∃ h₂, releaseResource fuel h₁ new = .ok (0, h₂) ∧ ResourceTree h₂ root kids ∧
        (∀ i, i ≠ new → h₂ i = h i) ∧
        h₂ new = { h new with parent := none, sibling := (h₁ new).sibling } := by
  have hnd := (List.nodup_cons.mp htree.nodup).2
  refine ⟨fun old hold drop => ?_, fun old => ⟨fun j => mem_excise_true_iff hnd,
    ids_excise_false kids hnd, fun a b ha hb => anc_excise_false ha hb hnd⟩, ?_, ?_⟩
  · obtain ⟨h', hrun, hun⟩ := @rawReleaseResource_unlinked h old fuel drop kids root htree.child_eq
      htree.linked htree.nodup hold hfuel.le
    exact ⟨h', hrun, hun.tree htree, hun⟩
  · intro old p l drop hpar hl hold hlen
    rw [rawReleaseResource, hpar]
    exact releaseLoop_absent (p := .child p) hl hold hlen
  · intro new h₁ hreq
    obtain ⟨hrange, a, b, rfl, ha, hb, rfl⟩ := requestResource_linkIn htree hfuel hreq
    have hlen := length_tops_le a
    rw [ids_append, List.length_append] at hfuel
    have hnew : new ∉ (a ++ b).ids := fun hm => by
      rw [ids_append, List.mem_append] at hm
      rcases hm with hm | hm
      · have hlt := ha.bounds new hm
        omega
      · have hlt := hb.bounds new hm
        omega
    by_cases hroot : new = root
    · subst hroot
      cases a with
      | node i c s => exact absurd ha.1 (by omega)
      | nil =>
        cases b with
        | node i c s => exact absurd hb.1 (by omega)
        | nil =>
          obtain ⟨n, rfl⟩ : ∃ n, fuel = n + 1 := ⟨fuel - 1, by omega⟩
          obtain ⟨h₂, hrun, hsame, hself⟩ := @releaseResource_request_self h new n htree.child_eq
          refine ⟨h₂, hrun, ⟨?_, trivial, ?_, trivial, htree.nodup⟩, hsame, hself⟩
          · rw [hself]
            exact htree.child_eq
          · rw [hself]
            exact htree.range
    · have hfresh : new ∉ root :: (a ++ b).ids := by
        rw [List.mem_cons, not_or]
        exact ⟨hroot, hnew⟩
      obtain ⟨h₂, hrun, hsame, hself⟩ := releaseResource_request htree.child_eq htree.linked htree.nodup
        hfresh (show a.tops.length < fuel by omega)
      exact ⟨h₂, hrun, htree.congr fun i hi => hsame i fun hin => hfresh (hin ▸ hi), hsame, hself⟩

/-- A root over `[0, 99]` with three children, the middle one with two of its own, the loose resource
`[52, 55]`, and others that the root is the parent of by their own word only. -/
def bridgeHeap : ResHeap
  | 0 => ⟨0, 99, none, none, some 1⟩
  | 1 => ⟨0, 9, some 0, some 2, none⟩
  | 2 => ⟨10, 49, some 0, some 3, some 4⟩
  | 3 => ⟨60, 69, some 0, none, none⟩
  | 4 => ⟨12, 19, some 2, some 5, none⟩
  | 5 => ⟨20, 29, some 2, none, none⟩
  | 6 => ⟨52, 55, none, none, none⟩
  | _ => ⟨52, 55, some 0, none, none⟩

/-- Its tree. -/
def bridgeTree : Forest ℕ := node 1 nil (node 2 (node 4 nil (node 5 nil nil)) (node 3 nil nil))

theorem bridgeHeap_tree : ResourceTree bridgeHeap 0 bridgeTree := by
  refine ⟨rfl, ?_, by decide, ?_, by decide⟩
  · simp [bridgeTree, Linked, bridgeHeap, headOr]
  · simp [bridgeTree, Ordered, bridgeHeap]

/-- The middle child goes alone or with its children, what the root does not have is not released, and
the loose resource is requested and released. -/
theorem resource_release_exact_bridge :
    (∃ h', rawReleaseResource 6 bridgeHeap 2 false = .ok (0, h') ∧
      ResourceTree h' 0 (node 1 nil (node 4 nil (node 5 nil (node 3 nil nil))))) ∧
    (∃ h', rawReleaseResource 6 bridgeHeap 2 true = .ok (0, h') ∧
      ResourceTree h' 0 (node 1 nil (node 3 nil nil))) ∧
    rawReleaseResource 6 bridgeHeap 7 false = .ok (-EINVAL, bridgeHeap) ∧
    ∃ h₁ h₂, requestResource 6 bridgeHeap 0 6 = .ok (none, h₁) ∧
      releaseResource 6 h₁ 6 = .ok (0, h₂) ∧ ResourceTree h₂ 0 bridgeTree := by
  obtain ⟨hrelease, -, habsent, hundo⟩ := resource_release_exact bridgeHeap_tree (show _ < 6 by decide)
  obtain ⟨h', hrun, htree, -⟩ := hrelease 2 (by decide) false
  obtain ⟨h'', hrun', htree', -⟩ := hrelease 2 (by decide) true
  obtain ⟨h₁, hreq⟩ : ∃ h₁, requestResource 6 bridgeHeap 0 6 = .ok (none, h₁) := ⟨_, rfl⟩
  obtain ⟨h₂, hundone, htree₂, -⟩ := hundo 6 h₁ hreq
  have hnone := habsent 7 0 [1, 2, 3] false rfl ⟨rfl, rfl, rfl, trivial⟩ (by decide) (by decide)
  exact ⟨⟨h', hrun, htree⟩, ⟨h'', hrun', htree'⟩, hnone, h₁, h₂, hreq, hundone, htree₂⟩

end Sandix
