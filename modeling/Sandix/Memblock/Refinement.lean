import Sandix.Machinery.Labelled
import Sandix.Memblock.Difference
import Sandix.Memblock.TotalSize

/-!
# Memblock/Refinement — a run of calls is a run of edits of a map

What `memblock` is for: two partial maps from addresses to a node and flags (`BootMap`).  Every call
either edits one of the maps or is refused and changes nothing.

The arrays hold nothing but their maps: no two regions could be merged, so the regions, their number
and the recorded size are functions of the map, and the map decides which calls are refused
(`MemblockOp.Fits`).

* `runAccepted_refines` — a run returns the codes that the maps predict, and the arrays stand for the
  edits of the accepted calls.
* `runAccepted_canonical` — runs that make the same edits leave the same arrays.
* `runAccepted_perm` — accepted calls of `memblock_add` and `memblock_reserve` may come in any order.
-/

namespace Sandix

open Machinery

/-! ## The maps -/

/-- A node and flags for every address that is in the map. -/
abbrev AddressMap := ℕ → Option (ℤ × ℕ)

/-- `memblock.memory` and `memblock.reserved`, as maps. -/
structure BootMap where
  memory : AddressMap
  reserved : AddressMap

/-- Nothing is memory, and nothing is reserved. -/
def BootMap.empty : BootMap := ⟨fun _ => none, fun _ => none⟩

/-- What a caller names by a base and a size. -/
def editRange (base size : ℕ) : Set ℕ := {a | base ≤ a ∧ a < base + memblockCapSize base size}

/-- What a call does to the maps when it is accepted. -/
noncomputable def MemblockOp.edit (m : BootMap) : MemblockOp → BootMap
  | .add base size => { m with memory := paint (editRange base size) m.memory (maxNrNodes, 0) }
  | .addNode base size nid => { m with memory := paint (editRange base size) m.memory (nid, 0) }
  | .reserve base size => { m with reserved := paint (editRange base size) m.reserved (maxNrNodes, 0) }
  | .remove base size => { m with memory := erase (editRange base size) m.memory }
  | .free base size => { m with reserved := erase (editRange base size) m.reserved }
  | .setNode base size .memory nid =>
    { m with memory := relabel (editRange base size) m.memory fun c => (nid, c.2) }
  | .setNode base size .reserved nid =>
    { m with reserved := relabel (editRange base size) m.reserved fun c => (nid, c.2) }

/-! ## When a call is refused -/

/-- There are entries for what the range adds to the map: its free parts, unless the map is empty. -/
def AddFits (m : AddressMap) (base size : ℕ) : Prop :=
  (∃ a, m a ≠ none) → (starts m).ncard +
    (gaps m base (base + memblockCapSize base size)).ncard ≤ initMemblockRegions

/-- There are entries for cutting the map at both ends of the range. -/
def SplitFits (m : AddressMap) (base size : ℕ) : Prop :=
  memblockCapSize base size ≠ 0 → (starts m).ncard + 2 ≤ initMemblockRegions

/-- The call has the room it asks for. -/
def MemblockOp.Fits (m : BootMap) : MemblockOp → Prop
  | .add base size => AddFits m.memory base size
  | .addNode base size _ => AddFits m.memory base size
  | .reserve base size => AddFits m.reserved base size
  | .remove base size => SplitFits m.memory base size
  | .free base size => SplitFits m.reserved base size
  | .setNode base size .memory _ => SplitFits m.memory base size
  | .setNode base size .reserved _ => SplitFits m.reserved base size

open Classical in
/-- A call on the maps: its edit, or `-ENOMEM` for want of room. -/
noncomputable def MemblockOp.call (m : BootMap) (op : MemblockOp) : ℤ × BootMap :=
  if op.Fits m then (0, op.edit m) else (enomem, m)

/-- A run on the maps: what the calls return, and the maps after them. -/
noncomputable def BootMap.run (m : BootMap) : List MemblockOp → List ℤ × BootMap
  | [] => ([], m)
  | op :: ops =>
    let rest := (op.call m).2.run ops
    ((op.call m).1 :: rest.1, rest.2)

/-! ## Runs of the code -/

/-- What the calls of a run return, and the state after it. -/
def memblockRun : List MemblockOp → Memblock → Exec (List ℤ × Memblock)
  | [], m => .ok ([], m)
  | op :: ops, m => do
    let (ret, m) ← op.exec m
    let (rets, m) ← memblockRun ops m
    pure (ret :: rets, m)

/-- The calls of a run that returned `0`, and the state after it. -/
def runAccepted : List MemblockOp → Memblock → Exec (List MemblockOp × Memblock)
  | [], m => .ok ([], m)
  | op :: ops, m => do
    let (ret, m) ← op.exec m
    let (accepted, m) ← runAccepted ops m
    pure (if ret = 0 then op :: accepted else accepted, m)

/-! ## The map of an array -/

/-- Node and flags of a region. -/
abbrev MemblockRegion.label (r : MemblockRegion) : ℤ × ℕ := (r.nid, r.flags)

/-- The array stands for the map. -/
abbrev MemblockType.Shows (t : MemblockType) (m : AddressMap) : Prop :=
  Stands MemblockRegion.base (fun r => r.base + r.size) MemblockRegion.label t.regions m

section Shows

variable {t t' : MemblockType} {m : AddressMap} {base size : ℕ}

theorem labelAt_iff {rs : List MemblockRegion} {a : ℕ} {c : ℤ × ℕ} :
    LabelAt MemblockRegion.base (fun r => r.base + r.size) MemblockRegion.label rs a c ↔
      RegionAt rs a c.1 c.2 := by
  obtain ⟨k, f⟩ := c
  simp [LabelAt, RegionAt]

theorem MemblockType.Shows.regionAt (h : t.Shows m) {a : ℕ} {k : ℤ} {f : ℕ} :
    RegionAt t.regions a k f ↔ m a = some (k, f) := by
  rw [← h a (k, f), labelAt_iff]

theorem shows_iff : t.Shows m ↔ ∀ a k f, RegionAt t.regions a k f ↔ m a = some (k, f) :=
  ⟨fun h _ _ _ => h.regionAt, fun h a c => labelAt_iff.trans (h a c.1 c.2)⟩

theorem MemblockType.Shows.covers (h : t.Shows m) {a : ℕ} : t.Covers a ↔ m a ≠ none := by
  rw [MemblockType.Covers, regionCovers_iff, Option.ne_none_iff_exists']
  simp [h.regionAt]

theorem MemblockType.Minimal.tight (h : t.Minimal) :
    Tight MemblockRegion.base (fun r => r.base + r.size) MemblockRegion.label t.regions :=
  h.imp fun hr hjoin => hr ⟨hjoin.1, (Prod.mk.inj hjoin.2).1, (Prod.mk.inj hjoin.2).2⟩

/-- Merging leaves a minimal array. -/
theorem WellFormed.minimal_merged (h : WellFormed t) :
    MemblockType.Minimal { t with regions := Sandix.merged t.regions } := by
  rcases h.content with hc | ⟨r, hr, -⟩
  · obtain ⟨this, rs, ht⟩ := List.exists_cons_of_length_pos h.one_le
    rw [ht] at hc
    rw [MemblockType.Minimal, ht]
    exact pairwise_mergeFrom hc
  · rw [MemblockType.Minimal, hr]
    exact List.pairwise_singleton _ _

end Shows

/-- What is true of an array between two calls, when it stands for `m`. -/
structure Presents (t : MemblockType) (m : AddressMap) : Prop where
  wellFormed : WellFormed t
  max_eq : t.max = initMemblockRegions
  minimal : t.Minimal
  total : t.TotalExact
  shows : t.Shows m

/-! ## One editor -/

/-- The editor turns the array into one that stands for `m'` when there is room, and refuses when there
is none. -/
def Performs (f : MemblockType → Exec (ℤ × MemblockType)) (t : MemblockType) (room : Prop)
    (m' : AddressMap) : Prop :=
  ∃ ret t', f t = .ok (ret, t') ∧
    (room ∧ ret = 0 ∧ Presents t' m' ∨ ¬room ∧ ret = enomem ∧ t' = t)

namespace Presents

variable {t : MemblockType} {m : AddressMap} (h : Presents t m) (base size : ℕ)

include h

theorem balanced : t.Balanced := (MemblockType.balanced_iff h.wellFormed).mpr h.total

omit base size in
/-- An array that covers something is in order. -/
theorem regionsFrom {a : ℕ} (ha : t.Covers a) : RegionsFrom 0 t.regions := by
  rcases h.wellFormed.content with hc | ⟨r, hr, -, hs⟩
  · exact hc
  · exact absurd ha (not_covers_empty hr hs a)

omit base size in
/-- The map says how many regions there are, if it covers anything; the array of nothing has one. -/
theorem nrRegions_eq : (∃ a, t.Covers a) ∧ t.nrRegions = (starts m).ncard ∨
    (∀ a, ¬t.Covers a) ∧ t.nrRegions = 1 ∧ (starts m).ncard = 0 := by
  by_cases hne : ∃ a, t.Covers a
  · obtain ⟨a, ha⟩ := hne
    exact Or.inl ⟨⟨a, ha⟩, (h.regionsFrom ha).asc.length_eq_ncard h.minimal.tight h.shows⟩
  · push Not at hne
    have hstarts : starts m = ∅ := by
      ext a
      exact iff_of_false (fun hmem => hne a (h.shows.covers.mpr hmem.1)) (Set.notMem_empty a)
    refine Or.inr ⟨hne, ?_, by rw [hstarts, Set.ncard_empty]⟩
    rcases h.wellFormed.content with hc | ⟨r, hr, -, -⟩
    · obtain ⟨r, rs, hr⟩ := List.exists_cons_of_length_pos h.wellFormed.one_le
      have hin : r ∈ t.regions := hr ▸ List.mem_cons_self
      exact absurd ⟨r, hin, le_rfl, hc.asc.start_lt_stop hin⟩ (hne r.base)
    · rw [MemblockType.nrRegions, hr, List.length_singleton]

/-- The room `memblock_add_range` asks for. -/
theorem addFits_iff : AddFits m base size ↔ ¬t.LacksRoom base size := by
  have hgaps : gapSet t.regions base (base + memblockCapSize base size) =
      gaps m base (base + memblockCapSize base size) := by
    ext g
    exact h.shows.maximalGap_iff
  have hcov : (∃ a, t.Covers a) ↔ ∃ a, m a ≠ none := exists_congr fun a => h.shows.covers
  rw [AddFits, MemblockType.LacksRoom, MemblockType.gapCount, hgaps, ← hcov, h.max_eq]
  rcases h.nrRegions_eq with ⟨hne, hnr⟩ | ⟨hno, -⟩
  · rw [hnr, not_and, not_lt]
  · have hempty : ¬∃ a, t.Covers a := not_exists.mpr hno
    exact iff_of_true (fun hne => absurd hne hempty) fun hne => hempty hne.1

/-- The room `memblock_isolate_range` asks for. -/
theorem splitFits_iff : SplitFits m base size ↔
    ¬(memblockCapSize base size ≠ 0 ∧ t.max < t.nrRegions + 2) := by
  rw [SplitFits, not_and, h.max_eq, not_lt]
  refine imp_congr_right fun _ => ?_
  rcases h.nrRegions_eq with ⟨-, hnr⟩ | ⟨-, hnr, hstarts⟩
  · rw [hnr]
  · rw [hnr, hstarts]
    exact iff_of_true (by decide) (by decide)

/-- **Adding a range paints it.** -/
theorem addRange (nid : ℤ) (flags : ℕ) :
    Performs (fun t => memblockAddRange t base size nid flags) t (AddFits m base size)
      (paint (editRange base size) m (nid, flags)) := by
  obtain ⟨ret, t', hadd, hcontent⟩ := memblockAddRange_content h.wellFormed base size nid flags
  obtain ⟨_, _, hadd', hwf, hmax⟩ := @memblockAddRange_wellFormed t base size h.wellFormed nid flags
  cases hadd.symm.trans hadd'
  have hroom := memblockAddRange_enomem_iff h.wellFormed hadd
  refine ⟨ret, t', hadd, ?_⟩
  rw [h.addFits_iff, ← hroom]
  rcases hcontent with ⟨rfl, hat⟩ | ⟨rfl, rfl, -⟩
  · refine Or.inl ⟨by decide, rfl, hwf, hmax.trans h.max_eq,
      (memblockAddRange_room h.wellFormed h.minimal nid flags hadd).1,
      (MemblockType.balanced_iff hwf).mp (h.balanced.addRange h.wellFormed hadd), ?_⟩
    refine shows_iff.mpr fun a k f => ?_
    rw [hat, paint_eq_some, h.shows.regionAt, h.shows.covers, not_not, Prod.mk.injEq]
    rfl
  · exact Or.inr ⟨not_not.mpr rfl, rfl, rfl⟩

/-- **Removing a range erases it.** -/
theorem removeRange :
    Performs (fun t => memblockRemoveRange t base size) t (SplitFits m base size)
      (erase (editRange base size) m) := by
  obtain ⟨ret, t', hrem, hok, hno⟩ := memblockRemoveRange_difference h.wellFormed base size
  obtain ⟨_, _, hrem', hwf, hmax⟩ := @memblockRemoveRange_wellFormed t base size h.wellFormed
  cases hrem.symm.trans hrem'
  have hroom := memblockRemoveRange_enomem_iff h.wellFormed hrem
  refine ⟨ret, t', hrem, ?_⟩
  rw [h.splitFits_iff, ← hroom]
  by_cases hret : ret = 0
  · obtain ⟨hat, hmin⟩ := hok hret
    refine Or.inl ⟨by rw [hret]; decide, hret, hwf, hmax.trans h.max_eq, hmin h.minimal,
      (MemblockType.balanced_iff hwf).mp (h.balanced.removeRange hrem), ?_⟩
    refine shows_iff.mpr fun a k f => ?_
    rw [hat, erase_eq_some, h.shows.regionAt]
    rfl
  · exact Or.inr ⟨not_not.mpr (hno hret).1, hno hret⟩

/-- **Setting a node relabels the range.** -/
theorem setNode (nid : ℤ) :
    Performs (fun t => memblockSetNode t base size nid) t (SplitFits m base size)
      (relabel (editRange base size) m fun c => (nid, c.2)) := by
  obtain ⟨ret, t', hset, hok, hno⟩ := memblockSetNode_relabels h.wellFormed base size nid
  obtain ⟨_, _, hset', hwf, hmax⟩ := @memblockSetNode_wellFormed t base size h.wellFormed nid
  cases hset.symm.trans hset'
  have hroom := memblockSetNode_enomem_iff h.wellFormed hset
  refine ⟨ret, t', hset, ?_⟩
  rw [h.splitFits_iff, ← hroom]
  by_cases hret : ret = 0
  · have hmin : t'.Minimal := by
      rcases memblockSetNode_cases base size h.wellFormed nid with
        ⟨-, hset'⟩ | ⟨-, ⟨-, hset'⟩ | ⟨t₁, hwf₁, -, -, hset'⟩⟩
      · cases hset.symm.trans hset'
        exact h.wellFormed.minimal_merged
      · cases hset.symm.trans hset'
        exact absurd hret (by decide)
      · cases hset.symm.trans hset'
        exact hwf₁.minimal_merged
    refine Or.inl ⟨by rw [hret]; decide, hret, hwf, hmax.trans h.max_eq, hmin,
      (MemblockType.balanced_iff hwf).mp (h.balanced.setNode hset), ?_⟩
    refine shows_iff.mpr fun a k f => ?_
    rw [hok hret, relabel_eq_some]
    by_cases ha : base ≤ a ∧ a < base + memblockCapSize base size
    · rw [if_pos ha, if_pos (show a ∈ editRange base size from ha),
        exists_congr fun k' => h.shows.regionAt]
      constructor
      · rintro ⟨rfl, k', hm⟩
        exact ⟨(k', f), hm, rfl⟩
      · rintro ⟨⟨k', f'⟩, hm, heq⟩
        obtain ⟨rfl, rfl⟩ := Prod.mk.inj heq
        exact ⟨rfl, k', hm⟩
    · rw [if_neg ha, if_neg (show a ∉ editRange base size from ha)]
      exact h.shows.regionAt
  · exact Or.inr ⟨not_not.mpr (hno hret).1, hno hret⟩

omit base size in
/-- **Arrays that stand for one map are the same array**, unless they cover nothing. -/
theorem unique {t' : MemblockType} (h' : Presents t' m) :
    t = t' ∨ ∀ a, ¬t.Covers a ∧ ¬t'.Covers a := by
  by_cases hne : ∃ a, t.Covers a
  · obtain ⟨a, ha⟩ := hne
    have ha' : t'.Covers a := h'.shows.covers.mpr (h.shows.covers.mp ha)
    have hlists := Ascending.ext (h.regionsFrom ha).asc (h'.regionsFrom ha').asc h.minimal.tight
      h'.minimal.tight fun a c => (h.shows a c).trans (h'.shows a c).symm
    have hreg : t.regions = t'.regions := by
      refine List.map_injective_iff.mpr ?_ hlists
      rintro ⟨base, size, flags, nid⟩ ⟨base', size', flags', nid'⟩ heq
      simp only [Prod.mk.injEq] at heq
      obtain ⟨rfl, hsize, rfl, rfl⟩ := heq
      rw [Nat.add_left_cancel hsize]
    have htotal : t.totalSize = t'.totalSize := by
      rw [h.total, h'.total, hreg]
    have hmax : t.max = t'.max := h.max_eq.trans h'.max_eq.symm
    cases t
    cases t'
    cases hreg
    cases htotal
    cases hmax
    exact Or.inl rfl
  · push Not at hne
    refine Or.inr fun a => ⟨hne a, fun ha' => hne a ?_⟩
    exact h.shows.covers.mpr (h'.shows.covers.mp ha')

end Presents

/-! ## Runs -/

/-- The arrays stand for the maps. -/
structure Mirrors (m : Memblock) (b : BootMap) : Prop where
  memory : Presents m.memory b.memory
  reserved : Presents m.reserved b.reserved

theorem presents_init : Presents initMemblockType fun _ => none where
  wellFormed := memblockOk_init.memory
  max_eq := rfl
  minimal := List.pairwise_singleton _ _
  total := rfl
  shows := shows_iff.mpr fun _ _ _ => iff_of_false (not_regionAt_dummy rfl) (Option.not_mem_none _)

theorem runAccepted_cons {op : MemblockOp} {ops accepted : List MemblockOp} {m m₁ m' : Memblock} {ret : ℤ}
    (hop : op.exec m = .ok (ret, m₁)) (hrun : runAccepted ops m₁ = .ok (accepted, m')) :
    runAccepted (op :: ops) m = .ok (if ret = 0 then op :: accepted else accepted, m') := by
  rw [runAccepted, hop, Exec.ok_bind]
  dsimp only
  rw [hrun]
  rfl

theorem memblockRun_cons {op : MemblockOp} {ops : List MemblockOp} {rets : List ℤ}
    {m m₁ m' : Memblock} {ret : ℤ} (hop : op.exec m = .ok (ret, m₁))
    (hrun : memblockRun ops m₁ = .ok (rets, m')) :
    memblockRun (op :: ops) m = .ok (ret :: rets, m') := by
  rw [memblockRun, hop, Exec.ok_bind]
  dsimp only
  rw [hrun]
  rfl

namespace Mirrors

variable {m : Memblock} {b : BootMap} {f : MemblockType → Exec (ℤ × MemblockType)} {room : Prop}
  {map : AddressMap}

theorem onMemory (h : Mirrors m b) (hf : Performs f m.memory room map) :
    ∃ ret m', m.onMemory f = .ok (ret, m') ∧
      (room ∧ ret = 0 ∧ Mirrors m' { b with memory := map } ∨ ¬room ∧ ret = enomem ∧ m' = m) := by
  obtain ⟨ret, t', hok, hret⟩ := hf
  refine ⟨ret, { m with memory := t' }, by rw [Memblock.onMemory, hok]; rfl, ?_⟩
  rcases hret with ⟨hroom, hret, ht⟩ | ⟨hroom, hret, rfl⟩
  · exact Or.inl ⟨hroom, hret, ht, h.reserved⟩
  · exact Or.inr ⟨hroom, hret, rfl⟩

theorem onReserved (h : Mirrors m b) (hf : Performs f m.reserved room map) :
    ∃ ret m', m.onReserved f = .ok (ret, m') ∧
      (room ∧ ret = 0 ∧ Mirrors m' { b with reserved := map } ∨ ¬room ∧ ret = enomem ∧ m' = m) := by
  obtain ⟨ret, t', hok, hret⟩ := hf
  refine ⟨ret, { m with reserved := t' }, by rw [Memblock.onReserved, hok]; rfl, ?_⟩
  rcases hret with ⟨hroom, hret, ht⟩ | ⟨hroom, hret, rfl⟩
  · exact Or.inl ⟨hroom, hret, h.memory, ht⟩
  · exact Or.inr ⟨hroom, hret, rfl⟩

/-- **One call**: its edit where it fits, and `-ENOMEM` with nothing changed where it does not. -/
theorem exec (h : Mirrors m b) (op : MemblockOp) : ∃ ret m', op.exec m = .ok (ret, m') ∧
    (op.Fits b ∧ ret = 0 ∧ Mirrors m' (op.edit b) ∨ ¬op.Fits b ∧ ret = enomem ∧ m' = m) := by
  cases op with
  | add base size => exact h.onMemory (h.memory.addRange base size _ _)
  | addNode base size nid => exact h.onMemory (h.memory.addRange base size _ _)
  | reserve base size => exact h.onReserved (h.reserved.addRange base size _ _)
  | remove base size => exact h.onMemory (h.memory.removeRange base size)
  | free base size => exact h.onReserved (h.reserved.removeRange base size)
  | setNode base size type nid =>
    cases type with
    | memory => exact h.onMemory (h.memory.setNode base size nid)
    | reserved => exact h.onReserved (h.reserved.setNode base size nid)

/-- **A run**: the codes the maps predict, and the edits of the accepted calls; the others could have
been left out. -/
theorem run (h : Mirrors m b) (ops : List MemblockOp) : ∃ accepted m',
    memblockRun ops m = .ok ((b.run ops).1, m') ∧ runAccepted ops m = .ok (accepted, m') ∧
      accepted.Sublist ops ∧ runAccepted accepted m = .ok (accepted, m') ∧
      accepted.foldl MemblockOp.edit b = (b.run ops).2 ∧ Mirrors m' (b.run ops).2 := by
  induction ops generalizing m b with
  | nil => exact ⟨[], m, rfl, rfl, List.Sublist.slnil, rfl, rfl, h⟩
  | cons op ops ih =>
    obtain ⟨ret, m₁, hop, ⟨hfit, rfl, h₁⟩ | ⟨hfit, rfl, rfl⟩⟩ := h.exec op
    · have hcall : op.call b = (0, op.edit b) := if_pos hfit
      obtain ⟨accepted, m', hrun, hacc, hsub, hagain, hedits, hm'⟩ := ih h₁
      rw [BootMap.run, hcall]
      exact ⟨op :: accepted, m', memblockRun_cons hop hrun, runAccepted_cons hop hacc,
        hsub.cons_cons op, runAccepted_cons hop hagain, hedits, hm'⟩
    · have hcall : op.call b = (enomem, b) := if_neg hfit
      obtain ⟨accepted, m', hrun, hacc, hsub, hagain, hedits, hm'⟩ := ih h
      rw [BootMap.run, hcall]
      exact ⟨accepted, m', memblockRun_cons hop hrun, runAccepted_cons hop hacc, hsub.cons op,
        hagain, hedits, hm'⟩

end Mirrors

theorem mirrors_init : Mirrors initMemblock BootMap.empty := ⟨presents_init, presents_init⟩

/-- **A run of calls is a run on two maps.**  Every run returns, with the codes the maps predict: `0`
where the call fits, and then its edit is made, `-ENOMEM` where it does not, and then the call could
have been left out.  The two arrays stand for the maps. -/
theorem runAccepted_refines (ops : List MemblockOp) : ∃ accepted m,
    memblockRun ops initMemblock = .ok ((BootMap.empty.run ops).1, m) ∧
      runAccepted ops initMemblock = .ok (accepted, m) ∧ accepted.Sublist ops ∧
      runAccepted accepted initMemblock = .ok (accepted, m) ∧
      accepted.foldl MemblockOp.edit BootMap.empty = (BootMap.empty.run ops).2 ∧
      m.memory.Shows (BootMap.empty.run ops).2.memory ∧
      m.reserved.Shows (BootMap.empty.run ops).2.reserved := by
  obtain ⟨accepted, m, hrun, hacc, hsub, hagain, hedits, hm⟩ := mirrors_init.run ops
  exact ⟨accepted, m, hrun, hacc, hsub, hagain, hedits, hm.memory.shows, hm.reserved.shows⟩

/-- Every other of 130 pages, from the top down. -/
def oddPages : List MemblockOp := (List.range 65).map fun i => .add ((64 - i) * 0x2000) 0x1000

/-- The 64 gaps between them are more than there are entries left. -/
theorem runAccepted_refines_full : ∃ m,
    memblockRun (oddPages ++ [.add 0 0x100000]) initMemblock =
      .ok (List.replicate 65 0 ++ [enomem], m) ∧
    (BootMap.empty.run (oddPages ++ [.add 0 0x100000])).1 = List.replicate 65 0 ++ [enomem] ∧
    m.memory.Shows (BootMap.empty.run (oddPages ++ [.add 0 0x100000])).2.memory := by
  obtain ⟨-, m, hrun, -, -, -, -, hmemory, -⟩ := runAccepted_refines (oddPages ++ [.add 0 0x100000])
  have hrets : (memblockRun (oddPages ++ [.add 0 0x100000]) initMemblock).map Prod.fst =
      .ok (List.replicate 65 0 ++ [enomem]) := by decide +kernel
  rw [hrun] at hrets
  have hcodes : (BootMap.empty.run (oddPages ++ [.add 0 0x100000])).1 =
      List.replicate 65 0 ++ [enomem] := Except.ok.inj hrets
  rw [hcodes] at hrun
  exact ⟨m, hrun, hcodes, hmemory⟩

/-! ## Runs that make the same edits -/

section Canonical

variable {ops₁ ops₂ accepted₁ accepted₂ : List MemblockOp} {m₁ m₂ : Memblock}

/-- One array, or two that cover nothing. -/
def SameArray (t t' : MemblockType) : Prop := t = t' ∨ ∀ a, ¬t.Covers a ∧ ¬t'.Covers a

theorem mirrors_of_run (h : runAccepted ops₁ initMemblock = .ok (accepted₁, m₁)) :
    Mirrors m₁ (accepted₁.foldl MemblockOp.edit BootMap.empty) := by
  obtain ⟨_, _, -, hrun, -, -, hedits, hm⟩ := mirrors_init.run ops₁
  cases h.symm.trans hrun
  exact hedits ▸ hm

theorem Mirrors.same {b : BootMap} (h₁ : Mirrors m₁ b) (h₂ : Mirrors m₂ b) :
    SameArray m₁.memory m₂.memory ∧ SameArray m₁.reserved m₂.reserved :=
  ⟨h₁.memory.unique h₂.memory, h₁.reserved.unique h₂.reserved⟩

/-- **The arrays are a function of the maps**: runs whose accepted calls make the same edits leave the
same arrays, region for region, or arrays that cover nothing. -/
theorem runAccepted_canonical (h₁ : runAccepted ops₁ initMemblock = .ok (accepted₁, m₁))
    (h₂ : runAccepted ops₂ initMemblock = .ok (accepted₂, m₂))
    (hedits : accepted₁.foldl MemblockOp.edit BootMap.empty =
      accepted₂.foldl MemblockOp.edit BootMap.empty) :
    SameArray m₁.memory m₂.memory ∧ SameArray m₁.reserved m₂.reserved :=
  (mirrors_of_run h₁).same (hedits ▸ mirrors_of_run h₂)

/-- The call adds memory, or reserves some. -/
def MemblockOp.Grows : MemblockOp → Prop
  | .add .. => True
  | .reserve .. => True
  | _ => False

theorem MemblockOp.Grows.edit_comm {op op' : MemblockOp} (h : op.Grows) (h' : op'.Grows)
    (b : BootMap) : op'.edit (op.edit b) = op.edit (op'.edit b) := by
  cases op <;> cases op' <;> first | exact h.elim | exact h'.elim | skip
  · exact congrArg (fun m => (⟨m, b.reserved⟩ : BootMap)) (paint_comm _ _ _ _)
  · rfl
  · rfl
  · exact congrArg (BootMap.mk b.memory) (paint_comm _ _ _ _)

/-- **Adding and reserving in any order** leaves the same arrays, as long as no call is refused. -/
theorem runAccepted_perm (hperm : ops₁.Perm ops₂) (hgrow : ∀ op ∈ ops₁, op.Grows)
    (h₁ : runAccepted ops₁ initMemblock = .ok (ops₁, m₁))
    (h₂ : runAccepted ops₂ initMemblock = .ok (ops₂, m₂)) :
    SameArray m₁.memory m₂.memory ∧ SameArray m₁.reserved m₂.reserved := by
  have hedits := hperm.foldl_eq' (f := MemblockOp.edit)
    (fun x hx y hy z => (hgrow x hx).edit_comm (hgrow y hy) z) BootMap.empty
  exact (mirrors_of_run h₁).same (hedits ▸ mirrors_of_run h₂)

end Canonical

/-- Two pages of memory, and a reservation in the first of them. -/
def twoPages : Memblock :=
  { initMemblock with
    memory := ⟨initMemblockRegions, 0x2000, [⟨0, 0x2000, 0, maxNrNodes⟩]⟩
    reserved := ⟨initMemblockRegions, 0x100, [⟨0x800, 0x100, 0, maxNrNodes⟩]⟩ }

theorem runAccepted_canonical_halves : ∃ m₁ m₂,
    runAccepted [.add 0 0x1000, .reserve 0x800 0x100, .add 0x1000 0x1000] initMemblock =
      .ok ([.add 0 0x1000, .reserve 0x800 0x100, .add 0x1000 0x1000], m₁) ∧
    runAccepted [.reserve 0x800 0x100, .add 0x1000 0x1000, .add 0 0x1000] initMemblock =
      .ok ([.reserve 0x800 0x100, .add 0x1000 0x1000, .add 0 0x1000], m₂) ∧
    SameArray m₁.memory m₂.memory ∧ SameArray m₁.reserved m₂.reserved := by
  have h₁ : runAccepted [.add 0 0x1000, .reserve 0x800 0x100, .add 0x1000 0x1000] initMemblock =
      .ok ([.add 0 0x1000, .reserve 0x800 0x100, .add 0x1000 0x1000], twoPages) := rfl
  have h₂ : runAccepted [.reserve 0x800 0x100, .add 0x1000 0x1000, .add 0 0x1000] initMemblock =
      .ok ([.reserve 0x800 0x100, .add 0x1000 0x1000, .add 0 0x1000], twoPages) := rfl
  have hedits := paint_comm (editRange 0x1000 0x1000) (editRange 0 0x1000) BootMap.empty.memory
    (maxNrNodes, 0)
  exact ⟨twoPages, twoPages, h₁, h₂, runAccepted_canonical h₁ h₂ (congrArg (BootMap.mk · _) hedits)⟩

end Sandix
