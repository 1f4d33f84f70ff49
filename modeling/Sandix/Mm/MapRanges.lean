import Sandix.Machinery.Interval
import Sandix.Mm.DirectMap

/-!
# Mm/MapRanges — how the walkers cut the range

The ranges `memory_map_top_down` and `memory_map_bottom_up` pass to `init_range_memory_mapping` tile
`[map_start, map_end)` (`Tiles`), whatever sizes come back and however `step_size` grows, until it is
shifted out to `0` (`memoryMap_tiles`).

Going down, a step always ends below where it started, as `round_down` never rounds up; going up,
`step_size` is a power of two or `0` (`IsStep`), and `round_up` moves on without wrapping because a
whole step is left.
-/

namespace Sandix

open Machinery Proc

/-- Any procedure in the place of `init_range_memory_mapping` that returns: it answers with any size and
leaves any state behind, but for the record of the calls. -/
def anyRange (f : ℕ → ℕ → MapState → ℕ × MapState) (rStart rEnd : ℕ) : MapProc ℕ := fun s =>
  .ok (f rStart rEnd s).1 { (f rStart rEnd s).2 with ranges := s.ranges }

variable {f : ℕ → ℕ → MapState → ℕ × MapState} {init done : List (ℕ × ℕ)}

/-- A call adds its range to the record. -/
theorem callInitRange_triple (rStart rEnd : ℕ) :
    Triple (fun s => s.ranges = init ++ done) (callInitRange (anyRange f) rStart rEnd)
      (fun _ s => s.ranges = init ++ (done ++ [(rStart, rEnd)])) fun _ => False := by
  have hcall : Triple (fun s => s.ranges = init ++ (done ++ [(rStart, rEnd)]))
      (anyRange f rStart rEnd) (fun _ s => s.ranges = init ++ (done ++ [(rStart, rEnd)]))
      fun _ => False := fun s hs => hs
  refine Triple.update hcall fun s hs => ?_
  rw [hs, List.append_assoc]

/-! ## The size of a step -/

/-- A value `step_size` can have: a power of two of at least a page, or `0` once it is shifted out. -/
def IsStep (stepSize : ℕ) : Prop := stepSize = 0 ∨ ∃ k, pageShift ≤ k ∧ k < 32 ∧ stepSize = 2 ^ k

theorem IsStep.pmdSize : IsStep pmdSize := Or.inr ⟨pmdShift, by decide, by decide, rfl⟩

theorem IsStep.getNewStepSize {stepSize : ℕ} (h : IsStep stepSize) :
    IsStep (getNewStepSize stepSize) := by
  rcases h with rfl | ⟨k, hpage, hk, rfl⟩
  · exact Or.inl rfl
  · rw [Sandix.getNewStepSize, Nat.shiftLeft_eq, ← Nat.pow_add]
    by_cases hlt : k + (pmdShift - pageShift - 1) < 32
    · rw [Nat.mod_eq_of_lt (Nat.pow_lt_pow_right (by decide) hlt)]
      exact Or.inr ⟨_, hpage.trans (Nat.le_add_right _ _), hlt, rfl⟩
    · exact Or.inl (Nat.mod_eq_zero_of_dvd (Nat.pow_dvd_pow 2 (not_lt.mp hlt)))

theorem IsStep.next {w : MapWalk} (h : IsStep w.stepSize) (pos ram : ℕ) :
    IsStep (w.next pos ram).stepSize := by
  simp only [MapWalk.next]
  split_ifs
  · exact h.getNewStepSize
  · exact h

/-! ## Top down -/

/-- A step starts below where it ends, and not below the whole range. -/
theorem topDownStart_lt {mapStart lastStart : ℕ} (stepSize : ℕ) (h : mapStart < lastStart) :
    mapStart ≤ topDownStart mapStart lastStart stepSize ∧
      topDownStart mapStart lastStart stepSize < lastStart := by
  have hle := roundDown_le (lastStart - 1) stepSize
  simp only [topDownStart]
  split_ifs <;> omega

/-- One step down. -/
theorem topDownStep_triple {mapStart realEnd : ℕ} {w : MapWalk} (hgt : mapStart < w.pos)
    (hhi : w.pos ≤ realEnd) (htiles : Tiles w.pos realEnd done) :
    Triple (fun s => s.ranges = init ++ done) (topDownStep (anyRange f) mapStart w)
      (fun r s => ∃ w' : MapWalk, r = .inl w' ∧ mapStart ≤ w'.pos ∧ w'.pos < w.pos ∧
        ∃ rs, s.ranges = init ++ rs ∧ Tiles w'.pos realEnd rs) fun _ => False := by
  obtain ⟨hge, hlt⟩ := topDownStart_lt w.stepSize hgt
  rw [topDownStep, if_pos hgt]
  refine Triple.bind (callInitRange_triple _ _) fun ram => ?_
  refine Triple.update (R := fun s => s.ranges = init ++ (done ++ [(_, w.pos)]))
    (Triple.pure _ fun s hs => ?_) fun s hs => hs
  exact ⟨_, rfl, hge, hlt, _, hs, htiles.below hlt hhi⟩

/-- **The loop**: from `realEnd` down to `mapStart`. -/
theorem topDownLoop_triple {mapStart realEnd : ℕ} (hle : mapStart ≤ realEnd) {w : MapWalk}
    (hw : w.pos = realEnd) :
    Triple (fun s => s.ranges = init)
      (Proc.loop (topDownStep (anyRange f) mapStart) (realEnd + 1) w)
      (fun _ s => ∃ rs, s.ranges = init ++ rs ∧ Tiles mapStart realEnd rs) fun _ => False := by
  -- the variant is `last_start` itself; the ranges so far tile what lies above it
  refine (Triple.loop (fun k w s => w.pos = k ∧ mapStart ≤ k ∧ k ≤ realEnd ∧
    ∃ rs, s.ranges = init ++ rs ∧ Tiles k realEnd rs) ?_ (Nat.lt_succ_self realEnd)).conseq
    (fun s hs => ⟨hw, hle, le_rfl, [], by rw [hs, List.append_nil], .nil _⟩) fun _ _ hs => hs
  rintro k w s ⟨rfl, hlo, hhi, rs, hrs, htiles⟩
  by_cases hgt : mapStart < w.pos
  · refine (topDownStep_triple hgt hhi htiles).conseq (fun _ h => h) ?_ s hrs
    rintro r s ⟨w', rfl, hge, hlt, htiles'⟩
    exact ⟨w'.pos, hlt, rfl, hge, by omega, htiles'⟩
  · have heq : w.pos = mapStart := by omega
    rw [topDownStep, if_neg hgt]
    exact ⟨rs, hrs, heq ▸ htiles⟩

/-- `memory_map_top_down`. -/
theorem memoryMapTopDown_tiles {s : MapState} (hm : MemblockOk s.memblock) {mapEnd : ℕ}
    (hend : pmdSize ≤ mapEnd) (hlt : mapEnd < 2 ^ 32) :
    ∃ s' rs, memoryMapTopDown (anyRange f) isaEndAddress mapEnd s = .ok () s' ∧
      s'.ranges = s.ranges ++ rs ∧ Tiles isaEndAddress mapEnd rs := by
  obtain ⟨addr, haddr, hfound⟩ := memblockFindInRangeNode_found hm pmdSize pmdSize isaEndAddress mapEnd
    numaNoNode 0
  -- where the search fails `real_end` is `PMD_SIZE`
  have hreal : isaEndAddress ≤ addr + pmdSize ∧ addr + pmdSize ≤ mapEnd := by
    rcases hfound with rfl | hfound
    · exact ⟨by decide, by omega⟩
    · have hne : mapEnd ≠ 0 := (hend.trans_lt' (by decide)).ne'
      have h₁ := hfound.start_le
      have h₂ := hfound.le_stop hne
      simp only [isaEndAddress, pageSize, pmdSize, pmdShift] at *
      omega
  have hmod : (addr + pmdSize) % 2 ^ 32 = addr + pmdSize := Nat.mod_eq_of_lt (by omega)
  suffices h : Triple (fun s' => s' = s) (memoryMapTopDown (anyRange f) isaEndAddress mapEnd)
      (fun _ s' => ∃ rs, s'.ranges = s.ranges ++ rs ∧ Tiles isaEndAddress mapEnd rs)
      fun _ => False by
    obtain ⟨⟨⟩, s', hrun, rs, hrs, htiles⟩ := h.returns rfl
    exact ⟨s', rs, hrun, hrs, htiles⟩
  refine Triple.read fun s₀ hs₀ => ?_
  rw [hs₀, memblockFindInRange, haddr, Proc.ofExec_ok_bind, hmod]
  generalize addr + pmdSize = realEnd at hreal ⊢
  refine Triple.update (R := fun s' => s'.ranges = s.ranges) ?_ fun s' h => by rw [h]
  refine Triple.bind (topDownLoop_triple hreal.1 rfl) fun _ => ?_
  refine Triple.ite (fun hlast => ?_) fun hlast => ?_
  · refine Triple.bind (Q := fun _ s' => ∃ rs, s'.ranges = s.ranges ++ rs ∧
      Tiles isaEndAddress mapEnd rs) ?_ fun _ => Triple.pure _ fun _ h => h
    rintro s' ⟨rs, hrs, htiles⟩
    refine (callInitRange_triple realEnd mapEnd).conseq (fun _ h => h) ?_ s' hrs
    exact fun _ _ hs => ⟨_, hs, htiles.above hreal.1 hlast⟩
  · refine Triple.pure _ ?_
    rintro s' ⟨rs, hrs, htiles⟩
    have heq : realEnd = mapEnd := by omega
    exact ⟨rs, hrs, heq ▸ htiles⟩

/-! ## Bottom up -/

/-- A step ends above where it starts, and not above the whole range. -/
theorem lt_bottomUpNext {mapEnd start stepSize : ℕ} (hstep : IsStep stepSize) (h : start < mapEnd)
    (hlt : mapEnd < 2 ^ 32) :
    start < bottomUpNext mapEnd start stepSize ∧ bottomUpNext mapEnd start stepSize ≤ mapEnd := by
  simp only [bottomUpNext]
  by_cases hroom : stepSize ≠ 0 ∧ mapEnd - start > stepSize
  · obtain ⟨k, -, hk, rfl⟩ := hstep.resolve_left hroom.1
    have hpos : 0 < 2 ^ k := by positivity
    have hle := Nat.div_mul_le_self (start + 2 ^ k) (2 ^ k)
    have hgt := Nat.lt_div_mul_add (a := start + 2 ^ k) hpos
    have hsum : start + 1 + (2 ^ k - 1) = start + 2 ^ k := by omega
    rw [if_pos hroom, roundUp_two_pow (by omega) hk, hsum, Nat.mod_eq_of_lt (by omega)]
    split_ifs <;> omega
  · rw [if_neg hroom]
    exact ⟨h, le_rfl⟩

/-- One step up. -/
theorem bottomUpStep_triple {mapStart mapEnd : ℕ} {w : MapWalk} (hw : IsStep w.stepSize)
    (hlo : mapStart ≤ w.pos) (hlt : w.pos < mapEnd) (hend : mapEnd < 2 ^ 32)
    (htiles : Tiles mapStart w.pos done) :
    Triple (fun s => s.ranges = init ++ done) (bottomUpStep (anyRange f) mapEnd w)
      (fun r s => ∃ w' : MapWalk, r = .inl w' ∧ IsStep w'.stepSize ∧ w.pos < w'.pos ∧
        w'.pos ≤ mapEnd ∧ ∃ rs, s.ranges = init ++ rs ∧ Tiles mapStart w'.pos rs)
      fun _ => False := by
  obtain ⟨hgt, hle⟩ := lt_bottomUpNext hw hlt hend
  rw [bottomUpStep, if_pos hlt]
  refine Triple.bind (callInitRange_triple _ _) fun ram => Triple.pure _ fun s hs => ?_
  exact ⟨_, rfl, hw.next _ _, hgt, hle, _, hs, htiles.above hlo hgt⟩

/-- **The loop**: from `mapStart` up to `mapEnd`. -/
theorem bottomUpLoop_triple {mapStart mapEnd : ℕ} (hle : mapStart ≤ mapEnd) (hend : mapEnd < 2 ^ 32)
    {w : MapWalk} (hw : w.pos = mapStart) (hstep : IsStep w.stepSize) :
    Triple (fun s => s.ranges = init)
      (Proc.loop (bottomUpStep (anyRange f) mapEnd) (mapEnd - mapStart + 1) w)
      (fun _ s => ∃ rs, s.ranges = init ++ rs ∧ Tiles mapStart mapEnd rs) fun _ => False := by
  -- the variant is what is left to do
  refine (Triple.loop (fun k w s => mapEnd - w.pos = k ∧ mapStart ≤ w.pos ∧ w.pos ≤ mapEnd ∧
    IsStep w.stepSize ∧ ∃ rs, s.ranges = init ++ rs ∧ Tiles mapStart w.pos rs) ?_
    (Nat.lt_succ_self (mapEnd - mapStart))).conseq
    (fun s hs => ⟨by rw [hw], hw.ge, hw ▸ hle, hstep, [], by rw [hs, List.append_nil], hw ▸ .nil _⟩)
    fun _ _ hs => hs
  rintro k w s ⟨rfl, hlo, hhi, hw, rs, hrs, htiles⟩
  by_cases hlt : w.pos < mapEnd
  · refine (bottomUpStep_triple hw hlo hlt hend htiles).conseq (fun _ h => h) ?_ s hrs
    rintro r s ⟨w', rfl, hw', hgt, hle', htiles'⟩
    exact ⟨mapEnd - w'.pos, by omega, rfl, by omega, hle', hw', htiles'⟩
  · have heq : w.pos = mapEnd := by omega
    rw [bottomUpStep, if_neg hlt]
    exact ⟨rs, hrs, heq ▸ htiles⟩

/-- `memory_map_bottom_up`. -/
theorem memoryMapBottomUp_tiles {s : MapState} {mapStart mapEnd : ℕ} (h : mapStart < mapEnd)
    (hlt : mapEnd < 2 ^ 32) :
    ∃ s' rs, memoryMapBottomUp (anyRange f) mapStart mapEnd s = .ok () s' ∧
      s'.ranges = s.ranges ++ rs ∧ Tiles mapStart mapEnd rs := by
  suffices h : Triple (fun s' => s'.ranges = s.ranges)
      (memoryMapBottomUp (anyRange f) mapStart mapEnd)
      (fun _ s' => ∃ rs, s'.ranges = s.ranges ++ rs ∧ Tiles mapStart mapEnd rs)
      fun _ => False by
    obtain ⟨⟨⟩, s', hrun, rs, hrs, htiles⟩ := h.returns rfl
    exact ⟨s', rs, hrun, hrs, htiles⟩
  exact Triple.update (bottomUpLoop_triple h.le hlt rfl IsStep.pmdSize)
    fun s' hs' => hs'

/-- **The walkers cover their range exactly**: whatever `init_range_memory_mapping` does and answers,
the loops end, and the ranges passed to it tile the range to be mapped. -/
theorem memoryMap_tiles (f : ℕ → ℕ → MapState → ℕ × MapState) (s : MapState)
    (hm : MemblockOk s.memblock) :
    (∀ mapEnd, pmdSize ≤ mapEnd → mapEnd < 2 ^ 32 →
      ∃ s' rs, memoryMapTopDown (anyRange f) isaEndAddress mapEnd s = .ok () s' ∧
        s'.ranges = s.ranges ++ rs ∧ Tiles isaEndAddress mapEnd rs) ∧
    (∀ mapStart mapEnd, mapStart < mapEnd → mapEnd < 2 ^ 32 →
      ∃ s' rs, memoryMapBottomUp (anyRange f) mapStart mapEnd s = .ok () s' ∧
        s'.ranges = s.ranges ++ rs ∧ Tiles mapStart mapEnd rs) :=
  ⟨fun _ hend hlt => memoryMapTopDown_tiles hm hend hlt,
    fun _ _ h hlt => memoryMapBottomUp_tiles h hlt⟩

/-- Nothing mapped and nothing recorded yet, with an empty BRK buffer. -/
def emptyMapState : MapState := ⟨initMemblock, ⟨false, 0, 0, true, 0, 0⟩, 0, [], [], []⟩

theorem memoryMap_tiles_empty :
    (∃ s' rs, memoryMapTopDown (anyRange fun _ _ s => (pmdSize, s)) isaEndAddress 0x377fe000
        emptyMapState = .ok () s' ∧
      s'.ranges = emptyMapState.ranges ++ rs ∧ Tiles isaEndAddress 0x377fe000 rs) ∧
    (∃ s' rs, memoryMapBottomUp (anyRange fun _ _ s => (pmdSize, s)) 0x1234567 0xfffffffe
        emptyMapState = .ok () s' ∧
      s'.ranges = emptyMapState.ranges ++ rs ∧ Tiles 0x1234567 0xfffffffe rs) := by
  have h := memoryMap_tiles (fun _ _ s => (pmdSize, s)) emptyMapState memblockOk_init
  exact ⟨h.1 0x377fe000 (by decide) (by decide), h.2 0x1234567 0xfffffffe (by decide) (by decide)⟩

end Sandix
