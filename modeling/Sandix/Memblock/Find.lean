import Sandix.Memblock.Alloc

/-!
# Memblock/Find — the finder returns the highest fit

`FitsAt` says where a request can be placed: aligned, inside the bounds of the search, inside one
free range.  `memblock_find_in_range_node` tries one address a free range, the highest one that could
fit (`topDownFit_isGreatest`), from the top range down; so its answer is the greatest address that
fits, and `0` only when none does (`memblockFindInRangeNode_highest`).
-/

namespace Sandix

open Machinery

/-! ## One free range -/

/-- The places for the block inside `[start, stop)` and one free range. -/
def fitsIn (start stop size align : ℕ) (range : FreeRange) : Set ℕ :=
  {r | align ∣ r ∧ (start ≤ r ∧ r + size ≤ stop) ∧ range.start ≤ r ∧ r + size ≤ range.stop}

section OneRange

variable {start stop size k r cand : ℕ} {range : FreeRange}

/-- A place lies between the clamped ends. -/
theorem clamp_of_mem_fitsIn (hsize : 0 < size) (hr : r ∈ fitsIn start stop size (2 ^ k) range) :
    clamp range.start start stop ≤ r ∧ r + size ≤ clamp range.stop start stop ∧
      clamp range.stop start stop ≤ range.stop := by
  obtain ⟨-, ⟨hstart, hstop⟩, hlow, hhigh⟩ := hr
  simp only [clamp]
  omega

/-- It is at most the last multiple of the alignment that leaves room for the block. -/
theorem le_roundDown_of_mem_fitsIn (hk : k < 32) (hsize : 0 < size) (hrange : range.stop < 2 ^ 32)
    (hr : r ∈ fitsIn start stop size (2 ^ k) range) :
    r ≤ roundDown (clamp range.stop start stop - size) (2 ^ k) := by
  obtain ⟨-, hroom, hle⟩ := clamp_of_mem_fitsIn hsize hr
  exact (roundDown_isGreatest (by omega) hk).2 ⟨hr.1, by omega⟩

/-- **The candidate is the highest place in its range.** -/
theorem topDownFit_isGreatest (hk : k < 32) (hle : start ≤ stop) (hsize : 0 < size)
    (hrange : range.stop < 2 ^ 32)
    (h : topDownFit start stop size (2 ^ k) range = some cand) :
    IsGreatest (fitsIn start stop size (2 ^ k) range) cand := by
  obtain ⟨hin, hrange', -⟩ := topDownFit_inside h hle
  have hcand : cand = roundDown (clamp range.stop start stop - size) (2 ^ k) := by
    simp only [topDownFit] at h
    split_ifs at h
    exact (Option.some.inj h).symm
  refine ⟨⟨?_, hin, hrange' hsize.ne'⟩, fun r hr => ?_⟩
  · rw [hcand]
    exact dvd_roundDown hk
  · rw [hcand]
    exact le_roundDown_of_mem_fitsIn hk hsize hrange hr

/-- Without a candidate the range has no place. -/
theorem topDownFit_eq_none (hk : k < 32) (hsize : 0 < size) (hrange : range.stop < 2 ^ 32)
    (h : topDownFit start stop size (2 ^ k) range = none) (r : ℕ) :
    r ∉ fitsIn start stop size (2 ^ k) range := by
  intro hr
  obtain ⟨hlow, hroom, -⟩ := clamp_of_mem_fitsIn hsize hr
  have hround := le_roundDown_of_mem_fitsIn hk hsize hrange hr
  simp only [topDownFit] at h
  rw [if_neg (by omega), if_pos (by omega)] at h
  cases h

end OneRange

/-! ## From the top range down -/

/-- `r` is a place for a block of `size` bytes: a multiple of `align` above the first page, inside
the bounds of the search, and inside one maximal free part of a matching region. -/
structure FitsAt (m : Memblock) (size align start stop : ℕ) (nid : ℤ) (flags r : ℕ) : Prop where
  aligned : align ∣ r
  start_le : max start pageSize ≤ r
  le_stop : r + size ≤ if stop = 0 then m.currentLimit else stop
  free : ∃ rgn ∈ m.memory.regions, MatchesFilter nid flags rgn ∧
    ∃ s e, MaximalFree rgn m.reserved s e ∧ s ≤ r ∧ r + size ≤ e

/-- The places in some free range are the places there are. -/
theorem fitsAt_iff_exists_fitsIn {m : Memblock} {size : ℕ} (hmem : WellFormed m.memory)
    (hres : WellFormed m.reserved) (hsize : 0 < size) (k start stop : ℕ) (nid : ℤ) (flags r : ℕ) :
    FitsAt m size (2 ^ k) start stop nid flags r ↔
      ∃ x ∈ (freeRanges nid flags m.memory m.reserved).reverse,
        r ∈ fitsIn (max start pageSize)
          (max (max start pageSize) (if stop = 0 then m.currentLimit else stop)) size (2 ^ k) x := by
  simp only [List.mem_reverse, fitsIn, Set.mem_ofPred_eq]
  constructor
  · rintro ⟨hal, hstart, hstop, rgn, hrgn, hmatch, s, e, hmax, hlow, hhigh⟩
    refine ⟨⟨s, e, rgn.nid⟩, ?_, hal, ⟨hstart, by omega⟩, hlow, hhigh⟩
    exact (mem_freeRanges_iff_of_lt hmem hres hmax.nonempty).mpr
      ⟨rgn, hrgn, skipRegion_eq_false_iff.mpr hmatch, rfl, hmax⟩
  · rintro ⟨x, hx, hal, ⟨hstart, hstop⟩, hlow, hhigh⟩
    obtain ⟨rgn, hrgn, hskip, -, hmax⟩ :=
      (mem_freeRanges_iff_of_lt hmem hres (by omega)).mp hx
    exact ⟨hal, hstart, by omega, rgn, hrgn, skipRegion_eq_false_iff.mp hskip, x.start, x.stop,
      hmax, hlow, hhigh⟩

/-- **`memblock_find_in_range_node` is sound, complete and highest-fit**: it returns; a non-zero
result is the greatest address where the block fits, and the result is `0` exactly when the block
fits nowhere. -/
theorem memblockFindInRangeNode_highest (m : Memblock) (size k start stop : ℕ) (nid : ℤ)
    (flags : ℕ) (hmem : WellFormed m.memory) (hres : WellFormed m.reserved)
    (hmemFits : m.memory.Fits) (hresFits : m.reserved.Fits) (hsize : 0 < size) (hk : k < 32) :
    ∃ r, memblockFindInRangeNode m size (2 ^ k) start stop nid flags = .ok r ∧
      (r ≠ 0 → IsGreatest {r' | FitsAt m size (2 ^ k) start stop nid flags r'} r) ∧
      (r = 0 ↔ ∀ r', ¬FitsAt m size (2 ^ k) start stop nid flags r') := by
  have hmax := hmem.le_max
  have hmax' := hres.le_max
  rw [MemblockType.Fits] at hmemFits hresFits
  have hwalk := forEachMemRangeRev_eq nid flags hmem hres (by omega) (by omega)
  simp only [memblockFindInRangeNode, memblockFindRangeTopDown, forEachFreeMemRangeReverse, hwalk,
    Exec.ok_bind]
  have hstop : ∀ x ∈ (freeRanges nid flags m.memory m.reserved).reverse, x.stop < 2 ^ 32 := by
    intro x hx
    obtain ⟨rgn, hrgn, -, -, -, hle⟩ :=
      (freeRange_inside hmem hres (List.mem_reverse.mp hx)).1
    have := hmem.noWrap rgn hrgn
    omega
  have hdesc : (freeRanges nid flags m.memory m.reserved).reverse.Pairwise fun x y =>
      y.stop ≤ x.start := List.pairwise_reverse.mpr (freeRanges_pairwise hmem hres)
  have hfit := fitsAt_iff_exists_fitsIn hmem hres hsize k start stop nid flags
  obtain ⟨hsome, hnone⟩ := findSome?_isGreatest
    (f := topDownFit (max start pageSize)
      (max (max start pageSize) (if stop = 0 then m.currentLimit else stop)) size (2 ^ k))
    (fun x hx c hc => topDownFit_isGreatest hk (le_max_left _ _) hsize (hstop x hx) hc)
    (fun x hx hn => topDownFit_eq_none hk hsize (hstop x hx) hn)
    (hdesc.imp fun hle c hc d hd => by have := hc.2.2.1; have := hd.2.2.2; omega)
  simp only [← hfit] at hsome hnone
  refine ⟨_, rfl, ?_⟩
  rcases hf : List.findSome? _ _ with _ | c
  · exact ⟨fun hne => absurd rfl hne, fun _ => hnone hf, fun _ => rfl⟩
  · have hgreatest := hsome c hf
    rw [Option.getD_some]
    refine ⟨fun _ => hgreatest, fun hzero => ?_, fun hno => absurd hgreatest.1 (hno c)⟩
    have hpage := hgreatest.1.start_le
    rw [hzero, pageSize] at hpage
    omega

/-- A page below 4 GiB, anywhere in the small machine. -/
theorem memblockFindInRangeNode_highest_small :
    ∃ r, memblockFindInRangeNode smallMemblock 4096 (2 ^ 12) 0 0 numaNoNode 0 = .ok r ∧
      (r ≠ 0 → IsGreatest {r' | FitsAt smallMemblock 4096 (2 ^ 12) 0 0 numaNoNode 0 r'} r) ∧
      (r = 0 ↔ ∀ r', ¬FitsAt smallMemblock 4096 (2 ^ 12) 0 0 numaNoNode 0 r') :=
  memblockFindInRangeNode_highest smallMemblock 4096 12 0 0 numaNoNode 0 smallMemblock_memory
    smallMemblock_reserved (by unfold MemblockType.Fits; decide)
    (by unfold MemblockType.Fits; decide) (by decide) (by decide)

end Sandix
