import Sandix.Memblock.Invariant

/-!
# Memblock/Iterate — the iterators over free memory

`__next_mem_range` and `__next_mem_range_rev` merge two sorted arrays: the regions of `type_a` and
the gaps between the regions of `type_b`.  Their whole state is a `u64` holding the two indices, and
`ULLONG_MAX` is both the start mark of the downward walk and the end mark of both.
-/

namespace Sandix

open Machinery

/-! ## The two iterators -/

/-- `ULLONG_MAX`. -/
abbrev ullongMax : ℕ := 2 ^ 64 - 1

abbrev memblockMirror : ℕ := 0x2

abbrev memblockNomap : ℕ := 0x4

/-- What an iterator writes through `out_start`, `out_end` and `out_nid`. -/
structure FreeRange where
  start : ℕ
  stop : ℕ
  nid : ℤ
deriving DecidableEq, Repr

/-- `(u32)idx_a | (u64)idx_b << 32`. -/
def packIdx (idxA idxB : ℤ) : ℕ :=
  u32 idxA ||| ((idxB % 2 ^ 64).toNat <<< 32) % 2 ^ 64

/-- `int idx_a = *idx & 0xffffffff`. -/
def idxLow (idx : ℕ) : ℤ := int32 (idx &&& 0xffffffff)

/-- `int idx_b = *idx >> 32`. -/
def idxHigh (idx : ℕ) : ℤ := int32 (idx >>> 32)

section Iterators

variable (nid : ℤ) (flags : ℕ)

/-- The node an iterator filters by: `MAX_NR_NODES` is the deprecated spelling of
`NUMA_NO_NODE`. -/
def selectNode : ℤ := if nid = maxNrNodes then numaNoNode else nid

/-- The regions an iterator passes over.  `movable_node_is_enabled()` is constantly false, so
hotpluggable regions are not among them. -/
def skipRegion (m : MemblockRegion) : Bool :=
  (selectNode nid ≠ numaNoNode && selectNode nid ≠ m.nid) ||
  (flags &&& memblockMirror ≠ 0 && m.flags &&& memblockMirror = 0) ||
  (flags &&& memblockNomap = 0 && m.flags &&& memblockNomap ≠ 0)

/-- `r_start`: where the gap before region `idxB` begins. -/
def gapStart (b : MemblockType) (idxB : ℤ) : ℕ :=
  if idxB ≠ 0 then (b.region (idxB - 1).toNat).stop else 0

/-- `r_end`: where it ends. -/
def gapStop (b : MemblockType) (idxB : ℤ) : ℕ :=
  if u32 idxB < b.nrRegions then (b.region idxB.toNat).base else physMax

/-- One round of the two nested loops of `__next_mem_range`: the region at `idxA` is passed, or the
gap at `idxB` is passed, or they meet and the call returns.  `b` is `none` when `type_b` is
`NULL`. -/
def nextMemRangeStep (a : MemblockType) (b : Option MemblockType) :
    ℤ × ℤ → Exec (ℤ × ℤ ⊕ ℕ × Option FreeRange)
  | (idxA, idxB) =>
    if u32 idxA < a.nrRegions then
      let m := a.region idxA.toNat
      if skipRegion nid flags m then .ok (.inl (idxA + 1, idxB))
      else match b with
      | none => .ok (.inr (packIdx (idxA + 1) idxB, some ⟨m.base, m.stop, m.nid⟩))
      | some b =>
        if u32 idxB < b.nrRegions + 1 then
          let rStart := gapStart b idxB
          let rStop := gapStop b idxB
          if rStart ≥ m.stop then .ok (.inl (idxA + 1, idxB))
          else if m.base < rStop then
            -- the one that ends first is advanced for the next call
            let idx := if m.stop ≤ rStop then packIdx (idxA + 1) idxB else packIdx idxA (idxB + 1)
            .ok (.inr (idx, some ⟨max m.base rStart, min m.stop rStop, m.nid⟩))
          else .ok (.inl (idxA, idxB + 1))
        else .ok (.inl (idxA + 1, idxB))
    else .ok (.inr (ullongMax, none))

/-- A budget for the rounds of one call. -/
def rangeFuel (a : MemblockType) (b : Option MemblockType) : ℕ :=
  a.nrRegions + (b.elim 0 MemblockType.nrRegions) + 4

/-- `__next_mem_range`: the updated `*idx`, and what was written through the out pointers. -/
def nextMemRange (a : MemblockType) (b : Option MemblockType) (idx : ℕ) :
    Exec (ℕ × Option FreeRange) :=
  Exec.loop (nextMemRangeStep nid flags a b) (rangeFuel a b) (idxLow idx, idxHigh idx)

/-- One round of the two nested loops of `__next_mem_range_rev`. -/
def nextMemRangeRevStep (a : MemblockType) (b : Option MemblockType) :
    ℤ × ℤ → Exec (ℤ × ℤ ⊕ ℕ × Option FreeRange)
  | (idxA, idxB) =>
    if 0 ≤ idxA then
      let m := a.region idxA.toNat
      if skipRegion nid flags m then .ok (.inl (idxA - 1, idxB))
      else match b with
      | none => .ok (.inr (packIdx (idxA + 1) idxB, some ⟨m.base, m.stop, m.nid⟩))
      | some b =>
        if 0 ≤ idxB then
          let rStart := gapStart b idxB
          let rStop := gapStop b idxB
          if rStop ≤ m.base then .ok (.inl (idxA - 1, idxB))
          else if m.stop > rStart then
            let idx := if m.base ≥ rStart then packIdx (idxA - 1) idxB else packIdx idxA (idxB - 1)
            .ok (.inr (idx, some ⟨max m.base rStart, min m.stop rStop, m.nid⟩))
          else .ok (.inl (idxA, idxB - 1))
        else .ok (.inl (idxA - 1, idxB))
    else .ok (.inr (ullongMax, none))

/-- `__next_mem_range_rev`.  The start mark makes it read `type_b->nr_regions`, which faults when
`type_b` is `NULL`. -/
def nextMemRangeRev (a : MemblockType) (b : Option MemblockType) (idx : ℕ) :
    Exec (ℕ × Option FreeRange) :=
  let run := Exec.loop (nextMemRangeRevStep nid flags a b) (rangeFuel a b)
  if idx = ullongMax then
    match b with
    | none => .error .fault
    | some b => run ((a.nrRegions : ℤ) - 1, b.nrRegions)
  else run (idxLow idx, idxHigh idx)

end Iterators

/-- One round of a `for_each_mem_range` loop: call the iterator, leave on `ULLONG_MAX`, else hand
the range to the body — here, append it to what was yielded so far. -/
def forEachStep (next : ℕ → Exec (ℕ × Option FreeRange)) (s : ℕ × List FreeRange) :
    Exec ((ℕ × List FreeRange) ⊕ List FreeRange) := do
  let (idx, out) ← next s.1
  if idx = ullongMax then pure (.inr s.2)
  else pure (.inl (idx, s.2 ++ out.toList))

/-- `for_each_mem_range`: what the loop yields. -/
def forEachMemRange (nid : ℤ) (flags : ℕ) (a : MemblockType) (b : Option MemblockType) :
    Exec (List FreeRange) :=
  Exec.loop (forEachStep (nextMemRange nid flags a b)) (rangeFuel a b) (0, [])

/-- `for_each_mem_range_rev`. -/
def forEachMemRangeRev (nid : ℤ) (flags : ℕ) (a : MemblockType) (b : Option MemblockType) :
    Exec (List FreeRange) :=
  Exec.loop (forEachStep (nextMemRangeRev nid flags a b)) (rangeFuel a b) (ullongMax, [])

/-- `for_each_free_mem_range`. -/
def forEachFreeMemRange (m : Memblock) (nid : ℤ) (flags : ℕ) : Exec (List FreeRange) :=
  forEachMemRange nid flags m.memory (some m.reserved)

/-- `for_each_free_mem_range_reverse`. -/
def forEachFreeMemRangeReverse (m : Memblock) (nid : ℤ) (flags : ℕ) : Exec (List FreeRange) :=
  forEachMemRangeRev nid flags m.memory (some m.reserved)
/-! ## The packed index -/

section PackedIndex

variable {i j : ℤ}

theorem packIdx_eq (hj : 0 ≤ j) (hj' : j < 2 ^ 31) :
    packIdx i j = 2 ^ 32 * j.toNat + u32 i := by
  have hb : ((j % 2 ^ 64).toNat <<< 32) % 2 ^ 64 = 2 ^ 32 * j.toNat := by
    rw [Nat.shiftLeft_eq]
    omega
  rw [packIdx, hb, Nat.or_comm, ← Nat.two_pow_add_eq_or_of_lt (u32_lt i)]

theorem idxLow_packIdx (hi : -2 ^ 31 ≤ i) (hi' : i < 2 ^ 31) (hj : 0 ≤ j) (hj' : j < 2 ^ 31) :
    idxLow (packIdx i j) = i := by
  have hmask : packIdx i j &&& 0xffffffff = u32 i := by
    rw [packIdx_eq hj hj', show 0xffffffff = 2 ^ 32 - 1 from rfl, Nat.and_two_pow_sub_one_eq_mod]
    have := u32_lt i
    omega
  rw [idxLow, hmask, int32_u32 hi hi']

theorem idxHigh_packIdx (hj : 0 ≤ j) (hj' : j < 2 ^ 31) : idxHigh (packIdx i j) = j := by
  have hshift : packIdx i j >>> 32 = j.toNat := by
    rw [packIdx_eq hj hj', Nat.shiftRight_eq_div_pow]
    have := u32_lt i
    omega
  rw [idxHigh, hshift, int32_of_lt (by omega)]
  omega

/-- A packed pair of indices is never taken for the end mark. -/
theorem packIdx_ne (hj : 0 ≤ j) (hj' : j < 2 ^ 31) : packIdx i j ≠ ullongMax := by
  have := u32_lt i
  rw [packIdx_eq hj hj', ullongMax]
  omega

end PackedIndex

end Sandix
