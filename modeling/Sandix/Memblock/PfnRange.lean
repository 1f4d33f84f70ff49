import Sandix.Arch.Page
import Sandix.Memblock.Content

/-!
# Memblock/PfnRange — the page frames of `memblock.memory`

`for_each_mem_pfn_range` walks the regions of a node and yields the page frames of each, `PFN_UP` of
its base to `PFN_DOWN` of its end, passing over the regions that hold no whole frame.

The walk yields one range a region, in order (`forEachMemPfnRange_eq`), and the range of a region is
the set of its whole frames (`hasFrame_iff`) — unless the region starts inside the last page of the
address space, where `PFN_UP` wraps around to frame `0` (`pfn_of_last`).
-/

namespace Sandix

open Machinery

/-- `PFN_UP`, on a 32-bit address. -/
def pfnUp (x : ℕ) : ℕ := ((x + pageSize - 1) % 2 ^ 32) >>> pageShift

/-- `PFN_DOWN`. -/
def pfnDown (x : ℕ) : ℕ := x >>> pageShift

/-- What `__next_mem_pfn_range` writes through its out pointers. -/
structure PfnRange where
  start : ℕ
  stop : ℕ
  nid : ℤ
deriving DecidableEq, Repr

/-- One round of the loop of `__next_mem_pfn_range`: `++*idx`, and the region there is passed over or
returned. -/
def nextMemPfnRangeStep (t : MemblockType) (nid idx : ℤ) : Exec (ℤ ⊕ (ℤ × Option PfnRange)) :=
  let idx := idx + 1
  if u32 idx < t.nrRegions then
    let r := t.region idx.toNat
    if pfnUp r.base ≥ pfnDown r.stop then .ok (.inl idx)
    else if nid = maxNrNodes ∨ nid = r.nid then
      .ok (.inr (idx, some ⟨pfnUp r.base, pfnDown r.stop, r.nid⟩))
    else .ok (.inl idx)
  else .ok (.inr (-1, none))

/-- `__next_mem_pfn_range`: the updated `*idx`, and what was written through the out pointers. -/
def nextMemPfnRange (t : MemblockType) (nid idx : ℤ) : Exec (ℤ × Option PfnRange) :=
  Exec.loop (nextMemPfnRangeStep t nid) (t.nrRegions + 1) idx

/-- One round of `for_each_mem_pfn_range`: call the iterator, and leave once `*idx` is negative. -/
def forEachPfnStep (t : MemblockType) (nid : ℤ) (s : ℤ × List PfnRange) :
    Exec ((ℤ × List PfnRange) ⊕ List PfnRange) := do
  let (idx, out) ← nextMemPfnRange t nid s.1
  if idx ≥ 0 then pure (.inl (idx, s.2 ++ out.toList))
  else pure (.inr s.2)

/-- `for_each_mem_pfn_range`: the ranges its body sees. -/
def forEachMemPfnRange (t : MemblockType) (nid : ℤ) : Exec (List PfnRange) :=
  Exec.loop (forEachPfnStep t nid) (t.nrRegions + 1) (-1, [])

/-! ## The walk, as a function on lists -/

/-- The range of a region, if the walk over node `nid` yields one. -/
def pfnRange (nid : ℤ) (r : MemblockRegion) : Option PfnRange :=
  if pfnUp r.base < pfnDown r.stop ∧ (nid = maxNrNodes ∨ nid = r.nid) then
    some ⟨pfnUp r.base, pfnDown r.stop, r.nid⟩
  else none

section Walk

variable {t : MemblockType} {nid : ℤ} {pre rs : List MemblockRegion} {r : MemblockRegion}

/-- A region without a range is passed over. -/
theorem nextMemPfnRangeStep_none (ht : t.regions = pre ++ r :: rs) (hlen : t.nrRegions < 2 ^ 32)
    (hr : pfnRange nid r = none) :
    nextMemPfnRangeStep t nid ((pre.length : ℤ) - 1) = .ok (.inl pre.length) := by
  have hlt : pre.length < t.nrRegions := by simp [MemblockType.nrRegions_eq ht]
  have hu : u32 pre.length < t.nrRegions := by rwa [u32_natCast (by omega)]
  simp only [nextMemPfnRangeStep, sub_add_cancel]
  rw [if_pos hu, Int.toNat_natCast, MemblockType.region_at ht]
  have hnot : ¬(pfnUp r.base < pfnDown r.stop ∧ (nid = maxNrNodes ∨ nid = r.nid)) := by
    intro h
    rw [pfnRange, if_pos h] at hr
    cases hr
  split_ifs with h₁ h₂
  · rfl
  · exact absurd ⟨not_le.mp h₁, h₂⟩ hnot
  · rfl

/-- A region with a range is returned. -/
theorem nextMemPfnRangeStep_some {x : PfnRange} (ht : t.regions = pre ++ r :: rs)
    (hlen : t.nrRegions < 2 ^ 32) (hr : pfnRange nid r = some x) :
    nextMemPfnRangeStep t nid ((pre.length : ℤ) - 1) = .ok (.inr (pre.length, some x)) := by
  have hlt : pre.length < t.nrRegions := by simp [MemblockType.nrRegions_eq ht]
  have hu : u32 pre.length < t.nrRegions := by rwa [u32_natCast (by omega)]
  simp only [nextMemPfnRangeStep, sub_add_cancel]
  rw [if_pos hu, Int.toNat_natCast, MemblockType.region_at ht]
  unfold pfnRange at hr
  split_ifs at hr with h₁
  cases hr
  rw [if_neg (not_le.mpr h₁.1), if_pos h₁.2]

/-- Past the last region the iterator reports the end. -/
theorem nextMemPfnRangeStep_done (ht : t.regions = pre) (hlen : t.nrRegions < 2 ^ 32) :
    nextMemPfnRangeStep t nid ((pre.length : ℤ) - 1) = .ok (.inr (-1, none)) := by
  have hn : t.nrRegions = pre.length := by rw [MemblockType.nrRegions, ht]
  have hu : ¬u32 pre.length < t.nrRegions := by
    rw [u32_natCast (by omega)]
    omega
  simp only [nextMemPfnRangeStep, sub_add_cancel]
  rw [if_neg hu]

/-- **One call**: the end, when no region after `pre` has a range, or the first range there is. -/
theorem nextMemPfnRange_cases (hlen : t.nrRegions < 2 ^ 32) : ∀ {rs pre : List MemblockRegion}
    {fuel : ℕ}, t.regions = pre ++ rs → rs.length < fuel →
    (rs.filterMap (pfnRange nid) = [] ∧
      Exec.loop (nextMemPfnRangeStep t nid) fuel ((pre.length : ℤ) - 1) = .ok (-1, none)) ∨
    ∃ pre' rest x, t.regions = pre' ++ rest ∧ rest.length < rs.length ∧
      rs.filterMap (pfnRange nid) = x :: rest.filterMap (pfnRange nid) ∧
      Exec.loop (nextMemPfnRangeStep t nid) fuel ((pre.length : ℤ) - 1)
        = .ok ((pre'.length : ℤ) - 1, some x) ∧ 1 ≤ pre'.length
  | [], pre, fuel + 1, ht, _ => by
      rw [List.append_nil] at ht
      exact Or.inl ⟨rfl, Exec.loop_done (nextMemPfnRangeStep_done ht hlen)⟩
  | r :: rs, pre, fuel + 1, ht, hfuel => by
      rw [List.length_cons] at hfuel
      have ht' : t.regions = (pre ++ [r]) ++ rs := by simp [ht]
      have hpos : ((pre ++ [r]).length : ℤ) - 1 = pre.length := by simp
      cases hr : pfnRange nid r with
      | some x =>
        refine Or.inr ⟨pre ++ [r], rs, x, ht', by simp, List.filterMap_cons_some hr, ?_, by simp⟩
        rw [hpos]
        exact Exec.loop_done (nextMemPfnRangeStep_some ht hlen hr)
      | none =>
        rw [Exec.loop_next (nextMemPfnRangeStep_none ht hlen hr), List.filterMap_cons_none hr, ← hpos]
        rcases nextMemPfnRange_cases hlen ht' (Nat.lt_of_succ_lt_succ hfuel) with
          hdone | ⟨pre', rest, x, h, hlt, hx⟩
        · exact Or.inl hdone
        · exact Or.inr ⟨pre', rest, x, h, hlt.trans (Nat.lt_succ_self _), hx⟩

theorem forEachLoop_eq (hlen : t.nrRegions < 2 ^ 32) : ∀ {fuel : ℕ} {rs pre : List MemblockRegion}
    (out : List PfnRange), t.regions = pre ++ rs → rs.length < fuel →
    Exec.loop (forEachPfnStep t nid) fuel ((pre.length : ℤ) - 1, out)
      = .ok (out ++ rs.filterMap (pfnRange nid))
  | fuel + 1, rs, pre, out, ht, hfuel => by
      have hle : rs.length < t.nrRegions + 1 := by
        rw [MemblockType.nrRegions_eq ht]
        omega
      rcases @nextMemPfnRange_cases t nid hlen rs pre _ ht hle with
        ⟨hnil, hcall⟩ | ⟨pre', rest, x, ht', hlt, hcons, hcall, hpos⟩
      · have hstep : forEachPfnStep t nid ((pre.length : ℤ) - 1, out) = .ok (.inr out) := by
          rw [forEachPfnStep, nextMemPfnRange, hcall]
          rfl
        rw [Exec.loop_done hstep, hnil, List.append_nil]
      · have hge : (pre'.length : ℤ) - 1 ≥ 0 := by omega
        have hstep : forEachPfnStep t nid ((pre.length : ℤ) - 1, out)
            = .ok (.inl ((pre'.length : ℤ) - 1, out ++ [x])) := by
          rw [forEachPfnStep, nextMemPfnRange, hcall, Exec.ok_bind]
          exact if_pos hge
        rw [Exec.loop_next hstep, forEachLoop_eq hlen (out ++ [x]) ht' (by omega), hcons,
          List.append_assoc]
        rfl

/-- **`for_each_mem_pfn_range` yields one range a region**, in order. -/
theorem forEachMemPfnRange_eq (hlen : t.nrRegions < 2 ^ 32) :
    forEachMemPfnRange t nid = .ok (t.regions.filterMap (pfnRange nid)) :=
  @forEachLoop_eq t nid hlen _ t.regions [] [] rfl (Nat.lt_succ_self _)

end Walk

/-! ## Whole frames -/

namespace MemblockRegion

variable {r : MemblockRegion} {p : ℕ}

/-- The frame `p` lies wholly inside the region. -/
def HasFrame (r : MemblockRegion) (p : ℕ) : Prop :=
  r.base ≤ p * pageSize ∧ (p + 1) * pageSize ≤ r.base + r.size

instance : DecidablePred r.HasFrame := fun _ => inferInstanceAs (Decidable (_ ∧ _))

theorem pfnDown_stop (hw : r.NoWrap) : pfnDown r.stop = (r.base + r.size) / pageSize := by
  rw [pfnDown, hw.stop_eq, Nat.shiftRight_eq_div_pow]
  rfl

/-- The frames between `PFN_UP` of the base and `PFN_DOWN` of the end are the whole ones. -/
theorem hasFrame_iff (hw : r.NoWrap) (hb : r.base ≤ 0xfffff000) :
    r.HasFrame p ↔ pfnUp r.base ≤ p ∧ p < pfnDown r.stop := by
  rw [pfnDown_stop hw, HasFrame, pfnUp, Nat.shiftRight_eq_div_pow, pageSize, pageShift]
  omega

/-- Inside the last page `PFN_UP` wraps around: a region that holds no whole frame gets the range of
all frames. -/
theorem pfn_of_last (hw : r.NoWrap) (hb : 0xfffff000 < r.base) :
    pfnUp r.base = 0 ∧ pfnDown r.stop = 0xfffff ∧ ¬r.HasFrame p := by
  have hw' : r.base + r.size < 2 ^ 32 := hw
  rw [pfnDown_stop hw, HasFrame, pfnUp, Nat.shiftRight_eq_div_pow, pageSize, pageShift]
  omega

end MemblockRegion

/-- The frame `p` lies wholly inside a region. -/
def MemblockType.HasFrame (t : MemblockType) (p : ℕ) : Prop := ∃ r ∈ t.regions, r.HasFrame p

instance {t : MemblockType} : DecidablePred t.HasFrame :=
  fun _ => inferInstanceAs (Decidable (∃ r ∈ _, _))

end Sandix
