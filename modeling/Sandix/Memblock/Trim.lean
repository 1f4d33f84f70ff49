import Sandix.Arch.Page
import Sandix.Memblock.Content

/-!
# Memblock/Trim — throwing away partial pages

`memblock_trim_memory` rounds both ends of every region of `memblock.memory` inwards, in place, and
removes the regions nothing is left of while it iterates.

On regions that do not touch (`Separated`, which `memblock_add_range` guarantees for regions of one
node and one set of flags) the trimmed array covers exactly the whole pages of the untrimmed one
(`memblockTrimMemory_covers`), as long as no region starts in the last page of the address space,
where `round_up` wraps around to `0`.
-/

namespace Sandix

open Machinery

/-- One round of the loop of `memblock_trim_memory`; after a removal the next region stands at the
same index. -/
def trimStep (align : ℕ) : MemblockType × ℕ → Exec (MemblockType × ℕ ⊕ MemblockType)
  | (t, i) =>
    if i < t.nrRegions then
      let r := t.region i
      let start := roundUp r.base align
      let stop := roundDown r.stop align
      if start = r.base ∧ stop = r.stop then .ok (.inl (t, i + 1))
      else if start < stop then
        .ok (.inl (t.setRegion i { r with base := start, size := stop - start }, i + 1))
      else .ok (.inl (memblockRemoveRegion t i, i))
    else .ok (.inr t)

/-- `memblock_trim_memory`. -/
def memblockTrimMemory (m : Memblock) (align : ℕ) : Exec Memblock := do
  let t ← Exec.loop (trimStep align) (m.memory.nrRegions + 2) (m.memory, 0)
  pure { m with memory := t }

/-! ## The loop, as a function on lists -/

/-- What is left of a region. -/
def trimRegion (align : ℕ) (r : MemblockRegion) : Option MemblockRegion :=
  let start := roundUp r.base align
  let stop := roundDown r.stop align
  if start = r.base ∧ stop = r.stop then some r
  else if start < stop then some { r with base := start, size := stop - start }
  else none

section Loop

variable (align : ℕ) {t : MemblockType} {pre rs : List MemblockRegion} {r : MemblockRegion}

/-- A round that keeps something of its region. -/
theorem trimStep_some {r' : MemblockRegion} (ht : t.regions = pre ++ r :: rs)
    (hr : trimRegion align r = some r') :
    ∃ t', trimStep align (t, pre.length) = .ok (.inl (t', pre.length + 1)) ∧ t'.max = t.max ∧
      t'.totalSize = t.totalSize ∧ t'.regions = pre ++ r' :: rs := by
  have hlt : pre.length < t.nrRegions := by simp [MemblockType.nrRegions_eq ht]
  simp only [trimRegion] at hr
  simp only [trimStep]
  rw [if_pos hlt, MemblockType.region_at ht]
  split_ifs at hr ⊢ with h₁ h₂
  · cases hr
    exact ⟨t, rfl, rfl, rfl, ht⟩
  · cases hr
    refine ⟨_, rfl, rfl, rfl, ?_⟩
    simp [MemblockType.setRegion, ht]

/-- A round that removes its region. -/
theorem trimStep_none (ht : t.regions = pre ++ r :: rs) (hr : trimRegion align r = none) :
    trimStep align (t, pre.length) = .ok (.inl (memblockRemoveRegion t pre.length, pre.length)) := by
  have hlt : pre.length < t.nrRegions := by simp [MemblockType.nrRegions_eq ht]
  simp only [trimRegion] at hr
  simp only [trimStep]
  rw [if_pos hlt, MemblockType.region_at ht]
  split_ifs at hr ⊢ with h₁ h₂
  rfl

theorem trimRegion_dummy : trimRegion align .dummy = some .dummy := by
  have hstop : roundDown MemblockRegion.dummy.stop align = MemblockRegion.dummy.stop :=
    Nat.zero_and _
  have hstart : roundUp MemblockRegion.dummy.base align = MemblockRegion.dummy.base :=
    roundUp_zero_left align
  simp only [trimRegion]
  rw [if_pos ⟨hstart, hstop⟩]

/-- Past the last region the loop ends. -/
theorem trimLoop_done {fuel : ℕ} (ht : t.regions = pre) (hfuel : 0 < fuel) :
    Exec.loop (trimStep align) fuel (t, pre.length) = .ok t := by
  obtain ⟨n, rfl⟩ : ∃ n, fuel = n + 1 := ⟨fuel - 1, by omega⟩
  have hge : ¬pre.length < t.nrRegions := by simp [MemblockType.nrRegions, ht]
  apply Exec.loop_done
  simp only [trimStep]
  rw [if_neg hge]

/-- The regions that trimming removes. -/
def discarded (rs : List MemblockRegion) : List MemblockRegion :=
  rs.filter fun r => (trimRegion align r).isNone

/-- The loop from index `pre.length` on: the dummy region is put in when nothing is left, and looked
at as any other.  The recorded size goes down by what is removed, and by nothing else. -/
theorem trimLoop_eq : ∀ (rs : List MemblockRegion) (pre : List MemblockRegion) (t : MemblockType)
    (fuel : ℕ), t.regions = pre ++ rs → rs.length + 1 < fuel → t.regions ≠ [] →
    ∃ t', Exec.loop (trimStep align) fuel (t, pre.length) = .ok t' ∧ t'.max = t.max ∧
      (t.totalSize < 2 ^ 32 →
        t'.totalSize = sub32 t.totalSize (regionBytes (discarded align rs))) ∧
      t'.regions = if pre ++ rs.filterMap (trimRegion align) = [] then [.dummy]
        else pre ++ rs.filterMap (trimRegion align)
  | [], pre, t, fuel + 1, ht, hfuel, hne => by
      rw [List.append_nil] at ht
      refine ⟨t, trimLoop_done align ht (Nat.succ_pos _), rfl, fun hlt => (sub32_zero hlt).symm, ?_⟩
      rw [List.filterMap_nil, List.append_nil, ← ht, if_neg hne]
  | r :: rs, pre, t, fuel + 1, ht, hfuel, hne => by
      rw [List.length_cons] at hfuel
      cases hr : trimRegion align r with
      | some r' =>
        obtain ⟨t₁, hstep, hmax, htot, ht₁⟩ := trimStep_some align ht hr
        obtain ⟨t', hloop, hmax', htot', ht'⟩ := trimLoop_eq rs (pre ++ [r']) t₁ fuel (by simp [ht₁])
          (by omega) (by simp [ht₁])
        refine ⟨t', ?_, hmax'.trans hmax, fun hlt => ?_, ?_⟩
        · rw [Exec.loop_next hstep]
          simpa using hloop
        · rw [htot' (htot ▸ hlt), htot, discarded, discarded, List.filter_cons_of_neg (by simp [hr])]
        · rw [ht', List.filterMap_cons_some hr, List.append_assoc]
          rfl
      | none =>
        have hstep := trimStep_none align ht hr
        have herase : t.regions.eraseIdx pre.length = pre ++ rs := by
          rw [ht, eraseIdx_length_append]
        have htot : (memblockRemoveRegion t pre.length).totalSize = sub32 t.totalSize r.size := by
          simp only [memblockRemoveRegion]
          rw [MemblockType.region_at ht]
        have hdisc : regionBytes (discarded align (r :: rs))
            = r.size + regionBytes (discarded align rs) := by
          rw [discarded, discarded, List.filter_cons_of_pos (by simp [hr]), regionBytes_cons]
        rw [Exec.loop_next hstep, List.filterMap_cons_none hr, hdisc]
        by_cases hnil : pre ++ rs = []
        · -- the last region is gone: one more round, over the dummy
          obtain ⟨rfl, rfl⟩ := List.append_eq_nil_iff.mp hnil
          have ht₁ : (memblockRemoveRegion t 0).regions = [] ++ [.dummy] := by
            simp [memblockRemoveRegion, ht]
          obtain ⟨t₂, hstep₂, hmax₂, htot₂, ht₂⟩ := trimStep_some align ht₁ (trimRegion_dummy align)
          obtain ⟨fuel, rfl⟩ : ∃ n, fuel = n + 1 := ⟨fuel - 1, by omega⟩
          have hdone := trimLoop_done align ht₂ (show 0 < fuel by simpa using hfuel)
          exact ⟨t₂, (Exec.loop_next hstep₂).trans hdone, hmax₂, fun _ => htot₂.trans htot,
            by simpa using ht₂⟩
        · have ht₁ : (memblockRemoveRegion t pre.length).regions = pre ++ rs := by
            simp only [memblockRemoveRegion]
            rw [herase, if_neg (by simpa using hnil)]
          obtain ⟨t', hloop, hmax', htot', ht'⟩ := trimLoop_eq rs pre _ fuel ht₁ (by omega)
            (by rwa [ht₁])
          refine ⟨t', hloop, hmax', fun _ => ?_, ht'⟩
          rw [htot' (htot ▸ sub32_lt _ _), htot, sub32_sub32]

end Loop

/-- The array after trimming: what is left of each region, or the dummy. -/
theorem memblockTrimMemory_eq {m : Memblock} (align : ℕ) (h : WellFormed m.memory) :
    ∃ t, memblockTrimMemory m align = .ok { m with memory := t } ∧ t.max = m.memory.max ∧
      (m.memory.totalSize < 2 ^ 32 → t.totalSize
        = sub32 m.memory.totalSize (regionBytes (discarded align m.memory.regions))) ∧
      t.regions = if m.memory.regions.filterMap (trimRegion align) = [] then [.dummy]
        else m.memory.regions.filterMap (trimRegion align) := by
  obtain ⟨t, hloop, hmax, htot, ht⟩ := trimLoop_eq align m.memory.regions [] m.memory
    (m.memory.nrRegions + 2) rfl (Nat.lt_succ_self _) (List.ne_nil_of_length_pos h.one_le)
  exact ⟨t, by rw [memblockTrimMemory]; exact hloop ▸ rfl, hmax, htot, ht⟩

/-! ## Whole pages -/

/-- The whole page of `a` is inside the region exactly when `a` is in what is left of it. -/
theorem trimRegion_page {r : MemblockRegion} (hw : r.NoWrap) (hb : r.base ≤ 0xfffff000) (a : ℕ) :
    (∃ r', trimRegion pageSize r = some r' ∧ r'.base ≤ a ∧ a < r'.base + r'.size) ↔
      r.base ≤ a / pageSize * pageSize ∧
        a / pageSize * pageSize + pageSize ≤ r.base + r.size := by
  have hw' : r.base + r.size < 2 ^ 32 := hw
  simp only [trimRegion]
  rw [hw.stop_eq, roundUp_pageSize hb, roundDown_pageSize hw', pageSize]
  split_ifs with h₁ h₂
  · simp only [Option.some.injEq, exists_eq_left']
    omega
  · simp only [Option.some.injEq, exists_eq_left']
    omega
  · simp only [false_and, exists_false, false_iff]
    omega

/-- **`memblock_trim_memory` keeps the whole pages.**  Regions that do not touch, none of them
starting in the last page of the address space, are cut down to the pages they cover. -/
theorem memblockTrimMemory_covers {m : Memblock} (h : WellFormed m.memory)
    (hsep : m.memory.regions.Pairwise fun r r' => r.base + r.size < r'.base)
    (hlast : ∀ r ∈ m.memory.regions, r.base ≤ 0xfffff000) :
    ∃ t, memblockTrimMemory m pageSize = .ok { m with memory := t } ∧
      ∀ a, t.Covers a ↔ ∀ b, b / pageSize = a / pageSize → m.memory.Covers b := by
  obtain ⟨t, htrim, -, -, ht⟩ := memblockTrimMemory_eq pageSize h
  refine ⟨t, htrim, fun a => ?_⟩
  have hleft : t.Covers a ↔ RegionCovers (m.memory.regions.filterMap (trimRegion pageSize)) a := by
    rw [MemblockType.Covers, ht]
    split_ifs with hnil
    · rw [hnil]
      simp [RegionCovers, MemblockRegion.dummy]
    · rfl
  have hpage : (∀ b, b / pageSize = a / pageSize → m.memory.Covers b) ↔
      ∀ b, a / pageSize * pageSize ≤ b → b < a / pageSize * pageSize + pageSize →
        m.memory.Covers b := by
    refine forall_congr' fun b => ⟨fun hb hlo hhi => hb ?_, fun hb heq => hb ?_ ?_⟩
    all_goals
      rw [pageSize] at *
      omega
  rw [hleft, hpage]
  refine Iff.trans ?_ (covers_interval_iff hsep (Nat.lt_add_of_pos_right (by decide))).symm
  constructor
  · rintro ⟨r', hr', ha⟩
    obtain ⟨r, hr, htrim⟩ := List.mem_filterMap.mp hr'
    exact ⟨r, hr, (trimRegion_page (h.noWrap r hr) (hlast r hr) a).mp ⟨r', htrim, ha⟩⟩
  · rintro ⟨r, hr, hin⟩
    obtain ⟨r', htrim, ha⟩ := (trimRegion_page (h.noWrap r hr) (hlast r hr) a).mpr hin
    exact ⟨r', List.mem_filterMap.mpr ⟨r, hr, htrim⟩, ha⟩

end Sandix
