import Mathlib.Data.List.GetD
import Sandix.Machinery.Run
import Sandix.Memblock.TrimCore

/-!
# Memblock/TotalSize — the recorded size of an array

`total_size` is kept by hand: insertion adds to it, removal and splitting subtract from it, and
merging leaves it alone.  `Balanced` says that it is the sum of the sizes as a 32-bit word; every
editor keeps that, so on a well-formed array, whose regions fit the address space, it is the sum
itself.

`memblock_trim_memory` shrinks regions and does not touch `total_size`.  `keepsTotals_iff`: the
totals are exact along a run exactly when no call of it shrinks a region.
-/

namespace Sandix

open Machinery

/-! ## Sums of sizes -/

section Bytes

variable {rs rs' : List MemblockRegion} {r : MemblockRegion} {i : ℕ}

theorem regionBytes_perm (h : rs.Perm rs') : regionBytes rs = regionBytes rs' :=
  (h.map _).sum_eq

theorem regionBytes_insertIdx (h : i ≤ rs.length) :
    regionBytes (rs.insertIdx i r) = r.size + regionBytes rs := by
  rw [regionBytes_perm (List.perm_insertIdx r rs h), regionBytes_cons]

/-- Past the end nothing is erased, and the entry read there is empty. -/
theorem regionBytes_eraseIdx (rs : List MemblockRegion) (i : ℕ) :
    (rs.getD i default).size + regionBytes (rs.eraseIdx i) = regionBytes rs := by
  by_cases h : i < rs.length
  · rw [← regionBytes_perm (List.getElem_cons_eraseIdx_perm h), regionBytes_cons,
      List.getD_eq_getElem _ _ h]
  · rw [List.eraseIdx_of_length_le (not_lt.mp h), List.getD_eq_default _ _ (not_lt.mp h)]
    exact Nat.zero_add _

theorem regionBytes_set (h : i < rs.length) :
    (rs.getD i default).size + regionBytes (rs.set i r) = r.size + regionBytes rs := by
  have herase := regionBytes_eraseIdx rs i
  have herase' := regionBytes_eraseIdx (rs.set i r) i
  rw [List.eraseIdx_set_eq, List.getD_eq_getElem _ _ (by rwa [List.length_set]),
    List.getElem_set_self] at herase'
  omega

/-- Regions in order from `lo` on fit what is left of the address space. -/
theorem RegionsFrom.bytes_lt : ∀ {rs : List MemblockRegion} {lo : ℕ}, lo < 2 ^ 32 →
    RegionsFrom lo rs → lo + regionBytes rs < 2 ^ 32
  | [], _, hlo, _ => by simpa using hlo
  | r :: rs, lo, _, h => by
      obtain ⟨hb, -, hw, hrs⟩ := RegionsFrom.cons_iff.mp h
      have ih := RegionsFrom.bytes_lt hw hrs
      rw [regionBytes_cons]
      omega

theorem WellFormed.bytes_lt {t : MemblockType} (h : WellFormed t) :
    regionBytes t.regions < 2 ^ 32 := by
  rcases h.content with hc | ⟨r, hr, -, hs⟩
  · simpa using hc.bytes_lt (by decide)
  · rw [hr, regionBytes_cons, hs]
    decide

end Bytes

/-! ## The editors -/

namespace MemblockType

/-- `total_size` is the sum of the sizes, as a 32-bit word. -/
def Balanced (t : MemblockType) : Prop := t.totalSize = regionBytes t.regions % 2 ^ 32

/-- `total_size` is the sum of the sizes. -/
def TotalExact (t : MemblockType) : Prop := t.totalSize = regionBytes t.regions

variable {t t' : MemblockType} {i base size : ℕ} {nid : ℤ} {flags : ℕ}

theorem balanced_iff (h : WellFormed t) : t.Balanced ↔ t.TotalExact := by
  rw [Balanced, TotalExact, Nat.mod_eq_of_lt h.bytes_lt]

namespace Balanced

theorem insertRegion (h : t.Balanced) (hi : i ≤ t.nrRegions)
    (hok : memblockInsertRegion t i base size nid flags = .ok t') :
    t'.Balanced ∧ t'.nrRegions = t.nrRegions + 1 := by
  simp only [memblockInsertRegion] at hok
  split_ifs at hok
  obtain rfl := Except.ok.inj hok
  refine ⟨?_, ?_⟩
  · simp only [Balanced] at h ⊢
    rw [regionBytes_insertIdx hi]
    dsimp only
    omega
  · simp only [nrRegions] at hi ⊢
    rw [List.length_insertIdx, if_pos hi]

theorem removeRegion (h : t.Balanced) (i : ℕ) : (memblockRemoveRegion t i).Balanced := by
  have herase := regionBytes_eraseIdx t.regions i
  simp only [Balanced, memblockRemoveRegion, region] at h ⊢
  have hrest : regionBytes (if (t.regions.eraseIdx i).length = 0 then [.dummy]
      else t.regions.eraseIdx i) = regionBytes (t.regions.eraseIdx i) := by
    split_ifs with hnil
    · rw [List.length_eq_zero_iff.mp hnil]
      rfl
    · rfl
  rw [hrest, sub32]
  omega

theorem removeRegions (start : ℕ) : ∀ (count : ℕ) {t : MemblockType}, t.Balanced →
    (Sandix.removeRegions start count t).Balanced
  | 0, _, h => h
  | count + 1, _, h => removeRegions start count (h.removeRegion _)

theorem setRegionNodes (nid : ℤ) : ∀ (count i : ℕ) {t : MemblockType}, t.Balanced →
    (Sandix.setRegionNodes nid i count t).Balanced
  | 0, _, _, h => h
  | count + 1, i, t, h => by
      refine setRegionNodes nid count (i + 1) ?_
      simp only [Balanced, setRegion, region] at h ⊢
      by_cases hi : i < t.regions.length
      · have hset := regionBytes_set (r := { t.regions.getD i default with nid }) hi
        dsimp only at hset
        omega
      · rwa [List.set_eq_of_length_le (not_lt.mp hi)]

/-- Splitting takes off what the insertion of the lower half adds again. -/
theorem splitRegion {cut : ℕ} (h : t.Balanced) (hi : i < t.nrRegions)
    (hok : Sandix.splitRegion t i cut = .ok t') : t'.Balanced := by
  have hset := regionBytes_set (r := (t.region i).above cut) hi
  simp only [Sandix.splitRegion] at hok
  simp only [memblockInsertRegion] at hok
  split_ifs at hok
  obtain rfl := Except.ok.inj hok
  have hlen : i ≤ (t.regions.set i ((t.region i).above cut)).length := by
    rw [List.length_set]
    exact hi.le
  simp only [Balanced, setRegion] at h ⊢
  rw [regionBytes_insertIdx hlen]
  simp only [MemblockRegion.above, region, sub32] at hset ⊢
  omega

theorem mergeStep (h : t.Balanced) {i' : ℕ}
    (hok : memblockMergeStep (t, i) = .ok (.inl (t', i'))) : t'.Balanced := by
  simp only [memblockMergeStep] at hok
  split_ifs at hok with hi
  · obtain ⟨rfl, -⟩ := Prod.mk.inj (Sum.inl.inj (Except.ok.inj hok))
    exact h
  · obtain ⟨rfl, -⟩ := Prod.mk.inj (Sum.inl.inj (Except.ok.inj hok))
    let grown : MemblockRegion := { t.region i with
      size := ((t.region i).size + (t.region (i + 1)).size) % 2 ^ 32 }
    have hset := regionBytes_set (r := grown) (show i < t.regions.length from by
      rw [nrRegions] at hi
      omega)
    have herase := regionBytes_eraseIdx (t.regions.set i grown) (i + 1)
    have hnext : (t.regions.set i grown).getD (i + 1) default = t.region (i + 1) := by
      rw [region, List.getD_eq_getElem?_getD, List.getElem?_set_ne (by omega),
        List.getD_eq_getElem?_getD]
    rw [hnext] at herase
    simp only [Balanced] at h ⊢
    simp only [grown, region] at hset herase
    simp only [region]
    omega
  · cases hok

theorem mergeRegions (h : t.Balanced) (hok : memblockMergeRegions t = .ok t') : t'.Balanced := by
  refine Exec.loop_inv (fun s => s.1.Balanced) Balanced ?_ ?_ h hok
  · rintro ⟨t, i⟩ ⟨t', i'⟩ h hstep
    exact h.mergeStep hstep
  · rintro ⟨t, i⟩ t' h hstep
    simp only [memblockMergeStep] at hstep
    split_ifs at hstep
    · cases hstep
    · cases hstep
    · obtain rfl := Sum.inr.inj (Except.ok.inj hstep)
      exact h

end Balanced

end MemblockType

/-- What a scan that inserts pieces keeps. -/
def AddScan.Balanced (s : AddScan) : Prop := s.type.Balanced ∧ s.idx ≤ s.type.nrRegions

namespace AddScan.Balanced

variable {insert : Bool} {stop upto : ℕ} {nid : ℤ} {flags : ℕ} {s s' : AddScan}

theorem addPiece (h : s.Balanced) (hok : Sandix.addPiece insert nid flags s upto = .ok s') :
    s'.Balanced ∧ s'.type.nrRegions + s.idx = s.type.nrRegions + s'.idx := by
  cases insert with
  | false =>
    obtain rfl := Except.ok.inj hok
    exact ⟨h, rfl⟩
  | true =>
    simp only [Sandix.addPiece, if_true, Exec.bind_eq_ok, Exec.pure_eq_ok] at hok
    obtain ⟨t, hins, hs⟩ := hok
    obtain rfl := Except.ok.inj hs
    obtain ⟨hbal, hnr⟩ := h.1.insertRegion h.2 hins
    have hidx := h.2
    exact ⟨⟨hbal, by dsimp only; omega⟩, by dsimp only; omega⟩

theorem scanStep (h : s.Balanced)
    (hok : addScanStep insert stop nid flags s = .ok (.inl s')) : s'.Balanced := by
  simp only [addScanStep] at hok
  split_ifs at hok with hidx _ _ hgap
  · cases hok
  · obtain rfl := Sum.inl.inj (Except.ok.inj hok)
    exact ⟨h.1, hidx⟩
  · simp only [Exec.bind_eq_ok, Exec.pure_eq_ok] at hok
    obtain ⟨s₁, hpiece, hs⟩ := hok
    obtain rfl := Sum.inl.inj (Except.ok.inj hs)
    obtain ⟨hbal, hnr⟩ := h.addPiece hpiece
    exact ⟨hbal.1, by dsimp only; omega⟩
  · simp only [Exec.pure_eq_ok, Exec.ok_bind] at hok
    obtain rfl := Sum.inl.inj (Except.ok.inj hok)
    exact ⟨h.1, hidx⟩
  · cases hok

/-- The scan leaves as it is. -/
theorem addScanStep_done (hok : addScanStep insert stop nid flags s = .ok (.inr s')) : s' = s := by
  simp only [addScanStep] at hok
  split_ifs at hok
  · exact (Sum.inr.inj (Except.ok.inj hok)).symm
  · cases hok
  · obtain ⟨s₁, -, hs⟩ := Exec.bind_eq_ok.mp hok
    cases hs
  · cases hok
  · exact (Sum.inr.inj (Except.ok.inj hok)).symm

theorem addPass {t : MemblockType} {base : ℕ} (h : t.Balanced)
    (hok : Sandix.addPass insert stop nid flags t base = .ok s) : s.Balanced := by
  simp only [Sandix.addPass, Exec.bind_eq_ok] at hok
  obtain ⟨s₁, hloop, hlast⟩ := hok
  have h₁ : s₁.Balanced := by
    refine Exec.loop_inv AddScan.Balanced AddScan.Balanced ?_ ?_ ⟨h, Nat.zero_le _⟩ hloop
    · intro s s' hs hstep
      exact hs.scanStep hstep
    · intro s s' hs hstep
      rwa [addScanStep_done hstep]
  split_ifs at hlast
  · exact (h₁.addPiece hlast).1
  · obtain rfl := Except.ok.inj hlast
    exact h₁

end AddScan.Balanced

/-- One round of `memblock_isolate_range`. -/
theorem isolateStep_balanced {base stop : ℕ} {s s' : IsolateScan} (h : s.type.Balanced)
    (hok : isolateStep base stop s = .ok (.inl s')) : s'.type.Balanced := by
  simp only [isolateStep] at hok
  split_ifs at hok with hidx
  · cases hok
  · obtain rfl := Sum.inl.inj (Except.ok.inj hok)
    exact h
  · obtain ⟨t, hsplit, hs⟩ := Exec.bind_eq_ok.mp hok
    obtain rfl := Sum.inl.inj (Except.ok.inj hs)
    exact h.splitRegion hidx hsplit
  · obtain ⟨t, hsplit, hs⟩ := Exec.bind_eq_ok.mp hok
    obtain rfl := Sum.inl.inj (Except.ok.inj hs)
    exact h.splitRegion hidx hsplit
  · obtain rfl := Sum.inl.inj (Except.ok.inj hok)
    exact h
  · obtain rfl := Sum.inl.inj (Except.ok.inj hok)
    exact h
  · cases hok

theorem isolateStep_done {base stop : ℕ} {s s' : IsolateScan}
    (hok : isolateStep base stop s = .ok (.inr s')) : s' = s := by
  simp only [isolateStep] at hok
  split_ifs at hok
  · exact (Sum.inr.inj (Except.ok.inj hok)).symm
  · cases hok
  · obtain ⟨t, -, hs⟩ := Exec.bind_eq_ok.mp hok
    cases hs
  · obtain ⟨t, -, hs⟩ := Exec.bind_eq_ok.mp hok
    cases hs
  · cases hok
  · cases hok
  · exact (Sum.inr.inj (Except.ok.inj hok)).symm

/-! ## The calls -/

namespace MemblockType.Balanced

variable {t t' : MemblockType} {base size : ℕ} {nid ret : ℤ} {flags : ℕ}

/-- **`memblock_add_range`**; the size set for the first region of an empty map is the sum of one. -/
theorem addRange (h : t.Balanced) (hwf : WellFormed t)
    (hok : memblockAddRange t base size nid flags = .ok (ret, t')) : t'.Balanced := by
  simp only [memblockAddRange] at hok
  split_ifs at hok with hsize hempty
  · obtain ⟨-, rfl⟩ := Prod.mk.inj (Except.ok.inj hok)
    exact h
  · obtain ⟨-, rfl⟩ := Prod.mk.inj (Except.ok.inj hok)
    obtain ⟨r, hr⟩ := hwf.eq_singleton hempty
    have hcap : memblockCapSize base size < 2 ^ 32 := by
      rw [memblockCapSize, physMax]
      omega
    simp only [Balanced, setRegion, hr, List.set_cons_zero, regionBytes_cons, regionBytes_nil]
    rw [Nat.add_zero, Nat.mod_eq_of_lt hcap]
  · simp only [Exec.bind_eq_ok] at hok
    obtain ⟨count, -, hok⟩ := hok
    split_ifs at hok
    · obtain ⟨-, rfl⟩ := Prod.mk.inj (Except.ok.inj hok)
      exact h
    · simp only [Exec.bind_eq_ok] at hok
      obtain ⟨s, hpass, t₁, hmerge, hok⟩ := hok
      obtain ⟨-, rfl⟩ := Prod.mk.inj (Except.ok.inj hok)
      exact (AddScan.Balanced.addPass h hpass).1.mergeRegions hmerge

theorem isolateRange {s e : ℕ} (h : t.Balanced)
    (hok : memblockIsolateRange t base size = .ok (ret, t', s, e)) : t'.Balanced := by
  simp only [memblockIsolateRange] at hok
  split_ifs at hok
  · obtain ⟨-, rfl, -⟩ := Prod.mk.inj (Except.ok.inj hok)
    exact h
  · obtain ⟨-, rfl, -⟩ := Prod.mk.inj (Except.ok.inj hok)
    exact h
  · obtain ⟨s₁, hloop, hok⟩ := Exec.bind_eq_ok.mp hok
    obtain ⟨-, rfl, -⟩ := Prod.mk.inj (Except.ok.inj hok)
    refine Exec.loop_inv (fun s => s.type.Balanced) (fun s => s.type.Balanced) ?_ ?_ h hloop
    · intro s s' hs hstep
      exact isolateStep_balanced hs hstep
    · intro s s' hs hstep
      rwa [isolateStep_done hstep]

/-- **`memblock_remove_range`.** -/
theorem removeRange (h : t.Balanced)
    (hok : memblockRemoveRange t base size = .ok (ret, t')) : t'.Balanced := by
  obtain ⟨⟨ret₁, t₁, s, e⟩, hiso, hok⟩ := Exec.bind_eq_ok.mp hok
  have h₁ := h.isolateRange hiso
  dsimp only at hok
  split_ifs at hok
  · obtain ⟨-, rfl⟩ := Prod.mk.inj (Except.ok.inj hok)
    exact h₁
  · obtain ⟨-, rfl⟩ := Prod.mk.inj (Except.ok.inj hok)
    exact h₁.removeRegions s (e - s)

/-- **`memblock_set_node`.** -/
theorem setNode (h : t.Balanced)
    (hok : memblockSetNode t base size nid = .ok (ret, t')) : t'.Balanced := by
  obtain ⟨⟨ret₁, t₁, s, e⟩, hiso, hok⟩ := Exec.bind_eq_ok.mp hok
  have h₁ := h.isolateRange hiso
  dsimp only at hok
  split_ifs at hok
  · obtain ⟨-, rfl⟩ := Prod.mk.inj (Except.ok.inj hok)
    exact h₁
  · obtain ⟨t₂, hmerge, hok⟩ := Exec.bind_eq_ok.mp hok
    obtain ⟨-, rfl⟩ := Prod.mk.inj (Except.ok.inj hok)
    exact (h₁.setRegionNodes nid (e - s) s).mergeRegions hmerge

end MemblockType.Balanced

/-- The two recorded sizes are exact. -/
structure TotalsExact (m : Memblock) : Prop where
  memory : m.memory.TotalExact
  reserved : m.reserved.TotalExact

namespace TotalsExact

variable {m m' : Memblock} {ret : ℤ}

theorem onMemory {f : MemblockType → Exec (ℤ × MemblockType)} (h : TotalsExact m)
    (hok : m.onMemory f = .ok (ret, m')) (hwf : WellFormed m'.memory)
    (hf : ∀ t', f m.memory = .ok (ret, t') → t'.Balanced) : TotalsExact m' := by
  obtain ⟨⟨ret₁, t'⟩, hft, hm⟩ := Exec.bind_eq_ok.mp hok
  obtain ⟨rfl, rfl⟩ := Prod.mk.inj (Except.ok.inj hm)
  exact ⟨(MemblockType.balanced_iff hwf).mp (hf t' hft), h.reserved⟩

theorem onReserved {f : MemblockType → Exec (ℤ × MemblockType)} (h : TotalsExact m)
    (hok : m.onReserved f = .ok (ret, m')) (hwf : WellFormed m'.reserved)
    (hf : ∀ t', f m.reserved = .ok (ret, t') → t'.Balanced) : TotalsExact m' := by
  obtain ⟨⟨ret₁, t'⟩, hft, hm⟩ := Exec.bind_eq_ok.mp hok
  obtain ⟨rfl, rfl⟩ := Prod.mk.inj (Except.ok.inj hm)
  exact ⟨h.memory, (MemblockType.balanced_iff hwf).mp (hf t' hft)⟩

/-- **Every call but trimming keeps the totals exact.** -/
theorem exec (h : TotalsExact m) (hm : MemblockOk m) {op : MemblockOp}
    (hok : op.exec m = .ok (ret, m')) (hm' : MemblockOk m') : TotalsExact m' := by
  have hmem := (MemblockType.balanced_iff hm.memory).mpr h.memory
  have hres := (MemblockType.balanced_iff hm.reserved).mpr h.reserved
  cases op with
  | add base size =>
    exact h.onMemory (f := fun t => memblockAddRange t base size maxNrNodes 0) hok hm'.memory
      fun _ => hmem.addRange hm.memory
  | addNode base size nid =>
    exact h.onMemory (f := fun t => memblockAddRange t base size nid 0) hok hm'.memory
      fun _ => hmem.addRange hm.memory
  | reserve base size =>
    exact h.onReserved (f := fun t => memblockAddRange t base size maxNrNodes 0) hok hm'.reserved
      fun _ => hres.addRange hm.reserved
  | remove base size =>
    exact h.onMemory (f := fun t => memblockRemoveRange t base size) hok hm'.memory
      fun _ => hmem.removeRange
  | free base size =>
    exact h.onReserved (f := fun t => memblockRemoveRange t base size) hok hm'.reserved
      fun _ => hres.removeRange
  | setNode base size type nid =>
    cases type with
    | memory =>
      exact h.onMemory (f := fun t => memblockSetNode t base size nid) hok hm'.memory
        fun _ => hmem.setNode
    | reserved =>
      exact h.onReserved (f := fun t => memblockSetNode t base size nid) hok hm'.reserved
        fun _ => hres.setNode

end TotalsExact

/-! ## Trimming -/

/-- The region has no part of a page to lose: its ends are page boundaries, or there is no whole page
in it and its start is rounded up inside the address space. -/
def WholeOrNothing (r : MemblockRegion) : Prop :=
  (pageSize ∣ r.base ∧ pageSize ∣ r.base + r.size) ∨
    r.base ≤ 2 ^ 32 - pageSize ∧
      ∀ p, pageSize ∣ p → r.base ≤ p → ¬p + pageSize ≤ r.base + r.size

section Trimming

variable {r r' : MemblockRegion} {rs : List MemblockRegion}

/-- What trimming leaves of a region is a page at least. -/
theorem trimRegion_size_ge (hw : r.NoWrap) (hpos : 0 < r.size)
    (h : trimRegion pageSize r = some r') : pageSize ≤ r'.size := by
  have hw' : r.base + r.size < 2 ^ 32 := hw
  by_cases hb : r.base ≤ 2 ^ 32 - 2 ^ 12
  · obtain ⟨hcore, -⟩ := (trimRegion_eq_some_iff (by decide) hb hw hpos).mp h
    obtain ⟨hlt, hs, ht, -⟩ := hcore
    rw [pageSize]
    omega
  · rw [show pageSize = 2 ^ 12 from rfl, trimRegion_wraps (by decide) (not_le.mp hb) hw,
      Option.some.injEq] at h
    rw [← h]
    show pageSize ≤ 2 ^ 32 - 2 ^ 12
    decide

/-- It is smaller, unless the region had nothing to lose. -/
theorem trimRegion_size_le (hw : r.NoWrap) (hpos : 0 < r.size) (hb : r.base ≤ 2 ^ 32 - 2 ^ 12)
    (h : trimRegion pageSize r = some r') :
    r'.size ≤ r.size ∧ (r'.size = r.size ↔ WholeOrNothing r) := by
  obtain ⟨⟨hlt, hs, ht, hbase, hstop, hlargest⟩, -⟩ :=
    (trimRegion_eq_some_iff (by decide) hb hw hpos).mp h
  refine ⟨by omega, fun heq => Or.inl ?_, ?_⟩
  · obtain ⟨hb', hs'⟩ : r'.base = r.base ∧ r'.base + r'.size = r.base + r.size := by omega
    exact ⟨hb' ▸ hs, hs' ▸ ht⟩
  · rintro (⟨hb', hs'⟩ | ⟨-, hno⟩)
    · have := hlargest r.base (r.base + r.size) (by omega) hb' hs' le_rfl le_rfl
      omega
    · exact absurd (by rw [pageSize]; omega) (hno r'.base hs hbase)

/-- A region that is removed holds no whole page. -/
theorem wholeOrNothing_of_none (hw : r.NoWrap) (h : trimRegion pageSize r = none) :
    WholeOrNothing r := by
  by_cases hb : r.base ≤ 2 ^ 32 - 2 ^ 12
  · refine Or.inr ⟨hb, fun p hp hbp hpe => ?_⟩
    have := (trimRegion_page hw (by omega) p).mpr (by
      rw [pageSize] at hp hpe ⊢
      omega)
    simp [h] at this
  · rw [show pageSize = 2 ^ 12 from rfl, trimRegion_wraps (by decide) (not_le.mp hb) hw] at h
    cases h

/-- **Without a wrap trimming loses bytes**, and none only if there is no part of a page to lose. -/
theorem bytes_trimmed_le (h : ∀ r ∈ rs, r.NoWrap ∧ 0 < r.size ∧ r.base ≤ 2 ^ 32 - 2 ^ 12) :
    regionBytes (rs.filterMap (trimRegion pageSize)) + regionBytes (discarded pageSize rs)
        ≤ regionBytes rs ∧
      (regionBytes (rs.filterMap (trimRegion pageSize)) + regionBytes (discarded pageSize rs)
        = regionBytes rs ↔ ∀ r ∈ rs, WholeOrNothing r) := by
  induction rs with
  | nil => simp [discarded]
  | cons r rs ih =>
    obtain ⟨hw, hpos, hb⟩ := h r (by simp)
    obtain ⟨hle, heq⟩ := ih fun x hx => h x (List.mem_cons_of_mem _ hx)
    rw [List.forall_mem_cons, ← heq]
    simp only [discarded] at hle ⊢
    cases hr : trimRegion pageSize r with
    | none =>
      have hwon := wholeOrNothing_of_none hw hr
      rw [List.filterMap_cons_none hr, List.filter_cons_of_pos (by simp [hr]), regionBytes_cons,
        regionBytes_cons]
      exact ⟨by omega, by simp only [hwon, true_and]; omega⟩
    | some r' =>
      obtain ⟨hsize, hwon⟩ := trimRegion_size_le hw hpos hb hr
      rw [List.filterMap_cons_some hr, List.filter_cons_of_neg (by simp [hr]), regionBytes_cons,
        regionBytes_cons, ← hwon]
      omega

/-- Nothing is left, or a page at least. -/
theorem bytes_trimmed_cases (rs : List MemblockRegion) (h : ∀ r ∈ rs, r.NoWrap ∧ 0 < r.size) :
    (regionBytes (rs.filterMap (trimRegion pageSize)) = 0 ∧
        regionBytes (discarded pageSize rs) = regionBytes rs) ∨
      pageSize ≤ regionBytes (rs.filterMap (trimRegion pageSize)) := by
  induction rs with
  | nil => simp [discarded]
  | cons r rs ih =>
    obtain ⟨hw, hpos⟩ := h r (by simp)
    have ih := ih fun x hx => h x (List.mem_cons_of_mem _ hx)
    simp only [discarded] at ih ⊢
    cases hr : trimRegion pageSize r with
    | none =>
      rw [List.filterMap_cons_none hr, List.filter_cons_of_pos (by simp [hr]), regionBytes_cons,
        regionBytes_cons]
      omega
    | some r' =>
      have hsize := trimRegion_size_ge hw hpos hr
      rw [List.filterMap_cons_some hr, regionBytes_cons]
      omega

/-- **With a wrap the bytes never add up.** -/
theorem bytes_trimmed_ne (h : RegionsFrom 0 rs) (hr : r ∈ rs) (hb : 2 ^ 32 - 2 ^ 12 < r.base) :
    regionBytes (rs.filterMap (trimRegion pageSize)) + regionBytes (discarded pageSize rs)
      ≠ regionBytes rs := by
  have hlt := h.bytes_lt (by decide)
  have hgood : ∀ x ∈ rs, x.NoWrap ∧ 0 < x.size := fun x hx => ⟨h.noWrap x hx, h.size_pos hx⟩
  obtain ⟨pre, post, rfl⟩ := List.append_of_mem hr
  have hpre := bytes_trimmed_cases pre fun x hx => hgood x (by simp [hx])
  have hpost := bytes_trimmed_cases post fun x hx => hgood x (by simp [hx])
  have hw : r.base + r.size < 2 ^ 32 := h.noWrap r hr
  have htrim : trimRegion pageSize r = some { r with base := 0, size := 2 ^ 32 - 2 ^ 12 } :=
    trimRegion_wraps (by decide) hb (h.noWrap r hr)
  simp only [discarded] at hpre hpost ⊢
  rw [List.filterMap_append, List.filterMap_cons_some htrim, List.filter_append,
    List.filter_cons_of_neg (by simp [htrim])]
  simp only [regionBytes_append, regionBytes_cons] at hlt ⊢
  have hpage : pageSize = 4096 := rfl
  omega

theorem bytes_discarded_le (rs : List MemblockRegion) :
    regionBytes (discarded pageSize rs) ≤ regionBytes rs :=
  (List.filter_sublist.map MemblockRegion.size).sum_le_sum fun _ _ => Nat.zero_le _

theorem WholeOrNothing.base_le (h : WholeOrNothing r) (hw : r.NoWrap) :
    r.base ≤ 2 ^ 32 - 2 ^ 12 := by
  rcases h with ⟨hb, -⟩ | ⟨hb, -⟩
  · rw [MemblockRegion.NoWrap] at hw
    rw [pageSize] at hb
    omega
  · exact hb

/-- When what is left and what is removed add up to what there was. -/
theorem bytes_trimmed_eq_iff {t : MemblockType} (h : WellFormed t) :
    regionBytes (t.regions.filterMap (trimRegion pageSize))
        + regionBytes (discarded pageSize t.regions) = regionBytes t.regions ↔
      ∀ r ∈ t.regions, WholeOrNothing r := by
  rcases h.content with hc | ⟨r, hr, hb, hs⟩
  · by_cases hlast : ∀ r ∈ t.regions, r.base ≤ 2 ^ 32 - 2 ^ 12
    · exact (bytes_trimmed_le fun r hr => ⟨h.noWrap r hr, hc.size_pos hr, hlast r hr⟩).2
    · push Not at hlast
      obtain ⟨r, hr, hb⟩ := hlast
      refine iff_of_false (bytes_trimmed_ne hc hr hb) fun hall => ?_
      exact absurd ((hall r hr).base_le (h.noWrap r hr)) (not_le.mpr hb)
  · have htrim := trimRegion_of_empty pageSize hb hs
    have hwon : WholeOrNothing r := Or.inl (by simp [hb, hs])
    simp [hr, htrim, discarded, hwon]

end Trimming

/-- **`memblock_trim_memory`** returns; it leaves the totals exact when, and only when, no region has a
part of a page to lose, and then the arrays are in order too. -/
theorem memblockTrimMemory_totals {m : Memblock} (hm : MemblockOk m) (h : TotalsExact m) :
    ∃ m', memblockTrimMemory m pageSize = .ok m' ∧
      (TotalsExact m' ↔ ∀ r ∈ m.memory.regions, WholeOrNothing r) ∧
      ((∀ r ∈ m.memory.regions, WholeOrNothing r) → MemblockOk m') := by
  obtain ⟨t, htrim, hmax, htot, ht⟩ := memblockTrimMemory_eq pageSize hm.memory
  have hlt := hm.memory.bytes_lt
  have hmem : m.memory.totalSize = regionBytes m.memory.regions := h.memory
  have hdisc := bytes_discarded_le m.memory.regions
  rw [hmem, sub32_of_le hlt hdisc] at htot
  have hleft : regionBytes t.regions
      = regionBytes (m.memory.regions.filterMap (trimRegion pageSize)) := by
    rw [ht]
    split_ifs with hnil
    · rw [hnil]
      rfl
    · rfl
  refine ⟨_, htrim, ?_, fun hall => ?_⟩
  · rw [← bytes_trimmed_eq_iff hm.memory]
    constructor
    · intro hexact
      have hexact' : t.totalSize = regionBytes t.regions := hexact.memory
      have := htot hlt
      omega
    · intro heq
      refine ⟨?_, h.reserved⟩
      show t.totalSize = regionBytes t.regions
      have := htot hlt
      omega
  · have hlast := fun r hr => (hall r hr).base_le (hm.memory.noWrap r hr)
    exact ⟨(memblockTrimMemory_trimmed hm.memory (by decide) hlast hmax ht).wellFormed, hm.reserved,
      hmax.trans hm.memory_max, hm.reserved_max⟩

/-! ## Runs -/

/-- The calls that change `memblock`: the editors, and trimming to whole pages. -/
inductive MemblockCall
  | edit (op : MemblockOp)
  | trim
deriving Repr

/-- The state after one call. -/
def MemblockCall.exec (m : Memblock) : MemblockCall → Exec Memblock
  | .edit op => do
    let (_, m) ← op.exec m
    pure m
  | .trim => memblockTrimMemory m pageSize

/-- The call shrinks no region. -/
def MemblockCall.ShrinksNone (m : Memblock) : MemblockCall → Prop
  | .edit _ => True
  | .trim => ∀ r ∈ m.memory.regions, WholeOrNothing r

/-- What a run keeps. -/
structure TotalsInv (m : Memblock) : Prop where
  ok : MemblockOk m
  totals : TotalsExact m

theorem totalsInv_init : TotalsInv initMemblock := ⟨memblockOk_init, rfl, rfl⟩

/-- **One call** returns, and the totals stay exact when it shrinks no region, and only then. -/
theorem TotalsInv.exec {m : Memblock} (h : TotalsInv m) (call : MemblockCall) :
    ∃ m', call.exec m = .ok m' ∧ (TotalsExact m' ↔ call.ShrinksNone m) ∧
      (call.ShrinksNone m → TotalsInv m') := by
  cases call with
  | edit op =>
    obtain ⟨ret, m', hop, hok⟩ := h.ok.exec op
    have htot := h.totals.exec h.ok hop hok
    exact ⟨m', by rw [MemblockCall.exec, hop]; rfl, iff_of_true htot trivial, fun _ => ⟨hok, htot⟩⟩
  | trim =>
    obtain ⟨m', htrim, hiff, hok⟩ := memblockTrimMemory_totals h.ok h.totals
    exact ⟨m', htrim, hiff, fun hall => ⟨hok hall, hiff.mpr hall⟩⟩

/-- The totals are exact in every state the run reaches, and it reaches its end. -/
def KeepsTotals (calls : List MemblockCall) : Prop :=
  ∀ pre, pre <+: calls →
    ∃ m, execFrom MemblockCall.exec initMemblock pre = .ok m ∧ TotalsExact m

/-- **When the recorded sizes are the sums of the sizes in every state a run reaches**: when no
`memblock_trim_memory` of the run finds a region that it shrinks. -/
theorem keepsTotals_iff (calls : List MemblockCall) :
    KeepsTotals calls ↔ ∀ pre call m, pre ++ [call] <+: calls →
      execFrom MemblockCall.exec initMemblock pre = .ok m → call.ShrinksNone m := by
  constructor
  · intro hkeeps
    -- a state with exact totals before and after a call shows that the call shrank nothing
    have hshrinks : ∀ pre call m, pre ++ [call] <+: calls →
        execFrom MemblockCall.exec initMemblock pre = .ok m → TotalsInv m →
        call.ShrinksNone m ∧ ∃ m', call.exec m = .ok m' ∧ TotalsInv m' := by
      intro pre call m hpre hm hinv
      obtain ⟨m', hcall, hiff, hnext⟩ := hinv.exec call
      obtain ⟨m'', hm'', hexact⟩ := hkeeps _ hpre
      rw [execFrom_concat, hm, Exec.ok_bind, hcall] at hm''
      obtain rfl := Except.ok.inj hm''
      exact ⟨hiff.mp hexact, m', hcall, hnext (hiff.mp hexact)⟩
    have hall := exec_returns_induction totalsInv_init fun pre call m hpre hm hinv =>
      (hshrinks pre call m hpre hm hinv).2
    intro pre call m hpre hm
    obtain ⟨m₁, hm₁, hinv⟩ := hall pre ((List.prefix_append _ _).trans hpre)
    obtain rfl := Except.ok.inj (hm.symm.trans hm₁)
    exact (hshrinks pre call m hpre hm hinv).1
  · intro hnone
    have hall : ∀ pre, pre <+: calls →
        ∃ m, execFrom MemblockCall.exec initMemblock pre = .ok m ∧ TotalsInv m := by
      refine exec_returns_induction totalsInv_init fun pre call m hpre hm hinv => ?_
      obtain ⟨m', hcall, -, hnext⟩ := hinv.exec call
      exact ⟨m', hcall, hnext (hnone pre call m hpre hm)⟩
    intro pre hpre
    obtain ⟨m, hm, hinv⟩ := hall pre hpre
    exact ⟨m, hm, hinv.totals⟩

/-- Half a page of RAM below the first whole one: trimming takes it away, and `total_size` still
counts it. -/
theorem keepsTotals_halfPage : ¬KeepsTotals [.edit (.add 0x1800 0x2800), .trim] := by
  intro hkeeps
  obtain ⟨m, hm, hexact⟩ := hkeeps _ List.prefix_rfl
  have hrun : execFrom MemblockCall.exec initMemblock [.edit (.add 0x1800 0x2800), .trim]
      = .ok { initMemblock with
          memory := ⟨initMemblockRegions, 0x2800, [⟨0x2000, 0x2000, 0, maxNrNodes⟩]⟩ } := by
    decide
  obtain rfl := Except.ok.inj (hrun.symm.trans hm)
  have hmem := hexact.memory
  revert hmem
  unfold MemblockType.TotalExact
  decide

end Sandix

