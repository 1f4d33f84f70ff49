import Mathlib.Data.Set.Card
import Sandix.Memblock.Content

/-!
# Memblock/Union — adding a range is a union

What `memblock_add_range` promises its callers, over the addresses: the range is added, what was there
keeps its node and flags, and the array is minimal again — no two regions that touch agree in both
(`Minimal`).  It fails for want of room exactly when the gaps of the array inside the range
(`MaximalGap`) are more than the free entries, which is what its counting pass finds
(`missing_eq_ncard`).

* `memblockAddRange_union` — all of this, in one statement.
-/

namespace Sandix

open Machinery

/-! ## Counting gaps -/

section Gaps

variable {stop : ℕ}

/-- The gaps of the regions `rs` inside `[base, stop)`. -/
def gapSet (rs : List MemblockRegion) (base stop : ℕ) : Set (ℕ × ℕ) :=
  {g | MaximalGap MemblockRegion.base (fun r => r.base + r.size) rs base stop g}

theorem ncard_free_gap {rs : List MemblockRegion} {base : ℕ}
    (hfree : ∀ a, base ≤ a → a < stop → ¬RegionCovers rs a) :
    (gapSet rs base stop).ncard = if base < stop then 1 else 0 := by
  split_ifs with hlt
  · have hset : gapSet rs base stop = {(base, stop)} := by
      ext g
      exact (maximalGap_of_free hfree).trans (and_iff_right hlt)
    rw [hset, Set.ncard_singleton]
  · have hset : gapSet rs base stop = ∅ := by
      ext g
      exact (maximalGap_of_free hfree).trans ⟨fun h => absurd h.1 hlt, fun h => h.elim⟩
    rw [hset, Set.ncard_empty]

theorem gapSet_finite (rs : List MemblockRegion) (base stop : ℕ) : (gapSet rs base stop).Finite := by
  refine ((Set.finite_Iic stop).prod (Set.finite_Iic stop)).subset fun g hg => ?_
  obtain ⟨-, hlt, hle⟩ := hg.inside
  exact ⟨show g.1 ≤ stop by omega, hle⟩

/-- **The counting pass finds the gaps.** -/
theorem missing_eq_ncard : ∀ {rs : List MemblockRegion} {lo base : ℕ}, RegionsFrom lo rs →
    missing stop base rs = (gapSet rs base stop).ncard
  | [], _, base, _ => by
      rw [missing, ncard_free_gap fun a _ _ => not_covers_nil]
  | r :: rs, lo, base, h => by
      obtain ⟨-, hsize, hw, hrest⟩ := RegionsFrom.cons_iff.mp h
      have hfree : stop ≤ r.base → ∀ a, base ≤ a → a < stop → ¬RegionCovers (r :: rs) a := by
        intro hfar a _ ha hcov
        have := h.from_head.asc.le_of_covers hcov
        omega
      rw [missing, hw.stop_eq]
      split_ifs with hfar hlt hbelow hgap
      · rw [ncard_free_gap (hfree hfar), if_pos hlt]
      · rw [ncard_free_gap (hfree hfar), if_neg hlt]
      · rw [missing_eq_ncard hrest]
        congr 1
        ext g
        exact (maximalGap_of_stop_le (e := fun r : MemblockRegion => r.base + r.size) hbelow).symm
      · have hnew : (base, r.base) ∉ gapSet rs (min (r.base + r.size) stop) stop := by
          intro hmem
          have hin := hmem.inside.1
          dsimp only at hin
          omega
        have hset : gapSet (r :: rs) base stop
            = insert (base, r.base) (gapSet rs (min (r.base + r.size) stop) stop) := by
          ext g
          refine (maximalGap_cons hrest.asc (by omega) (by omega) (by omega)).trans ?_
          exact or_congr_left (and_iff_right hgap)
        rw [hset, Set.ncard_insert_of_notMem hnew (gapSet_finite _ _ _), missing_eq_ncard hrest,
          Nat.add_comm]
      · rw [missing_eq_ncard hrest, Nat.zero_add]
        congr 1
        ext g
        refine ((maximalGap_cons hrest.asc (by omega) (by omega) (by omega)).trans ?_).symm
        exact or_iff_right fun hg => hgap hg.1

end Gaps

/-! ## Minimal arrays -/

/-- The regions touch and agree in node and flags. -/
def MemblockRegion.Mergeable (r r' : MemblockRegion) : Prop :=
  r.base + r.size = r'.base ∧ r.nid = r'.nid ∧ r.flags = r'.flags

/-- No two regions could be merged. -/
def MemblockType.Minimal (t : MemblockType) : Prop :=
  t.regions.Pairwise fun r r' => ¬r.Mergeable r'

/-- Merging starts with the region it starts from, grown or not. -/
theorem mergeFrom_head : ∀ (rs : List MemblockRegion) (this : MemblockRegion),
    ∃ size rest, mergeFrom this rs = { this with size := size } :: rest
  | [], this => ⟨this.size, [], rfl⟩
  | next :: rs, this => by
      rw [mergeFrom]
      split_ifs
      · exact ⟨this.size, _, rfl⟩
      · exact mergeFrom_head rs _

/-- **Merging leaves nothing to merge.** -/
theorem pairwise_mergeFrom : ∀ {rs : List MemblockRegion} {lo : ℕ} {this : MemblockRegion},
    RegionsFrom lo (this :: rs) →
      (mergeFrom this rs).Pairwise fun r r' => ¬r.Mergeable r'
  | [], _, this, _ => List.pairwise_singleton _ this
  | next :: rs, lo, this, h => by
      rw [mergeFrom]
      split_ifs with hc
      · obtain ⟨-, -, hw, hrest⟩ := RegionsFrom.cons_iff.mp h
        refine List.pairwise_cons.mpr ⟨fun x hx hmerge => ?_, pairwise_mergeFrom hrest⟩
        -- only the head of the merged rest can touch `this`, and it has the attributes of `next`
        obtain ⟨htouch, hattr⟩ := hmerge
        obtain ⟨size, rest, hhead⟩ := mergeFrom_head rs next
        have hord := regionsFrom_mergeFrom hrest
        rw [hhead] at hx hord
        rw [hw.stop_eq] at hc
        obtain ⟨hnext, hpos, -, hafter⟩ := RegionsFrom.cons_iff.mp hord
        dsimp only at hnext hpos hafter
        rcases List.mem_cons.mp hx with rfl | hx
        · dsimp only at htouch hattr
          rcases hc with hc | hc | hc
          · exact hc htouch
          · exact hc hattr.1
          · exact hc hattr.2
        · have := hafter.base_ge hx
          omega
      · push Not at hc
        exact pairwise_mergeFrom (h.grow hc.1)

/-! ## The union -/

section Union

variable {t : MemblockType} {base size : ℕ}

/-- Regions in order cover something. -/
theorem WellFormed.exists_covers (h : WellFormed t) (hreg : RegionsFrom 0 t.regions) :
    ∃ a, t.Covers a := by
  obtain ⟨r, rs, hrs⟩ := List.exists_cons_of_length_pos h.one_le
  have hr : r ∈ t.regions := by simp [hrs]
  have hpos := hreg.size_pos hr
  exact ⟨r.base, r, hr, le_rfl, by dsimp only; omega⟩

theorem not_covers_empty {r : MemblockRegion} (ht : t.regions = [r]) (hr : r.size = 0) (a : ℕ) :
    ¬t.Covers a := by
  rw [MemblockType.Covers, ht, regionCovers_iff]
  rintro ⟨k, f, hat⟩
  exact not_regionAt_dummy hr hat

/-- The gaps of the array inside the range. -/
noncomputable def MemblockType.gapCount (t : MemblockType) (base size : ℕ) : ℕ :=
  (gapSet t.regions base (base + memblockCapSize base size)).ncard

theorem gapCount_of_cap_eq_zero (hsize : memblockCapSize base size = 0) : t.gapCount base size = 0 := by
  rw [MemblockType.gapCount, hsize, ncard_free_gap (fun a _ _ => by omega), if_neg (by omega)]

/-- The array holds something, and has too few free entries for the gaps inside the range. -/
def MemblockType.LacksRoom (t : MemblockType) (base size : ℕ) : Prop :=
  (∃ a, t.Covers a) ∧ t.max < t.nrRegions + t.gapCount base size

/-- `memblock_add_range` refuses exactly for want of room. -/
theorem memblockAddRange_enomem_iff (h : WellFormed t) {nid ret : ℤ} {flags : ℕ} {t' : MemblockType}
    (hadd : memblockAddRange t base size nid flags = .ok (ret, t')) :
    ret = enomem ↔ t.LacksRoom base size := by
  rcases memblockAddRange_cases base size nid flags h with
    ⟨hsize, hadd'⟩ | ⟨-, ⟨r, hr, hr0, hadd'⟩ | ⟨hreg, ⟨hfull, hadd'⟩ | ⟨hroom, _, _, _, -, hadd', -⟩⟩⟩
  · cases hadd.symm.trans hadd'
    refine iff_of_false (by decide) fun hno => ?_
    have hlt := hno.2
    rw [gapCount_of_cap_eq_zero hsize] at hlt
    exact absurd h.le_max (by omega)
  · cases hadd.symm.trans hadd'
    refine iff_of_false (by decide) fun hno => ?_
    obtain ⟨a, ha⟩ := hno.1
    exact not_covers_empty hr hr0 a ha
  · cases hadd.symm.trans hadd'
    rw [missing_eq_ncard hreg] at hfull
    exact iff_of_true rfl ⟨h.exists_covers hreg, hfull⟩
  · cases hadd.symm.trans hadd'
    rw [missing_eq_ncard hreg] at hroom
    exact iff_of_false (by decide) fun hno => absurd hroom (not_le.mpr hno.2)

/-- **When there is room**: the array is minimal afterwards, and the gaps fitted into it. -/
theorem memblockAddRange_room (h : WellFormed t) (hmin : t.Minimal) (nid : ℤ) (flags : ℕ)
    {t' : MemblockType} (hadd : memblockAddRange t base size nid flags = .ok (0, t')) :
    t'.Minimal ∧ ¬t.LacksRoom base size := by
  refine ⟨?_, (memblockAddRange_enomem_iff h hadd).not.mp (by decide)⟩
  rcases memblockAddRange_cases base size nid flags h with
    ⟨hsize, hadd'⟩ | ⟨hsize, ⟨r, hr, hr0, hadd'⟩ | ⟨hreg, ⟨hfull, hadd'⟩ | ⟨-, this, rs, t'', hfill,
      hadd', -, hmerge⟩⟩⟩
  · cases hadd.symm.trans hadd'
    exact hmin
  · cases hadd.symm.trans hadd'
    exact List.pairwise_singleton _ _
  · cases hadd.symm.trans hadd'
  · cases hadd.symm.trans hadd'
    obtain ⟨-, hlt, -⟩ := stop_of_cap hsize
    have hord : RegionsFrom 0 (this :: rs) :=
      hfill ▸ regionsFrom_fill hlt hreg (Or.inl (Nat.zero_le _))
    rw [MemblockType.Minimal, hmerge]
    exact pairwise_mergeFrom hord

/-- **`memblock_add_range` is a union.**  On success the range is covered as well, what was covered keeps
its node and flags, the rest has the given ones, and the array is minimal again.  It returns `-ENOMEM`
exactly when the map is not empty and its gaps inside the range are more than there is room for; nothing
has changed then. -/
theorem memblockAddRange_union (h : WellFormed t) (hmin : t.Minimal) (base size : ℕ) (nid : ℤ)
    (flags : ℕ) :
    ∃ ret t', memblockAddRange t base size nid flags = .ok (ret, t') ∧ (ret = 0 ∨ ret = enomem) ∧
      (ret = 0 →
        (∀ a, t'.Covers a ↔ t.Covers a ∨ base ≤ a ∧ a < base + memblockCapSize base size) ∧
        (∀ a, t.Covers a → ∀ k f, RegionAt t'.regions a k f ↔ RegionAt t.regions a k f) ∧
        (∀ a, t'.Covers a → ¬t.Covers a → ∀ k f, RegionAt t'.regions a k f ↔ k = nid ∧ f = flags) ∧
        t'.Minimal) ∧
      (ret = enomem ↔ (∃ a, t.Covers a) ∧ t.max < t.nrRegions + t.gapCount base size) ∧
      (ret = enomem → t' = t) := by
  obtain ⟨ret, t', hadd, ⟨rfl, hat⟩ | ⟨rfl, rfl, hreg, hfull⟩⟩ :=
    memblockAddRange_content h base size nid flags
  · obtain ⟨hmin', hroom⟩ := memblockAddRange_room h hmin nid flags hadd
    have hcov : ∀ a, t'.Covers a ↔
        t.Covers a ∨ base ≤ a ∧ a < base + memblockCapSize base size := by
      intro a
      rw [MemblockType.Covers, MemblockType.Covers, regionCovers_iff]
      constructor
      · rintro ⟨k, f, hkf⟩
        rcases (hat a k f).mp hkf with hold | ⟨⟨hin, -⟩, -⟩
        · exact Or.inl hold.covers
        · exact Or.inr hin
      · intro ha
        by_cases hold : RegionCovers t.regions a
        · obtain ⟨k, f, hkf⟩ := regionCovers_iff.mp hold
          exact ⟨k, f, (hat a k f).mpr (Or.inl hkf)⟩
        · exact ⟨nid, flags, (hat a nid flags).mpr (Or.inr ⟨⟨ha.resolve_left hold, hold⟩, rfl, rfl⟩)⟩
    refine ⟨0, t', hadd, Or.inl rfl, fun _ => ⟨hcov, ?_, ?_, hmin'⟩, ?_, fun h₀ => absurd h₀ (by decide)⟩
    · intro a ha k f
      rw [hat, or_iff_left fun hnew => hnew.1.2 ha]
    · intro a ha hnew k f
      rw [hat, or_iff_right fun hold => hnew hold.covers]
      have hin := ((hcov a).mp ha).resolve_left hnew
      constructor
      · rintro ⟨-, hk, hf⟩
        exact ⟨hk.symm, hf.symm⟩
      · rintro ⟨rfl, rfl⟩
        exact ⟨⟨hin, hnew⟩, rfl, rfl⟩
    · exact iff_of_false (by decide) hroom
  · refine ⟨enomem, t', hadd, Or.inr rfl, fun h₀ => absurd h₀ (by decide), iff_of_true rfl ?_,
      fun _ => rfl⟩
    rw [missing_eq_ncard hreg] at hfull
    exact ⟨h.exists_covers hreg, hfull⟩

/-- A second region next to the first, which takes it in. -/
theorem memblockAddRange_union_small :
    ∃ ret t', memblockAddRange ⟨2, 16, [⟨16, 16, 0, 0⟩]⟩ 8 8 0 0 = .ok (ret, t') ∧ ret = 0 ∧
      t'.Covers 8 ∧ t'.Minimal := by
  have hwf : WellFormed ⟨2, 16, [⟨16, 16, 0, 0⟩]⟩ :=
    ⟨by decide, by decide, by decide, by decide, Or.inl (by decide)⟩
  have hmin : (⟨2, 16, [⟨16, 16, 0, 0⟩]⟩ : MemblockType).Minimal := List.pairwise_singleton _ _
  obtain ⟨ret, t', hadd, hret, hok, hfull, -⟩ := memblockAddRange_union hwf hmin 8 8 0 0
  have hret0 : ret = 0 := by
    have hrun : memblockAddRange ⟨2, 16, [⟨16, 16, 0, 0⟩]⟩ 8 8 0 0
        = .ok (0, ⟨2, 24, [⟨8, 24, 0, 0⟩]⟩) := by decide
    exact (Prod.ext_iff.mp (Except.ok.inj (hadd.symm.trans hrun))).1
  obtain ⟨hcov, -, -, hmin'⟩ := hok hret0
  exact ⟨ret, t', hadd, hret0, (hcov 8).mpr (Or.inr (by decide)), hmin'⟩

end Union

end Sandix
