import Sandix.Memblock.Trim

/-!
# Memblock/TrimCore — trimming to any power of two

`AlignedCore align b e s t`: `[s, t)` is the largest part of `[b, e)` with both ends on multiples of
`align`.  `memblock_trim_memory` should leave the core of each region, under the region's node and
flags, in a well-formed array (`TrimmedTo`).

`trimRegion_eq_some_iff` is that statement for one region.  `round_up` wraps around to `0` behind the
last multiple of `align`, and then the region becomes nearly the whole address space; so trimming
does what it should exactly when no region starts there (`memblockTrimMemory_trimmed_iff`).
-/

namespace Sandix

open Machinery

/-- `[s, t)` is the largest non-empty part of `[b, e)` whose ends are multiples of `align`. -/
structure AlignedCore (align b e s t : ℕ) : Prop where
  nonempty : s < t
  start_dvd : align ∣ s
  stop_dvd : align ∣ t
  base_le : b ≤ s
  le_stop : t ≤ e
  largest : ∀ s' t', s' < t' → align ∣ s' → align ∣ t' → b ≤ s' → t' ≤ e → s ≤ s' ∧ t' ≤ t

/-- **What trimming should leave of `t`**: the cores of its regions, each with the node and the flags
of its region, in a well-formed array. -/
structure TrimmedTo (align : ℕ) (t t' : MemblockType) : Prop where
  covers : ∀ a, t'.Covers a ↔ ∃ r ∈ t.regions, ∃ s e,
    AlignedCore align r.base (r.base + r.size) s e ∧ s ≤ a ∧ a < e
  keeps : ∀ r' ∈ t'.regions, 0 < r'.size → ∃ r ∈ t.regions,
    AlignedCore align r.base (r.base + r.size) r'.base (r'.base + r'.size) ∧
      r'.nid = r.nid ∧ r'.flags = r.flags
  wellFormed : WellFormed t'

/-! ## One region -/

section OneRegion

variable {r r' : MemblockRegion} {k : ℕ}

/-- The core is what rounding inwards leaves, when that is anything. -/
theorem alignedCore_iff {b e s t : ℕ} (hk : k < 32) (hb : b ≤ 2 ^ 32 - 2 ^ k) (he : e < 2 ^ 32) :
    AlignedCore (2 ^ k) b e s t ↔
      s = roundUp b (2 ^ k) ∧ t = roundDown e (2 ^ k) ∧ s < t := by
  obtain ⟨⟨hud, hub⟩, hleast⟩ := roundUp_isLeast hb hk
  obtain ⟨⟨hdd, hde⟩, hgreatest⟩ := roundDown_isGreatest he hk
  constructor
  · rintro ⟨hlt, hs, ht, hbs, hte, hlargest⟩
    have hu := hleast ⟨hs, hbs⟩
    have hd := hgreatest ⟨ht, hte⟩
    obtain ⟨hs', ht'⟩ := hlargest _ _ (by omega) hud hdd hub hde
    exact ⟨le_antisymm hs' hu, le_antisymm hd ht', hlt⟩
  · rintro ⟨rfl, rfl, hlt⟩
    exact ⟨hlt, hud, hdd, hub, hde, fun s' t' _ hs ht hbs hte =>
      ⟨hleast ⟨hs, hbs⟩, hgreatest ⟨ht, hte⟩⟩⟩

/-- **A region is cut down to its core**, and removed when it has none. -/
theorem trimRegion_eq_some_iff (hk : k < 32) (hb : r.base ≤ 2 ^ 32 - 2 ^ k) (hw : r.NoWrap)
    (hpos : 0 < r.size) : trimRegion (2 ^ k) r = some r' ↔
    AlignedCore (2 ^ k) r.base (r.base + r.size) r'.base (r'.base + r'.size) ∧
      r'.nid = r.nid ∧ r'.flags = r.flags := by
  rw [alignedCore_iff hk hb hw]
  simp only [trimRegion]
  rw [hw.stop_eq]
  obtain ⟨b, n, f, d⟩ := r'
  split_ifs with h₁ h₂
  · obtain ⟨h₁, h₂⟩ := h₁
    rw [h₁, h₂, Option.some.injEq]
    constructor
    · rintro rfl
      exact ⟨⟨rfl, rfl, by dsimp only at hpos ⊢; omega⟩, rfl, rfl⟩
    · rintro ⟨⟨hs, ht, -⟩, rfl, rfl⟩
      dsimp only at hs ht ⊢
      obtain rfl : n = r.size := by omega
      rw [hs]
  · rw [Option.some.injEq, MemblockRegion.mk.injEq]
    dsimp only
    constructor
    · rintro ⟨rfl, rfl, rfl, rfl⟩
      exact ⟨⟨rfl, by omega, by omega⟩, rfl, rfl⟩
    · rintro ⟨⟨rfl, ht, -⟩, rfl, rfl⟩
      exact ⟨rfl, by omega, rfl, rfl⟩
  · dsimp only
    simp only [false_iff, not_and]
    rintro ⟨rfl, ht, hlt⟩
    omega

/-- A region that starts behind the last multiple is stretched over everything in front of it. -/
theorem trimRegion_wraps (hk : k < 32) (hb : 2 ^ 32 - 2 ^ k < r.base) (hw : r.NoWrap) :
    trimRegion (2 ^ k) r = some { r with base := 0, size := 2 ^ 32 - 2 ^ k } := by
  have hlt : 2 ^ k < 2 ^ 32 := Nat.pow_lt_pow_right (by decide) hk
  have hw' : r.base + r.size < 2 ^ 32 := hw
  obtain ⟨⟨hdvd, hle⟩, hgreatest⟩ := roundDown_isGreatest hw' hk
  have hdown : roundDown (r.base + r.size) (2 ^ k) = 2 ^ 32 - 2 ^ k :=
    le_antisymm (le_last_of_two_pow_dvd hk hdvd (by omega))
      (hgreatest ⟨two_pow_dvd_last hk, by omega⟩)
  simp only [trimRegion]
  rw [hw.stop_eq, roundUp_wraps (by omega) hb hk, hdown, if_neg (by omega), if_pos (by omega),
    Nat.sub_zero]

/-- The dummy, whatever its label, is left alone. -/
theorem trimRegion_of_empty (align : ℕ) (hb : r.base = 0) (hs : r.size = 0) :
    trimRegion align r = some r := by
  have hstop : r.stop = 0 := by simp [MemblockRegion.stop, hb, hs]
  simp only [trimRegion]
  rw [hb, hstop, roundUp_zero_left, show roundDown 0 align = 0 from Nat.zero_and _,
    if_pos ⟨rfl, rfl⟩]

end OneRegion

/-! ## The whole array -/

/-- Regions cut down inside themselves stay in order. -/
theorem RegionsFrom.filterMap {f : MemblockRegion → Option MemblockRegion} :
    ∀ {rs : List MemblockRegion} {lo : ℕ}, RegionsFrom lo rs →
    (∀ r ∈ rs, ∀ r', f r = some r' →
      r.base ≤ r'.base ∧ 0 < r'.size ∧ r'.base + r'.size ≤ r.base + r.size) →
    RegionsFrom lo (rs.filterMap f)
  | [], _, _, _ => .nil
  | r :: rs, lo, h, hf => by
      obtain ⟨hlo, hpos, hw, hrs⟩ := RegionsFrom.cons_iff.mp h
      have ih := RegionsFrom.filterMap hrs fun x hx => hf x (List.mem_cons_of_mem _ hx)
      cases hr : f r with
      | none =>
        rw [List.filterMap_cons_none hr]
        exact ih.weaken (by omega)
      | some r' =>
        obtain ⟨hbase, hsize, hstop⟩ := hf r (by simp) r' hr
        rw [List.filterMap_cons_some hr]
        exact RegionsFrom.cons_iff.mpr ⟨hlo.trans hbase, hsize, lt_of_le_of_lt hstop hw,
          ih.weaken hstop⟩

section WholeArray

variable {m : Memblock} {k : ℕ}

/-- **Trimming works while no region starts behind the last multiple.** -/
theorem memblockTrimMemory_trimmed (h : WellFormed m.memory) (hk : k < 32)
    (hlast : ∀ r ∈ m.memory.regions, r.base ≤ 2 ^ 32 - 2 ^ k) {t : MemblockType}
    (hmax : t.max = m.memory.max)
    (ht : t.regions = if m.memory.regions.filterMap (trimRegion (2 ^ k)) = [] then [.dummy]
        else m.memory.regions.filterMap (trimRegion (2 ^ k))) :
    TrimmedTo (2 ^ k) m.memory t := by
  rcases h.nonempty with hpos | ⟨r, hr, hb, hs⟩
  · have hsome : ∀ r ∈ m.memory.regions, ∀ r', trimRegion (2 ^ k) r = some r' ↔
        AlignedCore (2 ^ k) r.base (r.base + r.size) r'.base (r'.base + r'.size) ∧
          r'.nid = r.nid ∧ r'.flags = r.flags := fun r hr r' =>
      trimRegion_eq_some_iff hk (hlast r hr) (h.noWrap r hr) (hpos r hr)
    have hcovers : ∀ a, t.Covers a ↔
        RegionCovers (m.memory.regions.filterMap (trimRegion (2 ^ k))) a := by
      intro a
      rw [MemblockType.Covers, ht]
      split_ifs with hnil
      · rw [hnil]
        simp [RegionCovers, MemblockRegion.dummy]
      · rfl
    refine ⟨fun a => ?_, fun r' hr' hsize => ?_, ?_⟩
    · rw [hcovers]
      constructor
      · rintro ⟨r', hr', ha⟩
        obtain ⟨r, hr, htrim⟩ := List.mem_filterMap.mp hr'
        exact ⟨r, hr, _, _, ((hsome r hr r').mp htrim).1, ha⟩
      · rintro ⟨r, hr, s, e, hcore, ha⟩
        have hlt := hcore.nonempty
        refine ⟨⟨s, e - s, r.flags, r.nid⟩, List.mem_filterMap.mpr ⟨r, hr, (hsome r hr _).mpr ?_⟩, ?_⟩
        · dsimp only
          rw [Nat.add_sub_cancel' hlt.le]
          exact ⟨hcore, rfl, rfl⟩
        · dsimp only
          omega
    · rw [ht] at hr'
      split_ifs at hr' with hnil
      · rw [List.mem_singleton.mp hr'] at hsize
        exact absurd hsize (lt_irrefl 0)
      · obtain ⟨r, hr, htrim⟩ := List.mem_filterMap.mp hr'
        exact ⟨r, hr, (hsome r hr r').mp htrim⟩
    · by_cases hnil : m.memory.regions.filterMap (trimRegion (2 ^ k)) = []
      · rw [if_pos hnil] at ht
        exact .of_dummy ht rfl rfl (hmax ▸ h.max_pos)
      · rw [if_neg hnil] at ht
        have hfrom := h.content.resolve_right fun hbase => by
          obtain ⟨r, hr, -, hs⟩ := hbase
          have := hpos r (by simp [hr])
          omega
        refine .of_regions (ht ▸ hfrom.filterMap fun r hr r' htrim => ?_) ?_ ?_
        · obtain ⟨hcore, -⟩ := (hsome r hr r').mp htrim
          have hlt := hcore.nonempty
          exact ⟨hcore.base_le, by omega, hcore.le_stop⟩
        · rw [MemblockType.nrRegions, ht]
          exact List.length_pos_iff.mpr hnil
        · rw [MemblockType.nrRegions, ht, hmax]
          exact (List.length_filterMap_le _ _).trans h.le_max
  · rw [hr, List.filterMap_cons_some (trimRegion_of_empty _ hb hs), List.filterMap_nil,
      if_neg (List.cons_ne_nil _ _)] at ht
    refine ⟨fun a => ?_, fun r' hr' hsize => ?_, .of_dummy ht hb hs (hmax ▸ h.max_pos)⟩
    · rw [MemblockType.Covers, RegionCovers, ht, hr]
      constructor
      · intro hc
        rcases covers_cons.mp hc with hin | hc
        · omega
        · exact absurd hc not_covers_nil
      · rintro ⟨r', hr', s, e, hcore, ha⟩
        rw [List.mem_singleton.mp hr', hb, hs] at hcore
        have := hcore.le_stop
        omega
    · rw [ht] at hr'
      rw [List.mem_singleton.mp hr'] at hsize
      omega

/-- **It fails as soon as one does**: that region takes the place of the first. -/
theorem memblockTrimMemory_not_trimmed (h : WellFormed m.memory) (hk : k < 32) {r : MemblockRegion}
    (hr : r ∈ m.memory.regions) (hb : 2 ^ 32 - 2 ^ k < r.base) {t : MemblockType}
    (ht : t.regions = if m.memory.regions.filterMap (trimRegion (2 ^ k)) = [] then [.dummy]
        else m.memory.regions.filterMap (trimRegion (2 ^ k))) :
    ¬TrimmedTo (2 ^ k) m.memory t := by
  have hlt : 2 ^ k < 2 ^ 32 := Nat.pow_lt_pow_right (by decide) hk
  have htrim := trimRegion_wraps hk hb (h.noWrap r hr)
  have hmem := List.mem_filterMap.mpr ⟨r, hr, htrim⟩
  rw [if_neg (List.ne_nil_of_mem hmem)] at ht
  intro hgood
  obtain ⟨r₀, hr₀, hcore, -⟩ := hgood.keeps _ (ht ▸ hmem) (by dsimp only; omega)
  have hb₀ : r₀.base = 0 := Nat.le_zero.mp hcore.base_le
  -- two regions of the result start at `0`: the stretched one and what is left of `r₀`
  have htrim₀ : trimRegion (2 ^ k) r₀ = some ⟨0, 2 ^ 32 - 2 ^ k, r₀.flags, r₀.nid⟩ := by
    have hstop := hcore.le_stop
    dsimp only at hstop
    exact (trimRegion_eq_some_iff hk (by omega) (h.noWrap r₀ hr₀) (by omega)).mpr
      ⟨hcore, rfl, rfl⟩
  let Apart (x y : MemblockRegion) : Prop := ∀ x', trimRegion (2 ^ k) x = some x' →
    ∀ y', trimRegion (2 ^ k) y = some y' → x'.base ≠ y'.base
  have hsymm : Std.Symm Apart := ⟨fun x y hxy y' hy x' hx => (hxy x' hx y' hy).symm⟩
  have hapart : m.memory.regions.Pairwise Apart := by
    have hsorted := hgood.wellFormed.sorted
    rw [ht, List.pairwise_filterMap] at hsorted
    exact hsorted.imp fun hxy x' hx y' hy => (hxy x' hx y' hy).1.ne
  have hne : r₀ ≠ r := by
    rintro rfl
    omega
  exact hapart.forall hr₀ hr hne _ htrim₀ _ htrim rfl

/-- **When `memblock_trim_memory` keeps exactly the aligned cores**: when no region starts behind the
last multiple of `align` below 4 GiB. -/
theorem memblockTrimMemory_trimmed_iff (m : Memblock) (k : ℕ) (h : WellFormed m.memory)
    (hk : k < 32) :
    (∃ t, memblockTrimMemory m (2 ^ k) = .ok { m with memory := t } ∧ TrimmedTo (2 ^ k) m.memory t) ↔
      ∀ r ∈ m.memory.regions, r.base ≤ 2 ^ 32 - 2 ^ k := by
  obtain ⟨t, htrim, hmax, -, ht⟩ := memblockTrimMemory_eq (2 ^ k) h
  constructor
  · rintro ⟨t', htrim', hgood⟩ r hr
    rw [htrim, Except.ok.injEq, Memblock.mk.injEq] at htrim'
    obtain ⟨-, -, rfl, -⟩ := htrim'
    by_contra hb
    exact memblockTrimMemory_not_trimmed h hk hr (not_le.mp hb) ht hgood
  · intro hlast
    exact ⟨t, htrim, memblockTrimMemory_trimmed h hk hlast hmax ht⟩

/-- A region with half a page at its start, one inside a page, an aligned one and one with half a page
at its end. -/
def halfPages : Memblock :=
  { initMemblock with
    memory := ⟨initMemblockRegions, 0x5c00, [⟨0x1800, 0x2800, 0, maxNrNodes⟩, ⟨0x5200, 0xa00, 0, 1⟩,
      ⟨0x8000, 0x1000, 0, 0⟩, ⟨0xa000, 0x1a00, 0, 1⟩]⟩ }

/-- The second region vanishes. -/
theorem memblockTrimMemory_trimmed_halfPages :
    (memblockTrimMemory halfPages (2 ^ 12)).map (·.memory.regions) =
      .ok [⟨0x2000, 0x2000, 0, maxNrNodes⟩, ⟨0x8000, 0x1000, 0, 0⟩, ⟨0xa000, 0x1000, 0, 1⟩] ∧
    ∃ t, memblockTrimMemory halfPages (2 ^ 12) = .ok { halfPages with memory := t } ∧
      TrimmedTo (2 ^ 12) halfPages.memory t :=
  ⟨by decide, (memblockTrimMemory_trimmed_iff halfPages 12
    ⟨by decide, by decide, by decide, by decide, Or.inl (by decide)⟩ (by decide)).mpr (by decide)⟩

/-- A region inside the last page. -/
def lastPage : Memblock :=
  { initMemblock with
    memory := ⟨initMemblockRegions, 0x700, [⟨0xfffff800, 0x700, 0, maxNrNodes⟩]⟩ }

/-- It is trimmed to all of memory but that page. -/
theorem memblockTrimMemory_lastPage :
    runOps [.add 0xfffff800 0x700] initMemblock = .ok lastPage ∧ WellFormed lastPage.memory ∧
      ¬∃ t, memblockTrimMemory lastPage (2 ^ 12) = .ok { lastPage with memory := t } ∧
        TrimmedTo (2 ^ 12) lastPage.memory t := by
  have hwf : WellFormed lastPage.memory :=
    ⟨by decide, by decide, by decide, by decide, Or.inl (by decide)⟩
  obtain ⟨t, htrim, -, -, ht⟩ := memblockTrimMemory_eq (2 ^ 12) hwf
  refine ⟨by decide, hwf, ?_⟩
  rintro ⟨t', htrim', hgood⟩
  rw [htrim, Except.ok.injEq, Memblock.mk.injEq] at htrim'
  obtain ⟨-, -, rfl, -⟩ := htrim'
  exact memblockTrimMemory_not_trimmed hwf (by decide) (List.mem_singleton_self _) (by decide) ht
    hgood

end WholeArray

end Sandix
