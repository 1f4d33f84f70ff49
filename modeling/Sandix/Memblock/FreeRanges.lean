import Sandix.Memblock.Content
import Sandix.Memblock.Iterate

/-!
# Memblock/FreeRanges — the memory that is present and not reserved

`freeRanges` is the list the iterators produce: every matching region cut against every gap.  Its
members are the maximal free parts of the matching regions (`mem_freeRanges_iff`), in ascending order
(`freeRanges_pairwise`).
-/

namespace Sandix

open Machinery

/-! ## The list both walks produce -/

/-- `m` against the gap `g`, when the walks find that they meet. -/
def cutGap (m : MemblockRegion) (g : ℕ × ℕ) : List FreeRange :=
  if g.1 < m.stop ∧ m.base < g.2 then [⟨max m.base g.1, min m.stop g.2, m.nid⟩] else []

/-- The gaps before, between and after the regions `rs`, from `lo` up to `physMax`. -/
def gapsFrom : ℕ → List MemblockRegion → List (ℕ × ℕ)
  | lo, [] => [(lo, physMax)]
  | lo, r :: rs => (lo, r.base) :: gapsFrom r.stop rs

/-- The matching regions of `ms` cut against the gaps `gs`. -/
def cutAll (nid : ℤ) (flags : ℕ) (ms : List MemblockRegion) (gs : List (ℕ × ℕ)) : List FreeRange :=
  ms.flatMap fun m => if skipRegion nid flags m then [] else gs.flatMap (cutGap m)

/-- **The free ranges**: the matching regions of `a`, cut against the gaps of `b`. -/
def freeRanges (nid : ℤ) (flags : ℕ) (a b : MemblockType) : List FreeRange :=
  cutAll nid flags a.regions (gapsFrom 0 b.regions)

section CutAll

variable {nid : ℤ} {flags : ℕ} {m : MemblockRegion} {ms : List MemblockRegion} {g : ℕ × ℕ}
  {gs : List (ℕ × ℕ)}

theorem mem_cutGap {x : FreeRange} : x ∈ cutGap m g ↔
    (g.1 < m.stop ∧ m.base < g.2) ∧ x = ⟨max m.base g.1, min m.stop g.2, m.nid⟩ := by
  rw [cutGap]
  split <;> simp_all

theorem cutGap_of_le_start (h : m.stop ≤ g.1) : cutGap m g = [] := if_neg (by omega)

theorem cutGap_of_stop_le (h : g.2 ≤ m.base) : cutGap m g = [] := if_neg (by omega)

theorem cutAll_cons : cutAll nid flags (m :: ms) gs
    = (if skipRegion nid flags m then [] else gs.flatMap (cutGap m)) ++ cutAll nid flags ms gs := rfl

theorem cutAll_append (ms' : List MemblockRegion) : cutAll nid flags (ms ++ ms') gs
    = cutAll nid flags ms gs ++ cutAll nid flags ms' gs := List.flatMap_append

theorem cutAll_singleton : cutAll nid flags [m] gs
    = if skipRegion nid flags m then [] else gs.flatMap (cutGap m) := List.append_nil _

/-- A gap that meets none of the regions may be left out. -/
theorem cutAll_congr {gs' : List (ℕ × ℕ)}
    (h : ∀ m ∈ ms, gs.flatMap (cutGap m) = gs'.flatMap (cutGap m)) :
    cutAll nid flags ms gs = cutAll nid flags ms gs' := by
  rw [cutAll, cutAll]
  refine List.flatMap_congr fun m hm => ?_
  rw [h m hm]

theorem flatMap_cutGap_eq_nil (h : ∀ g ∈ gs, m.stop ≤ g.1 ∨ g.2 ≤ m.base) :
    gs.flatMap (cutGap m) = [] := by
  rw [List.flatMap_eq_nil_iff]
  intro g hg
  rcases h g hg with h | h
  · exact cutGap_of_le_start h
  · exact cutGap_of_stop_le h

theorem cutAll_skip (h : skipRegion nid flags m = true) :
    cutAll nid flags (m :: ms) gs = cutAll nid flags ms gs := by
  rw [cutAll_cons, if_pos h, List.nil_append]

theorem cutAll_skip_last (h : skipRegion nid flags m = true) :
    cutAll nid flags (ms ++ [m]) gs = cutAll nid flags ms gs := by
  rw [cutAll_append, cutAll_singleton, if_pos h, List.append_nil]

end CutAll

/-- Regions in order. -/
structure InOrder (ms : List MemblockRegion) : Prop where
  le : ∀ m ∈ ms, m.base ≤ m.stop
  pairwise : ms.Pairwise fun m m' => m.stop ≤ m'.base

/-- Gaps in order; a gap may be empty. -/
structure GapsInOrder (gs : List (ℕ × ℕ)) : Prop where
  le : ∀ g ∈ gs, g.1 ≤ g.2
  pairwise : gs.Pairwise fun g g' => g.2 ≤ g'.1

theorem InOrder.sublist {ms ms' : List MemblockRegion} (h : InOrder ms) (hs : ms'.Sublist ms) :
    InOrder ms' := ⟨fun m hm => h.le m (hs.subset hm), h.pairwise.sublist hs⟩

theorem GapsInOrder.sublist {gs gs' : List (ℕ × ℕ)} (h : GapsInOrder gs) (hs : gs'.Sublist gs) :
    GapsInOrder gs' := ⟨fun g hg => h.le g (hs.subset hg), h.pairwise.sublist hs⟩
/-! ## The gaps of an array -/

theorem length_gapsFrom : ∀ (rs : List MemblockRegion) (lo : ℕ),
    (gapsFrom lo rs).length = rs.length + 1
  | [], _ => rfl
  | r :: rs, _ => by rw [gapsFrom, List.length_cons, length_gapsFrom rs, List.length_cons]

/-- The gap before region `j`, as the iterators compute it from their index. -/
theorem getElem?_gapsFrom : ∀ (rs : List MemblockRegion) (lo j : ℕ), j ≤ rs.length →
    (gapsFrom lo rs)[j]? = some (if j = 0 then lo else (rs.getD (j - 1) default).stop,
      if j < rs.length then (rs.getD j default).base else physMax)
  | [], lo, 0, _ => rfl
  | r :: rs, lo, 0, _ => rfl
  | r :: rs, lo, j + 1, h => by
      rw [gapsFrom, List.getElem?_cons_succ,
        getElem?_gapsFrom rs _ j (by simpa using h)]
      cases j <;> simp

/-- The gaps between well-formed regions are in order. -/
theorem gapsFrom_inOrder : ∀ {rs : List MemblockRegion} (lo : ℕ), lo ≤ physMax →
    RegionsFrom lo rs → GapsInOrder (gapsFrom lo rs) ∧ ∀ g ∈ gapsFrom lo rs, lo ≤ g.1
  | [], lo, hlo, _ => by
      simp only [gapsFrom, List.mem_singleton]
      exact ⟨⟨by simpa using hlo, List.pairwise_singleton _ _⟩, by simp⟩
  | r :: rs, lo, hlo, h => by
      obtain ⟨hb, hpos, hw, hrs⟩ := RegionsFrom.cons_iff.mp h
      have hstop := MemblockRegion.NoWrap.stop_eq hw
      simp only [MemblockRegion.NoWrap] at hw
      obtain ⟨hord, hlow⟩ := gapsFrom_inOrder r.stop (by simp only [physMax]; omega)
        (by rwa [hstop])
      refine ⟨⟨fun g hg => ?_, List.pairwise_cons.mpr ⟨fun g hg => ?_, hord.pairwise⟩⟩,
        fun g hg => ?_⟩
      · rcases List.mem_cons.mp hg with rfl | hg
        · exact hb
        · exact hord.le g hg
      · have := hlow g hg
        dsimp only
        omega
      · rcases List.mem_cons.mp hg with rfl | hg
        · exact le_rfl
        · have := hlow g hg
          omega

namespace WellFormed

variable {t : MemblockType}

theorem stop_eq (h : WellFormed t) {r : MemblockRegion} (hr : r ∈ t.regions) :
    r.stop = r.base + r.size := MemblockRegion.NoWrap.stop_eq (h.noWrap r hr)

theorem stop_le (h : WellFormed t) {r : MemblockRegion} (hr : r ∈ t.regions) :
    r.stop ≤ physMax := by
  have := h.noWrap r hr
  rw [h.stop_eq hr, physMax]
  omega

theorem base_lt (h : WellFormed t) {r : MemblockRegion} (hr : r ∈ t.regions) :
    r.base < physMax := by
  have hw := h.noWrap r hr
  rw [physMax]
  rcases h.nonempty with hpos | ⟨r', hr', hb, -⟩
  · have := hpos r hr
    omega
  · rw [hr', List.mem_singleton] at hr
    rw [hr, hb]
    decide

theorem inOrder (h : WellFormed t) : InOrder t.regions where
  le := fun r hr => by rw [h.stop_eq hr]; omega
  pairwise := by
    refine (List.Pairwise.and_mem.mp h.sorted).imp fun {r r'} ⟨hr, _, hlt⟩ => ?_
    rw [h.stop_eq hr]
    exact hlt.2

theorem gapsInOrder (h : WellFormed t) : GapsInOrder (gapsFrom 0 t.regions) := by
  rcases h.content with hc | ⟨r, hr, hb, hs⟩
  · exact (gapsFrom_inOrder 0 (Nat.zero_le _) hc).1
  · have hstop : r.stop = 0 := by simp [MemblockRegion.stop, hb, hs]
    rw [hr]
    refine ⟨?_, ?_⟩ <;> simp [gapsFrom, hb, hstop]

end WellFormed
/-! ## What the free ranges are -/

/-- No two regions touch. -/
def MemblockType.NoneAdjacent (t : MemblockType) : Prop :=
  t.regions.Pairwise fun r r' => r.base + r.size ≠ r'.base

/-- `[s, e)` is a non-empty part of `m` that holds no address of `t`, and no larger part of `m`
around it is free of `t`. -/
structure MaximalFree (m : MemblockRegion) (t : MemblockType) (s e : ℕ) : Prop where
  nonempty : s < e
  base_le : m.base ≤ s
  le_stop : e ≤ m.base + m.size
  free : ∀ a, s ≤ a → a < e → ¬t.Covers a
  maximal : ∀ s' e', m.base ≤ s' → s' ≤ s → e ≤ e' → e' ≤ m.base + m.size →
    (∀ a, s' ≤ a → a < e' → ¬t.Covers a) → s' = s ∧ e' = e

section Gaps

/-- The gaps are the complement of the regions. -/
theorem mem_gapsFrom_iff : ∀ {rs : List MemblockRegion} {lo a : ℕ}, RegionsFrom lo rs → lo ≤ a →
    a < physMax → ((∃ g ∈ gapsFrom lo rs, g.1 ≤ a ∧ a < g.2) ↔ ¬RegionCovers rs a)
  | [], lo, a, _, hlo, ha => by simp [gapsFrom, hlo, ha]
  | r :: rs, lo, a, h, hlo, ha => by
      obtain ⟨hb, hpos, hw, hrs⟩ := RegionsFrom.cons_iff.mp h
      have hstop := MemblockRegion.NoWrap.stop_eq hw
      rw [gapsFrom, List.exists_mem_cons_iff, RegionCovers, covers_cons, not_or]
      dsimp only
      by_cases hin : r.stop ≤ a
      · rw [mem_gapsFrom_iff (by rwa [hstop]) hin ha]
        constructor
        · rintro (h | h)
          · omega
          · exact ⟨by omega, h⟩
        · rintro ⟨-, h⟩
          exact Or.inr h
      · constructor
        · rintro (h | ⟨g, hg, hga, -⟩)
          · exact ⟨by omega, fun hc => by have := hrs.asc.le_of_covers hc; omega⟩
          · have hle := (gapsFrom_inOrder r.stop
              (by rw [MemblockRegion.NoWrap] at hw; rw [physMax]; omega) (by rwa [hstop])).2 g hg
            omega
        · rintro ⟨h, -⟩
          exact Or.inl (by omega)

/-- A gap stands against a region, or an end of memory, on both sides. -/
theorem gapsFrom_edges : ∀ {rs : List MemblockRegion} {lo : ℕ}, RegionsFrom lo rs →
    ∀ g ∈ gapsFrom lo rs, (g.1 = lo ∨ 0 < g.1 ∧ RegionCovers rs (g.1 - 1)) ∧
      (g.2 = physMax ∨ RegionCovers rs g.2)
  | [], lo, _, g, hg => by
      rw [gapsFrom, List.mem_singleton] at hg
      exact ⟨Or.inl (by rw [hg]), Or.inl (by rw [hg])⟩
  | r :: rs, lo, h, g, hg => by
      obtain ⟨hb, hpos, hw, hrs⟩ := RegionsFrom.cons_iff.mp h
      have hstop := MemblockRegion.NoWrap.stop_eq hw
      rw [gapsFrom, List.mem_cons] at hg
      rcases hg with rfl | hg
      · exact ⟨Or.inl rfl, Or.inr (covers_cons.mpr (Or.inl ⟨le_rfl, by dsimp only; omega⟩))⟩
      · obtain ⟨hlow, hhigh⟩ := gapsFrom_edges (by rwa [hstop]) g hg
        refine ⟨Or.inr ?_, hhigh.imp_right fun hc => covers_cons.mpr (Or.inr hc)⟩
        rcases hlow with hlow | ⟨hpos', hc⟩
        · exact ⟨by omega, covers_cons.mpr (Or.inl (by omega))⟩
        · exact ⟨hpos', covers_cons.mpr (Or.inr hc)⟩

/-- Between regions that do not touch, only the outermost gaps can be empty. -/
theorem gapsFrom_nonempty : ∀ {rs : List MemblockRegion} {lo : ℕ}, RegionsFrom lo rs →
    (rs.Pairwise fun r r' => r.base + r.size ≠ r'.base) → (∀ r ∈ rs, lo ≠ r.base) →
    ∀ g ∈ gapsFrom lo rs, g.1 < g.2 ∨ g.2 = physMax
  | [], lo, _, _, _, g, hg => by
      rw [gapsFrom, List.mem_singleton] at hg
      exact Or.inr (by rw [hg])
  | r :: rs, lo, h, hadj, hlo, g, hg => by
      obtain ⟨hb, hpos, hw, hrs⟩ := RegionsFrom.cons_iff.mp h
      have hstop := MemblockRegion.NoWrap.stop_eq hw
      rw [gapsFrom, List.mem_cons] at hg
      rcases hg with rfl | hg
      · exact Or.inl (lt_of_le_of_ne hb (hlo r (by simp)))
      · obtain ⟨hr, hadj⟩ := List.pairwise_cons.mp hadj
        exact gapsFrom_nonempty (by rwa [hstop]) hadj (by rwa [hstop]) g hg

variable {t : MemblockType} {g : ℕ × ℕ}

namespace WellFormed

/-- The gaps of an array are the addresses below `physMax` that it does not cover. -/
theorem mem_gaps_iff (h : WellFormed t) {a : ℕ} (ha : a < physMax) :
    (∃ g ∈ gapsFrom 0 t.regions, g.1 ≤ a ∧ a < g.2) ↔ ¬t.Covers a := by
  rcases h.content with hc | ⟨r, hr, hb, hs⟩
  · exact mem_gapsFrom_iff hc (Nat.zero_le _) ha
  · have hstop : r.stop = 0 := by simp [MemblockRegion.stop, hb, hs]
    simp [MemblockType.Covers, RegionCovers, hr, gapsFrom, hb, hs, hstop, ha]

theorem gap_edges (h : WellFormed t) (hg : g ∈ gapsFrom 0 t.regions) :
    (g.1 = 0 ∨ 0 < g.1 ∧ t.Covers (g.1 - 1)) ∧ (g.2 = physMax ∨ t.Covers g.2 ∨ g.2 = 0) := by
  rcases h.content with hc | ⟨r, hr, hb, hs⟩
  · exact (gapsFrom_edges hc g hg).imp_right fun h => h.imp_right Or.inl
  · have hstop : r.stop = 0 := by simp [MemblockRegion.stop, hb, hs]
    rw [hr] at hg
    simp only [gapsFrom, hb, hstop, List.mem_cons, List.not_mem_nil, or_false] at hg
    rcases hg with rfl | rfl
    · exact ⟨Or.inl rfl, Or.inr (Or.inr rfl)⟩
    · exact ⟨Or.inl rfl, Or.inl rfl⟩

/-- A gap that a region meets is not empty. -/
theorem gap_nonempty (h : WellFormed t) (hadj : t.NoneAdjacent)
    (hg : g ∈ gapsFrom 0 t.regions) : g.1 < g.2 ∨ g.2 = physMax ∨ g.2 = 0 := by
  rcases h.content with hc | ⟨r, hr, hb, hs⟩
  · rcases hrs : t.regions with _ | ⟨r, rs⟩
    · rw [hrs, gapsFrom, List.mem_singleton] at hg
      exact Or.inr (Or.inl (by rw [hg]))
    · rw [MemblockType.NoneAdjacent, hrs] at hadj
      rw [hrs] at hg hc
      obtain ⟨-, hpos, hw, hc⟩ := RegionsFrom.cons_iff.mp hc
      have hstop := MemblockRegion.NoWrap.stop_eq hw
      obtain ⟨hr, hadj⟩ := List.pairwise_cons.mp hadj
      rcases List.mem_cons.mp hg with rfl | hg
      · dsimp only
        omega
      · rw [hstop] at hg
        exact (gapsFrom_nonempty hc hadj hr g hg).imp_right Or.inl
  · have hstop : r.stop = 0 := by simp [MemblockRegion.stop, hb, hs]
    rw [hr] at hg
    simp only [gapsFrom, hb, hstop, List.mem_cons, List.not_mem_nil, or_false] at hg
    rcases hg with rfl | rfl
    · exact Or.inr (Or.inr rfl)
    · exact Or.inr (Or.inl rfl)

end WellFormed

end Gaps

section FreeRanges

variable {a b : MemblockType} {nid : ℤ} {flags : ℕ}

/-- A member of the list: a matching region and a gap that meets it. -/
theorem mem_freeRanges {x : FreeRange} : x ∈ freeRanges nid flags a b ↔
    ∃ m ∈ a.regions, skipRegion nid flags m = false ∧ ∃ g ∈ gapsFrom 0 b.regions,
      (g.1 < m.stop ∧ m.base < g.2) ∧ x = ⟨max m.base g.1, min m.stop g.2, m.nid⟩ := by
  simp only [freeRanges, cutAll, List.mem_flatMap]
  refine exists_congr fun m => and_congr_right fun _ => ?_
  by_cases hskip : skipRegion nid flags m = true
  · simp [hskip]
  · simp [hskip, mem_cutGap]

/-- A yielded range lies in its region and in nothing reserved. -/
theorem freeRange_inside (ha : WellFormed a) (hb : WellFormed b) {x : FreeRange}
    (hx : x ∈ freeRanges nid flags a b) :
    (∃ m ∈ a.regions, skipRegion nid flags m = false ∧ x.nid = m.nid ∧ m.base ≤ x.start ∧
      x.stop ≤ m.base + m.size) ∧ ∀ c, x.start ≤ c → c < x.stop → ¬b.Covers c := by
  obtain ⟨m, hm, hskip, g, hg, -, rfl⟩ := mem_freeRanges.mp hx
  have hstop := ha.stop_eq hm
  have hle := ha.stop_le hm
  refine ⟨⟨m, hm, hskip, rfl, le_max_left _ _, by dsimp only; omega⟩, fun c hc hc' => ?_⟩
  dsimp only at hc hc'
  exact (hb.mem_gaps_iff (by omega)).mp ⟨g, hg, by omega, by omega⟩

/-- **A non-empty range of the list is a maximal free part of a matching region**, and each such part
is listed. -/
theorem mem_freeRanges_iff_of_lt (ha : WellFormed a) (hb : WellFormed b) {x : FreeRange}
    (hlt : x.start < x.stop) : x ∈ freeRanges nid flags a b ↔
    ∃ m ∈ a.regions, skipRegion nid flags m = false ∧ x.nid = m.nid ∧
      MaximalFree m b x.start x.stop := by
  constructor
  · intro hx
    have hfree := (freeRange_inside ha hb hx).2
    obtain ⟨m, hm, hskip, g, hg, ⟨h₁, h₂⟩, rfl⟩ := mem_freeRanges.mp hx
    have hstop := ha.stop_eq hm
    have hle := ha.stop_le hm
    obtain ⟨hlow, hhigh⟩ := hb.gap_edges hg
    refine ⟨m, hm, hskip, rfl, hlt, le_max_left _ _, by dsimp only; omega, hfree,
      fun s' e' hs hs' he he' hall => ?_⟩
    dsimp only at hlt hs' he ⊢
    -- an edge that is not the region's own is an edge of the gap, where a reserved region begins
    constructor
    · by_contra hne
      rcases hlow with hlow | ⟨hpos, hc⟩
      · omega
      · exact hall (g.1 - 1) (by omega) (by omega) hc
    · by_contra hne
      rcases hhigh with hhigh | hc | hzero
      · omega
      · exact hall g.2 (by omega) (by omega) hc
      · omega
  · rintro ⟨m, hm, hskip, hnid, hmax⟩
    have hstop := ha.stop_eq hm
    have hle := ha.stop_le hm
    have hbase := hmax.base_le
    have hend := hmax.le_stop
    obtain ⟨g, hg, hga, hga'⟩ := (hb.mem_gaps_iff (by omega)).mpr (hmax.free x.start le_rfl hlt)
    have hinside : x.stop ≤ min m.stop g.2 := by
      rcases (hb.gap_edges hg).2 with h | hc | h
      · omega
      · by_contra hlt
        exact hmax.free g.2 (by omega) (by omega) hc
      · omega
    obtain ⟨hs, he⟩ := hmax.maximal (max m.base g.1) (min m.stop g.2) (le_max_left _ _) (by omega)
      hinside (by omega) fun c hc hc' =>
        (hb.mem_gaps_iff (by omega)).mp ⟨g, hg, by omega, by omega⟩
    refine mem_freeRanges.mpr ⟨m, hm, hskip, g, hg, ⟨by omega, by omega⟩, ?_⟩
    cases x
    simp_all

/-- Where no two reserved regions touch, no range is empty. -/
theorem freeRange_nonempty (ha : WellFormed a) (hb : WellFormed b) (hadj : b.NoneAdjacent)
    {x : FreeRange} (hx : x ∈ freeRanges nid flags a b) : x.start < x.stop := by
  obtain ⟨m, hm, hskip, g, hg, ⟨h₁, h₂⟩, rfl⟩ := mem_freeRanges.mp hx
  have hstop := ha.stop_eq hm
  have hle := ha.stop_le hm
  have hmpos : m.base < m.stop := by
    rcases ha.nonempty with hpos | ⟨r, hr, hrb, hrs⟩
    · have := hpos m hm
      omega
    · rw [hr, List.mem_singleton] at hm
      rw [hm] at hstop h₁
      omega
  have hgpos := hb.gap_nonempty hadj hg
  dsimp only
  omega

/-- **The free ranges are the maximal free parts of the matching regions.** -/
theorem mem_freeRanges_iff (ha : WellFormed a) (hb : WellFormed b) (hadj : b.NoneAdjacent)
    (x : FreeRange) : x ∈ freeRanges nid flags a b ↔
    ∃ m ∈ a.regions, skipRegion nid flags m = false ∧ x.nid = m.nid ∧
      MaximalFree m b x.start x.stop := by
  constructor
  · intro hx
    exact (mem_freeRanges_iff_of_lt ha hb (freeRange_nonempty ha hb hadj hx)).mp hx
  · rintro ⟨m, hm, hskip, hnid, hmax⟩
    exact (mem_freeRanges_iff_of_lt ha hb hmax.nonempty).mpr ⟨m, hm, hskip, hnid, hmax⟩

/-- They come in ascending order. -/
theorem freeRanges_pairwise (ha : WellFormed a) (hb : WellFormed b) :
    (freeRanges nid flags a b).Pairwise fun x y => x.stop ≤ y.start := by
  rw [freeRanges, cutAll, List.pairwise_flatMap]
  constructor
  · intro m _
    split
    · exact List.Pairwise.nil
    · rw [List.pairwise_flatMap]
      refine ⟨fun g _ => ?_, hb.gapsInOrder.pairwise.imp fun {g g'} hgg x hx y hy => ?_⟩
      · rw [cutGap]
        split <;> simp
      · rw [mem_cutGap] at hx hy
        rw [hx.2, hy.2]
        dsimp only
        omega
  · refine ha.inOrder.pairwise.imp fun {m m'} hmm x hx y hy => ?_
    simp only [List.mem_ite_nil_left, List.mem_flatMap, mem_cutGap] at hx hy
    obtain ⟨-, g, -, -, rfl⟩ := hx
    obtain ⟨-, g', -, -, rfl⟩ := hy
    dsimp only
    omega

end FreeRanges
end Sandix
