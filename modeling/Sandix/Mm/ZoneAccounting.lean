import Sandix.Mm.Zones

/-!
# Mm/ZoneAccounting — the page counts of the zones

What the counts of `free_area_init_nodes` should be is said by `frames`, the number of whole frames of
RAM between two bounds (`ZoneAccounting`).  The spanned frames and the absent frames clamp the zone to
the node in different ways, but to the same frames (`clamp_zone`); their difference counts what the walk
over the regions yields (`sum_regionLen`), which is `frames` and, for every region that starts inside
the last page, the whole zone once more.

So the accounting is exact if and only if no region starts there or all zones are empty
(`zoneAccounting_iff`).
-/

namespace Sandix

open Machinery

/-- The number of whole frames of RAM in `[lo, hi)`. -/
def frames (t : MemblockType) (lo hi : ℕ) : ℕ := ((Finset.Ico lo hi).filter t.HasFrame).card

/-- The frames a zone of the node occupies. -/
def Zone.stop (x : Zone) : ℕ := x.zoneStartPfn + x.spannedPages

/-- **Exact accounting**: every zone counts its frames, and no more than it spans; zones that are not
empty are disjoint; and the node counts every frame below the highest bound. -/
structure ZoneAccounting (t : MemblockType) (z : ArchZones) (pgdata : PglistData) : Prop where
  present : ∀ i < maxNrZones,
    (pgdata.nodeZones i).presentPages = frames t (z.lowest i) (z.highest i)
  le_spanned : ∀ i < maxNrZones,
    (pgdata.nodeZones i).presentPages ≤ (pgdata.nodeZones i).spannedPages
  disjoint : ∀ i j, i < j → j < maxNrZones → (pgdata.nodeZones i).spannedPages ≠ 0 →
    (pgdata.nodeZones j).spannedPages ≠ 0 →
    (pgdata.nodeZones i).stop ≤ (pgdata.nodeZones j).zoneStartPfn ∨
      (pgdata.nodeZones j).stop ≤ (pgdata.nodeZones i).zoneStartPfn
  node : pgdata.nodePresentPages
    = frames t 0 ((Finset.range maxNrZones).sup z.highest)

/-! ## Counting frames -/

section Frames

variable {t : MemblockType} {a b c : ℕ}

theorem frames_add (hab : a ≤ b) (hbc : b ≤ c) : frames t a b + frames t b c = frames t a c := by
  rw [frames, frames, frames, ← Finset.Ico_union_Ico_eq_Ico hab hbc, Finset.filter_union,
    Finset.card_union_of_disjoint]
  exact Finset.disjoint_filter_filter (Finset.Ico_disjoint_Ico_consecutive a b c)

theorem frames_eq_zero (h : ∀ p, a ≤ p → p < b → ¬t.HasFrame p) : frames t a b = 0 := by
  rw [frames, Finset.card_eq_zero, Finset.filter_eq_empty_iff]
  intro p hp
  rw [Finset.mem_Ico] at hp
  exact h p hp.1 hp.2

theorem frames_le (t : MemblockType) (a b : ℕ) : frames t a b ≤ b - a :=
  (Finset.card_filter_le _ _).trans (Nat.card_Ico a b).le

theorem frames_congr {a' b' : ℕ}
    (h : ∀ p, t.HasFrame p → (a ≤ p ∧ p < b ↔ a' ≤ p ∧ p < b')) : frames t a b = frames t a' b' := by
  rw [frames, frames]
  congr 1
  ext p
  rw [Finset.mem_filter, Finset.mem_filter, Finset.mem_Ico, Finset.mem_Ico]
  exact and_congr_left (h p)

end Frames

/-! ## What the walk over the regions counts -/

/-- The frames of a region's range between two bounds. -/
def regionLen (lo hi : ℕ) (r : MemblockRegion) : ℕ :=
  clamp (pfnDown r.stop) lo hi - clamp (pfnUp r.base) lo hi

/-- The region starts inside the last page of the address space. -/
def MemblockRegion.InLast (r : MemblockRegion) : Prop := 0xfffff000 < r.base

instance : DecidablePred MemblockRegion.InLast := fun r => inferInstanceAs (Decidable (_ < r.base))

section Walk

variable {lo hi : ℕ}

/-- A region's own frames are as many as its range has between the bounds. -/
theorem regionLen_eq_card {r : MemblockRegion} (hw : r.NoWrap) (hb : ¬r.InLast) (h : lo ≤ hi) :
    regionLen lo hi r = ((Finset.Ico lo hi).filter r.HasFrame).card := by
  have hset : (Finset.Ico lo hi).filter r.HasFrame
      = Finset.Ico (clamp (pfnUp r.base) lo hi) (clamp (pfnDown r.stop) lo hi) := by
    ext p
    rw [Finset.mem_filter, Finset.mem_Ico, Finset.mem_Ico, MemblockRegion.hasFrame_iff hw (not_lt.mp hb),
      clamp, clamp]
    omega
  rw [hset, Nat.card_Ico, regionLen]

/-- A region inside the last page counts as all frames. -/
theorem regionLen_of_inLast {r : MemblockRegion} (hw : r.NoWrap) (hb : r.InLast) (h : lo ≤ hi)
    (hhi : hi ≤ 0xfffff ∨ lo = hi) : regionLen lo hi r = hi - lo := by
  obtain ⟨hup, hdown, -⟩ := MemblockRegion.pfn_of_last (p := 0) hw hb
  rw [regionLen, hup, hdown, clamp, clamp]
  omega

/-- **What the regions add up to**: the frames of RAM, and everything once more for each region inside
the last page. -/
theorem sum_regionLen (h : lo ≤ hi) : ∀ {rs : List MemblockRegion}, (∀ r ∈ rs, r.NoWrap) →
    rs.Pairwise (fun r r' => r.base < r'.base ∧ r.base + r.size ≤ r'.base) →
    ((∃ r ∈ rs, r.InLast) → hi ≤ 0xfffff ∨ lo = hi) →
    (rs.map (regionLen lo hi)).sum
      = ((Finset.Ico lo hi).filter fun p => ∃ r ∈ rs, r.HasFrame p).card
        + rs.countP (fun r => r.InLast) * (hi - lo)
  | [], _, _, _ => by simp
  | r :: rs, hw, hsort, hlast => by
      obtain ⟨hr, hrs⟩ := List.pairwise_cons.mp hsort
      have ih := sum_regionLen h (fun x hx => hw x (List.mem_cons_of_mem _ hx)) hrs
        fun ⟨x, hx, hx'⟩ => hlast ⟨x, List.mem_cons_of_mem _ hx, hx'⟩
      have hsplit : ((Finset.Ico lo hi).filter fun p => ∃ x ∈ r :: rs, x.HasFrame p).card
          = ((Finset.Ico lo hi).filter r.HasFrame).card
            + ((Finset.Ico lo hi).filter fun p => ∃ x ∈ rs, x.HasFrame p).card := by
        rw [← Finset.card_union_of_disjoint, ← Finset.filter_or]
        · congr 1
          ext p
          simp
        · refine Finset.disjoint_filter.mpr fun p _ hp ⟨x, hx, hxp⟩ => ?_
          have h₁ := (hr x hx).2
          have h₂ := hp.2
          have h₃ := hxp.1
          rw [pageSize] at h₂ h₃
          omega
      rw [List.map_cons, List.sum_cons, ih, hsplit, List.countP_cons]
      by_cases hb : r.InLast
      · have hnone : (Finset.Ico lo hi).filter r.HasFrame = ∅ :=
          Finset.filter_eq_empty_iff.mpr fun p _ =>
            (MemblockRegion.pfn_of_last (hw r (by simp)) hb).2.2
        rw [regionLen_of_inLast (hw r (by simp)) hb h (hlast ⟨r, by simp, hb⟩), hnone,
          Finset.card_empty]
        simp only [hb, decide_true, if_true]
        ring
      · rw [regionLen_eq_card (hw r (by simp)) hb h]
        simp only [hb, decide_false, Bool.false_eq_true, if_false]
        ring

end Walk

/-! ## The bounds of the node -/

/-- `[ns, ne)` is the span of the ranges: `[0, 0)` when there are none. -/
def NodeBounds (ranges : List PfnRange) (ns ne : ℕ) : Prop :=
  (ranges = [] ∧ ns = 0 ∧ ne = 0) ∨
  (ns < ne ∧ ne ≤ 0xfffff ∧ ∀ x ∈ ranges, ns ≤ x.start ∧ x.stop ≤ ne)

section Bounds

theorem foldl_pair (ranges : List PfnRange) : ∀ a b : ℕ,
    ranges.foldl (fun s x => (min s.1 x.start, max s.2 x.stop)) (a, b)
      = (ranges.foldl (fun m x => min m x.start) a, ranges.foldl (fun m x => max m x.stop) b) := by
  induction ranges with
  | nil => exact fun _ _ => rfl
  | cons x ranges ih => exact fun a b => ih _ _

theorem foldl_min_le (ranges : List PfnRange) : ∀ a : ℕ,
    ranges.foldl (fun m x => min m x.start) a ≤ a ∧
      ∀ x ∈ ranges, ranges.foldl (fun m x => min m x.start) a ≤ x.start := by
  induction ranges with
  | nil => simp
  | cons x ranges ih =>
    intro a
    obtain ⟨h₁, h₂⟩ := ih (min a x.start)
    refine ⟨h₁.trans (min_le_left _ _), fun y hy => ?_⟩
    rcases List.mem_cons.mp hy with rfl | hy
    · exact h₁.trans (min_le_right _ _)
    · exact h₂ y hy

theorem le_foldl_max {top : ℕ} (ranges : List PfnRange) : ∀ a : ℕ, a ≤ top →
    (∀ x ∈ ranges, x.stop ≤ top) →
    a ≤ ranges.foldl (fun m x => max m x.stop) a ∧
      ranges.foldl (fun m x => max m x.stop) a ≤ top ∧
      ∀ x ∈ ranges, x.stop ≤ ranges.foldl (fun m x => max m x.stop) a := by
  induction ranges with
  | nil => exact fun a ha _ => ⟨le_rfl, ha, by simp⟩
  | cons x ranges ih =>
    intro a ha htop
    obtain ⟨h₁, h₂, h₃⟩ := ih (max a x.stop) (max_le ha (htop x (by simp)))
      fun y hy => htop y (List.mem_cons_of_mem _ hy)
    refine ⟨(le_max_left _ _).trans h₁, h₂, fun y hy => ?_⟩
    rcases List.mem_cons.mp hy with rfl | hy
    · exact (le_max_right _ _).trans h₁
    · exact h₃ y hy

variable {t : MemblockType}

/-- The ranges of node `0`. -/
def nodeRanges (t : MemblockType) : List PfnRange := t.regions.filterMap (pfnRange 0)

theorem mem_nodeRanges {x : PfnRange} : x ∈ nodeRanges t → ∃ r ∈ t.regions,
    x.start = pfnUp r.base ∧ x.stop = pfnDown r.stop ∧ x.start < x.stop := by
  intro hx
  obtain ⟨r, hr, hrange⟩ := List.mem_filterMap.mp hx
  unfold pfnRange at hrange
  split_ifs at hrange with h
  cases hrange
  exact ⟨r, hr, rfl, rfl, h.1⟩

theorem mem_nodeRanges_of_region (hnid : ∀ r ∈ t.regions, r.nid = 0) {r : MemblockRegion}
    (hr : r ∈ t.regions) (h : pfnUp r.base < pfnDown r.stop) :
    ⟨pfnUp r.base, pfnDown r.stop, r.nid⟩ ∈ nodeRanges t :=
  List.mem_filterMap.mpr ⟨r, hr, if_pos ⟨h, Or.inr (hnid r hr).symm⟩⟩

theorem stop_le_of_mem (h : WellFormed t) {x : PfnRange} (hx : x ∈ nodeRanges t) :
    x.stop ≤ 0xfffff := by
  obtain ⟨r, hr, -, hstop, -⟩ := mem_nodeRanges hx
  have hw : r.base + r.size < 2 ^ 32 := h.noWrap r hr
  rw [hstop, MemblockRegion.pfnDown_stop hw, pageSize]
  omega

/-- When every region is on node `0`, naming the node or all nodes makes no difference. -/
theorem filterMap_pfnRange_all (hnid : ∀ r ∈ t.regions, r.nid = 0) :
    t.regions.filterMap (pfnRange maxNrNodes) = nodeRanges t := by
  refine List.filterMap_congr fun r hr => ?_
  simp [pfnRange, hnid r hr]

/-- **The bounds of the node**, found three times over. -/
theorem exists_nodeBounds (h : WellFormed t) (hlen : t.nrRegions < 2 ^ 32)
    (hnid : ∀ r ∈ t.regions, r.nid = 0) :
    ∃ ns ne, findMinPfnWithActiveRegions t = .ok ns ∧ findMinPfnForNode t 0 = .ok ns ∧
      getPfnRangeForNid t 0 = .ok (ns, ne) ∧ NodeBounds (nodeRanges t) ns ne := by
  have hall : forEachMemPfnRange t maxNrNodes = .ok (nodeRanges t) := by
    rw [forEachMemPfnRange_eq hlen, filterMap_pfnRange_all hnid]
  have hone : forEachMemPfnRange t 0 = .ok (nodeRanges t) := forEachMemPfnRange_eq hlen
  rw [findMinPfnWithActiveRegions, findMinPfnForNode, findMinPfnForNode, getPfnRangeForNid, hall, hone]
  simp only [Exec.ok_bind, Exec.pure_eq_ok, foldl_pair]
  refine ⟨_, _, rfl, rfl, rfl, ?_⟩
  rcases hnil : nodeRanges t with _ | ⟨x, xs⟩
  · exact Or.inl ⟨rfl, rfl, rfl⟩
  · rw [← hnil]
    have hx : x ∈ nodeRanges t := by simp [hnil]
    obtain ⟨-, hmin⟩ := foldl_min_le (nodeRanges t) ulongMax
    obtain ⟨-, hmax, hle⟩ := le_foldl_max (nodeRanges t) 0 (Nat.zero_le _)
      fun y hy => stop_le_of_mem h hy
    obtain ⟨r, -, -, -, hlt⟩ := mem_nodeRanges hx
    have h₁ := hmin x hx
    have h₂ := hle x hx
    have h₃ := stop_le_of_mem h hx
    have hne : (nodeRanges t).foldl (fun m x => min m x.start) ulongMax ≠ ulongMax := by
      intro heq
      rw [heq, ulongMax] at h₁
      omega
    rw [if_neg hne]
    exact Or.inr ⟨by omega, hmax, fun y hy => ⟨hmin y hy, hle y hy⟩⟩

end Bounds

/-! ## One zone -/

section OneZone

variable {t : MemblockType} {z : ArchZones} {ns ne i : ℕ}

/-- The number of regions that start inside the last page. -/
def lastCount (t : MemblockType) : ℕ := t.regions.countP fun r => r.InLast

/-- The counts of zone `i` on the node `[ns, ne)`. -/
structure ZoneOk (t : MemblockType) (z : ArchZones) (ns ne i : ℕ) (zone : Zone) : Prop where
  spanned : zone.spannedPages
    = clamp ne (z.lowest i) (z.highest i) - clamp ns (z.lowest i) (z.highest i)
  present : zone.presentPages
    = frames t (z.lowest i) (z.highest i) + lastCount t * zone.spannedPages
  frames_le : frames t (z.lowest i) (z.highest i) ≤ zone.spannedPages
  spanned_le : zone.spannedPages ≤ 0xfffff
  place : zone.spannedPages ≠ 0 →
    zone.zoneStartPfn = max (z.lowest i) ns ∧ zone.stop = min (z.highest i) ne

/-- **The two clampings agree**: the frames of the node in the zone are those between the clamped
bounds of the node, and what is spanned is the distance of these bounds. -/
theorem clamp_zone (low high : ℕ) (hn : ns ≤ ne) :
    clamp ns low high ≤ clamp ne low high ∧
    (clamp ne low high ≤ ne ∨ clamp ns low high = clamp ne low high) ∧
    ∀ p, ns ≤ p → p < ne → (low ≤ p ∧ p < high ↔ clamp ns low high ≤ p ∧ p < clamp ne low high) := by
  unfold clamp
  refine ⟨by omega, by omega, fun p h₁ h₂ => ?_⟩
  omega

theorem zoneSpannedPagesInNode_spec (h : z.lowest i ≤ z.highest i ∨ z.lowest i = ns) (hn : ns < ne)
    (hne : ne ≤ 0xfffff) :
    (zoneSpannedPagesInNode z i ns ne).1
      = clamp ne (z.lowest i) (z.highest i) - clamp ns (z.lowest i) (z.highest i) ∧
    ((zoneSpannedPagesInNode z i ns ne).1 ≠ 0 →
      (zoneSpannedPagesInNode z i ns ne).2 = some (max (z.lowest i) ns) ∧
      max (z.lowest i) ns + (zoneSpannedPagesInNode z i ns ne).1 = min (z.highest i) ne) := by
  simp only [zoneSpannedPagesInNode, clamp]
  rw [if_neg (by omega)]
  split_ifs with hout
  · dsimp only
    exact ⟨by omega, fun h => absurd rfl h⟩
  · dsimp only
    rw [sub32_of_le (by omega) (by omega)]
    exact ⟨by omega, fun _ => ⟨rfl, by omega⟩⟩

/-- A chain of unsigned subtractions subtracts the sum. -/
theorem foldl_sub32 {α : Type} (d : α → ℕ) : ∀ (xs : List α) {a : ℕ}, a < 2 ^ 32 →
    xs.foldl (fun nr x => sub32 nr (d x)) a = sub32 a (xs.map d).sum
  | [], a, ha => by
      rw [List.foldl_nil, List.map_nil, List.sum_nil, sub32_of_le ha (Nat.zero_le _), Nat.sub_zero]
  | x :: xs, a, ha => by
      rw [List.foldl_cons, foldl_sub32 d xs (sub32_lt a (d x)), List.map_cons, List.sum_cons]
      unfold sub32
      omega

/-- The lengths of the ranges add up to those of the regions: a region without a range has none. -/
theorem sum_nodeRanges {lo hi : ℕ} : ∀ {rs : List MemblockRegion}, (∀ r ∈ rs, r.nid = 0) →
    lo ≤ hi → hi < 2 ^ 32 →
    ((rs.filterMap (pfnRange 0)).map fun x => sub32 (clamp x.stop lo hi) (clamp x.start lo hi)).sum
      = (rs.map (regionLen lo hi)).sum
  | [], _, _, _ => rfl
  | r :: rs, hnid, hle, hhi => by
      have ih := sum_nodeRanges (fun x hx => hnid x (List.mem_cons_of_mem _ hx)) hle hhi
      rw [List.map_cons, List.sum_cons, ← ih]
      by_cases h : pfnUp r.base < pfnDown r.stop
      · have hr : pfnRange 0 r = some ⟨pfnUp r.base, pfnDown r.stop, r.nid⟩ :=
          if_pos ⟨h, Or.inr (hnid r (by simp)).symm⟩
        rw [List.filterMap_cons_some hr, List.map_cons, List.sum_cons, regionLen, sub32_of_le]
        · rw [clamp]
          omega
        · unfold clamp
          dsimp only
          omega
      · have hr : pfnRange 0 r = none := if_neg fun h' => h h'.1
        have hzero : regionLen lo hi r = 0 := by
          rw [regionLen, clamp, clamp]
          omega
        rw [List.filterMap_cons_none hr, hzero, Nat.zero_add]

/-- Every frame of RAM lies on the node. -/
theorem NodeBounds.of_hasFrame (hb : NodeBounds (nodeRanges t) ns ne) (h : WellFormed t)
    (hnid : ∀ r ∈ t.regions, r.nid = 0) {p : ℕ} (hp : t.HasFrame p) : ns ≤ p ∧ p < ne := by
  obtain ⟨r, hr, hrp⟩ := hp
  have hw : r.NoWrap := h.noWrap r hr
  have hlast : ¬r.InLast := fun hl => (MemblockRegion.pfn_of_last hw hl).2.2 hrp
  obtain ⟨hlo, hhi⟩ := (MemblockRegion.hasFrame_iff hw (not_lt.mp hlast)).mp hrp
  have hmem := mem_nodeRanges_of_region hnid hr (hlo.trans_lt hhi)
  rcases hb with ⟨hnil, -⟩ | ⟨-, -, hall⟩
  · rw [hnil] at hmem
    exact absurd hmem List.not_mem_nil
  · have := hall _ hmem
    dsimp only at this
    omega

/-- The absent frames between the clamped bounds: what the regions add up to is taken off, modulo
`2 ^ 32`. -/
theorem absentPagesInRange_eq (hlen : t.nrRegions < 2 ^ 32) (hnid : ∀ r ∈ t.regions, r.nid = 0)
    {lo hi : ℕ} (hle : lo ≤ hi) (hhi : hi < 2 ^ 32) :
    absentPagesInRange t 0 lo hi
      = .ok (sub32 (hi - lo) (t.regions.map (regionLen lo hi)).sum) := by
  rw [absentPagesInRange, forEachMemPfnRange_eq hlen, Exec.ok_bind, sub32_of_le hhi hle,
    foldl_sub32 (fun x : PfnRange => sub32 (clamp x.stop lo hi) (clamp x.start lo hi)) _ (by omega),
    sum_nodeRanges hnid hle hhi]
  rfl

theorem lastCount_le (h : WellFormed t) (hmax : t.max = initMemblockRegions) :
    lastCount t ≤ 128 := by
  have hle : t.regions.length ≤ t.max := h.le_max
  rw [hmax] at hle
  exact List.countP_le_length.trans hle

theorem frames_clamp (h : WellFormed t) (hnid : ∀ r ∈ t.regions, r.nid = 0)
    (hb : NodeBounds (nodeRanges t) ns ne) (hn : ns < ne) (low high : ℕ) :
    frames t low high = frames t (clamp ns low high) (clamp ne low high) := by
  obtain ⟨-, -, hframe⟩ := clamp_zone low high hn.le
  refine frames_congr fun p hp => ?_
  obtain ⟨h₁, h₂⟩ := hb.of_hasFrame h hnid hp
  exact hframe p h₁ h₂

/-- What the regions add up to between the clamped bounds of the node. -/
theorem sum_zone (h : WellFormed t) (hnid : ∀ r ∈ t.regions, r.nid = 0)
    (hb : NodeBounds (nodeRanges t) ns ne) (hn : ns < ne) (hne : ne ≤ 0xfffff) (low high : ℕ) :
    (t.regions.map (regionLen (clamp ns low high) (clamp ne low high))).sum
      = frames t low high + lastCount t * (clamp ne low high - clamp ns low high) := by
  obtain ⟨hle, hce, -⟩ := clamp_zone low high hn.le
  rw [frames_clamp h hnid hb hn]
  exact sum_regionLen hle h.noWrap h.sorted fun _ => by omega

/-- **One zone.** -/
theorem totalpagesStep_spec (h : WellFormed t) (hmax : t.max = initMemblockRegions)
    (hnid : ∀ r ∈ t.regions, r.nid = 0) (hb : NodeBounds (nodeRanges t) ns ne)
    (hz : z.lowest i ≤ z.highest i ∨ z.lowest i = ns) (hhigh : z.highest i < 2 ^ 32)
    (s : (ℕ → Zone) × ℕ × ℕ) :
    ∃ zone, totalpagesStep t z 0 ns ne s i = .ok (Function.update s.1 i zone,
      (s.2.1 + zone.spannedPages) % 2 ^ 32, (s.2.2 + zone.presentPages) % 2 ^ 32) ∧
      ZoneOk t z ns ne i zone := by
  have hk := lastCount_le h hmax
  have hlen : t.nrRegions < 2 ^ 32 := by
    have := h.le_max
    rw [hmax, initMemblockRegions] at this
    omega
  rcases id hb with ⟨-, rfl, rfl⟩ | ⟨hlt, hne, -⟩
  · have hspan : zoneSpannedPagesInNode z i 0 0 = (0, none) := if_pos ⟨rfl, rfl⟩
    have habsent : zoneAbsentPagesInNode t z 0 i 0 0 = .ok 0 := by
      simp [zoneAbsentPagesInNode]
    have hframes : frames t (z.lowest i) (z.highest i) = 0 :=
      frames_eq_zero fun p _ _ hp => absurd (hb.of_hasFrame h hnid hp) (by omega)
    refine ⟨⟨0, 0, 0⟩, ?_, ⟨(Nat.sub_self _).symm, by rw [hframes]; rfl, hframes.le,
      Nat.zero_le _, fun h => absurd rfl h⟩⟩
    rw [totalpagesStep, hspan, habsent]
    rfl
  · obtain ⟨hsize, hplace⟩ := zoneSpannedPagesInNode_spec hz hlt hne
    obtain ⟨hle, hin, -⟩ := clamp_zone (z.lowest i) (z.highest i) hlt.le
    have hce : clamp ne (z.lowest i) (z.highest i) < 2 ^ 32 := by
      rw [clamp]
      omega
    have hfew : frames t (z.lowest i) (z.highest i)
        ≤ clamp ne (z.lowest i) (z.highest i) - clamp ns (z.lowest i) (z.highest i) := by
      rw [frames_clamp h hnid hb hlt]
      exact frames_le _ _ _
    have habsent : zoneAbsentPagesInNode t z 0 i ns ne
        = absentPagesInRange t 0 (clamp ns (z.lowest i) (z.highest i))
          (clamp ne (z.lowest i) (z.highest i)) := by
      simp only [zoneAbsentPagesInNode]
      rw [if_neg (by omega)]
    rw [totalpagesStep, habsent, absentPagesInRange_eq hlen hnid hle hce,
      sum_zone h hnid hb hlt hne]
    obtain ⟨⟨size, start⟩, hspan⟩ : ∃ x, zoneSpannedPagesInNode z i ns ne = x := ⟨_, rfl⟩
    rw [hspan] at hsize hplace ⊢
    dsimp only at hsize hplace
    dsimp only [Exec.ok_bind]
    rw [← hsize] at hfew ⊢
    have hprod : lastCount t * size ≤ 128 * 0xfffff := Nat.mul_le_mul hk (by omega)
    have hreal : sub32 size (sub32 size (frames t (z.lowest i) (z.highest i) + lastCount t * size))
        = frames t (z.lowest i) (z.highest i) + lastCount t * size := by
      unfold sub32
      omega
    rw [hreal]
    refine ⟨_, rfl, hsize, rfl, hfew, by dsimp only; omega, fun hne' => ?_⟩
    obtain ⟨hstart, hstop⟩ := hplace hne'
    rw [Zone.stop, if_pos hne', hstart, Option.getD_some]
    exact ⟨rfl, hstop⟩

end OneZone

/-! ## The node -/

section Node

variable {t : MemblockType} {z : ArchZones} {ns ne : ℕ}

/-- **The loop over the zones.** -/
theorem totalpages_run (h : WellFormed t) (hmax : t.max = initMemblockRegions)
    (hnid : ∀ r ∈ t.regions, r.nid = 0) (hb : NodeBounds (nodeRanges t) ns ne) (zones : ℕ → Zone) :
    ∀ n, (∀ i < n, (z.lowest i ≤ z.highest i ∨ z.lowest i = ns) ∧ z.highest i < 2 ^ 32) →
    ∃ zones' total, (List.range n).foldlM (totalpagesStep t z 0 ns ne) (zones, 0, 0)
      = .ok (zones', total,
        ((List.range n).map fun i => (zones' i).presentPages).sum % 2 ^ 32) ∧
      ∀ i < n, ZoneOk t z ns ne i (zones' i)
  | 0, _ => ⟨zones, 0, rfl, fun i hi => absurd hi (Nat.not_lt_zero i)⟩
  | n + 1, hz => by
      obtain ⟨zones', total, hrun, hok⟩ := totalpages_run h hmax hnid hb zones n fun i hi =>
        hz i (hi.trans (Nat.lt_succ_self n))
      obtain ⟨hlow, hhigh⟩ := hz n (Nat.lt_succ_self n)
      obtain ⟨zone, hstep, hzone⟩ := totalpagesStep_spec h hmax hnid hb hlow hhigh (zones', total,
        ((List.range n).map fun i => (zones' i).presentPages).sum % 2 ^ 32)
      dsimp only at hstep
      rw [Nat.mod_add_mod] at hstep
      have hsame : ∀ i < n, Function.update zones' n zone i = zones' i := fun i hi =>
        Function.update_of_ne hi.ne _ _
      have hsum : ((List.range n).map fun i => (Function.update zones' n zone i).presentPages)
          = (List.range n).map fun i => (zones' i).presentPages :=
        List.map_congr_left fun i hi => by rw [hsame i (List.mem_range.mp hi)]
      refine ⟨Function.update zones' n zone, (total + zone.spannedPages) % 2 ^ 32, ?_,
        fun i hi => ?_⟩
      · rw [List.range_succ, List.foldlM_append, hrun, Exec.ok_bind, List.foldlM_cons, hstep,
          List.map_append, hsum, List.sum_append, List.map_cons, List.map_nil, List.sum_singleton,
          Function.update_self]
        rfl
      · rcases Nat.lt_succ_iff_lt_or_eq.mp hi with hi | rfl
        · rw [hsame i hi]
          exact hok i hi
        · rwa [Function.update_self]

/-- The zones lie end to end; `ZONE_MOVABLE` is `[0, 0)`. -/
theorem archZones_eq (zoneMaxPfns : ℕ → ℕ) (minPfn : ℕ) :
    let z := archZones zoneMaxPfns minPfn
    (z.lowest 0 = minPfn ∧ z.highest 0 = zoneMaxPfns 0) ∧
    (z.lowest 1 = z.highest 0 ∧ z.highest 1 = max (zoneMaxPfns 1) (z.highest 0)) ∧
    (z.lowest 2 = z.highest 1 ∧ z.highest 2 = max (zoneMaxPfns 2) (z.highest 1)) ∧
    (z.lowest 3 = 0 ∧ z.highest 3 = 0) := by
  exact ⟨⟨rfl, rfl⟩, ⟨rfl, rfl⟩, ⟨rfl, rfl⟩, rfl, rfl⟩

/-- A zone ends before the next ones begin. -/
theorem archZones_ordered (zoneMaxPfns : ℕ → ℕ) (minPfn : ℕ) {i j : ℕ} (hij : i < j)
    (hj : j < zoneMovable) :
    (archZones zoneMaxPfns minPfn).highest i ≤ (archZones zoneMaxPfns minPfn).lowest j := by
  obtain ⟨-, ⟨hl₁, hh₁⟩, ⟨hl₂, hh₂⟩, -⟩ := archZones_eq zoneMaxPfns minPfn
  rw [zoneMovable] at hj
  interval_cases j <;> interval_cases i <;> omega

end Node

section Main

variable {t : MemblockType} {zoneMaxPfns : ℕ → ℕ}

/-- **The whole initialisation**: the bounds of the node, the zones, and the sum over the zones. -/
theorem freeAreaInitNodes_spec (h : WellFormed t) (hmax : t.max = initMemblockRegions)
    (hnid : ∀ r ∈ t.regions, r.nid = 0) (hz : ∀ i, zoneMaxPfns i < 2 ^ 32) (pgdata : PglistData) :
    ∃ ns ne pgdata', NodeBounds (nodeRanges t) ns ne ∧
      freeAreaInitNodes t zoneMaxPfns pgdata = .ok (archZones zoneMaxPfns ns, pgdata') ∧
      (∀ i < maxNrZones, ZoneOk t (archZones zoneMaxPfns ns) ns ne i (pgdata'.nodeZones i)) ∧
      pgdata'.nodePresentPages
        = ((List.range maxNrZones).map fun i => (pgdata'.nodeZones i).presentPages).sum % 2 ^ 32 := by
  have hlen : t.nrRegions < 2 ^ 32 := by
    have := h.le_max
    rw [hmax, initMemblockRegions] at this
    omega
  obtain ⟨ns, ne, hmin, hmin', hrange, hb⟩ := exists_nodeBounds h hlen hnid
  obtain ⟨⟨hl₀, hh₀⟩, ⟨hl₁, hh₁⟩, ⟨hl₂, hh₂⟩, hl₃, hh₃⟩ := archZones_eq zoneMaxPfns ns
  have h₀ := hz 0
  have h₁ := hz 1
  have h₂ := hz 2
  obtain ⟨zones, total, hrun, hok⟩ := totalpages_run (z := archZones zoneMaxPfns ns) h hmax hnid hb
    pgdata.nodeZones maxNrZones fun i hi => by
      rw [maxNrZones] at hi
      interval_cases i <;> omega
  refine ⟨ns, ne, ⟨ns, zones, total,
    ((List.range maxNrZones).map fun i => (zones i).presentPages).sum % 2 ^ 32⟩, hb, ?_, hok, rfl⟩
  rw [freeAreaInitNodes, hmin, Exec.ok_bind, hmin', Exec.ok_bind, freeAreaInitNode, hrange,
    Exec.ok_bind]
  dsimp only
  rw [calculateNodeTotalpages, hrun]
  rfl

theorem lastCount_eq_zero : lastCount t = 0 ↔ ∀ r ∈ t.regions, r.base ≤ 0xfffff000 := by
  rw [lastCount, List.countP_eq_zero]
  refine forall₂_congr fun r _ => ?_
  rw [decide_eq_true_eq]
  exact not_lt

/-- A region inside the last page makes the node the whole address space. -/
theorem NodeBounds.eq_of_inLast {ns ne : ℕ} (hb : NodeBounds (nodeRanges t) ns ne)
    (h : WellFormed t) (hnid : ∀ r ∈ t.regions, r.nid = 0) {r : MemblockRegion}
    (hr : r ∈ t.regions) (hlast : r.InLast) : ns = 0 ∧ ne = 0xfffff := by
  obtain ⟨hup, hdown, -⟩ := MemblockRegion.pfn_of_last (p := 0) (h.noWrap r hr) hlast
  have hmem := mem_nodeRanges_of_region hnid hr (by omega)
  rcases hb with ⟨hnil, -⟩ | ⟨-, hne, hall⟩
  · rw [hnil] at hmem
    exact absurd hmem List.not_mem_nil
  · have := hall _ hmem
    dsimp only at this
    omega

/-- Nothing is counted twice exactly when no region starts inside the last page or no zone has a
frame. -/
theorem spanned_eq_zero_iff {ns ne : ℕ} {zones : ℕ → Zone} (hb : NodeBounds (nodeRanges t) ns ne)
    (h : WellFormed t) (hnid : ∀ r ∈ t.regions, r.nid = 0)
    (hok : ∀ i < maxNrZones, ZoneOk t (archZones zoneMaxPfns ns) ns ne i (zones i)) :
    (∀ i < maxNrZones, lastCount t * (zones i).spannedPages = 0) ↔
      (∀ r ∈ t.regions, r.base ≤ 0xfffff000) ∨ ∀ i < zoneMovable, zoneMaxPfns i = 0 := by
  by_cases hk : ∀ r ∈ t.regions, r.base ≤ 0xfffff000
  · have hzero := lastCount_eq_zero.mpr hk
    exact iff_of_true (fun i _ => by rw [hzero, Nat.zero_mul]) (Or.inl hk)
  rw [or_iff_right hk]
  have hpos : lastCount t ≠ 0 := fun hz => hk (lastCount_eq_zero.mp hz)
  obtain ⟨r, hr, hlast⟩ : ∃ r ∈ t.regions, r.InLast := by
    push Not at hk
    exact hk
  obtain ⟨rfl, rfl⟩ := hb.eq_of_inLast h hnid hr hlast
  obtain ⟨⟨hl₀, hh₀⟩, ⟨hl₁, hh₁⟩, ⟨hl₂, hh₂⟩, hl₃, hh₃⟩ := archZones_eq zoneMaxPfns 0
  -- on the whole address space a zone that starts at `0` is empty only if it ends there
  have hempty : ∀ i < maxNrZones, (archZones zoneMaxPfns 0).lowest i = 0 →
      ((zones i).spannedPages = 0 ↔ (archZones zoneMaxPfns 0).highest i = 0) := by
    intro i hi hlow
    rw [(hok i hi).spanned, hlow, clamp, clamp]
    omega
  constructor
  · intro hall
    have hs : ∀ i < maxNrZones, (zones i).spannedPages = 0 := fun i hi =>
      (Nat.mul_eq_zero.mp (hall i hi)).resolve_left hpos
    have h₀ := (hempty 0 (by decide) hl₀).mp (hs 0 (by decide))
    have h₁ := (hempty 1 (by decide) (hl₁.trans h₀)).mp (hs 1 (by decide))
    have h₂ := (hempty 2 (by decide) (hl₂.trans h₁)).mp (hs 2 (by decide))
    intro i hi
    rw [zoneMovable] at hi
    interval_cases i <;> omega
  · intro hall i hi
    have h₀ : (archZones zoneMaxPfns 0).highest 0 = 0 := hh₀.trans (hall 0 (by decide))
    have h₁ : (archZones zoneMaxPfns 0).highest 1 = 0 := by
      rw [hh₁, h₀, hall 1 (by decide), max_self]
    have h₂ : (archZones zoneMaxPfns 0).highest 2 = 0 := by
      rw [hh₂, h₁, hall 2 (by decide), max_self]
    refine Nat.mul_eq_zero.mpr (Or.inr ?_)
    rw [maxNrZones] at hi
    interval_cases i
    · exact (hempty 0 (by decide) hl₀).mpr h₀
    · exact (hempty 1 (by decide) (hl₁.trans h₀)).mpr h₁
    · exact (hempty 2 (by decide) (hl₂.trans h₁)).mpr h₂
    · exact (hempty 3 (by decide) hl₃).mpr hh₃

/-- The frames of the zones add up to the frames below the highest bound. -/
theorem sum_frames {ns ne : ℕ} (hb : NodeBounds (nodeRanges t) ns ne) (h : WellFormed t)
    (hnid : ∀ r ∈ t.regions, r.nid = 0) {z : ArchZones} (hz : z = archZones zoneMaxPfns ns) :
    ((List.range maxNrZones).map fun i => frames t (z.lowest i) (z.highest i)).sum
      = frames t 0 ((Finset.range maxNrZones).sup z.highest) := by
  obtain ⟨⟨hl₀, hh₀⟩, ⟨hl₁, hh₁⟩, ⟨hl₂, hh₂⟩, hl₃, hh₃⟩ := archZones_eq zoneMaxPfns ns
  rw [← hz] at hl₀ hh₀ hl₁ hh₁ hl₂ hh₂ hl₃ hh₃
  have hsup : (Finset.range maxNrZones).sup z.highest = z.highest 2 := by
    refine le_antisymm (Finset.sup_le fun i hi => ?_) (Finset.le_sup (by decide))
    rw [Finset.mem_range, maxNrZones] at hi
    interval_cases i <;> omega
  -- no frame lies below the node, so the first zone may as well start at `0`
  have hfirst : frames t ns (z.highest 0) = frames t 0 (z.highest 0) :=
    frames_congr fun p hp => by
      have := (hb.of_hasFrame h hnid hp).1
      omega
  have hlast : frames t 0 0 = 0 := frames_eq_zero fun p _ hp => absurd hp (Nat.not_lt_zero p)
  have h₀₁ : z.highest 0 ≤ z.highest 1 := by omega
  have h₁₂ : z.highest 1 ≤ z.highest 2 := by omega
  rw [hsup, ← frames_add (Nat.zero_le _) h₁₂, ← frames_add (Nat.zero_le _) h₀₁]
  simp only [List.range_succ, List.range_zero, List.nil_append, List.cons_append, List.map_cons,
    List.map_nil, List.sum_cons, List.sum_nil]
  rw [hl₀, hl₁, hl₂, hl₃, hh₃, hfirst, hlast]
  ring

/-- Exact accounting counts nothing twice. -/
theorem lastPage_of_zoneAccounting (h : WellFormed t) (hmax : t.max = initMemblockRegions)
    (hnid : ∀ r ∈ t.regions, r.nid = 0) (hz : ∀ i, zoneMaxPfns i < 2 ^ 32) {pgdata : PglistData}
    (hex : ∃ z pgdata', freeAreaInitNodes t zoneMaxPfns pgdata = .ok (z, pgdata') ∧
      ZoneAccounting t z pgdata') :
    (∀ r ∈ t.regions, r.base ≤ 0xfffff000) ∨ ∀ i < zoneMovable, zoneMaxPfns i = 0 := by
  obtain ⟨ns, ne, pgdata', hb, hrun, hok, -⟩ := freeAreaInitNodes_spec h hmax hnid hz pgdata
  obtain ⟨z, pgdata'', hrun', hacc⟩ := hex
  cases hrun.symm.trans hrun'
  refine (spanned_eq_zero_iff hb h hnid hok).mp fun i hi => ?_
  have h₁ := (hok i hi).present
  have h₂ := hacc.present i hi
  omega

/-- Zones that are not empty follow one another. -/
theorem zones_disjoint {ns ne : ℕ} {zones : ℕ → Zone}
    (hok : ∀ i < maxNrZones, ZoneOk t (archZones zoneMaxPfns ns) ns ne i (zones i)) {i j : ℕ}
    (hij : i < j) (hj : j < maxNrZones) (hi₀ : (zones i).spannedPages ≠ 0)
    (hj₀ : (zones j).spannedPages ≠ 0) : (zones i).stop ≤ (zones j).zoneStartPfn := by
  have hmov : j ≠ zoneMovable := by
    rintro rfl
    have hs := (hok zoneMovable hj).spanned
    obtain ⟨-, -, -, hl₃, hh₃⟩ := archZones_eq zoneMaxPfns ns
    rw [hl₃, hh₃, clamp, clamp] at hs
    omega
  have hbelow : j < zoneMovable := by
    rw [maxNrZones] at hj
    rw [zoneMovable] at hmov ⊢
    omega
  have hle := archZones_ordered zoneMaxPfns ns hij hbelow
  have h₁ := ((hok i (hij.trans hj)).place hi₀).2
  have h₂ := ((hok j hj).place hj₀).1
  omega

/-- The frames of the zones are too few to wrap around. -/
theorem sum_frames_lt {ns ne : ℕ} {z : ArchZones} {zones : ℕ → Zone}
    (hok : ∀ i < maxNrZones, ZoneOk t z ns ne i (zones i)) :
    ((List.range maxNrZones).map fun i => frames t (z.lowest i) (z.highest i)).sum < 2 ^ 32 := by
  have hle := List.sum_le_card_nsmul
    ((List.range maxNrZones).map fun i => frames t (z.lowest i) (z.highest i)) 0xfffff ?_
  · rw [List.length_map, List.length_range, smul_eq_mul] at hle
    exact hle.trans_lt (by decide)
  · intro x hx
    obtain ⟨i, hi, rfl⟩ := List.mem_map.mp hx
    rw [List.mem_range] at hi
    exact (hok i hi).frames_le.trans (hok i hi).spanned_le

/-- **Zone accounting is exact** if and only if no region of `memblock.memory` starts inside the last
page of the address space, or all zones are empty. -/
theorem zoneAccounting_iff (h : WellFormed t) (hmax : t.max = initMemblockRegions)
    (hnid : ∀ r ∈ t.regions, r.nid = 0) (hz : ∀ i, zoneMaxPfns i < 2 ^ 32) (pgdata : PglistData) :
    (∃ z pgdata', freeAreaInitNodes t zoneMaxPfns pgdata = .ok (z, pgdata') ∧
        ZoneAccounting t z pgdata') ↔
      (∀ r ∈ t.regions, r.base ≤ 0xfffff000) ∨ ∀ i < zoneMovable, zoneMaxPfns i = 0 := by
  refine ⟨lastPage_of_zoneAccounting h hmax hnid hz, fun hcond => ?_⟩
  obtain ⟨ns, ne, pgdata', hb, hrun, hok, hnode⟩ := freeAreaInitNodes_spec h hmax hnid hz pgdata
  have hzero := (spanned_eq_zero_iff hb h hnid hok).mpr hcond
  have hpresent : ∀ i < maxNrZones, (pgdata'.nodeZones i).presentPages
      = frames t ((archZones zoneMaxPfns ns).lowest i) ((archZones zoneMaxPfns ns).highest i) := by
    intro i hi
    have h₁ := (hok i hi).present
    have h₂ := hzero i hi
    omega
  refine ⟨_, _, hrun, hpresent, fun i hi => ?_, fun i j hij hj hi₀ hj₀ => ?_, ?_⟩
  · rw [hpresent i hi]
    exact (hok i hi).frames_le
  · exact Or.inl (zones_disjoint hok hij hj hi₀ hj₀)
  · have hsum : ((List.range maxNrZones).map fun i => (pgdata'.nodeZones i).presentPages)
        = (List.range maxNrZones).map fun i => frames t ((archZones zoneMaxPfns ns).lowest i)
          ((archZones zoneMaxPfns ns).highest i) :=
      List.map_congr_left fun i hi => hpresent i (List.mem_range.mp hi)
    rw [hnode, hsum, Nat.mod_eq_of_lt (sum_frames_lt hok), sum_frames hb h hnid rfl]

end Main

/-- Two banks of RAM with a hole between them, and a bank that ends inside a page. -/
def sampleMemory : MemblockType :=
  { initMemblockType with
    regions := [⟨0x1000, 0x9e000, 0, 0⟩, ⟨0x100000, 0x7f00000, 0, 0⟩, ⟨0x8800000, 0x1800, 0, 0⟩] }

/-- A zeroed node. -/
def emptyNode : PglistData := ⟨0, fun _ => ⟨0, 0, 0⟩, 0, 0⟩

theorem zoneAccounting_iff_sample :
    ∃ z pgdata', freeAreaInitNodes sampleMemory (fun i => [0x1000, 0x8000, 0x8900].getD i 0) emptyNode
        = .ok (z, pgdata') ∧ ZoneAccounting sampleMemory z pgdata' := by
  refine (zoneAccounting_iff ⟨by decide, by decide, by decide, by decide, Or.inl (by decide)⟩ rfl
    (by decide) (fun i => ?_) emptyNode).mpr (Or.inl (by decide))
  rcases i with _ | _ | _ | i <;> simp

/-- A bank inside the last page, which holds no whole frame, is counted as all frames. -/
theorem zoneAccounting_lastPage : ¬∀ (t : MemblockType) (zoneMaxPfns : ℕ → ℕ) (pgdata : PglistData),
    WellFormed t → t.max = initMemblockRegions → (∀ r ∈ t.regions, r.nid = 0) →
    (∀ i, zoneMaxPfns i < 2 ^ 32) →
    ∃ z pgdata', freeAreaInitNodes t zoneMaxPfns pgdata = .ok (z, pgdata') ∧
      ZoneAccounting t z pgdata' := by
  intro hall
  have hwf : WellFormed { initMemblockType with regions := [⟨0xfffff800, 0x100, 0, 0⟩] } :=
    ⟨by decide, by decide, by decide, by decide, Or.inl (by decide)⟩
  have hbound : ∀ i : ℕ, (fun _ => 0x1000) i < 2 ^ 32 := fun _ =>
    show 0x1000 < 2 ^ 32 by decide
  have hex := hall _ _ emptyNode hwf rfl (by decide) hbound
  rcases lastPage_of_zoneAccounting hwf rfl (by decide) hbound hex with h | h
  · exact absurd h (by decide)
  · exact absurd (h 0 (by decide)) (by decide)

end Sandix
