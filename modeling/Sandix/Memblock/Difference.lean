import Sandix.Memblock.Union

/-!
# Memblock/Difference — isolating, removing and relabelling a range

The three functions that cut the array at the ends of a range, over the addresses.
`memblock_isolate_range` changes no address, and its two indices mark the regions inside the range
(`Isolated`); `memblock_remove_range` takes the range away, and `memblock_set_node` gives what is covered
of it another node.

* `memblockRangeEdits` — what each of them leaves on success, and that a refusal changes nothing.
-/

namespace Sandix

open Machinery

variable {t : MemblockType} {base stop size : ℕ} {a : ℕ} {k : ℤ} {f : ℕ}

/-! ## The parts of an array -/

/-- The dummy lies below every range. -/
theorem parts_dummy {r : MemblockRegion} (hr : r.base = 0) (hs : r.size = 0) (hb : base < stop) :
    lowParts base [r] = [r] ∧ midParts base stop [r] = [] ∧ highParts stop [r] = [] := by
  have hstop : r.stop = 0 := by simp [MemblockRegion.stop, hr, hs]
  refine ⟨?_, ?_, ?_⟩
  · simp [lowParts, lowPart, hstop]
  · simp [midParts, midPart, hstop]
  · rw [highParts, List.flatMap_singleton, highPart, if_neg (by omega), if_neg (by omega)]

/-- The addresses of the three parts. -/
theorem regionAt_parts (h : WellFormed t) (hb : base < stop) :
    (RegionAt (lowParts base t.regions) a k f ↔ RegionAt t.regions a k f ∧ a < base) ∧
    (RegionAt (midParts base stop t.regions) a k f ↔
      RegionAt t.regions a k f ∧ base ≤ a ∧ a < stop) ∧
    (RegionAt (highParts stop t.regions) a k f ↔ RegionAt t.regions a k f ∧ stop ≤ a) := by
  rcases h.content with hc | ⟨r, hr, hb₀, hs⟩
  · obtain ⟨hlow, hmid, hhigh⟩ := parts_eq_clipped hb hc
    rw [hlow, hmid, hhigh, regionAt_clipped, regionAt_clipped, regionAt_clipped]
    refine ⟨and_congr_right fun _ => by omega, Iff.rfl, and_congr_right fun hat => ?_⟩
    obtain ⟨r, hr, ha, -⟩ := hat
    have hw : r.base + r.size < 2 ^ 32 := hc.noWrap r hr
    omega
  · obtain ⟨hlow, hmid, hhigh⟩ := parts_dummy hb₀ hs hb
    rw [hr, hlow, hmid, hhigh]
    have hno : ¬RegionAt [r] a k f := not_regionAt_dummy hs
    simp [hno]

/-- A region that is not empty and lies in `[base, stop)`. -/
def MemblockRegion.Inside (r : MemblockRegion) (base stop : ℕ) : Prop :=
  0 < r.size ∧ base ≤ r.base ∧ r.base + r.size ≤ stop

/-- A region that has no address on the other side of an end of `[base, stop)`. -/
def MemblockRegion.Uncut (r : MemblockRegion) (base stop : ℕ) : Prop :=
  (∀ a, r.base ≤ a → a < r.base + r.size → base ≤ a ∧ a < stop) ∨
    ∀ a, r.base ≤ a → a < r.base + r.size → ¬(base ≤ a ∧ a < stop)

/-- Where the regions of the parts lie. -/
theorem mem_parts (h : WellFormed t) (hb : base < stop) :
    (∀ r ∈ lowParts base t.regions, ¬r.Inside base stop ∧ r.Uncut base stop) ∧
    (∀ r ∈ midParts base stop t.regions, r.Inside base stop ∧ r.Uncut base stop) ∧
    ∀ r ∈ highParts stop t.regions, ¬r.Inside base stop ∧ r.Uncut base stop := by
  unfold MemblockRegion.Inside MemblockRegion.Uncut
  rcases h.content with hc | ⟨r, hr, hb₀, hs⟩
  · obtain ⟨hlow, hmid, hhigh⟩ := parts_eq_clipped hb hc
    rw [hlow, hmid, hhigh]
    refine ⟨fun r hr => ?_, fun r hr => ?_, fun r hr => ?_⟩
    · have hbounds := mem_clipped_bounds hr
      exact ⟨by omega, Or.inr fun a _ _ => by omega⟩
    · have hbounds := mem_clipped_bounds hr
      have hpos := hc.clipped.size_pos hr
      exact ⟨by omega, Or.inl fun a _ _ => by omega⟩
    · have hbounds := mem_clipped_bounds hr
      have hpos := hc.clipped.size_pos hr
      exact ⟨by omega, Or.inr fun a _ _ => by omega⟩
  · obtain ⟨hlow, hmid, hhigh⟩ := parts_dummy hb₀ hs hb
    rw [hr, hlow, hmid, hhigh]
    refine ⟨fun x hx => ?_, by simp, by simp⟩
    rw [List.mem_singleton.mp hx]
    exact ⟨by omega, Or.inr fun a _ _ => by omega⟩

/-! ## Isolating -/

/-- What `memblock_isolate_range` leaves: the indices stand around the regions inside the range, no
region crosses an end of it, and no address has changed. -/
structure Isolated (t t' : MemblockType) (base stop startRgn endRgn : ℕ) : Prop where
  end_le : endRgn ≤ t'.nrRegions
  marked : ∀ i < t'.nrRegions, (startRgn ≤ i ∧ i < endRgn) ↔ (t'.region i).Inside base stop
  uncut : ∀ r ∈ t'.regions, r.Uncut base stop
  same : ∀ a k f, RegionAt t'.regions a k f ↔ RegionAt t.regions a k f

/-- The marks stand around the middle of an array. -/
theorem marks_iff {low mid high : List MemblockRegion} {P : MemblockRegion → Prop}
    (ht : t.regions = low ++ mid ++ high) (hlow : ∀ r ∈ low, ¬P r) (hmid : ∀ r ∈ mid, P r)
    (hhigh : ∀ r ∈ high, ¬P r) {i : ℕ} (hi : i < t.nrRegions) :
    ((marks low mid).1 ≤ i ∧ i < (marks low mid).2) ↔ P (t.region i) := by
  rw [MemblockType.nrRegions, ht, List.append_assoc, List.length_append, List.length_append] at hi
  have hregion : t.region i = ((low ++ (mid ++ high))[i]?).getD default := by
    rw [MemblockType.region, List.getD_eq_getElem?_getD, ht, List.append_assoc]
  have hmarks : ((marks low mid).1 ≤ i ∧ i < (marks low mid).2) ↔
      low.length ≤ i ∧ i < low.length + mid.length := by
    unfold marks
    split_ifs with hnil
    · rw [hnil, List.length_nil]
      omega
    · rfl
  rw [hmarks, hregion]
  rcases Nat.lt_or_ge i low.length with h₁ | h₁
  · rw [List.getElem?_append_left h₁, List.getElem?_eq_getElem h₁]
    exact iff_of_false (by omega) (hlow _ (List.getElem_mem h₁))
  rw [List.getElem?_append_right h₁]
  rcases Nat.lt_or_ge (i - low.length) mid.length with h₂ | h₂
  · rw [List.getElem?_append_left h₂, List.getElem?_eq_getElem h₂]
    exact iff_of_true (by omega) (hmid _ (List.getElem_mem h₂))
  · have h₃ : i - low.length - mid.length < high.length := by omega
    rw [List.getElem?_append_right h₂, List.getElem?_eq_getElem h₃]
    exact iff_of_false (by omega) (hhigh _ (List.getElem_mem h₃))

/-- **`memblock_isolate_range`** isolates the range, or refuses for want of room. -/
theorem memblockIsolateRange_isolated (h : WellFormed t) (base size : ℕ) :
    ∃ ret t' startRgn endRgn, memblockIsolateRange t base size = .ok (ret, t', startRgn, endRgn) ∧
      (ret = 0 → Isolated t t' base (base + memblockCapSize base size) startRgn endRgn) ∧
      (ret ≠ 0 → ret = enomem ∧ t' = t) := by
  by_cases hsize : memblockCapSize base size = 0
  · refine ⟨0, t, 0, 0, by simp [memblockIsolateRange, hsize], fun _ => ?_, fun h₀ => absurd rfl h₀⟩
    rw [hsize, Nat.add_zero]
    refine ⟨Nat.zero_le _, fun i _ => iff_of_false (by omega) ?_, fun r _ => Or.inr fun a _ _ => ?_,
      fun a k f => Iff.rfl⟩
    · rintro ⟨hpos, hle, hle'⟩
      omega
    · omega
  by_cases hroom : t.nrRegions + 2 ≤ t.max
  · obtain ⟨t', s, e, hiso, -, hreg, hmarks⟩ := memblockIsolateRange_eq h hsize hroom
    refine ⟨0, t', s, e, hiso, fun _ => ?_, fun h₀ => absurd rfl h₀⟩
    obtain ⟨-, -, hpos⟩ := stop_of_cap hsize
    generalize base + memblockCapSize base size = stop at hpos hreg hmarks ⊢
    obtain ⟨hlow, hmid, hhigh⟩ := mem_parts h hpos
    refine ⟨?_, fun i hi => ?_, fun r hr => ?_, fun a k f => ?_⟩
    · have hend : e = (marks (lowParts base t.regions) (midParts base stop t.regions)).2 := by
        rw [← hmarks]
      rw [hend, MemblockType.nrRegions, hreg, List.length_append, List.length_append, marks]
      split_ifs
      · exact Nat.zero_le _
      · exact Nat.le_add_right _ _
    · have hiff := marks_iff hreg (fun r hr => (hlow r hr).1) (fun r hr => (hmid r hr).1)
        (fun r hr => (hhigh r hr).1) hi
      rwa [← hmarks] at hiff
    · rw [hreg, List.mem_append, List.mem_append] at hr
      rcases hr with (hr | hr) | hr
      · exact (hlow r hr).2
      · exact (hmid r hr).2
      · exact (hhigh r hr).2
    · obtain ⟨h₁, h₂, h₃⟩ := regionAt_parts (a := a) (k := k) (f := f) h hpos
      rw [hreg, regionAt_append, regionAt_append, h₁, h₂, h₃, ← and_or_left, ← and_or_left]
      exact and_iff_left (by omega)
  · refine ⟨enomem, t, 0, 0, ?_, fun h₀ => absurd h₀ (by decide), fun _ => ⟨rfl, rfl⟩⟩
    rw [memblockIsolateRange, if_neg hsize, if_pos (not_le.mp hroom)]

/-! ## Removing -/

/-- Cutting regions makes none of them touch that did not before. -/
theorem pairwise_clipped {lo c d : ℕ} {rs : List MemblockRegion} (h : RegionsFrom lo rs)
    (hmin : rs.Pairwise fun r r' => ¬r.Mergeable r') :
    (clipped c d rs).Pairwise fun r r' => ¬r.Mergeable r' := by
  refine List.pairwise_flatMap.mpr ⟨fun r _ => ?_, ?_⟩
  · rw [clip]
    split_ifs
    · exact List.pairwise_singleton _ _
    · exact List.Pairwise.nil
  · refine (hmin.and (ascending_iff.mp h.asc).2).imp fun {r r'} hrr x hx y hy hmerge => ?_
    obtain ⟨hx₁, rfl⟩ := mem_clip.mp hx
    obtain ⟨hy₁, rfl⟩ := mem_clip.mp hy
    obtain ⟨htouch, hattr⟩ := hmerge
    obtain ⟨hno, hle⟩ := hrr
    dsimp only at htouch hattr
    exact hno ⟨by omega, hattr⟩

/-- The parts outside a range of a minimal array. -/
theorem pairwise_outside (h : WellFormed t) (hmin : t.Minimal) (hb : base < stop) :
    (lowParts base t.regions ++ highParts stop t.regions).Pairwise fun r r' => ¬r.Mergeable r' := by
  rcases h.content with hc | ⟨r, hr, hb₀, hs⟩
  · obtain ⟨hlow, -, hhigh⟩ := parts_eq_clipped hb hc
    rw [hlow, hhigh, List.pairwise_append]
    refine ⟨pairwise_clipped hc hmin, pairwise_clipped hc hmin, fun x hx y hy hmerge => ?_⟩
    have h₁ := mem_clipped_bounds hx
    have h₂ := mem_clipped_bounds hy
    have htouch := hmerge.1
    omega
  · obtain ⟨hlow, -, hhigh⟩ := parts_dummy hb₀ hs hb
    rw [hr, hlow, hhigh]
    exact List.pairwise_singleton _ _

/-- **`memblock_remove_range`** is a difference, or refuses for want of room. -/
theorem memblockRemoveRange_difference (h : WellFormed t) (base size : ℕ) :
    ∃ ret t', memblockRemoveRange t base size = .ok (ret, t') ∧
      (ret = 0 → (∀ a k f, RegionAt t'.regions a k f ↔ RegionAt t.regions a k f ∧
          ¬(base ≤ a ∧ a < base + memblockCapSize base size)) ∧ (t.Minimal → t'.Minimal)) ∧
      (ret ≠ 0 → ret = enomem ∧ t' = t) := by
  obtain ⟨ret, t', hrem, hcontent⟩ := memblockRemoveRange_content h base size
  refine ⟨ret, t', hrem, fun h₀ => ⟨?_, fun hmin => ?_⟩, fun h₀ => ?_⟩
  · rcases hcontent with ⟨-, hat⟩ | ⟨hret, -⟩
    · exact hat
    · exact absurd (h₀.symm.trans hret) (by decide)
  · rcases memblockRemoveRange_cases base size h with
      ⟨-, hrem'⟩ | ⟨hsize, ⟨-, hrem'⟩ | ⟨t'', hrem', -, hreg⟩⟩
    · cases hrem.symm.trans hrem'
      exact hmin
    · cases hrem.symm.trans hrem'
      exact hmin
    · cases hrem.symm.trans hrem'
      obtain ⟨-, -, hpos⟩ := stop_of_cap hsize
      rw [MemblockType.Minimal, hreg]
      split_ifs
      · exact List.pairwise_singleton _ _
      · exact pairwise_outside h hmin hpos
  · rcases hcontent with ⟨hret, -⟩ | ⟨hret, ht, -⟩
    · exact absurd hret h₀
    · exact ⟨hret, ht⟩

/-! ## Relabelling -/

theorem regionAt_merged (h : WellFormed t) :
    RegionAt (merged t.regions) a k f ↔ RegionAt t.regions a k f := by
  rcases h.content with hc | ⟨r, hr, -⟩
  · obtain ⟨this, rs, ht⟩ := List.exists_cons_of_length_pos h.one_le
    rw [ht] at hc ⊢
    exact regionAt_mergeFrom hc
  · rw [hr]
    rfl

theorem regionAt_map_nid {rs : List MemblockRegion} {nid : ℤ} :
    RegionAt (rs.map fun r => { r with nid }) a k f ↔ k = nid ∧ ∃ k', RegionAt rs a k' f := by
  constructor
  · rintro ⟨r', hr', ha, hk, hf⟩
    obtain ⟨r, hr, rfl⟩ := List.mem_map.mp hr'
    exact ⟨hk.symm, r.nid, r, hr, ha, rfl, hf⟩
  · rintro ⟨rfl, k', r, hr, ha, -, hf⟩
    exact ⟨_, List.mem_map_of_mem hr, ha, rfl, hf⟩

/-- **`memblock_set_node`** relabels what is covered of the range, or refuses for want of room. -/
theorem memblockSetNode_relabels (h : WellFormed t) (base size : ℕ) (nid : ℤ) :
    ∃ ret t', memblockSetNode t base size nid = .ok (ret, t') ∧
      (ret = 0 → ∀ a k f, RegionAt t'.regions a k f ↔
        if base ≤ a ∧ a < base + memblockCapSize base size then
          k = nid ∧ ∃ k', RegionAt t.regions a k' f
        else RegionAt t.regions a k f) ∧
      (ret ≠ 0 → ret = enomem ∧ t' = t) := by
  rcases memblockSetNode_cases base size h nid with
    ⟨hsize, hset⟩ | ⟨hsize, ⟨-, hset⟩ | ⟨t', hwf, -, hreg, hset⟩⟩
  · refine ⟨0, _, hset, fun _ a k f => ?_, fun h₀ => absurd rfl h₀⟩
    rw [if_neg (by omega)]
    exact regionAt_merged h
  · exact ⟨enomem, t, hset, fun h₀ => absurd h₀ (by decide), fun _ => ⟨rfl, rfl⟩⟩
  · refine ⟨0, _, hset, fun _ a k f => ?_, fun h₀ => absurd rfl h₀⟩
    obtain ⟨-, -, hpos⟩ := stop_of_cap hsize
    generalize base + memblockCapSize base size = stop at hpos hreg ⊢
    obtain ⟨hlow, -, hhigh⟩ := regionAt_parts (a := a) (k := k) (f := f) h hpos
    have hmid : (∃ k', RegionAt (midParts base stop t.regions) a k' f) ↔
        (∃ k', RegionAt t.regions a k' f) ∧ base ≤ a ∧ a < stop := by
      rw [exists_congr fun k' => (regionAt_parts h hpos).2.1, exists_and_right]
    dsimp only
    rw [regionAt_merged hwf, hreg, regionAt_append, regionAt_append, hlow, hhigh, regionAt_map_nid,
      hmid]
    split_ifs with hin
    · rw [or_iff_left fun hh => by omega, or_iff_right fun hl => by omega, and_iff_left hin]
    · rw [or_assoc, or_left_comm, or_iff_right fun hm => hin hm.2.2, ← and_or_left]
      exact and_iff_left (by omega)

/-! ## The three edits -/

/-- **Isolating, removing and relabelling a range.** -/
theorem memblockRangeEdits (h : WellFormed t) (base size : ℕ) (nid : ℤ) :
    (∃ ret t' startRgn endRgn, memblockIsolateRange t base size = .ok (ret, t', startRgn, endRgn) ∧
      (ret = 0 → Isolated t t' base (base + memblockCapSize base size) startRgn endRgn) ∧
      (ret ≠ 0 → ret = enomem ∧ t' = t)) ∧
    (∃ ret t', memblockRemoveRange t base size = .ok (ret, t') ∧
      (ret = 0 → (∀ a k f, RegionAt t'.regions a k f ↔ RegionAt t.regions a k f ∧
          ¬(base ≤ a ∧ a < base + memblockCapSize base size)) ∧ (t.Minimal → t'.Minimal)) ∧
      (ret ≠ 0 → ret = enomem ∧ t' = t)) ∧
    ∃ ret t', memblockSetNode t base size nid = .ok (ret, t') ∧
      (ret = 0 → ∀ a k f, RegionAt t'.regions a k f ↔
        if base ≤ a ∧ a < base + memblockCapSize base size then
          k = nid ∧ ∃ k', RegionAt t.regions a k' f
        else RegionAt t.regions a k f) ∧
      (ret ≠ 0 → ret = enomem ∧ t' = t) :=
  ⟨memblockIsolateRange_isolated h base size, memblockRemoveRange_difference h base size,
    memblockSetNode_relabels h base size nid⟩

/-- A region cut at both ends: the middle third is taken out. -/
theorem memblockRangeEdits_middle :
    ∃ t', memblockRemoveRange ⟨3, 24, [⟨8, 24, 0, 0⟩]⟩ 16 8 = .ok (0, t') ∧
      ∀ a k f, RegionAt t'.regions a k f ↔
        RegionAt [⟨8, 24, 0, 0⟩] a k f ∧ ¬(16 ≤ a ∧ a < 24) := by
  have hwf : WellFormed ⟨3, 24, [⟨8, 24, 0, 0⟩]⟩ :=
    ⟨by decide, by decide, by decide, by decide, Or.inl (by decide)⟩
  obtain ⟨ret, t', hrem, hok, -⟩ := (memblockRangeEdits hwf 16 8 0).2.1
  have hrun : memblockRemoveRange ⟨3, 24, [⟨8, 24, 0, 0⟩]⟩ 16 8
      = .ok (0, ⟨3, 16, [⟨8, 8, 0, 0⟩, ⟨24, 8, 0, 0⟩]⟩) := by decide
  cases hrem.symm.trans hrun
  exact ⟨_, hrem, (hok rfl).1⟩

end Sandix
