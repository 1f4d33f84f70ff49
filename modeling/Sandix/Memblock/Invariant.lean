import Sandix.Memblock.Isolate

/-!
# Memblock/Invariant — the region arrays stay well formed

`WellFormed` is what the rest of the kernel assumes of a `memblock_type`: between one and `max`
regions, in ascending order, disjoint, none wrapping and none empty — but for the single region
`[0, 0)` that stands for an empty map.  Every editor returns, keeps it, and meets no `BUG_ON`, so it
holds after any sequence of calls (`runOps_wellFormed`).
-/

namespace Sandix

open Machinery

/-- A region array in good order. -/
structure WellFormed (t : MemblockType) : Prop where
  one_le : 1 ≤ t.nrRegions
  le_max : t.nrRegions ≤ t.max
  noWrap : ∀ r ∈ t.regions, r.base + r.size < 2 ^ 32
  sorted : t.regions.Pairwise fun r r' => r.base < r'.base ∧ r.base + r.size ≤ r'.base
  nonempty : (∀ r ∈ t.regions, 0 < r.size) ∨ ∃ r, t.regions = [r] ∧ r.base = 0 ∧ r.size = 0

namespace WellFormed

variable {t : MemblockType}

/-- A well-formed array holds regions in order, or the dummy. -/
theorem content (h : WellFormed t) :
    RegionsFrom 0 t.regions ∨ ∃ r, t.regions = [r] ∧ r.base = 0 ∧ r.size = 0 := by
  refine h.nonempty.imp_left fun hpos => ⟨ascending_iff.mpr ⟨fun r hr => ?_, ?_⟩, h.noWrap⟩
  · have := hpos r hr
    omega
  · exact h.sorted.imp fun h => h.2

theorem of_regions (h : RegionsFrom 0 t.regions) (h₁ : 1 ≤ t.nrRegions)
    (h₂ : t.nrRegions ≤ t.max) : WellFormed t where
  one_le := h₁
  le_max := h₂
  noWrap := h.noWrap
  sorted := by
    refine (List.Pairwise.and_mem.mp (ascending_iff.mp h.asc).2).imp fun ⟨hr, _, hle⟩ => ?_
    have := h.size_pos hr
    exact ⟨by omega, hle⟩
  nonempty := Or.inl fun r hr => h.size_pos hr

theorem of_dummy {r : MemblockRegion} (h : t.regions = [r]) (hb : r.base = 0) (hs : r.size = 0)
    (hmax : 1 ≤ t.max) : WellFormed t where
  one_le := by simp [MemblockType.nrRegions, h]
  le_max := by simpa [MemblockType.nrRegions, h] using hmax
  noWrap := by simp [h, hb, hs]
  sorted := by simp [h]
  nonempty := Or.inr ⟨r, h, hb, hs⟩

theorem max_pos (h : WellFormed t) : 1 ≤ t.max := h.one_le.trans h.le_max

/-- The first region is empty exactly when the map is. -/
theorem region_zero_size (h : WellFormed t) (h₀ : (t.region 0).size ≠ 0) :
    RegionsFrom 0 t.regions := by
  rcases h.content with hc | ⟨r, hr, _, hs⟩
  · exact hc
  · exact absurd (by simpa [MemblockType.region, hr] using hs) h₀

/-- Then it is the only one. -/
theorem eq_singleton (h : WellFormed t) (h₀ : (t.region 0).size = 0) : ∃ r, t.regions = [r] := by
  rcases h.content with hc | ⟨r, hr, -⟩
  · obtain ⟨r, rs, hrs⟩ := List.exists_cons_of_length_pos h.one_le
    have := hc.size_pos (r := r) (by simp [hrs])
    simp only [MemblockType.region, hrs, List.getD_cons_zero] at h₀
    omega
  · exact ⟨r, hr⟩

end WellFormed

/-! ## Each editor keeps the array well formed -/

section Editors

variable {t : MemblockType} {base size : ℕ}

/-- The end of a capped range, when it is not empty. -/
theorem stop_of_cap (h : memblockCapSize base size ≠ 0) :
    (base + memblockCapSize base size) % 2 ^ 32 = base + memblockCapSize base size ∧
      base + memblockCapSize base size < 2 ^ 32 ∧ base < base + memblockCapSize base size := by
  simp only [memblockCapSize, physMax] at h ⊢
  have : base + min size (2 ^ 32 - 1 - base) < 2 ^ 32 := by omega
  exact ⟨Nat.mod_eq_of_lt this, this, by omega⟩

/-- Merging the regions of a well-formed array. -/
theorem memblockMergeRegions_wellFormed (h : RegionsFrom 0 t.regions) (h₁ : 1 ≤ t.nrRegions)
    (h₂ : t.nrRegions ≤ t.max) :
    ∃ t', memblockMergeRegions t = .ok t' ∧ WellFormed t' ∧ t'.max = t.max := by
  obtain ⟨this, rs, ht⟩ : ∃ this rs, t.regions = this :: rs :=
    List.exists_cons_of_length_pos h₁
  rw [ht] at h
  have hlen := length_mergeFrom rs this
  have hn : t.nrRegions = rs.length + 1 := by simp [MemblockType.nrRegions, ht]
  refine ⟨_, memblockMergeRegions_eq ht h, .of_regions (regionsFrom_mergeFrom h) hlen.1 ?_, rfl⟩
  change (mergeFrom this rs).length ≤ t.max
  omega

/-- **The outcomes of `memblock_add_range`**: nothing to add; the first region of an empty map;
refused for want of room, with nothing changed; or every gap inside the range filled, and the
neighbours merged. -/
theorem memblockAddRange_cases (base size : ℕ) (nid : ℤ) (flags : ℕ) (h : WellFormed t) :
    (memblockCapSize base size = 0 ∧ memblockAddRange t base size nid flags = .ok (0, t)) ∨
    memblockCapSize base size ≠ 0 ∧
    ((∃ r, t.regions = [r] ∧ r.size = 0 ∧
        memblockAddRange t base size nid flags
          = .ok (0, { t with regions := [⟨base, memblockCapSize base size, flags, nid⟩]
                             totalSize := memblockCapSize base size })) ∨
      RegionsFrom 0 t.regions ∧
      ((t.max < t.nrRegions + missing (base + memblockCapSize base size) base t.regions ∧
          memblockAddRange t base size nid flags = .ok (enomem, t)) ∨
        t.nrRegions + missing (base + memblockCapSize base size) base t.regions ≤ t.max ∧
        ∃ this rs t', fill (base + memblockCapSize base size) nid flags base t.regions = this :: rs ∧
          memblockAddRange t base size nid flags = .ok (0, t') ∧ t'.max = t.max ∧
          t'.regions = mergeFrom this rs)) := by
  by_cases hsize : memblockCapSize base size = 0
  · exact Or.inl ⟨hsize, by simp [memblockAddRange, hsize]⟩
  refine Or.inr ⟨hsize, ?_⟩
  obtain ⟨hmod, hlt, hpos⟩ := stop_of_cap hsize
  simp only [memblockAddRange, if_neg hsize, hmod]
  by_cases h₀ : (t.region 0).size = 0
  · obtain ⟨r, hr⟩ := h.eq_singleton h₀
    refine Or.inl ⟨r, hr, by simpa [MemblockType.region, hr] using h₀, ?_⟩
    rw [if_pos h₀]
    simp [MemblockType.setRegion, hr]
  · have hreg := h.region_zero_size h₀
    refine Or.inr ⟨hreg, ?_⟩
    obtain ⟨count, hcount, -, hnew⟩ := addPass_false
      (base + memblockCapSize base size) nid flags t base
    rw [if_neg h₀, hcount, Exec.ok_bind, hnew]
    split
    · rename_i hfull
      exact Or.inl ⟨hfull, rfl⟩
    · rename_i hroom
      refine Or.inr ⟨not_lt.mp hroom, ?_⟩
      obtain ⟨s, hs, hsreg, hsmax⟩ := addPass_true _ nid flags (not_lt.mp hroom)
      obtain ⟨this, rs, hfill⟩ : ∃ this rs,
          fill (base + memblockCapSize base size) nid flags base t.regions = this :: rs := by
        refine List.exists_cons_of_length_pos ?_
        rw [length_fill]
        have := h.one_le
        rw [MemblockType.nrRegions] at this
        omega
      have hord : RegionsFrom 0 (this :: rs) :=
        hfill ▸ regionsFrom_fill hlt hreg (Or.inl (Nat.zero_le _))
      refine ⟨this, rs, { s.type with regions := mergeFrom this rs }, hfill, ?_, hsmax, rfl⟩
      rw [hs, Exec.ok_bind, memblockMergeRegions_eq (hsreg.trans hfill) hord]
      rfl

/-- `memblock_add_range` returns and keeps the array well formed. -/
theorem memblockAddRange_wellFormed (h : WellFormed t) (nid : ℤ) (flags : ℕ) :
    ∃ ret t', memblockAddRange t base size nid flags = .ok (ret, t') ∧ WellFormed t' ∧
      t'.max = t.max := by
  rcases memblockAddRange_cases base size nid flags h with
    ⟨-, hadd⟩ | ⟨hsize, ⟨r, hr, -, hadd⟩ | ⟨hreg, ⟨-, hadd⟩ | ⟨hroom, this, rs, t', hfill, hadd, hmax,
      hmerge⟩⟩⟩
  · exact ⟨0, t, hadd, h, rfl⟩
  · obtain ⟨-, hlt, -⟩ := stop_of_cap hsize
    refine ⟨0, _, hadd, .of_regions ?_ (Nat.le_refl 1) h.max_pos, rfl⟩
    exact RegionsFrom.cons_iff.mpr ⟨Nat.zero_le _, Nat.pos_of_ne_zero hsize, hlt, .nil⟩
  · exact ⟨enomem, t, hadd, h, rfl⟩
  · obtain ⟨-, hlt, -⟩ := stop_of_cap hsize
    have hord : RegionsFrom 0 (this :: rs) :=
      hfill ▸ regionsFrom_fill hlt hreg (Or.inl (Nat.zero_le _))
    have hlen := length_fill (base + memblockCapSize base size) nid flags t.regions base
    rw [hfill, List.length_cons] at hlen
    have hbound := length_mergeFrom rs this
    simp only [MemblockType.nrRegions] at hroom
    refine ⟨0, t', hadd, .of_regions (hmerge ▸ regionsFrom_mergeFrom hord) ?_ ?_, hmax⟩
    · rw [MemblockType.nrRegions, hmerge]
      exact hbound.1
    · rw [MemblockType.nrRegions, hmerge, hmax]
      omega

/-- **`memblock_isolate_range`, when it has work to do and room for it**: the array is cut into its
parts below, inside and above the range, and the two indices stand around the middle. -/
theorem memblockIsolateRange_eq (h : WellFormed t) (hsize : memblockCapSize base size ≠ 0)
    (hroom : t.nrRegions + 2 ≤ t.max) :
    ∃ t' startRgn endRgn, memblockIsolateRange t base size = .ok (0, t', startRgn, endRgn) ∧
      t'.max = t.max ∧
      t'.regions = lowParts base t.regions ++
        midParts base (base + memblockCapSize base size) t.regions ++
        highParts (base + memblockCapSize base size) t.regions ∧
      (startRgn, endRgn) = marks (lowParts base t.regions)
        (midParts base (base + memblockCapSize base size) t.regions) := by
  obtain ⟨hmod, hlt, hpos⟩ := stop_of_cap hsize
  simp only [memblockIsolateRange, if_neg hsize, if_neg (not_lt.mpr hroom), hmod]
  rcases h.content with hc | ⟨r, hr, hb, hs⟩
  · have hcount := partCount_le hpos hc
    have hbound : partCount base (base + memblockCapSize base size) t.regions ≤ t.nrRegions + 2 := by
      rw [MemblockType.nrRegions]
      split_ifs at hcount <;> omega
    obtain ⟨s, hs, hreg, hmax, hmarks⟩ := isolateLoop_eq hpos hlt [] t (t.nrRegions + 4)
      (List.nil_append _).symm hc (by rw [List.length_nil]; omega) (by omega)
    refine ⟨_, _, _, ?_, hmax, by simpa using hreg, by simpa using hmarks⟩
    simp only [List.length_nil] at hs
    rw [hs]
    rfl
  · -- the dummy lies below every range that is not empty, so the walk passes it
    have hstop : r.stop = 0 := by simp [MemblockRegion.stop, hb, hs]
    have hstep : isolateStep base (base + memblockCapSize base size) ⟨t, 0, 0, 0⟩
        = .ok (.inl ⟨t, 1, 0, 0⟩) := by
      simp only [isolateStep, MemblockType.nrRegions, MemblockType.region, hr]
      simp [hstop, hb]
      omega
    have hdone : isolateStep base (base + memblockCapSize base size) ⟨t, 1, 0, 0⟩
        = .ok (.inr ⟨t, 1, 0, 0⟩) := by
      simp [isolateStep, MemblockType.nrRegions, hr]
    refine ⟨t, 0, 0, ?_, rfl, ?_, ?_⟩
    · rw [Exec.loop_next hstep, Exec.loop_done hdone]
      rfl
    · rw [hr]
      simp [lowParts, midParts, highParts, lowPart, midPart, highPart, hstop, hb]
      omega
    · simp [marks, midParts, midPart, hr, hstop]

/-- The outcomes of `memblock_isolate_range`: refused or empty, with nothing changed, or the cut
array. -/
theorem memblockIsolateRange_cases (base size : ℕ) (h : WellFormed t) :
    (∃ ret, memblockIsolateRange t base size = .ok (ret, t, 0, 0)) ∨
    ∃ t' startRgn endRgn low mid high,
      memblockIsolateRange t base size = .ok (0, t', startRgn, endRgn) ∧ t'.max = t.max ∧
      t'.regions = low ++ mid ++ high ∧ (startRgn, endRgn) = marks low mid ∧ WellFormed t' := by
  by_cases hsize : memblockCapSize base size = 0
  · exact Or.inl ⟨0, by simp [memblockIsolateRange, hsize]⟩
  by_cases hroom : t.nrRegions + 2 ≤ t.max
  · obtain ⟨t', s, e, hiso, hmax, hreg, hmarks⟩ := memblockIsolateRange_eq h hsize hroom
    refine Or.inr ⟨t', s, e, _, _, _, hiso, hmax, hreg, hmarks, ?_⟩
    obtain ⟨-, -, hpos⟩ := stop_of_cap hsize
    rcases h.content with hc | ⟨r, hr, hb, hs⟩
    · have hcount := partCount_le hpos hc
      have hle := length_le_partCount hpos hc
      have hlen : t'.nrRegions = partCount base (base + memblockCapSize base size) t.regions := by
        simp [MemblockType.nrRegions, hreg, partCount, Nat.add_assoc]
      have hone := h.one_le
      simp only [MemblockType.nrRegions] at hone hroom
      refine .of_regions (by rw [hreg]; exact hc.parts hpos) (by omega) ?_
      split_ifs at hcount <;> omega
    · have hreg' : t'.regions = [r] := by
        have hstop : r.stop = 0 := by simp [MemblockRegion.stop, hb, hs]
        rw [hreg, hr]
        simp [lowParts, midParts, highParts, lowPart, midPart, highPart, hstop, hb]
        omega
      exact .of_dummy hreg' hb hs (by have := h.max_pos; omega)
  · refine Or.inl ⟨enomem, ?_⟩
    rw [memblockIsolateRange, if_neg hsize, if_pos (not_le.mp hroom)]

/-- The regions between the marks, removed from the last to the first; the dummy comes back when
nothing else is left. -/
theorem removeRegions_eq (low high : List MemblockRegion) :
    ∀ (mid : List MemblockRegion) (t : MemblockType), t.regions = low ++ mid ++ high →
    (removeRegions low.length mid.length t).max = t.max ∧
    (removeRegions low.length mid.length t).regions
      = if mid ≠ [] ∧ low ++ high = [] then [.dummy] else low ++ high := by
  intro mid
  induction mid using List.reverseRecOn with
  | nil =>
    intro t ht
    simp [removeRegions, ht]
  | append_singleton mid x ih =>
    intro t ht
    have herase : t.regions.eraseIdx (low.length + mid.length) = low ++ mid ++ high := by
      rw [ht, ← List.append_assoc, List.append_assoc _ [x], ← List.length_append]
      exact eraseIdx_length_append x high (low ++ mid)
    have hreg : (memblockRemoveRegion t (low.length + mid.length)).regions
        = if (low ++ mid ++ high).length = 0 then [.dummy] else low ++ mid ++ high := by
      rw [memblockRemoveRegion, herase]
    rw [List.length_append, List.length_singleton, removeRegions]
    by_cases hnil : low ++ mid ++ high = []
    · rw [if_pos (by rw [hnil]; rfl)] at hreg
      simp only [List.append_eq_nil_iff] at hnil
      obtain ⟨⟨rfl, rfl⟩, rfl⟩ := hnil
      refine ⟨rfl, hreg.trans ?_⟩
      rw [if_pos ⟨by simp, rfl⟩]
    · rw [if_neg (by rwa [List.length_eq_zero_iff])] at hreg
      obtain ⟨hmax, hres⟩ := ih _ hreg
      refine ⟨hmax, hres.trans ?_⟩
      by_cases hlh : low ++ high = []
      · have hmid : mid ≠ [] := by
          rintro rfl
          exact hnil (by simpa using hlh)
        rw [if_pos ⟨hmid, hlh⟩, if_pos ⟨by simp, hlh⟩]
      · rw [if_neg fun h => hlh h.2, if_neg fun h => hlh h.2]

/-- The marks delimit the middle; when there is none they delimit nothing. -/
theorem marks_sub (low mid : List MemblockRegion) :
    (marks low mid).2 - (marks low mid).1 = mid.length ∧
      (mid ≠ [] → (marks low mid).1 = low.length) := by
  rw [marks]
  split <;> simp_all

/-- Removing what the marks delimit leaves the parts outside the range. -/
theorem removeMarked_eq {low mid high : List MemblockRegion} {s e : ℕ}
    (ht : t.regions = low ++ mid ++ high) (hmarks : (s, e) = marks low mid) :
    (removeRegions s (e - s) t).max = t.max ∧
    (removeRegions s (e - s) t).regions
      = if mid ≠ [] ∧ low ++ high = [] then [.dummy] else low ++ high := by
  obtain ⟨hsub, hstart⟩ := marks_sub low mid
  rw [← hmarks] at hsub hstart
  dsimp only at hsub hstart
  rw [hsub]
  by_cases hmid : mid = []
  · subst hmid
    simp [removeRegions, ht]
  · rw [hstart hmid]
    exact removeRegions_eq low high mid t ht

/-- **The outcomes of `memblock_remove_range`**: nothing changed — the range is empty, or refused for
want of room — or the parts outside the range are left, with the dummy standing for none. -/
theorem memblockRemoveRange_cases (base size : ℕ) (h : WellFormed t) :
    (memblockCapSize base size = 0 ∧ memblockRemoveRange t base size = .ok (0, t)) ∨
    memblockCapSize base size ≠ 0 ∧
    ((t.max < t.nrRegions + 2 ∧ memblockRemoveRange t base size = .ok (enomem, t)) ∨
      ∃ t', memblockRemoveRange t base size = .ok (0, t') ∧ t'.max = t.max ∧
        t'.regions = if midParts base (base + memblockCapSize base size) t.regions ≠ [] ∧
            lowParts base t.regions ++ highParts (base + memblockCapSize base size) t.regions = []
          then [.dummy]
          else lowParts base t.regions ++
            highParts (base + memblockCapSize base size) t.regions) := by
  by_cases hsize : memblockCapSize base size = 0
  · exact Or.inl ⟨hsize, by simp [memblockRemoveRange, memblockIsolateRange, hsize, removeRegions]⟩
  refine Or.inr ⟨hsize, ?_⟩
  by_cases hroom : t.nrRegions + 2 ≤ t.max
  · obtain ⟨t', s, e, hiso, hmax, hreg, hmarks⟩ := memblockIsolateRange_eq h hsize hroom
    obtain ⟨hmax', hreg'⟩ := removeMarked_eq hreg hmarks
    refine Or.inr ⟨removeRegions s (e - s) t', ?_, hmax'.trans hmax, hreg'⟩
    rw [memblockRemoveRange, hiso]
    simp
  · refine Or.inl ⟨not_le.mp hroom, ?_⟩
    rw [memblockRemoveRange, memblockIsolateRange, if_neg hsize, if_pos (not_le.mp hroom)]
    rfl

/-- `memblock_remove_range` returns `-ENOMEM` exactly when there is no room for two more regions. -/
theorem memblockRemoveRange_enomem_iff (h : WellFormed t) {ret : ℤ} {t' : MemblockType}
    (hrem : memblockRemoveRange t base size = .ok (ret, t')) :
    ret = enomem ↔ memblockCapSize base size ≠ 0 ∧ t.max < t.nrRegions + 2 := by
  rcases memblockRemoveRange_cases base size h with
    ⟨hsize, hrem'⟩ | ⟨hsize, ⟨hfull, hrem'⟩ | ⟨t'', hrem', -, -⟩⟩
  · cases hrem.symm.trans hrem'
    exact iff_of_false (by decide) fun hno => hno.1 hsize
  · cases hrem.symm.trans hrem'
    exact iff_of_true rfl ⟨hsize, hfull⟩
  · refine iff_of_false ?_ fun hno => ?_
    · cases hrem.symm.trans hrem'
      decide
    · rw [memblockRemoveRange, memblockIsolateRange, if_neg hsize, if_pos hno.2] at hrem'
      cases hrem'

/-- `memblock_remove_range` returns and keeps the array well formed. -/
theorem memblockRemoveRange_wellFormed (h : WellFormed t) :
    ∃ ret t', memblockRemoveRange t base size = .ok (ret, t') ∧ WellFormed t' ∧
      t'.max = t.max := by
  rcases memblockIsolateRange_cases base size h with
    ⟨ret, hiso⟩ | ⟨t', s, e, low, mid, high, hiso, hmax, hreg, hmarks, hwf⟩
  · rw [memblockRemoveRange, hiso, Exec.ok_bind]
    by_cases hret : ret = 0
    · exact ⟨0, t, by simp [hret, removeRegions], h, rfl⟩
    · exact ⟨ret, t, by simp [hret], h, rfl⟩
  · obtain ⟨hmax', hreg'⟩ := removeMarked_eq hreg hmarks
    refine ⟨0, removeRegions s (e - s) t', ?_, ?_, hmax'.trans hmax⟩
    · rw [memblockRemoveRange, hiso]
      simp
    · have hsub : (low ++ high).Sublist t'.regions := by
        rw [hreg, List.append_assoc]
        exact (List.Sublist.refl low).append (List.sublist_append_right mid high)
      rcases hwf.content with hc | ⟨r, hr, hb, hs⟩
      · by_cases hlh : low ++ high = []
        · have hmid : mid ≠ [] := by
            rintro rfl
            have := hwf.one_le
            simp_all [MemblockType.nrRegions]
          rw [if_pos ⟨hmid, hlh⟩] at hreg'
          exact .of_dummy hreg' rfl rfl (by rw [hmax']; exact hwf.max_pos)
        · rw [if_neg fun h => hlh h.2] at hreg'
          refine .of_regions (by rw [hreg']; exact hc.sublist hsub) ?_ ?_
          · rw [MemblockType.nrRegions, hreg']
            exact List.length_pos_iff.mpr hlh
          · rw [MemblockType.nrRegions, hreg', hmax']
            exact hsub.length_le.trans hwf.le_max
      · by_cases hlh : mid ≠ [] ∧ low ++ high = []
        · rw [if_pos hlh] at hreg'
          exact .of_dummy hreg' rfl rfl (by rw [hmax']; exact hwf.max_pos)
        · have hreg'' : (removeRegions s (e - s) t').regions = [r] := by
            rw [hreg', if_neg hlh]
            rw [hr] at hsub hreg
            have hlen := congrArg List.length hreg
            simp only [List.length_append, List.length_cons, List.length_nil] at hlen
            refine hsub.eq_of_length ?_
            rw [not_and_or, not_not] at hlh
            rcases hlh with rfl | hlh
            · simpa using hlen.symm
            · have := List.length_pos_iff.mpr hlh
              simp only [List.length_append, List.length_cons, List.length_nil] at this ⊢
              omega
          exact .of_dummy hreg'' hb hs (by rw [hmax']; exact hwf.max_pos)

/-- The regions between the marks, given the node `nid`. -/
theorem setRegionNodes_eq (nid : ℤ) (high : List MemblockRegion) :
    ∀ (mid low : List MemblockRegion) (t : MemblockType), t.regions = low ++ mid ++ high →
    (setRegionNodes nid low.length mid.length t).max = t.max ∧
    (setRegionNodes nid low.length mid.length t).regions
      = low ++ mid.map (fun r => { r with nid }) ++ high
  | [], low, t, ht => by simpa [setRegionNodes] using ht
  | r :: mid, low, t, ht => by
      have hr : t.region low.length = r := MemblockType.region_at (by simpa using ht)
      have hset : (t.setRegion low.length { t.region low.length with nid }).regions
          = low ++ [{ r with nid }] ++ mid ++ high := by
        simp [MemblockType.setRegion, ht, hr]
      obtain ⟨hmax, hreg⟩ := setRegionNodes_eq nid high mid (low ++ [{ r with nid }]) _ hset
      rw [List.length_append, List.length_singleton] at hmax hreg
      rw [List.length_cons, setRegionNodes]
      exact ⟨hmax, by simpa using hreg⟩

/-- The order of an array depends only on where its regions lie. -/
theorem RegionsFrom.congr : ∀ {rs rs' : List MemblockRegion} {lo : ℕ},
    rs.map (fun r => (r.base, r.size)) = rs'.map (fun r => (r.base, r.size)) →
    RegionsFrom lo rs → RegionsFrom lo rs'
  | [], [], _, _, _ => .nil
  | [], _ :: _, _, he, _ => by simp at he
  | _ :: _, [], _, he, _ => by simp at he
  | r :: rs, r' :: rs', lo, he, h => by
      simp only [List.map_cons, List.cons.injEq, Prod.mk.injEq] at he
      obtain ⟨⟨hb, hs⟩, he⟩ := he
      rw [cons_iff, MemblockRegion.NoWrap, hb, hs] at h
      exact cons_iff.mpr ⟨h.1, h.2.1, h.2.2.1, h.2.2.2.congr he⟩

/-- Whatever `memblock_isolate_range` leaves is well formed. -/
theorem memblockIsolateRange_wellFormed (h : WellFormed t) {ret : ℤ} {t' : MemblockType} {s e : ℕ}
    (hiso : memblockIsolateRange t base size = .ok (ret, t', s, e)) : WellFormed t' := by
  rcases memblockIsolateRange_cases base size h with
    ⟨ret', hiso'⟩ | ⟨t'', s', e', low, mid, high, hiso', -, -, -, hwf⟩
  · cases hiso.symm.trans hiso'
    exact h
  · cases hiso.symm.trans hiso'
    exact hwf

/-- Regions in the same places make as good an array. -/
theorem WellFormed.relabel {t' : MemblockType} (h : WellFormed t) (hmax : t'.max = t.max)
    (hshape : t.regions.map (fun r => (r.base, r.size))
      = t'.regions.map (fun r => (r.base, r.size))) : WellFormed t' := by
  have hlen : t'.nrRegions = t.nrRegions := by
    simpa [MemblockType.nrRegions] using (congrArg List.length hshape).symm
  rcases h.content with hc | ⟨r, hr, hb, hs⟩
  · exact .of_regions (hc.congr hshape) (hlen ▸ h.one_le) (by rw [hlen, hmax]; exact h.le_max)
  · obtain ⟨r', hr'⟩ := List.length_eq_one_iff.mp
      (show t'.regions.length = 1 by simpa [MemblockType.nrRegions, hr] using hlen)
    rw [hr, hr'] at hshape
    simp only [List.map_cons, List.map_nil, List.cons.injEq, Prod.mk.injEq] at hshape
    exact .of_dummy hr' (hshape.1.1 ▸ hb) (hshape.1.2 ▸ hs) (hmax ▸ h.max_pos)

/-- Relabelling what the marks delimit. -/
theorem setMarked_eq (nid : ℤ) {low mid high : List MemblockRegion} {s e : ℕ}
    (ht : t.regions = low ++ mid ++ high) (hmarks : (s, e) = marks low mid) :
    (setRegionNodes nid s (e - s) t).max = t.max ∧
    (setRegionNodes nid s (e - s) t).regions
      = low ++ mid.map (fun r => { r with nid }) ++ high := by
  obtain ⟨hsub, hstart⟩ := marks_sub low mid
  rw [← hmarks] at hsub hstart
  dsimp only at hsub hstart
  rw [hsub]
  by_cases hmid : mid = []
  · subst hmid
    simpa [setRegionNodes] using ht
  · rw [hstart hmid]
    exact setRegionNodes_eq nid high mid low t ht

/-- The array `memblock_merge_regions` leaves. -/
def merged : List MemblockRegion → List MemblockRegion
  | [] => []
  | this :: rs => mergeFrom this rs

theorem memblockMergeRegions_merged (h : WellFormed t) :
    memblockMergeRegions t = .ok { t with regions := merged t.regions } := by
  rcases h.content with hc | ⟨r, hr, -⟩
  · obtain ⟨this, rs, ht⟩ := List.exists_cons_of_length_pos h.one_le
    rw [memblockMergeRegions_eq ht (ht ▸ hc), ht, merged]
  · have hsame : ({ t with regions := merged t.regions } : MemblockType) = t := by
      rw [hr, merged, mergeFrom, ← hr]
    rw [hsame]
    simp [memblockMergeRegions, Exec.loop, memblockMergeStep, MemblockType.nrRegions, hr]

theorem WellFormed.merged (h : WellFormed t) :
    WellFormed { t with regions := Sandix.merged t.regions } := by
  rcases h.content with hc | ⟨r, hr, hb, hs⟩
  · obtain ⟨t', hmerge, hwf, -⟩ := memblockMergeRegions_wellFormed hc h.one_le h.le_max
    cases (memblockMergeRegions_merged h).symm.trans hmerge
    exact hwf
  · exact .of_dummy (r := r) (by rw [hr]; rfl) hb hs h.max_pos

/-- **The outcomes of `memblock_set_node`**: the array merged, when the range is empty; refused for want
of room; or the regions inside the range relabelled, and the array merged. -/
theorem memblockSetNode_cases (base size : ℕ) (h : WellFormed t) (nid : ℤ) :
    (memblockCapSize base size = 0 ∧
      memblockSetNode t base size nid = .ok (0, { t with regions := merged t.regions })) ∨
    memblockCapSize base size ≠ 0 ∧
    ((t.max < t.nrRegions + 2 ∧ memblockSetNode t base size nid = .ok (enomem, t)) ∨
      ∃ t', WellFormed t' ∧ t'.max = t.max ∧
        t'.regions = lowParts base t.regions ++
          (midParts base (base + memblockCapSize base size) t.regions).map (fun r => { r with nid }) ++
          highParts (base + memblockCapSize base size) t.regions ∧
        memblockSetNode t base size nid = .ok (0, { t' with regions := merged t'.regions })) := by
  by_cases hsize : memblockCapSize base size = 0
  · refine Or.inl ⟨hsize, ?_⟩
    simp [memblockSetNode, memblockIsolateRange, hsize, setRegionNodes, memblockMergeRegions_merged h]
  refine Or.inr ⟨hsize, ?_⟩
  by_cases hroom : t.nrRegions + 2 ≤ t.max
  · obtain ⟨t', s, e, hiso, hmax, hreg, hmarks⟩ := memblockIsolateRange_eq h hsize hroom
    obtain ⟨hmax', hreg'⟩ := setMarked_eq nid hreg hmarks
    have hshape : t'.regions.map (fun r => (r.base, r.size))
        = (setRegionNodes nid s (e - s) t').regions.map (fun r => (r.base, r.size)) := by
      rw [hreg, hreg']
      simp [Function.comp_def]
    have hwf := (memblockIsolateRange_wellFormed h hiso).relabel hmax' hshape
    refine Or.inr ⟨_, hwf, hmax'.trans hmax, hreg', ?_⟩
    rw [memblockSetNode, hiso, Exec.ok_bind]
    simp [memblockMergeRegions_merged hwf]
  · refine Or.inl ⟨not_le.mp hroom, ?_⟩
    rw [memblockSetNode, memblockIsolateRange, if_neg hsize, if_pos (not_le.mp hroom)]
    rfl

/-- `memblock_set_node` refuses in the same case. -/
theorem memblockSetNode_enomem_iff (h : WellFormed t) {nid ret : ℤ} {t' : MemblockType}
    (hset : memblockSetNode t base size nid = .ok (ret, t')) :
    ret = enomem ↔ memblockCapSize base size ≠ 0 ∧ t.max < t.nrRegions + 2 := by
  rcases memblockSetNode_cases base size h nid with
    ⟨hsize, hset'⟩ | ⟨hsize, ⟨hfull, hset'⟩ | ⟨t'', -, -, -, hset'⟩⟩
  · cases hset.symm.trans hset'
    exact iff_of_false (by decide) fun hno => hno.1 hsize
  · cases hset.symm.trans hset'
    exact iff_of_true rfl ⟨hsize, hfull⟩
  · refine iff_of_false ?_ fun hno => ?_
    · cases hset.symm.trans hset'
      decide
    · rw [memblockSetNode, memblockIsolateRange, if_neg hsize, if_pos hno.2] at hset'
      cases hset'

/-- `memblock_set_node` returns and keeps the array well formed. -/
theorem memblockSetNode_wellFormed (h : WellFormed t) (nid : ℤ) :
    ∃ ret t', memblockSetNode t base size nid = .ok (ret, t') ∧ WellFormed t' ∧
      t'.max = t.max := by
  rcases memblockSetNode_cases base size h nid with
    ⟨-, hset⟩ | ⟨-, ⟨-, hset⟩ | ⟨t', hwf, hmax, -, hset⟩⟩
  · exact ⟨0, _, hset, h.merged, rfl⟩
  · exact ⟨enomem, t, hset, h, rfl⟩
  · exact ⟨0, _, hset, hwf.merged, hmax⟩

end Editors

/-! ## Every state a boot reaches -/

/-- Both arrays are well formed, and still of the size they were declared with. -/
structure MemblockOk (m : Memblock) : Prop where
  memory : WellFormed m.memory
  reserved : WellFormed m.reserved
  memory_max : m.memory.max = initMemblockRegions
  reserved_max : m.reserved.max = initMemblockRegions

theorem memblockOk_init : MemblockOk initMemblock where
  memory := .of_dummy (r := ⟨0, 0, 0, 0⟩) rfl rfl rfl (by decide)
  reserved := .of_dummy (r := ⟨0, 0, 0, 0⟩) rfl rfl rfl (by decide)
  memory_max := rfl
  reserved_max := rfl

namespace MemblockOk

variable {m : Memblock} {f : MemblockType → Exec (ℤ × MemblockType)}

/-- An editor that keeps an array well formed, run on `memblock.memory`. -/
theorem onMemory (h : MemblockOk m)
    (hf : ∃ ret t', f m.memory = .ok (ret, t') ∧ WellFormed t' ∧ t'.max = m.memory.max) :
    ∃ ret m', m.onMemory f = .ok (ret, m') ∧ MemblockOk m' := by
  obtain ⟨ret, t', hok, hwf, hmax⟩ := hf
  refine ⟨ret, { m with memory := t' }, ?_, hwf, h.reserved, hmax.trans h.memory_max,
    h.reserved_max⟩
  rw [Memblock.onMemory, hok]
  rfl

/-- The same on `memblock.reserved`. -/
theorem onReserved (h : MemblockOk m)
    (hf : ∃ ret t', f m.reserved = .ok (ret, t') ∧ WellFormed t' ∧ t'.max = m.reserved.max) :
    ∃ ret m', m.onReserved f = .ok (ret, m') ∧ MemblockOk m' := by
  obtain ⟨ret, t', hok, hwf, hmax⟩ := hf
  refine ⟨ret, { m with reserved := t' }, ?_, h.memory, hwf, h.memory_max,
    hmax.trans h.reserved_max⟩
  rw [Memblock.onReserved, hok]
  rfl

/-- **One call**: it returns, and leaves both arrays well formed. -/
theorem exec (h : MemblockOk m) (op : MemblockOp) :
    ∃ ret m', op.exec m = .ok (ret, m') ∧ MemblockOk m' := by
  cases op with
  | add base size =>
    exact h.onMemory (f := fun t => memblockAddRange t base size maxNrNodes 0)
      (memblockAddRange_wellFormed h.memory _ _)
  | addNode base size nid =>
    exact h.onMemory (f := fun t => memblockAddRange t base size nid 0)
      (memblockAddRange_wellFormed h.memory _ _)
  | reserve base size =>
    exact h.onReserved (f := fun t => memblockAddRange t base size maxNrNodes 0)
      (memblockAddRange_wellFormed h.reserved _ _)
  | remove base size =>
    exact h.onMemory (f := fun t => memblockRemoveRange t base size)
      (memblockRemoveRange_wellFormed h.memory)
  | free base size =>
    exact h.onReserved (f := fun t => memblockRemoveRange t base size)
      (memblockRemoveRange_wellFormed h.reserved)
  | setNode base size type nid =>
    cases type with
    | memory =>
      exact h.onMemory (f := fun t => memblockSetNode t base size nid)
        (memblockSetNode_wellFormed h.memory nid)
    | reserved =>
      exact h.onReserved (f := fun t => memblockSetNode t base size nid)
        (memblockSetNode_wellFormed h.reserved nid)

theorem runOps (h : MemblockOk m) (ops : List MemblockOp) :
    ∃ m', Sandix.runOps ops m = .ok m' ∧ MemblockOk m' := by
  induction ops generalizing m with
  | nil => exact ⟨m, rfl, h⟩
  | cons op ops ih =>
    obtain ⟨ret, m', hop, hok⟩ := h.exec op
    obtain ⟨m'', hrun, hok'⟩ := ih hok
    exact ⟨m'', by rw [Sandix.runOps, hop, Exec.ok_bind]; exact hrun, hok'⟩

end MemblockOk

/-- **The region arrays are well formed in every reachable state**: any sequence of calls returns —
no `BUG_ON` fires and no scan runs on — and leaves `memblock.memory` and `memblock.reserved` well
formed. -/
theorem runOps_wellFormed (ops : List MemblockOp) :
    ∃ m, runOps ops initMemblock = .ok m ∧ WellFormed m.memory ∧ WellFormed m.reserved := by
  obtain ⟨m, hm, hok⟩ := memblockOk_init.runOps ops
  exact ⟨m, hm, hok.memory, hok.reserved⟩

end Sandix
