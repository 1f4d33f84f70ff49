import Sandix.Memblock.Invariant

/-!
# Memblock/Content — what the editors do to the addresses

The array stands for a map from addresses to the node and flags of the region they lie in.
`RegionAt rs a nid flags` reads that map, and the editors are given their meaning over it:
`memblock_add_range` adds the range and keeps what was there (`memblockAddRange_content`),
`memblock_remove_range` takes the range away (`memblockRemoveRange_content`).
-/

namespace Sandix

open Machinery

/-- The address `a` lies in a region of `rs` on node `nid` with flags `flags`. -/
def RegionAt (rs : List MemblockRegion) (a : ℕ) (nid : ℤ) (flags : ℕ) : Prop :=
  ∃ r ∈ rs, (r.base ≤ a ∧ a < r.base + r.size) ∧ r.nid = nid ∧ r.flags = flags

/-- The address `a` lies in one of the regions `rs`. -/
abbrev RegionCovers (rs : List MemblockRegion) (a : ℕ) : Prop :=
  Machinery.Covers MemblockRegion.base (fun r => r.base + r.size) rs a

/-- The address `a` lies in a region of `t`. -/
def MemblockType.Covers (t : MemblockType) (a : ℕ) : Prop := RegionCovers t.regions a

section RegionAt

variable {rs rs' : List MemblockRegion} {r : MemblockRegion} {a n : ℕ} {k : ℤ} {f : ℕ}

theorem regionCovers_iff : RegionCovers rs a ↔ ∃ nid flags, RegionAt rs a nid flags := by
  constructor
  · rintro ⟨r, hr, ha⟩
    exact ⟨r.nid, r.flags, r, hr, ha, rfl, rfl⟩
  · rintro ⟨nid, flags, r, hr, ha, -⟩
    exact ⟨r, hr, ha⟩

@[simp] theorem not_regionAt_nil : ¬RegionAt [] a k f := by simp [RegionAt]

@[simp] theorem regionAt_cons : RegionAt (r :: rs) a k f ↔
    ((r.base ≤ a ∧ a < r.base + r.size) ∧ r.nid = k ∧ r.flags = f) ∨ RegionAt rs a k f := by
  simp [RegionAt]

@[simp] theorem regionAt_append : RegionAt (rs ++ rs') a k f ↔
    RegionAt rs a k f ∨ RegionAt rs' a k f := by
  simp [RegionAt, or_and_right, exists_or]

theorem RegionAt.covers (h : RegionAt rs a k f) : RegionCovers rs a :=
  regionCovers_iff.mpr ⟨k, f, h⟩

theorem RegionsFrom.le_of_covers {lo : ℕ} (h : RegionsFrom lo rs) (ha : RegionCovers rs a) :
    lo ≤ a := h.asc.le_of_covers ha

/-! Merging changes no address. -/

theorem regionAt_mergeFrom : ∀ {rs : List MemblockRegion} {lo : ℕ} {this : MemblockRegion},
    RegionsFrom lo (this :: rs) →
      (RegionAt (mergeFrom this rs) a k f ↔ RegionAt (this :: rs) a k f)
  | [], _, _, _ => Iff.rfl
  | next :: rs, lo, this, h => by
      rw [mergeFrom]
      split
      · rw [regionAt_cons, regionAt_mergeFrom (RegionsFrom.cons_iff.mp h).2.2.2, ← regionAt_cons]
      · rename_i hc
        push Not at hc
        obtain ⟨htouch, hnid, hflags⟩ := hc
        obtain ⟨-, -, hw, hrest⟩ := RegionsFrom.cons_iff.mp h
        obtain ⟨-, -, hw', -⟩ := RegionsFrom.cons_iff.mp hrest
        rw [regionAt_mergeFrom (h.grow htouch), regionAt_cons, regionAt_cons, regionAt_cons,
          ← or_assoc]
        rw [hw.stop_eq] at htouch
        simp only [MemblockRegion.NoWrap] at hw'
        have hsum : (this.size + next.size) % 2 ^ 32 = this.size + next.size :=
          Nat.mod_eq_of_lt (by omega)
        refine or_congr_left ?_
        rw [hsum, ← hnid, ← hflags, ← or_and_right]
        refine and_congr_left fun _ => ?_
        dsimp only
        omega

/-! Filling adds the gaps of the range and nothing else. -/

theorem regionAt_piece {base upto : ℕ} {nid : ℤ} {flags : ℕ} :
    RegionAt (piece nid flags base upto) a k f ↔
      (base ≤ a ∧ a < upto) ∧ nid = k ∧ flags = f := by
  rw [piece]
  split
  · rw [regionAt_cons, or_iff_left not_regionAt_nil]
    refine and_congr_left fun _ => ?_
    dsimp only
    omega
  · refine iff_of_false not_regionAt_nil ?_
    rintro ⟨h, -⟩
    omega

/-- **Filling is union**: the addresses of `[base, stop)` that no region covers are added, with the
given node and flags. -/
theorem regionAt_fill {stop : ℕ} {nid : ℤ} {flags : ℕ} :
    ∀ {rs : List MemblockRegion} {lo base : ℕ}, RegionsFrom lo rs →
    (RegionAt (fill stop nid flags base rs) a k f ↔ RegionAt rs a k f ∨
      ((base ≤ a ∧ a < stop) ∧ ¬RegionCovers rs a) ∧ nid = k ∧ flags = f)
  | [], lo, base, h => by
      rw [fill, regionAt_piece]
      simp [RegionCovers]
  | r :: rs, lo, base, h => by
      obtain ⟨-, hpos, hw, hrs⟩ := RegionsFrom.cons_iff.mp h
      have hstop := hw.stop_eq
      have hge : RegionCovers rs a → r.base + r.size ≤ a := hrs.le_of_covers
      rw [fill, RegionCovers, covers_cons]
      split
      · rename_i hfar
        rw [regionAt_append, regionAt_piece, or_comm]
        refine or_congr_right (and_congr_left fun _ => ?_)
        constructor
        · intro ha
          refine ⟨ha, ?_⟩
          rintro (h | h)
          · omega
          · have := hge h
            omega
        · exact fun h => h.1
      · split
        · rename_i hnear
          rw [regionAt_cons, regionAt_fill hrs, regionAt_cons, or_assoc]
          refine or_congr_right (or_congr_right (and_congr_left fun _ => and_congr_right fun ha => ?_))
          refine not_congr ⟨Or.inr, ?_⟩
          rintro (h | h)
          · omega
          · exact h
        · rename_i hnear hmeet
          rw [regionAt_append, regionAt_piece, regionAt_cons, regionAt_fill hrs, regionAt_cons,
            or_left_comm, or_assoc, or_left_comm (b := RegionAt rs a k f), ← or_and_right]
          refine or_congr_right (or_congr_right (and_congr_left fun _ => ?_))
          constructor
          · rintro (h | ⟨h, hno⟩)
            · refine ⟨by omega, ?_⟩
              rintro (h' | h')
              · omega
              · have := hge h'
                omega
            · refine ⟨by omega, ?_⟩
              rintro (h' | h')
              · omega
              · exact hno h'
          · rintro ⟨h, hno⟩
            rw [not_or] at hno
            by_cases ha : a < r.base
            · exact Or.inl ⟨h.1, ha⟩
            · exact Or.inr ⟨by omega, hno.2⟩

/-! Clipping keeps the addresses of the window. -/

theorem regionAt_clipped {lo hi : ℕ} : RegionAt (clipped lo hi rs) a k f ↔
    RegionAt rs a k f ∧ lo ≤ a ∧ a < hi := by
  simp only [RegionAt, clipped, List.mem_flatMap, mem_clip]
  constructor
  · rintro ⟨x, ⟨r, hr, hlt, rfl⟩, ha, hattr⟩
    dsimp only at ha hattr
    exact ⟨⟨r, hr, by omega, hattr⟩, by omega⟩
  · rintro ⟨⟨r, hr, ha, hattr⟩, hwin⟩
    exact ⟨_, ⟨r, hr, by omega, rfl⟩, by dsimp only; omega, hattr⟩

end RegionAt

/-! ## The meaning of the editors -/

section Editors

variable {t : MemblockType}

/-- The dummy covers nothing. -/
theorem not_regionAt_dummy {r : MemblockRegion} (h : r.size = 0) {a : ℕ} {k : ℤ} {f : ℕ} :
    ¬RegionAt [r] a k f := by
  rw [regionAt_cons, or_iff_left not_regionAt_nil]
  rintro ⟨ha, -⟩
  omega

/-- **`memblock_add_range` is union**: it returns `0`, and then every address covered before keeps its
node and flags and the rest of the range is covered with the given ones; or it returns `-ENOMEM`, the
gaps of the range do not fit the array, and nothing has changed. -/
theorem memblockAddRange_content (h : WellFormed t) (base size : ℕ) (nid : ℤ) (flags : ℕ) :
    ∃ ret t', memblockAddRange t base size nid flags = .ok (ret, t') ∧
      ((ret = 0 ∧ ∀ a k f, RegionAt t'.regions a k f ↔ RegionAt t.regions a k f ∨
          ((base ≤ a ∧ a < base + memblockCapSize base size) ∧ ¬t.Covers a) ∧ nid = k ∧ flags = f) ∨
        ret = enomem ∧ t' = t ∧ RegionsFrom 0 t.regions ∧
          t.max < t.nrRegions + missing (base + memblockCapSize base size) base t.regions) := by
  rcases memblockAddRange_cases base size nid flags h with
    ⟨hsize, hadd⟩ | ⟨hsize, ⟨r, hr, hr0, hadd⟩ | ⟨hreg, ⟨hfull, hadd⟩ | ⟨-, this, rs, t', hfill, hadd, -,
      hmerge⟩⟩⟩
  · refine ⟨0, t, hadd, Or.inl ⟨rfl, fun a k f => ?_⟩⟩
    rw [hsize, or_iff_left]
    rintro ⟨⟨ha, -⟩, -⟩
    omega
  · refine ⟨0, _, hadd, Or.inl ⟨rfl, fun a k f => ?_⟩⟩
    have hno : ¬t.Covers a := by
      rw [MemblockType.Covers, hr, regionCovers_iff]
      rintro ⟨k, f, hat⟩
      exact not_regionAt_dummy hr0 hat
    rw [regionAt_cons, or_iff_left not_regionAt_nil, hr, or_iff_right (not_regionAt_dummy hr0)]
    exact and_congr_left fun _ => (and_iff_left hno).symm
  · exact ⟨enomem, t, hadd, Or.inr ⟨rfl, rfl, hreg, hfull⟩⟩
  · refine ⟨0, t', hadd, Or.inl ⟨rfl, fun a k f => ?_⟩⟩
    obtain ⟨-, hlt, -⟩ := stop_of_cap hsize
    have hord : RegionsFrom 0 (this :: rs) :=
      hfill ▸ regionsFrom_fill hlt hreg (Or.inl (Nat.zero_le _))
    rw [hmerge, regionAt_mergeFrom hord, ← hfill, regionAt_fill hreg]
    rfl

/-- The parts outside a range hold the addresses outside it. -/
theorem regionAt_outside (h : WellFormed t) {base stop : ℕ} (hb : base < stop) {a : ℕ} {k : ℤ}
    {f : ℕ} : RegionAt (lowParts base t.regions ++ highParts stop t.regions) a k f ↔
      RegionAt t.regions a k f ∧ ¬(base ≤ a ∧ a < stop) := by
  rcases h.content with hc | ⟨r, hr, hb₀, hs⟩
  · obtain ⟨hlow, -, hhigh⟩ := parts_eq_clipped hb hc
    rw [hlow, hhigh, regionAt_append, regionAt_clipped, regionAt_clipped, ← and_or_left]
    refine and_congr_right fun hat => ?_
    obtain ⟨r, hr, ha, -⟩ := hat
    have hw : r.base + r.size < 2 ^ 32 := hc.noWrap r hr
    omega
  · have hstop : r.stop = 0 := by simp [MemblockRegion.stop, hb₀, hs]
    have hout : lowParts base t.regions ++ highParts stop t.regions = [r] := by
      rw [hr]
      simp [lowParts, highParts, lowPart, highPart, hstop, hb₀]
      omega
    rw [hout, hr]
    exact iff_of_false (not_regionAt_dummy hs) fun hat => not_regionAt_dummy hs hat.1

/-- **`memblock_remove_range` is difference**: it returns `0`, and then the addresses of the range are
gone and every other address keeps its node and flags; or it returns `-ENOMEM` with nothing
changed. -/
theorem memblockRemoveRange_content (h : WellFormed t) (base size : ℕ) :
    ∃ ret t', memblockRemoveRange t base size = .ok (ret, t') ∧
      ((ret = 0 ∧ ∀ a k f, RegionAt t'.regions a k f ↔ RegionAt t.regions a k f ∧
          ¬(base ≤ a ∧ a < base + memblockCapSize base size)) ∨
        ret = enomem ∧ t' = t ∧ t.max < t.nrRegions + 2) := by
  rcases memblockRemoveRange_cases base size h with
    ⟨hsize, hrem⟩ | ⟨hsize, ⟨hfull, hrem⟩ | ⟨t', hrem, -, hreg⟩⟩
  · refine ⟨0, t, hrem, Or.inl ⟨rfl, fun a k f => ?_⟩⟩
    rw [hsize, and_iff_left]
    omega
  · exact ⟨enomem, t, hrem, Or.inr ⟨rfl, rfl, hfull⟩⟩
  · refine ⟨0, t', hrem, Or.inl ⟨rfl, fun a k f => ?_⟩⟩
    obtain ⟨-, -, hpos⟩ := stop_of_cap hsize
    rw [← regionAt_outside h hpos, hreg]
    split
    · rename_i hnone
      rw [hnone.2]
      exact iff_of_false (not_regionAt_dummy rfl) not_regionAt_nil
    · rfl

end Editors

end Sandix
