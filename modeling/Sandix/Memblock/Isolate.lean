import Sandix.Memblock.Regions

/-!
# Memblock/Isolate — cutting the array at the two ends of a range

`memblock_isolate_range` splits the regions that cross an end of `[base, stop)` while it walks the
array.  It leaves `lowParts ++ midParts ++ highParts` — the array below, inside and above the range
— and the two indices it returns mark the middle (`isolateLoop_eq`).  At most two regions are added
(`partCount_le`), which is the room it asks for before it starts.
-/

namespace Sandix

open Machinery

variable (base stop : ℕ)

/-- The part of a region below the range. -/
def lowPart (r : MemblockRegion) : List MemblockRegion :=
  if r.stop ≤ base then [r] else if r.base < base then [r.below base] else []

/-- The part of a region inside the range. -/
def midPart (r : MemblockRegion) : List MemblockRegion :=
  if r.stop ≤ base ∨ stop ≤ r.base then []
  else
    let r := if r.base < base then r.above base else r
    [if stop < r.stop then r.below stop else r]

/-- The part of a region above the range. -/
def highPart (r : MemblockRegion) : List MemblockRegion :=
  if stop ≤ r.base then [r] else if stop < r.stop then [r.above stop] else []

def lowParts (rs : List MemblockRegion) : List MemblockRegion := rs.flatMap (lowPart base)

def midParts (rs : List MemblockRegion) : List MemblockRegion := rs.flatMap (midPart base stop)

def highParts (rs : List MemblockRegion) : List MemblockRegion := rs.flatMap (highPart stop)

/-- The number of regions the array has once it is cut at both ends of the range. -/
def partCount (rs : List MemblockRegion) : ℕ :=
  (lowParts base rs).length + (midParts base stop rs).length + (highParts stop rs).length

/-- What `*start_rgn` and `*end_rgn` are when `mid` has been recorded after `low`. -/
def marks (low mid : List MemblockRegion) : ℕ × ℕ :=
  if mid = [] then (0, 0) else (low.length, low.length + mid.length)

variable {base stop} {r : MemblockRegion} {rs : List MemblockRegion} {lo : ℕ}

theorem MemblockRegion.stop_above {cut : ℕ} (h : r.NoWrap) (h₁ : r.base ≤ cut)
    (h₂ : cut ≤ r.base + r.size) : (r.above cut).stop = r.stop := by
  have hw : r.base + r.size < 2 ^ 32 := h
  simp only [above, stop, sub32]
  omega

theorem MemblockRegion.size_above {cut : ℕ} (h : r.NoWrap) (h₁ : r.base ≤ cut)
    (h₂ : cut ≤ r.base + r.size) : cut + (r.above cut).size = r.base + r.size := by
  have hw : r.base + r.size < 2 ^ 32 := h
  simp only [above, sub32]
  omega

theorem MemblockRegion.stop_below {cut : ℕ} (h₁ : r.base ≤ cut) (h₂ : cut < 2 ^ 32) :
    (r.below cut).stop = cut := by
  simp only [below, stop]
  omega

/-- The top half of a region that is cut at an address inside it stands in its place. -/
theorem RegionsFrom.above {cut : ℕ} (h : RegionsFrom lo (r :: rs)) (h₁ : r.base ≤ cut)
    (h₂ : cut < r.base + r.size) : RegionsFrom cut (r.above cut :: rs) := by
  obtain ⟨_, _, hw, hrest⟩ := cons_iff.mp h
  have hsize := MemblockRegion.size_above hw h₁ (Nat.le_of_lt h₂)
  refine cons_iff.mpr ⟨le_rfl, by omega, ?_, hrest.weaken (Nat.le_of_eq hsize)⟩
  change cut + (r.above cut).size < 2 ^ 32
  have hw' : r.base + r.size < 2 ^ 32 := hw
  omega

/-- Regions at or above the range are left whole. -/
theorem parts_of_above (hb : base ≤ stop) (h : RegionsFrom lo rs) (hrs : stop ≤ lo) :
    lowParts base rs = [] ∧ midParts base stop rs = [] ∧ highParts stop rs = rs := by
  have key : ∀ r ∈ rs, lowPart base r = [] ∧ midPart base stop r = [] ∧ highPart stop r = [r] := by
    intro r hr
    have hbase := h.base_ge hr
    have hw : r.stop = r.base + r.size := (h.noWrap r hr).stop_eq
    have hsize := h.size_pos hr
    refine ⟨?_, ?_, ?_⟩
    · rw [lowPart, if_neg (by omega), if_neg (by omega)]
    · rw [midPart, if_pos (by omega)]
    · rw [highPart, if_pos (by omega)]
  refine ⟨?_, ?_, ?_⟩
  · exact List.flatMap_eq_nil_iff.mpr fun r hr => (key r hr).1
  · exact List.flatMap_eq_nil_iff.mpr fun r hr => (key r hr).2.1
  · rw [highParts, List.flatMap_congr fun r hr => (key r hr).2.2]
    simp

/-- A region has at least one part, and one more for each end of the range strictly inside it. -/
theorem partCount_cons (rs : List MemblockRegion) (hb : base < stop) (hr : r.NoWrap) (hsize : 0 < r.size) :
    partCount base stop (r :: rs) = partCount base stop rs + 1
      + (if r.base < base ∧ base < r.stop then 1 else 0)
      + (if r.base < stop ∧ stop < r.stop then 1 else 0) := by
  have hstop := hr.stop_eq
  have hpart : (lowPart base r).length + (midPart base stop r).length + (highPart stop r).length
      = 1 + (if r.base < base ∧ base < r.stop then 1 else 0)
        + (if r.base < stop ∧ stop < r.stop then 1 else 0) := by
    simp only [lowPart, midPart, highPart, apply_ite List.length, List.length_cons,
      List.length_nil]
    split_ifs <;> omega
  simp only [partCount, lowParts, midParts, highParts, List.flatMap_cons, List.length_append]
  omega

theorem length_le_partCount (hb : base < stop) (h : RegionsFrom lo rs) :
    rs.length ≤ partCount base stop rs := by
  induction rs generalizing lo with
  | nil => simp
  | cons r rs ih =>
    obtain ⟨_, hsize, hw, hrest⟩ := RegionsFrom.cons_iff.mp h
    have := ih hrest
    rw [partCount_cons rs hb hw hsize, List.length_cons]
    omega

/-- **At most two more regions**: only one region has a given address strictly inside. -/
theorem partCount_le (hb : base < stop) (h : RegionsFrom lo rs) :
    partCount base stop rs ≤ rs.length + (if base ≤ lo then 0 else 1)
      + (if stop ≤ lo then 0 else 1) := by
  induction rs generalizing lo with
  | nil => simp [partCount, lowParts, midParts, highParts]
  | cons r rs ih =>
    obtain ⟨hlo, hsize, hw, hrest⟩ := RegionsFrom.cons_iff.mp h
    have hstop := hw.stop_eq
    have := ih hrest
    rw [partCount_cons rs hb hw hsize, List.length_cons]
    split_ifs at this ⊢ <;> omega

theorem midPart_of_ge (h₁ : base ≤ r.base) (h₂ : base < r.stop) (h₃ : r.base < stop) :
    midPart base stop r = [if stop < r.stop then r.below stop else r] := by
  simp only [midPart, if_neg (show ¬(r.stop ≤ base ∨ stop ≤ r.base) by omega),
    if_neg (show ¬r.base < base by omega)]

theorem lowParts_of_ge (base : ℕ) (h : RegionsFrom lo rs) (hlo : base ≤ lo) : lowParts base rs = [] :=
  (parts_of_above le_rfl h hlo).1

/-- `splitRegion` at the point of the walk: the bottom half is put in front of the top half. -/
theorem splitRegion_at {t : MemblockType} {pre : List MemblockRegion} (cut : ℕ)
    (ht : t.regions = pre ++ r :: rs) (hmax : t.nrRegions < t.max) :
    ∃ t', splitRegion t pre.length cut = .ok t' ∧
      t'.regions = pre ++ r.below cut :: r.above cut :: rs ∧ t'.max = t.max := by
  have hset : ({ t.setRegion pre.length (r.above cut) with
      totalSize := sub32 t.totalSize (cut - r.base) } : MemblockType).regions
      = pre ++ r.above cut :: rs := by
    simp [MemblockType.setRegion, ht]
  have hins := memblockInsertRegion_at hset
    (by simpa [MemblockType.nrRegions, MemblockType.setRegion] using hmax) r.base (cut - r.base)
    r.nid r.flags
  rw [splitRegion, MemblockType.region_at ht]
  exact ⟨_, hins, rfl, rfl⟩

theorem marks_record (low mid : List MemblockRegion) (r : MemblockRegion) :
    marks low (mid ++ [r]) =
      (if (marks low mid).2 = 0 then (low ++ mid).length else (marks low mid).1,
        (low ++ mid).length + 1) := by
  cases mid with
  | nil => simp [marks]
  | cons x mid => simp [marks]; omega

/-- One round over a region inside the range. -/
theorem isolateStep_record {t : MemblockType} {low mid : List MemblockRegion}
    (ht : t.regions = low ++ mid ++ r :: rs) (h₁ : base ≤ r.base) (h₂ : base < r.stop)
    (h₃ : r.base < stop) (h₄ : r.stop ≤ stop) :
    isolateStep base stop ⟨t, (low ++ mid).length, (marks low mid).1, (marks low mid).2⟩
      = .ok (.inl ⟨t, (low ++ (mid ++ [r])).length, (marks low (mid ++ [r])).1,
        (marks low (mid ++ [r])).2⟩) := by
  simp only [isolateStep, MemblockType.region_at ht, MemblockType.nrRegions_eq ht, marks_record]
  rw [if_pos (by simp), if_neg (by omega), if_neg (by omega), if_neg (by omega),
    if_neg (by omega)]
  simp [Nat.add_assoc]

/-- One round over a region at or above the range: the walk ends. -/
theorem isolateStep_break {s : IsolateScan} (pre : List MemblockRegion)
    (ht : s.type.regions = pre ++ r :: rs) (hidx : s.idx = pre.length) (h : stop ≤ r.base) :
    isolateStep base stop s = .ok (.inr s) := by
  simp only [isolateStep, hidx, MemblockType.region_at ht, MemblockType.nrRegions_eq ht]
  rw [if_pos (by simp), if_pos h]

/-- **The walk, once it stands at or above `base`**: it records regions until one reaches past the
range. -/
theorem isolateLoop_mid (hb : base < stop) (hstop : stop < 2 ^ 32) :
    ∀ {rs : List MemblockRegion} {lo : ℕ} (low mid : List MemblockRegion) (t : MemblockType)
    (fuel : ℕ), t.regions = low ++ mid ++ rs → RegionsFrom lo rs → base ≤ lo →
    (low ++ mid).length + partCount base stop rs ≤ t.max → partCount base stop rs < fuel →
    ∃ s, Exec.loop (isolateStep base stop) fuel
        ⟨t, (low ++ mid).length, (marks low mid).1, (marks low mid).2⟩ = .ok s ∧
      s.type.regions = low ++ (mid ++ midParts base stop rs) ++ highParts stop rs ∧
      s.type.max = t.max ∧ (s.startRgn, s.endRgn) = marks low (mid ++ midParts base stop rs)
  | [], lo, low, mid, t, fuel + 1, ht, _, _, _, _ => by
      have hstep : isolateStep base stop
          ⟨t, (low ++ mid).length, (marks low mid).1, (marks low mid).2⟩
          = .ok (.inr ⟨t, (low ++ mid).length, (marks low mid).1, (marks low mid).2⟩) := by
        simp [isolateStep, MemblockType.nrRegions, ht]
      exact ⟨_, Exec.loop_done hstep, by simpa [midParts, highParts] using ht, rfl,
        by simp [midParts]⟩
  | r :: rs, lo, low, mid, t, fuel + 1, ht, h, hlo, hmax, hfuel => by
      obtain ⟨hr, hsize, hw, hrest⟩ := RegionsFrom.cons_iff.mp h
      have hrstop := hw.stop_eq
      have hcount := partCount_cons rs hb hw hsize
      have hlen := length_le_partCount hb hrest
      by_cases hrb : stop ≤ r.base
      · obtain ⟨-, hmid, hhigh⟩ := parts_of_above (Nat.le_of_lt hb) h.from_head hrb
        refine ⟨_, Exec.loop_done (isolateStep_break _ ht rfl hrb), ?_, rfl, ?_⟩
        · rw [hmid, hhigh]
          simpa using ht
        · rw [hmid, List.append_nil]
      · by_cases hrs : r.stop ≤ stop
        · have hmid : midPart base stop r = [r] := by
            rw [midPart_of_ge (by omega) (by omega) (by omega), if_neg (by omega)]
          have hhigh : highPart stop r = [] := by
            rw [highPart, if_neg (by omega), if_neg (by omega)]
          rw [Exec.loop_next (isolateStep_record ht (by omega) (by omega) (by omega) hrs)]
          have := isolateLoop_mid hb hstop low (mid ++ [r]) t fuel (by simpa using ht) hrest
            (by omega)
            (by simp only [List.length_append, List.length_cons, List.length_nil] at hmax ⊢; omega)
            (by omega)
          simpa [midParts, highParts, hmid, hhigh] using this
        · have hcut : stop < r.base + r.size := by omega
          obtain ⟨hrestLow, hrestMid, hrestHigh⟩ :=
            parts_of_above (Nat.le_of_lt hb) hrest (Nat.le_of_lt hcut)
          have hpc : partCount base stop rs = rs.length := by
            simp [partCount, hrestLow, hrestMid, hrestHigh]
          rw [if_neg (by omega), if_pos (by omega), hpc] at hcount
          have hmid : midParts base stop (r :: rs) = [r.below stop] := by
            rw [midParts, List.flatMap_cons, midPart_of_ge (by omega) (by omega) (by omega),
              if_pos (by omega)]
            exact congrArg _ hrestMid
          have hhigh : highParts stop (r :: rs) = r.above stop :: rs := by
            rw [highParts, List.flatMap_cons, highPart, if_neg (by omega), if_pos (by omega)]
            exact congrArg _ hrestHigh
          obtain ⟨t', hsplit, hreg, hm⟩ := splitRegion_at stop ht (by
            rw [MemblockType.nrRegions_eq ht, List.length_cons]
            omega)
          have hstep : isolateStep base stop
              ⟨t, (low ++ mid).length, (marks low mid).1, (marks low mid).2⟩
              = .ok (.inl ⟨t', (low ++ mid).length, (marks low mid).1, (marks low mid).2⟩) := by
            simp only [isolateStep, MemblockType.region_at ht, MemblockType.nrRegions_eq ht]
            rw [if_pos (by simp), if_neg (by omega), if_neg (by omega), if_neg (by omega),
              if_pos (by omega), hsplit]
            rfl
          have hbelow : (r.below stop).stop = stop :=
            MemblockRegion.stop_below (by omega) hstop
          obtain ⟨fuel, rfl⟩ : ∃ k, fuel = k + 2 := ⟨fuel - 2, by omega⟩
          rw [Exec.loop_next hstep,
            Exec.loop_next (isolateStep_record hreg (by change base ≤ r.base; omega) (by omega)
              (by change r.base < stop; omega) (by omega))]
          refine ⟨_, Exec.loop_done (isolateStep_break (r := r.above stop)
            (low ++ (mid ++ [r.below stop])) (by simpa using hreg) rfl le_rfl), ?_, hm, ?_⟩
          · rw [hmid, hhigh]
            simpa using hreg
          · rw [hmid]

/-- Cutting the top half again is cutting the region. -/
theorem MemblockRegion.above_above {cut cut' : ℕ} (hw : r.NoWrap) (h₁ : r.base ≤ cut)
    (h₂ : cut ≤ cut') (h₃ : cut' ≤ r.base + r.size) :
    (r.above cut).above cut' = r.above cut' := by
  have hw' : r.base + r.size < 2 ^ 32 := hw
  simp only [above, MemblockRegion.mk.injEq, true_and, and_true, sub32]
  omega

/-- A region that reaches into the range from below: its top half has the same middle and top. -/
theorem parts_above (hb : base < stop) (hw : r.NoWrap) (h₁ : r.base < base) (h₂ : base < r.stop) :
    midPart base stop (r.above base) = midPart base stop r ∧
      highPart stop (r.above base) = highPart stop r := by
  have hstop := hw.stop_eq
  have hs := MemblockRegion.stop_above hw (Nat.le_of_lt h₁) (by omega)
  have hbase : (r.above base).base = base := rfl
  constructor
  · rw [midPart_of_ge (by omega) (by omega) (by omega)]
    simp only [midPart, if_neg (show ¬(r.stop ≤ base ∨ stop ≤ r.base) by omega), if_pos h₁]
  · rw [highPart, highPart, hs, if_neg (show ¬stop ≤ (r.above base).base by omega),
      if_neg (show ¬stop ≤ r.base by omega)]
    split
    · rw [MemblockRegion.above_above hw (by omega) (by omega) (by omega)]
    · rfl

/-- **The walk of `memblock_isolate_range`**: it passes the regions below the range, cuts the one
that reaches into it, and goes on as in `isolateLoop_mid`. -/
theorem isolateLoop_eq (hb : base < stop) (hstop : stop < 2 ^ 32) :
    ∀ {rs : List MemblockRegion} {lo : ℕ} (low : List MemblockRegion) (t : MemblockType)
    (fuel : ℕ), t.regions = low ++ rs → RegionsFrom lo rs →
    low.length + partCount base stop rs ≤ t.max → partCount base stop rs + 1 < fuel →
    ∃ s, Exec.loop (isolateStep base stop) fuel ⟨t, low.length, 0, 0⟩ = .ok s ∧
      s.type.regions = low ++ lowParts base rs ++ midParts base stop rs ++ highParts stop rs ∧
      s.type.max = t.max ∧
      (s.startRgn, s.endRgn) = marks (low ++ lowParts base rs) (midParts base stop rs)
  | [], lo, low, t, fuel, ht, h, hmax, hfuel => by
      simpa [marks, lowParts, midParts] using
        isolateLoop_mid hb hstop low [] t fuel (by simpa using ht)
          (RegionsFrom.nil : RegionsFrom base []) le_rfl (by simpa using hmax) (by omega)
  | r :: rs, lo, low, t, 0, _, _, _, hfuel => by omega
  | r :: rs, lo, low, t, fuel + 1, ht, h, hmax, hfuel => by
      obtain ⟨hr, hsize, hw, hrest⟩ := RegionsFrom.cons_iff.mp h
      have hrstop := hw.stop_eq
      have hcount := partCount_cons rs hb hw hsize
      by_cases hle : r.stop ≤ base
      · have hstep : isolateStep base stop ⟨t, low.length, 0, 0⟩
            = .ok (.inl ⟨t, low.length + 1, 0, 0⟩) := by
          simp only [isolateStep, MemblockType.region_at ht, MemblockType.nrRegions_eq ht]
          rw [if_pos (by simp), if_neg (by omega), if_pos hle]
        have hlow : lowPart base r = [r] := by rw [lowPart, if_pos hle]
        have hmid : midPart base stop r = [] := by rw [midPart, if_pos (Or.inl hle)]
        have hhigh : highPart stop r = [] := by
          rw [highPart, if_neg (by omega), if_neg (by omega)]
        rw [Exec.loop_next hstep]
        have := isolateLoop_eq hb hstop (low ++ [r]) t fuel (by simpa using ht) hrest
          (by simp only [List.length_append, List.length_cons, List.length_nil]; omega) (by omega)
        simpa [lowParts, midParts, highParts, hlow, hmid, hhigh] using this
      · by_cases hlt : r.base < base
        · have hlen := length_le_partCount hb hrest
          rw [if_pos (by omega)] at hcount
          obtain ⟨t', hsplit, hreg, hm⟩ := splitRegion_at base ht (by
            rw [MemblockType.nrRegions_eq ht, List.length_cons]
            omega)
          have hstep : isolateStep base stop ⟨t, low.length, 0, 0⟩
              = .ok (.inl ⟨t', low.length + 1, 0, 0⟩) := by
            simp only [isolateStep, MemblockType.region_at ht, MemblockType.nrRegions_eq ht]
            rw [if_pos (by simp), if_neg (by omega), if_neg hle, if_pos hlt, hsplit]
            rfl
          have habove := h.above (Nat.le_of_lt hlt) (by omega)
          obtain ⟨_, hsize', hw', -⟩ := RegionsFrom.cons_iff.mp habove
          have hcount' := partCount_cons rs hb hw' hsize'
          have hbase : (r.above base).base = base := rfl
          have hs := MemblockRegion.stop_above hw (Nat.le_of_lt hlt) (by omega)
          obtain ⟨hmid, hhigh⟩ := parts_above hb hw hlt (by omega)
          have hlowRest := lowParts_of_ge base hrest (by omega)
          have hlow : lowParts base (r :: rs) = [r.below base] := by
            rw [lowParts, List.flatMap_cons, lowPart, if_neg hle, if_pos hlt]
            exact congrArg _ hlowRest
          rw [Exec.loop_next hstep, hlow]
          have := isolateLoop_mid hb hstop (low ++ [r.below base]) [] t' fuel
            (by simpa using hreg) habove le_rfl
            (by
              simp only [List.length_append, List.length_cons, List.length_nil]
              split_ifs at hcount hcount' <;> omega)
            (by split_ifs at hcount hcount' <;> omega)
          simpa [marks, midParts, highParts, hmid, hhigh, hm] using this
        · have hlow := lowParts_of_ge base h.from_head (by omega)
          have := isolateLoop_mid hb hstop low [] t (fuel + 1) (by simpa using ht) h.from_head
            (by omega) (by simpa using hmax) (by omega)
          simpa [marks, hlow] using this

/-! ## The parts, as clippings -/

/-- The part of a region inside `[lo, hi)`; nothing when it is empty. -/
def clip (lo hi : ℕ) (r : MemblockRegion) : List MemblockRegion :=
  if max r.base lo < min (r.base + r.size) hi then
    [{ r with base := max r.base lo, size := min (r.base + r.size) hi - max r.base lo }]
  else []

theorem mem_clip {a b : ℕ} {x : MemblockRegion} : x ∈ clip a b r ↔
    max r.base a < min (r.base + r.size) b ∧
      x = { r with base := max r.base a, size := min (r.base + r.size) b - max r.base a } := by
  rw [clip]
  split <;> simp_all

theorem lowPart_eq_clip (hw : r.NoWrap) (hsize : 0 < r.size) : lowPart base r = clip 0 base r := by
  rw [lowPart, clip, hw.stop_eq]
  by_cases h₁ : r.base + r.size ≤ base
  · rw [if_pos h₁, if_pos (by omega), Nat.max_zero, Nat.min_eq_left h₁, Nat.add_sub_cancel_left]
  · rw [if_neg h₁]
    by_cases h₂ : r.base < base
    · rw [if_pos h₂, if_pos (by omega), Nat.max_zero, Nat.min_eq_right (by omega)]
      rfl
    · rw [if_neg h₂, if_neg (by omega)]

theorem midPart_eq_clip (hb : base < stop) (hw : r.NoWrap) (hsize : 0 < r.size) :
    midPart base stop r = clip base stop r := by
  have hstop := hw.stop_eq
  have hw' : r.base + r.size < 2 ^ 32 := hw
  by_cases h₀ : r.stop ≤ base ∨ stop ≤ r.base
  · rw [midPart, if_pos h₀, clip, if_neg (by omega)]
  · rw [clip, if_pos (by omega)]
    by_cases h₁ : r.base < base
    · have hs := MemblockRegion.stop_above hw (Nat.le_of_lt h₁) (by omega)
      simp only [midPart, if_neg h₀, if_pos h₁, hs]
      split <;> simp only [MemblockRegion.below, MemblockRegion.above, List.cons.injEq,
        MemblockRegion.mk.injEq, and_true, sub32] <;> omega
    · rw [midPart_of_ge (by omega) (by omega) (by omega), Nat.max_eq_left (by omega)]
      by_cases h₂ : stop < r.stop
      · rw [if_pos h₂, Nat.min_eq_right (by omega)]
        rfl
      · rw [if_neg h₂, Nat.min_eq_left (by omega), Nat.add_sub_cancel_left]

theorem highPart_eq_clip (hw : r.NoWrap) (hsize : 0 < r.size) :
    highPart stop r = clip stop (2 ^ 32) r := by
  have hw' : r.base + r.size < 2 ^ 32 := hw
  rw [highPart, clip, hw.stop_eq, Nat.min_eq_left (by omega : r.base + r.size ≤ 2 ^ 32)]
  by_cases h₁ : stop ≤ r.base
  · rw [if_pos h₁, if_pos (by omega), Nat.max_eq_left h₁, Nat.add_sub_cancel_left]
  · rw [if_neg h₁, Nat.max_eq_right (by omega)]
    by_cases h₂ : stop < r.base + r.size
    · have := MemblockRegion.size_above hw (by omega) (Nat.le_of_lt h₂)
      rw [if_pos h₂, if_pos h₂, ← this, Nat.add_sub_cancel_left]
      rfl
    · rw [if_neg h₂, if_neg h₂]

/-- The part of an array inside `[lo, hi)`. -/
def clipped (a b : ℕ) (rs : List MemblockRegion) : List MemblockRegion := rs.flatMap (clip a b)

/-- **The three parts of the array** are its clippings to below, inside and above the range. -/
theorem parts_eq_clipped (hb : base < stop) (h : RegionsFrom lo rs) :
    lowParts base rs = clipped 0 base rs ∧ midParts base stop rs = clipped base stop rs ∧
      highParts stop rs = clipped stop (2 ^ 32) rs :=
  ⟨List.flatMap_congr fun _ hr => lowPart_eq_clip (h.noWrap _ hr) (h.size_pos hr),
    List.flatMap_congr fun _ hr => midPart_eq_clip hb (h.noWrap _ hr) (h.size_pos hr),
    List.flatMap_congr fun _ hr => highPart_eq_clip (h.noWrap _ hr) (h.size_pos hr)⟩

theorem mem_clipped_bounds {a b : ℕ} {x : MemblockRegion} (hx : x ∈ clipped a b rs) :
    a ≤ x.base ∧ x.base + x.size ≤ b := by
  obtain ⟨r, -, hx⟩ := List.mem_flatMap.mp hx
  obtain ⟨h, rfl⟩ := mem_clip.mp hx
  dsimp only
  omega

theorem RegionsFrom.clipped {a b : ℕ} (h : RegionsFrom lo rs) :
    RegionsFrom lo (clipped a b rs) := by
  refine ⟨h.asc.flatMap fun r hr => ⟨?_, fun x hx => ?_⟩, fun x hx => ?_⟩
  · rw [clip]
    split
    · exact ⟨by dsimp only; omega, by dsimp only; omega, trivial⟩
    · exact trivial
  · obtain ⟨hlt, rfl⟩ := mem_clip.mp hx
    dsimp only
    omega
  · obtain ⟨r, hr, hx⟩ := List.mem_flatMap.mp hx
    obtain ⟨hlt, rfl⟩ := mem_clip.mp hx
    have hw : r.base + r.size < 2 ^ 32 := h.noWrap r hr
    change max r.base a + (min (r.base + r.size) b - max r.base a) < 2 ^ 32
    omega

/-- Two clippings to neighbouring ranges, put together. -/
theorem RegionsFrom.append_of_le {rs' : List MemblockRegion} (cut : ℕ) (h : RegionsFrom lo rs)
    (h' : RegionsFrom lo rs') (hlow : ∀ x ∈ rs, x.base + x.size ≤ cut)
    (hhigh : ∀ x ∈ rs', cut ≤ x.base) : RegionsFrom lo (rs ++ rs') := by
  refine ⟨Ascending.append_iff.mpr ⟨h.asc, h'.asc, fun x hx y hy => ?_⟩, fun x hx => ?_⟩
  · exact (hlow x hx).trans (hhigh y hy)
  · rcases List.mem_append.mp hx with hx | hx
    · exact h.noWrap x hx
    · exact h'.noWrap x hx

theorem RegionsFrom.parts (hb : base < stop) (h : RegionsFrom lo rs) :
    RegionsFrom lo (lowParts base rs ++ midParts base stop rs ++ highParts stop rs) := by
  obtain ⟨h₁, h₂, h₃⟩ := parts_eq_clipped hb h
  rw [h₁, h₂, h₃]
  refine (h.clipped.append_of_le base h.clipped (fun x hx => (mem_clipped_bounds hx).2)
    fun x hx => (mem_clipped_bounds hx).1).append_of_le stop h.clipped (fun x hx => ?_)
    fun x hx => (mem_clipped_bounds hx).1
  rcases List.mem_append.mp hx with hx | hx
  · exact (mem_clipped_bounds hx).2.trans (Nat.le_of_lt hb)
  · exact (mem_clipped_bounds hx).2

end Sandix
