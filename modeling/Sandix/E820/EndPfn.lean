import Sandix.E820.Fill

/-!
# E820/EndPfn — the end of usable RAM

`e820_end_pfn` looks for the highest page frame below a limit.  It takes an entry for one below the
limit when its first page, cut to 32 bits, is at most the limit: the page of the limit itself passes,
and so does the low half of a page number beyond 32 bits.  The end of an entry is cut the same way.

The largest of several values is known by what lies below it (`le_foldr_max_iff`), so the value of the
loop (`le_e820EndPfn_iff`) and the value it is for (`le_usableEnd_iff`) are compared entry by entry.

* `e820EndPfn_eq_iff` — the two agree exactly when no entry wrongly counted reaches further than the
  RAM below the limit, and no entry cut short was needed to reach it.
-/

namespace Sandix

open Machinery

/-- `MAX_ARCH_PFN`. -/
abbrev maxArchPfn : ℕ := 1 <<< (32 - pageShift)

/-- `ei->addr >> PAGE_SHIFT`, in an `unsigned long`. -/
def E820Entry.startPfn (ei : E820Entry) : ℕ := (ei.addr >>> pageShift) % 2 ^ 32

/-- `(ei->addr + ei->size) >> PAGE_SHIFT`, in an `unsigned long`. -/
def E820Entry.endPfn (ei : E820Entry) : ℕ := (ei.stop >>> pageShift) % 2 ^ 32

/-- The loop of `e820_end_pfn`. -/
def endPfnLoop (limitPfn : ℕ) : List E820Entry → ℕ → ℕ
  | [], lastPfn => lastPfn
  | ei :: es, lastPfn =>
    if ei.type ≠ e820Ram ∧ ei.type ≠ e820Pram then endPfnLoop limitPfn es lastPfn
    else if ei.startPfn > limitPfn then endPfnLoop limitPfn es lastPfn
    else if ei.endPfn > limitPfn then limitPfn
    else endPfnLoop limitPfn es (if ei.endPfn > lastPfn then ei.endPfn else lastPfn)

/-- `e820_end_pfn`, on the map `e820`. -/
def e820EndPfn (map : ℕ → E820Entry) (nrEntries limitPfn : ℕ) : ℕ :=
  let lastPfn := endPfnLoop limitPfn ((List.range nrEntries).map map) 0
  if lastPfn > maxArchPfn then maxArchPfn else lastPfn

/-! ## What it is for -/

/-- Memory that counts as RAM: persistent memory does. -/
def E820Entry.IsRam (e : E820Entry) : Prop := e.type = e820Ram ∨ e.type = e820Pram
deriving Decidable

/-- The entry is RAM with an address below the limit. -/
def E820Entry.Below (limitPfn : ℕ) (e : E820Entry) : Prop :=
  e.IsRam ∧ ∃ a, e.Has a ∧ a < limitPfn * pageSize

theorem E820Entry.below_iff {limitPfn : ℕ} {e : E820Entry} :
    e.Below limitPfn ↔ e.IsRam ∧ 0 < e.size ∧ e.addr < limitPfn * pageSize := by
  refine and_congr_right fun _ => ⟨?_, ?_⟩
  · rintro ⟨a, ⟨hle, hlt⟩, ha⟩
    omega
  · rintro ⟨hsize, hlt⟩
    exact ⟨e.addr, ⟨le_rfl, by omega⟩, hlt⟩

instance (limitPfn : ℕ) (e : E820Entry) : Decidable (e.Below limitPfn) :=
  decidable_of_iff _ E820Entry.below_iff.symm

/-- The end of the RAM below the limit: the largest end of the entries there, cut at the limit. -/
def usableEnd (limitPfn : ℕ) (es : List E820Entry) : ℕ :=
  ((es.filter (·.Below limitPfn)).map fun e => min (e.limit / pageSize) limitPfn).foldr max 0

/-! ## The values, by what lies below them -/

theorem le_foldr_max_iff {n : ℕ} : ∀ {l : List ℕ}, n ≤ l.foldr max 0 ↔ n = 0 ∨ ∃ x ∈ l, n ≤ x
  | [] => by simp
  | x :: l => by
      rw [List.foldr_cons, le_max_iff, le_foldr_max_iff, List.exists_mem_cons_iff]
      exact or_left_comm

theorem le_usableEnd_iff {limitPfn n : ℕ} {es : List E820Entry} :
    n ≤ usableEnd limitPfn es ↔
      n = 0 ∨ ∃ e ∈ es, e.Below limitPfn ∧ n ≤ e.limit / pageSize ∧ n ≤ limitPfn := by
  rw [usableEnd, le_foldr_max_iff]
  refine or_congr_right ⟨?_, ?_⟩
  · rintro ⟨x, hx, hn⟩
    obtain ⟨e, he, rfl⟩ := List.mem_map.mp hx
    obtain ⟨hmem, hbelow⟩ := List.mem_filter.mp he
    exact ⟨e, hmem, of_decide_eq_true hbelow, le_min_iff.mp hn⟩
  · rintro ⟨e, hmem, hbelow, hn⟩
    have he : e ∈ es.filter (·.Below limitPfn) :=
      List.mem_filter.mpr ⟨hmem, decide_eq_true hbelow⟩
    exact ⟨_, List.mem_map_of_mem he, le_min hn.1 hn.2⟩

/-- The entry passes the tests of the loop. -/
def E820Entry.Counted (limitPfn : ℕ) (e : E820Entry) : Prop := e.IsRam ∧ e.startPfn ≤ limitPfn

section Loop

variable {limitPfn lastPfn : ℕ} {ei : E820Entry} {es : List E820Entry}

theorem endPfnLoop_skip (h : ¬ ei.Counted limitPfn) :
    endPfnLoop limitPfn (ei :: es) lastPfn = endPfnLoop limitPfn es lastPfn := by
  unfold E820Entry.Counted E820Entry.IsRam at h
  rw [endPfnLoop]
  by_cases hram : ei.type ≠ e820Ram ∧ ei.type ≠ e820Pram
  · rw [if_pos hram]
  · rw [if_neg hram, if_pos (by omega)]

theorem endPfnLoop_counted (h : ei.Counted limitPfn) :
    endPfnLoop limitPfn (ei :: es) lastPfn =
      if ei.endPfn > limitPfn then limitPfn else endPfnLoop limitPfn es (max lastPfn ei.endPfn) := by
  obtain ⟨hram, hstart⟩ := h
  unfold E820Entry.IsRam at hram
  rw [endPfnLoop, if_neg (by omega), if_neg (by omega)]
  congr 2
  split_ifs <;> omega

end Loop

/-- **The loop**: leaving at the first entry across the limit loses nothing, since no entry counts for
more than the limit. -/
theorem le_endPfnLoop_iff {limitPfn n : ℕ} : ∀ {es : List E820Entry} {lastPfn : ℕ},
    lastPfn ≤ limitPfn → (n ≤ endPfnLoop limitPfn es lastPfn ↔
      n ≤ lastPfn ∨ ∃ e ∈ es, e.Counted limitPfn ∧ n ≤ e.endPfn ∧ n ≤ limitPfn)
  | [], lastPfn, _ => by simp [endPfnLoop]
  | ei :: es, lastPfn, hlast => by
      rw [List.exists_mem_cons_iff]
      by_cases hcount : ei.Counted limitPfn
      · rw [endPfnLoop_counted hcount]
        by_cases hcross : ei.endPfn > limitPfn
        · rw [if_pos hcross]
          constructor
          · exact fun hn => Or.inr (Or.inl ⟨hcount, by omega, hn⟩)
          · rintro (hn | ⟨-, -, hn⟩ | ⟨e, -, -, -, hn⟩)
            · omega
            · exact hn
            · exact hn
        · rw [if_neg hcross, le_endPfnLoop_iff (by omega), le_max_iff, or_assoc]
          refine or_congr_right (or_congr_left ⟨fun hn => ⟨hcount, hn, by omega⟩, fun hn => hn.2.1⟩)
      · rw [endPfnLoop_skip hcount, le_endPfnLoop_iff hlast]
        exact or_congr_right (or_iff_right fun hei => hcount hei.1).symm

/-! ## The comparison -/

variable {map : ℕ → E820Entry} {nrEntries limitPfn : ℕ}

theorem le_e820EndPfn_iff {n : ℕ} : n ≤ e820EndPfn map nrEntries limitPfn ↔
    n ≤ maxArchPfn ∧ (n = 0 ∨ ∃ e ∈ (List.range nrEntries).map map,
      e.Counted limitPfn ∧ n ≤ e.endPfn ∧ n ≤ limitPfn) := by
  have hloop := @le_endPfnLoop_iff limitPfn n ((List.range nrEntries).map map) 0 (Nat.zero_le _)
  rw [Nat.le_zero] at hloop
  rw [← hloop, e820EndPfn]
  split_ifs <;> omega

/-- RAM the loop counts though no address of it is below the limit: an empty entry, or one that starts
at the limit or above and whose first page, cut to 32 bits, is at most the limit. -/
def E820Entry.Overcounted (limitPfn : ℕ) (e : E820Entry) : Prop :=
  e.Counted limitPfn ∧ (e.size = 0 ∨ limitPfn * pageSize ≤ e.addr)

/-- RAM below the limit whose end lies beyond `2 ^ 44` and, cut to 32 bits, falls short of the limit. -/
def E820Entry.CutShort (limitPfn : ℕ) (e : E820Entry) : Prop :=
  e.Below limitPfn ∧ 2 ^ 44 ≤ e.limit ∧ e.endPfn < limitPfn

theorem E820Entry.endPfn_eq {e : E820Entry} (h : e.limit < 2 ^ 64) :
    e.endPfn = e.limit / pageSize % 2 ^ 32 := by
  rw [E820Entry.endPfn, E820Entry.stop, Nat.mod_eq_of_lt h, Nat.shiftRight_eq_div_pow]
  rfl

theorem E820Entry.endPfn_le {e : E820Entry} (h : e.limit < 2 ^ 64) :
    e.endPfn ≤ e.limit / pageSize := by
  rw [E820Entry.endPfn_eq h]
  exact Nat.mod_le _ _

theorem two_pow_le_div_pageSize {x : ℕ} : 2 ^ 32 ≤ x / pageSize ↔ 2 ^ 44 ≤ x := by
  rw [show pageSize = 4096 from rfl]
  omega

/-- RAM below the limit is counted. -/
theorem E820Entry.Below.counted {e : E820Entry} (hlimit : limitPfn < 2 ^ 32)
    (h : e.Below limitPfn) : e.Counted limitPfn := by
  obtain ⟨hram, -, hlt⟩ := E820Entry.below_iff.mp h
  refine ⟨hram, ?_⟩
  rw [E820Entry.startPfn, Nat.shiftRight_eq_div_pow, show 2 ^ pageShift = 4096 from rfl]
  rw [show pageSize = 4096 from rfl] at hlt
  omega

/-- **The end of usable RAM.**  `e820_end_pfn` returns it exactly when every entry counted that has no
address below the limit is matched by one that has and that reaches as far, and the loss of every end
cut short is made up by an entry that is counted up to the limit — as far as `MAX_ARCH_PFN` lets the
difference be seen. -/
theorem e820EndPfn_eq_iff (hlimit : limitPfn < 2 ^ 32)
    (hwrap : ∀ i < nrEntries, (map i).limit < 2 ^ 64) :
    e820EndPfn map nrEntries limitPfn =
        min maxArchPfn (usableEnd limitPfn ((List.range nrEntries).map map)) ↔
      (∀ i < nrEntries, (map i).Overcounted limitPfn → (map i).endPfn = 0 ∨ limitPfn = 0 ∨
        ∃ j < nrEntries, (map j).Below limitPfn ∧
          min maxArchPfn (min (map i).endPfn limitPfn) ≤ (map j).limit / pageSize) ∧
      ∀ i < nrEntries, (map i).CutShort limitPfn → ∃ j < nrEntries, (map j).Counted limitPfn ∧
        min maxArchPfn limitPfn ≤ (map j).endPfn := by
  have hcode : ∀ n, n ≤ e820EndPfn map nrEntries limitPfn ↔ n ≤ maxArchPfn ∧ (n = 0 ∨
      ∃ i < nrEntries, (map i).Counted limitPfn ∧ n ≤ (map i).endPfn ∧ n ≤ limitPfn) := by
    intro n
    simp only [le_e820EndPfn_iff, List.mem_map, List.mem_range, exists_exists_and_eq_and]
  have hspec : ∀ n, n ≤ min maxArchPfn (usableEnd limitPfn ((List.range nrEntries).map map)) ↔
      n ≤ maxArchPfn ∧ (n = 0 ∨ ∃ i < nrEntries, (map i).Below limitPfn ∧
        n ≤ (map i).limit / pageSize ∧ n ≤ limitPfn) := by
    intro n
    simp only [le_min_iff, le_usableEnd_iff, List.mem_map, List.mem_range, exists_exists_and_eq_and]
  have hpos : 0 < maxArchPfn := by decide
  constructor
  · intro heq
    refine ⟨fun i hi hover => ?_, fun i hi hcut => ?_⟩
    · have hle := (hcode (min maxArchPfn (min (map i).endPfn limitPfn))).mpr
        ⟨by omega, Or.inr ⟨i, hi, hover.1, by omega, by omega⟩⟩
      rw [heq, hspec] at hle
      obtain ⟨-, h0 | ⟨j, hj, hbelow, hreach, -⟩⟩ := hle
      · omega
      · exact Or.inr (Or.inr ⟨j, hj, hbelow, hreach⟩)
    · obtain ⟨hbelow, hhigh, -⟩ := hcut
      have hlt := (E820Entry.below_iff.mp hbelow).2.2
      have hpages := two_pow_le_div_pageSize.mpr hhigh
      have hle := (hspec (min maxArchPfn limitPfn)).mpr
        ⟨by omega, Or.inr ⟨i, hi, hbelow, by omega, by omega⟩⟩
      rw [← heq, hcode] at hle
      obtain ⟨-, h0 | ⟨j, hj, hcount, hreach, -⟩⟩ := hle
      · have hzero : limitPfn = 0 := by omega
        rw [hzero] at hlt
        omega
      · exact ⟨j, hj, hcount, hreach⟩
  · rintro ⟨hover, hcut⟩
    refine eq_of_forall_le_iff fun n => ?_
    rw [hcode, hspec]
    refine and_congr_right fun hmax => or_congr_right' fun hn0 => ⟨?_, ?_⟩
    · rintro ⟨i, hi, hcount, hreach, hn⟩
      by_cases hbelow : (map i).Below limitPfn
      · exact ⟨i, hi, hbelow, hreach.trans (E820Entry.endPfn_le (hwrap i hi)), hn⟩
      · have hover' : (map i).Overcounted limitPfn := by
          refine ⟨hcount, ?_⟩
          by_contra hno
          exact hbelow (E820Entry.below_iff.mpr ⟨hcount.1, by omega, by omega⟩)
        rcases hover i hi hover' with h0 | h0 | ⟨j, hj, hbelow', hreach'⟩
        · omega
        · omega
        · exact ⟨j, hj, hbelow', by omega, hn⟩
    · rintro ⟨i, hi, hbelow, hreach, hn⟩
      by_cases hshort : n ≤ (map i).endPfn
      · exact ⟨i, hi, hbelow.counted hlimit, hshort, hn⟩
      · have hhigh : 2 ^ 44 ≤ (map i).limit := by
          by_contra hlow
          refine hshort (hreach.trans_eq ?_)
          rw [← two_pow_le_div_pageSize, not_le] at hlow
          rw [E820Entry.endPfn_eq (hwrap i hi), Nat.mod_eq_of_lt hlow]
        obtain ⟨j, hj, hcount, hreach'⟩ := hcut i hi ⟨hbelow, hhigh, by omega⟩
        exact ⟨j, hj, hcount, by omega, hn⟩

/-- RAM below one gigabyte, up to it, from it on and above, with a hole of reserved memory. -/
def borderMap : ℕ → E820Entry
  | 0 => ⟨0, 0x9fc00, e820Ram⟩
  | 1 => ⟨0x9fc00, 0x60400, 2⟩
  | 2 => ⟨0x100000, 0x3ff00000, e820Ram⟩
  | 3 => ⟨0x40000000, 0x20000000, e820Ram⟩
  | _ => ⟨0x100000000, 0x40000000, e820Pram⟩

/-- Up to one gigabyte: the entry that starts there is counted, but reaches no further than the one
before it. -/
theorem e820EndPfn_border :
    (borderMap 3).Overcounted 0x40000 ∧ e820EndPfn borderMap 5 0x40000 = min maxArchPfn
      (usableEnd 0x40000 ((List.range 5).map borderMap)) := by
  refine ⟨by unfold E820Entry.Overcounted E820Entry.Counted; decide,
    (e820EndPfn_eq_iff (by decide) (by decide)).mpr ⟨?_, ?_⟩⟩
  · unfold E820Entry.Overcounted E820Entry.Counted
    decide
  · unfold E820Entry.CutShort E820Entry.Counted
    decide

/-- A machine with one gigabyte below 4 GiB and one just above. -/
def remappedMap (i : ℕ) : E820Entry :=
  if i = 0 then ⟨0, 0x40000000, e820Ram⟩ else ⟨0x100000000, 0x40000000, e820Ram⟩

/-- The second entry starts in the page of the limit, and the whole 4 GiB pass for RAM. -/
theorem e820EndPfn_remapped :
    (∀ i < 2, (remappedMap i).limit < 2 ^ 64) ∧ e820EndPfn remappedMap 2 maxArchPfn = 0x100000 ∧
      min maxArchPfn (usableEnd maxArchPfn ((List.range 2).map remappedMap)) = 0x40000 := by
  decide

end Sandix
