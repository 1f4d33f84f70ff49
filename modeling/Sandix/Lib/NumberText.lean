import Sandix.Lib.Vsprintf

/-!
# Lib/NumberText — what `number` writes

The text of a number as `number` computes it, from the digits of its absolute value and the counts of
its padding loops (`numberText`); `number_eq` says that `number` writes this text, character by
character, wherever the buffer ends.

A loop `while (--w >= lo)` on a `signed short` runs `downCount lo w` times.  From the least value the
first decrement wraps around, and the loop runs for all of the positive range.
-/

namespace Sandix

open Machinery

/-- `puts` on 32-bit addresses. -/
abbrev Out.puts (stop : ℕ) (k : Out) (text : List UInt8) : Out := Sink.puts (2 ^ 32) stop k text

/-! ## Padding -/

theorem toInt_sub_one {w : Int16} (h : -2 ^ 15 < w.toInt) : (w - 1).toInt = w.toInt - 1 := by
  have hlt := w.toInt_lt
  rw [Int16.toInt_sub, show (1 : Int16).toInt = 1 from rfl, Int.bmod_def]
  omega

/-- The rounds of `padDown`. -/
def downCount (lo : ℕ) (w : Int16) : ℕ := ((w - 1).toInt + 1 - lo).toNat

/-- What `padDown` leaves in its counter. -/
def downLeft (lo : ℕ) (w : Int16) : Int16 :=
  if lo ≤ (w - 1).toInt then Int16.ofInt (lo - 1) else w - 1

/-- Counting down without a wrap. -/
theorem padDownLoop_eq (stop : ℕ) (c : UInt8) {lo : ℕ} :
    ∀ {n fuel : ℕ} {w : Int16} {k : Out}, w.toInt = lo + n → n < fuel →
      Exec.loop (padDownStep stop c lo) fuel (w, k)
        = .ok (Int16.ofInt (lo - 1), Out.puts stop k (List.replicate n c))
  | 0, fuel + 1, w, k, hw, _ => by
      have hsub : (w - 1).toInt = lo - 1 := by
        rw [toInt_sub_one (by omega), hw]
        omega
      have hstep : padDownStep stop c lo (w, k) = .ok (.inr (w - 1, k)) :=
        if_neg (by dsimp only; omega)
      rw [Exec.loop_done hstep, ← hsub, Int16.ofInt_toInt]
      rfl
  | n + 1, fuel + 1, w, k, hw, hfuel => by
      have hsub : (w - 1).toInt = lo + n := by
        rw [toInt_sub_one (by omega), hw]
        omega
      have hstep : padDownStep stop c lo (w, k) = .ok (.inl (w - 1, putc stop k c)) :=
        if_pos (by dsimp only; omega)
      rw [Exec.loop_next hstep, padDownLoop_eq stop c hsub (Nat.lt_of_succ_lt_succ hfuel)]
      rfl

/-- **`while (--w >= lo)`** puts `downCount lo w` characters. -/
theorem padDown_eq (stop : ℕ) (c : UInt8) (lo : ℕ) (w : Int16) (k : Out) :
    padDown stop c lo w k
      = .ok (downLeft lo w, Out.puts stop k (List.replicate (downCount lo w) c)) := by
  have hlt := (w - 1).toInt_lt
  rw [padDown, downLeft, downCount]
  by_cases hgo : lo ≤ (w - 1).toInt
  · obtain ⟨n, hn⟩ : ∃ n : ℕ, (w - 1).toInt = lo + n := ⟨((w - 1).toInt - lo).toNat, by omega⟩
    have hstep : padDownStep stop c lo (w, k) = .ok (.inl (w - 1, putc stop k c)) := if_pos hgo
    rw [Exec.loop_next hstep, padDownLoop_eq stop c hn (by omega), if_pos hgo,
      show ((w - 1).toInt + 1 - lo).toNat = n + 1 by omega]
    rfl
  · have hstep : padDownStep stop c lo (w, k) = .ok (.inr (w - 1, k)) := if_neg hgo
    rw [Exec.loop_done hstep, if_neg hgo, show ((w - 1).toInt + 1 - lo).toNat = 0 by omega]
    rfl

/-! ## Digits -/

/-- The character of a digit. -/
def digitChar (locase : UInt8) (d : ℕ) : UInt8 := hexAscUpper d ||| locase

/-- The numeral of `n`, most significant digit first. -/
def digitText (base n : ℕ) (locase : UInt8) : List UInt8 :=
  ((numeral base n).map (digitChar locase)).reverse

/-- The bases of the conversions. -/
def IsBase (base : ℕ) : Prop := base = 8 ∨ base = 10 ∨ base = 16

section Digits

variable {base : ℕ} {locase : UInt8}

/-- The digit that comes out of a round, and what is left. -/
theorem digitsStep_arith (hb : base = 8 ∨ base = 16) (num : ℕ) :
    num % 2 ^ 8 &&& (base - 1) = num % base ∧ (num >>> if base = 16 then 4 else 3) = num / base := by
  rcases hb with rfl | rfl
  · have hmask : num % 2 ^ 8 &&& (8 - 1) = num % 2 ^ 8 % 2 ^ 3 := Nat.and_two_pow_sub_one_eq_mod _ 3
    rw [hmask, if_neg (by decide), Nat.shiftRight_eq_div_pow]
    omega
  · have hmask : num % 2 ^ 8 &&& (16 - 1) = num % 2 ^ 8 % 2 ^ 4 := Nat.and_two_pow_sub_one_eq_mod _ 4
    rw [hmask, if_pos rfl, Nat.shiftRight_eq_div_pow]
    omega

/-- The loop over the digits in base 8 or 16. -/
theorem digitsLoop_eq (locase : UInt8) (hb : base = 8 ∨ base = 16) :
    ∀ (fuel i num : ℕ) (tmp : List UInt8), (numeral base num).length ≤ fuel →
      i + (numeral base num).length ≤ tmp.length →
      ∃ tmp', Exec.loop (digitsStep base locase) fuel (i, tmp, num)
          = .ok (tmp', i + (numeral base num).length) ∧
        tmp'.take (i + (numeral base num).length)
          = tmp.take i ++ (numeral base num).map (digitChar locase) ∧ tmp'.length = tmp.length
  | 0, i, num, tmp, hfuel, _ =>
      absurd (List.length_eq_zero_iff.mp (Nat.le_zero.mp hfuel)) (numeral_ne_nil base num)
  | fuel + 1, i, num, tmp, hfuel, hroom => by
      have hb₁ : 1 < base := by omega
      have hpos : 0 < (numeral base num).length := List.length_pos_iff.mpr (numeral_ne_nil base num)
      have hi : i < tmp.length := by omega
      obtain ⟨hdigit, hrest⟩ := digitsStep_arith hb num
      have hset : (tmp.set i (digitChar locase (num % base))).length = tmp.length := List.length_set
      have hstore : storeByte tmp i (hexAscUpper (num % base) ||| locase)
          = .ok (tmp.set i (digitChar locase (num % base))) := if_pos hi
      by_cases hlt : num < base
      · have hnum := numeral_of_lt hlt
        have hstep : digitsStep base locase (i, tmp, num)
            = .ok (.inr (tmp.set i (digitChar locase (num % base)), i + 1)) := by
          simp only [digitsStep, hdigit, hrest, hstore, Exec.ok_bind]
          exact if_neg (by simp [Nat.div_eq_of_lt hlt])
        refine ⟨_, Exec.loop_done hstep |>.trans ?_, ?_, hset⟩
        · rw [hnum]
          rfl
        · rw [hnum, List.length_singleton, take_set_succ hi, Nat.mod_eq_of_lt hlt]
          rfl
      · have hge := not_lt.mp hlt
        have hnum := numeral_cons hb₁ hge
        have hq : num / base ≠ 0 := (Nat.div_pos hge (by omega)).ne'
        rw [hnum, List.length_cons] at hfuel hroom
        have hstep : digitsStep base locase (i, tmp, num)
            = .ok (.inl (i + 1, tmp.set i (digitChar locase (num % base)), num / base)) := by
          simp only [digitsStep, hdigit, hrest, hstore, Exec.ok_bind]
          exact if_pos hq
        obtain ⟨tmp', hrun, htake, hlen⟩ := digitsLoop_eq locase hb fuel (i + 1) (num / base)
          (tmp.set i (digitChar locase (num % base))) (by omega) (by omega)
        refine ⟨tmp', ?_, ?_, hlen.trans hset⟩
        · rw [Exec.loop_next hstep, hrun, hnum, List.length_cons]
          congr 2
          omega
        · rw [hnum, List.length_cons, show ∀ n, i + (n + 1) = i + 1 + n by omega, htake,
            take_set_succ hi, List.map_cons, List.append_assoc]
          rfl

/-- Decimal digits have no case. -/
theorem decChar_eq {d : ℕ} (hd : d < 10) (hl : locase = 0 ∨ locase = 0x20) :
    decChar d = digitChar locase d := by
  rcases hl with rfl | rfl
  · interval_cases d <;> rfl
  · interval_cases d <;> rfl

/-- A 64-bit number has at most 22 digits. -/
theorem numeral_length_le_of_isBase (hb : IsBase base) {n : ℕ} (hn : n < 2 ^ 64) :
    (numeral base n).length ≤ 22 := by
  rcases hb with rfl | rfl | rfl
  · exact numeral_length_le (by decide) (by decide) (by omega)
  · exact numeral_length_le (by decide) (by decide) (by omega)
  · exact numeral_length_le (by decide) (by decide) (by omega)

/-- **The digits in `tmp`** are those of the numeral. -/
theorem numberDigits_eq (hb : IsBase base) (hl : locase = 0 ∨ locase = 0x20) {n : ℕ}
    (hn : n < 2 ^ 64) :
    ∃ tmp, numberDigits n base locase = .ok (tmp, (numeral base n).length) ∧
      tmp.take (numeral base n).length = (numeral base n).map (digitChar locase) ∧
      tmp.length = 24 := by
  have hlen := numeral_length_le_of_isBase hb hn
  unfold numberDigits
  by_cases hlt : n < base
  · rw [if_pos hlt, numeral_of_lt hlt]
    exact ⟨_, rfl, rfl, rfl⟩
  · rw [if_neg hlt]
    by_cases h10 : base = 10
    · obtain ⟨tmp, hrun, hw⟩ := putDec_puts_machine
        (show (List.replicate 24 (0 : UInt8)).length = 24 from rfl) hn
      have htake := hw.take_eq
      rw [Nat.zero_add] at hrun htake
      rw [if_pos h10, h10]
      refine ⟨tmp, hrun, htake.trans ?_, hw.length_eq⟩
      rw [List.take_zero, List.nil_append]
      exact List.map_congr_left fun d hd => decChar_eq (hw.digits d hd) hl
    · rw [if_neg h10]
      have hb' : base = 8 ∨ base = 16 := by
        rcases hb with h | h | h
        · exact Or.inl h
        · exact absurd h h10
        · exact Or.inr h
      obtain ⟨tmp, hrun, htake, hlen'⟩ := digitsLoop_eq locase hb' 65 0 n
        (List.replicate 24 0) (by omega) (by rw [List.length_replicate]; omega)
      rw [Nat.zero_add] at hrun htake
      exact ⟨tmp, hrun, htake, hlen'⟩

end Digits

/-- The digits, from the last one stored to the first. -/
theorem putDigits_eq (stop : ℕ) (tmp : List UInt8) :
    ∀ (i : ℕ) (k : Out), i ≤ tmp.length →
      putDigits stop tmp i k = .ok (Out.puts stop k (tmp.take i).reverse)
  | 0, _, _ => rfl
  | i + 1, k, hi => by
      have hget : tmp[i]? = some (tmp.get ⟨i, hi⟩) := List.getElem?_eq_getElem hi
      rw [putDigits, hget]
      dsimp only
      rw [putDigits_eq stop tmp i _ (Nat.le_of_succ_le hi), List.take_add_one, hget, Option.toList_some,
        List.reverse_append, List.reverse_singleton, List.singleton_append]
      rfl

/-! ## Numbers -/

/-- The case bit of a specification. -/
def PrintfSpec.locase (spec : PrintfSpec) : UInt8 := if spec.flags.small then 0x20 else 0

/-- `0x`, `0` or nothing. -/
def prefixText (spec : PrintfSpec) (n : ℕ) : List UInt8 :=
  if spec.needPfx then
    if spec.base = 16 then [ascii '0', ascii 'X' ||| spec.locase]
    else if n ≠ 0 then [ascii '0'] else []
  else []

/-- The precision, raised to the count of digits. -/
def PrintfSpec.digitCount (spec : PrintfSpec) (n : ℕ) : Int16 :=
  if ((numeral spec.base n).length : ℤ) > spec.precision.toInt then
    Int16.ofNat (numeral spec.base n).length
  else spec.precision

/-- The padding of a field of a number: before the sign, after the prefix and at the end. -/
structure Padding where
  lead : ℕ
  middle : ℕ
  trail : ℕ

/-- The padding `number` makes of the width that is left. -/
def padding (flags : FormatFlags) (width : Int16) : Padding :=
  if flags.left then ⟨0, 0, downCount 0 width⟩
  else if flags.zeropad then ⟨0, downCount 0 width, downCount 0 (downLeft 0 width)⟩
  else
    let width' := downLeft 0 width
    ⟨downCount 0 width, downCount 0 width', downCount 0 (downLeft 0 width')⟩

/-- The text of a number. -/
def numberText (num : ℕ) (spec : PrintfSpec) : List UInt8 :=
  let (sign, n, width) := numberSign num spec
  let pad := padding spec.flags (prefixWidth spec n width - spec.digitCount n)
  List.replicate pad.lead (ascii ' ') ++ (if sign ≠ 0 then [sign] else []) ++ prefixText spec n ++
    List.replicate pad.middle (if spec.flags.zeropad then ascii '0' else ascii ' ') ++
    List.replicate (downCount (numeral spec.base n).length (spec.digitCount n)) (ascii '0') ++
    digitText spec.base n spec.locase ++ List.replicate pad.trail (ascii ' ')

theorem numberSign_lt {num : ℕ} (hn : num < 2 ^ 64) (spec : PrintfSpec) :
    (numberSign num spec).2.1 < 2 ^ 64 := by
  unfold numberSign
  split_ifs
  · show sub64 0 num < 2 ^ 64
    rw [sub64]
    omega
  all_goals exact hn

theorem putPrefix_eq (stop : ℕ) (spec : PrintfSpec) (n : ℕ) (k : Out) :
    putPrefix stop spec n spec.locase k = Out.puts stop k (prefixText spec n) := by
  unfold putPrefix prefixText
  by_cases hpfx : spec.needPfx = true
  · rw [if_pos hpfx, if_pos hpfx]
    by_cases h16 : spec.base = 16
    · simp only [h16, true_or, if_true]
      rfl
    · by_cases hn : n = 0
      · simp [h16, hn]
      · simp only [h16, hn, ne_eq, not_false_iff, or_true, if_true, if_false]
        rfl
  · rw [if_neg hpfx, if_neg hpfx]
    rfl

/-- The cursor after the sign. -/
theorem putSign_eq (stop : ℕ) (sign : UInt8) (k : Out) :
    (if sign ≠ 0 then putc stop k sign else k) = Out.puts stop k (if sign ≠ 0 then [sign] else []) := by
  split_ifs
  · rfl
  · rfl

/-- **`number` writes `numberText`**, whatever fits. -/
theorem number_eq (stop : ℕ) (k : Out) {num : ℕ} (hn : num < 2 ^ 64) {spec : PrintfSpec}
    (hb : IsBase spec.base) : number stop k num spec = .ok (Out.puts stop k (numberText num spec)) := by
  have hlt := numberSign_lt hn spec
  unfold number numberText
  obtain ⟨⟨sign, n, width⟩, hsign⟩ : ∃ r, numberSign num spec = r := ⟨_, rfl⟩
  rw [hsign] at hlt ⊢
  dsimp only at hlt ⊢
  have hl : spec.locase = 0 ∨ spec.locase = 0x20 := by
    unfold PrintfSpec.locase
    split_ifs
    · exact Or.inr rfl
    · exact Or.inl rfl
  obtain ⟨tmp, hdigits, htake, hlen⟩ := numberDigits_eq hb hl hlt
  have hle := numeral_length_le_of_isBase hb hlt
  have hput : ∀ k, putDigits stop tmp (numeral spec.base n).length k
      = .ok (Out.puts stop k (digitText spec.base n spec.locase)) := by
    intro k
    rw [putDigits_eq stop tmp _ _ (by omega), htake]
    rfl
  rw [← PrintfSpec.locase, hdigits, Exec.ok_bind]
  dsimp only
  rw [← PrintfSpec.digitCount]
  generalize prefixWidth spec n width - spec.digitCount n = w
  unfold padding
  cases hleft : spec.flags.left with
  | true =>
    simp only [Bool.not_true, Bool.and_false, Bool.or_true, Bool.false_eq_true, if_false, if_true,
      Exec.pure_eq_ok, Exec.ok_bind, putSign_eq, putPrefix_eq, padDown_eq, hput]
    simp only [Out.puts, Sink.puts_append, List.replicate_zero, Sink.puts_nil]
  | false =>
    cases hzero : spec.flags.zeropad with
    | true =>
      simp only [Bool.not_true, Bool.not_false, Bool.and_true, Bool.true_or, Bool.false_eq_true,
        if_false, if_true, Exec.pure_eq_ok, Exec.ok_bind, putSign_eq, putPrefix_eq, padDown_eq, hput]
      simp only [Out.puts, Sink.puts_append, List.replicate_zero, Sink.puts_nil]
      rfl
    | false =>
      simp only [Bool.not_false, Bool.and_true, Bool.or_self, Bool.false_eq_true,
        if_false, if_true, Exec.pure_eq_ok, Exec.ok_bind, putSign_eq, putPrefix_eq, padDown_eq, hput]
      simp only [Out.puts, Sink.puts_append]
      rfl

end Sandix
