import Sandix.Lib.NumberText

/-!
# Lib/NumberLayout — the field of a number

`fieldText` is the field as it should be: sign, prefix, digits padded with zeros up to the precision,
and the width made up by spaces on the left, by zeros after the prefix, or by spaces on the right.

`number` keeps the width that is left in a `signed short` and decrements it once more in every padding
loop, also when it is already negative.  As long as it does not wrap around the field is right
(`padding_of_neg`); once it does, one of the loops runs for the whole positive range
(`padding_of_wrap`).  `number_layout_iff` puts the two together.
-/

namespace Sandix

open Machinery

/-- The sign that is printed. -/
def signText (num : ℕ) (spec : PrintfSpec) : List UInt8 :=
  if spec.flags.sign then
    if 2 ^ 63 ≤ num then [ascii '-']
    else if spec.flags.plus then [ascii '+']
    else if spec.flags.space then [ascii ' ']
    else []
  else []

/-- The number that is printed: the absolute value, for a signed conversion. -/
def magnitude (num : ℕ) (spec : PrintfSpec) : ℕ :=
  if spec.flags.sign ∧ 2 ^ 63 ≤ num then 2 ^ 64 - num else num

/-- Sign and prefix. -/
def headText (num : ℕ) (spec : PrintfSpec) : List UInt8 :=
  signText num spec ++ prefixText spec (magnitude num spec)

/-- The digits, padded with zeros to at least the precision. -/
def bodyText (num : ℕ) (spec : PrintfSpec) : List UInt8 :=
  let digits := digitText spec.base (magnitude num spec) spec.locase
  List.replicate (spec.precision.toInt.toNat - digits.length) (ascii '0') ++ digits

/-- **The field of a number.** -/
def fieldText (num : ℕ) (spec : PrintfSpec) : List UInt8 :=
  let head := headText num spec
  let body := bodyText num spec
  let extra := spec.fieldWidth.toInt.toNat - (head.length + body.length)
  if spec.flags.left then head ++ body ++ List.replicate extra (ascii ' ')
  else if spec.flags.zeropad then head ++ List.replicate extra (ascii '0') ++ body
  else List.replicate extra (ascii ' ') ++ head ++ body

/-- The padding loops a number goes through. -/
def padLoops (flags : FormatFlags) : ℕ := if flags.left then 1 else if flags.zeropad then 2 else 3

/-- The width that is left stays a `signed short`, through all of the loops. -/
def WidthFits (num : ℕ) (spec : PrintfSpec) : Prop :=
  -2 ^ 15 ≤ spec.fieldWidth.toInt - (headText num spec).length - (bodyText num spec).length
    - padLoops spec.flags

instance (num : ℕ) (spec : PrintfSpec) : Decidable (WidthFits num spec) :=
  inferInstanceAs (Decidable (_ ≤ _))

theorem length_digitText (base n : ℕ) (locase : UInt8) :
    (digitText base n locase).length = (numeral base n).length := by
  rw [digitText, List.length_reverse, List.length_map]

theorem length_bodyText (num : ℕ) (spec : PrintfSpec) :
    (bodyText num spec).length
      = max spec.precision.toInt.toNat (numeral spec.base (magnitude num spec)).length := by
  rw [bodyText, List.length_append, List.length_replicate, length_digitText]
  omega

/-- **The length of a field.** -/
theorem length_fieldText (num : ℕ) (spec : PrintfSpec) :
    (fieldText num spec).length = max spec.fieldWidth.toInt.toNat ((headText num spec).length +
      max spec.precision.toInt.toNat (numeral spec.base (magnitude num spec)).length) := by
  rw [← length_bodyText]
  unfold fieldText
  dsimp only
  split_ifs
  · rw [List.length_append, List.length_append, List.length_replicate]
    omega
  · rw [List.length_append, List.length_append, List.length_replicate]
    omega
  · rw [List.length_append, List.length_append, List.length_replicate]
    omega

/-! ## The loops -/

section Loops

variable {w : Int16}

/-- A width that is left becomes padding, and `-1` remains. -/
theorem down_of_nonneg (h : 0 ≤ w.toInt) :
    downCount 0 w = w.toInt.toNat ∧ (downLeft 0 w).toInt = -1 := by
  have hsub := toInt_sub_one (w := w) (by omega)
  unfold downCount downLeft
  rw [hsub]
  refine ⟨by omega, ?_⟩
  split_ifs with hgo
  · rfl
  · rw [hsub]
    omega

/-- Without a width there is no padding, but the width decreases. -/
theorem down_of_neg (h : w.toInt < 0) (hmin : -2 ^ 15 < w.toInt) :
    downCount 0 w = 0 ∧ (downLeft 0 w).toInt = w.toInt - 1 := by
  have hsub := toInt_sub_one hmin
  unfold downCount downLeft
  rw [hsub]
  refine ⟨by omega, ?_⟩
  rw [if_neg (by push_cast; omega), hsub]

/-- At the least value the width wraps around. -/
theorem downCount_of_min (h : w.toInt = -2 ^ 15) : downCount 0 w = 2 ^ 15 := by
  have hw : w = -2 ^ 15 := Int16.toInt_inj.mp h
  subst hw
  rfl

/-- All the padding. -/
def Padding.total (p : Padding) : ℕ := p.lead + p.middle + p.trail

/-- A width that is left is made up for once, where it belongs. -/
theorem padding_of_nonneg (flags : FormatFlags) (h : 0 ≤ w.toInt) :
    padding flags w = if flags.left then ⟨0, 0, w.toInt.toNat⟩
      else if flags.zeropad then ⟨0, w.toInt.toNat, 0⟩ else ⟨w.toInt.toNat, 0, 0⟩ := by
  obtain ⟨hcount, hleft⟩ := down_of_nonneg h
  obtain ⟨hcount', hleft'⟩ := down_of_neg (w := downLeft 0 w) (by omega) (by omega)
  obtain ⟨hcount'', -⟩ := down_of_neg (w := downLeft 0 (downLeft 0 w)) (by omega) (by omega)
  simp only [padding, hcount, hcount', hcount'']

/-- No width left, and room for the loops to decrement it: no padding. -/
theorem padding_of_neg (flags : FormatFlags) (h : w.toInt < 0)
    (hroom : -2 ^ 15 ≤ w.toInt - padLoops flags) : padding flags w = ⟨0, 0, 0⟩ := by
  unfold padLoops at hroom
  unfold padding
  cases hl : flags.left with
  | true =>
    simp only [hl, if_true] at hroom ⊢
    rw [(down_of_neg h (by push_cast at hroom; omega)).1]
  | false =>
    cases hz : flags.zeropad with
    | true =>
      simp only [hl, hz, Bool.false_eq_true, if_true, if_false] at hroom ⊢
      push_cast at hroom
      obtain ⟨hcount, hleft⟩ := down_of_neg h (by omega)
      obtain ⟨hcount', -⟩ := down_of_neg (w := downLeft 0 w) (by omega) (by omega)
      rw [hcount, hcount']
    | false =>
      simp only [hl, hz, Bool.false_eq_true, if_false] at hroom ⊢
      push_cast at hroom
      obtain ⟨hcount, hleft⟩ := down_of_neg h (by omega)
      obtain ⟨hcount', hleft'⟩ := down_of_neg (w := downLeft 0 w) (by omega) (by omega)
      obtain ⟨hcount'', -⟩ := down_of_neg (w := downLeft 0 (downLeft 0 w)) (by omega) (by omega)
      rw [hcount, hcount', hcount'']

/-- No width left and no room: one of the loops starts over at the top. -/
theorem padding_of_wrap (flags : FormatFlags) (h : w.toInt < 0)
    (hroom : w.toInt - padLoops flags < -2 ^ 15) : 0 < (padding flags w).total := by
  have hmin := w.le_toInt
  unfold padLoops at hroom
  unfold padding Padding.total
  rcases hmin.eq_or_lt with heq | hlt
  · -- the first loop wraps
    have hcount := downCount_of_min heq.symm
    split_ifs <;> dsimp only <;> omega
  · obtain ⟨-, hleft⟩ := down_of_neg h hlt
    cases hl : flags.left with
    | true =>
      simp only [hl, if_true] at hroom
      push_cast at hroom
      omega
    | false =>
      cases hz : flags.zeropad with
      | true =>
        simp only [hl, hz, Bool.false_eq_true, if_true, if_false] at hroom ⊢
        push_cast at hroom
        have hcount := downCount_of_min (w := downLeft 0 w) (by omega)
        omega
      | false =>
        simp only [hl, hz, Bool.false_eq_true, if_false] at hroom ⊢
        push_cast at hroom
        rcases (downLeft 0 w).le_toInt.eq_or_lt with heq' | hlt'
        · have hcount := downCount_of_min heq'.symm
          omega
        · obtain ⟨-, hleft'⟩ := down_of_neg (w := downLeft 0 w) (by omega) hlt'
          have hcount := downCount_of_min (w := downLeft 0 (downLeft 0 w)) (by omega)
          omega

end Loops

/-! ## The width that is left -/

section Width

variable {num : ℕ} {spec : PrintfSpec}

/-- The sign, as `number` takes it out of the number and of the width. -/
theorem numberSign_cases (spec : PrintfSpec) (hn : num < 2 ^ 64) (hw : -1 ≤ spec.fieldWidth.toInt) :
    ∃ sign width, numberSign num spec = (sign, magnitude num spec, width) ∧
      (if sign ≠ 0 then [sign] else []) = signText num spec ∧
      width.toInt = spec.fieldWidth.toInt - (signText num spec).length ∧
      (signText num spec).length ≤ 1 := by
  have hsub := toInt_sub_one (w := spec.fieldWidth) (by omega)
  unfold numberSign signText magnitude
  by_cases hs : spec.flags.sign = true
  · by_cases hneg : 2 ^ 63 ≤ num
    · have habs : sub64 0 num = 2 ^ 64 - num := by
        rw [sub64]
        omega
      simp only [hs, hneg, true_and, if_true, habs]
      exact ⟨_, _, rfl, rfl, hsub, le_rfl⟩
    · simp only [hs, hneg, true_and, if_true, if_false]
      by_cases hp : spec.flags.plus = true
      · simp only [hp, if_true]
        exact ⟨_, _, rfl, rfl, hsub, le_rfl⟩
      · by_cases hsp : spec.flags.space = true
        · simp only [hp, hsp, if_true, Bool.false_eq_true, if_false]
          exact ⟨_, _, rfl, rfl, hsub, le_rfl⟩
        · simp only [hp, hsp, Bool.false_eq_true, if_false]
          exact ⟨_, _, rfl, rfl, (sub_zero _).symm, Nat.zero_le _⟩
  · simp only [hs, Bool.false_eq_true, false_and, if_false]
    exact ⟨_, _, rfl, rfl, (sub_zero _).symm, Nat.zero_le _⟩

/-- The prefix, out of the width. -/
theorem prefixWidth_toInt (spec : PrintfSpec) (n : ℕ) (width : Int16) (hw : -2 ≤ width.toInt) :
    (prefixWidth spec n width).toInt = width.toInt - (prefixText spec n).length ∧
      (prefixText spec n).length ≤ 2 := by
  have hlt := width.toInt_lt
  have hsub := toInt_sub_one (w := width) (by omega)
  have hsub₂ : (width - 2).toInt = width.toInt - 2 := by
    rw [Int16.toInt_sub, show (2 : Int16).toInt = 2 from rfl, Int.bmod_def]
    omega
  unfold prefixWidth prefixText
  split_ifs
  · exact ⟨hsub₂, le_rfl⟩
  · exact ⟨hsub, by simp⟩
  · exact ⟨(sub_zero _).symm, Nat.zero_le _⟩
  · exact ⟨(sub_zero _).symm, Nat.zero_le _⟩

/-- The precision, raised to the digits. -/
theorem digitCount_toInt (hb : IsBase spec.base) {n : ℕ} (hn : n < 2 ^ 64) :
    (spec.digitCount n).toInt
      = max spec.precision.toInt.toNat (numeral spec.base n).length := by
  have hlen := numeral_length_le_of_isBase hb hn
  have hpos : 0 < (numeral spec.base n).length := List.length_pos_iff.mpr (numeral_ne_nil _ _)
  unfold PrintfSpec.digitCount
  split_ifs with hgt
  · rw [Int16.toInt_ofNat_of_lt (by omega)]
    omega
  · omega

/-- The zeros in front of the digits. -/
theorem downCount_digitCount (hb : IsBase spec.base) {n : ℕ} (hn : n < 2 ^ 64) :
    downCount (numeral spec.base n).length (spec.digitCount n)
      = spec.precision.toInt.toNat - (numeral spec.base n).length := by
  have hcount := digitCount_toInt hb hn
  rw [downCount, toInt_sub_one (by omega), hcount]
  omega

theorem magnitude_lt (spec : PrintfSpec) (hn : num < 2 ^ 64) : magnitude num spec < 2 ^ 64 := by
  unfold magnitude
  split_ifs <;> omega

/-- **The text of a number** is that of the field, with the padding that the loops make. -/
theorem numberText_eq (hn : num < 2 ^ 64) (hb : IsBase spec.base)
    (hw : -1 ≤ spec.fieldWidth.toInt) :
    ∃ w : Int16, w.toInt = Int.bmod (spec.fieldWidth.toInt - (headText num spec).length
        - (bodyText num spec).length) (2 ^ 16) ∧
      numberText num spec =
        List.replicate (padding spec.flags w).lead (ascii ' ') ++ headText num spec ++
          List.replicate (padding spec.flags w).middle
            (if spec.flags.zeropad then ascii '0' else ascii ' ') ++ bodyText num spec ++
          List.replicate (padding spec.flags w).trail (ascii ' ') := by
  obtain ⟨sign, width, hsign, htext, hwidth, hle⟩ := numberSign_cases spec hn hw
  have hmag := magnitude_lt spec hn
  obtain ⟨hpfx, -⟩ := prefixWidth_toInt spec (magnitude num spec) width (by omega)
  refine ⟨prefixWidth spec (magnitude num spec) width - spec.digitCount (magnitude num spec), ?_, ?_⟩
  · rw [Int16.toInt_sub, hpfx, digitCount_toInt hb hmag, ← length_bodyText, hwidth, headText,
      List.length_append]
    congr 1
    push_cast
    omega
  · unfold numberText
    rw [hsign]
    dsimp only
    rw [htext, downCount_digitCount hb hmag, headText, bodyText, length_digitText]
    simp only [List.append_assoc]

/-- As long as the width fits, the text is the field. -/
theorem numberText_of_widthFits (hn : num < 2 ^ 64) (hb : IsBase spec.base)
    (hw : -1 ≤ spec.fieldWidth.toInt) (hfits : WidthFits num spec) :
    numberText num spec = fieldText num spec := by
  obtain ⟨w, hwidth, htext⟩ := numberText_eq hn hb hw
  have hlt := spec.fieldWidth.toInt_lt
  unfold WidthFits at hfits
  have hloops : 1 ≤ padLoops spec.flags := by
    unfold padLoops
    split_ifs <;> omega
  obtain ⟨len, hlen⟩ : ∃ len, (headText num spec).length + (bodyText num spec).length = len :=
    ⟨_, rfl⟩
  have hw' : w.toInt = spec.fieldWidth.toInt - len := by
    rw [hwidth, Int.bmod_def]
    omega
  rw [htext, fieldText, hlen]
  by_cases hneg : w.toInt < 0
  · rw [padding_of_neg spec.flags hneg (by omega)]
    have hextra : spec.fieldWidth.toInt.toNat - len = 0 := by omega
    simp only [hextra, List.replicate_zero, List.append_nil, List.nil_append, ite_self]
  · rw [padding_of_nonneg spec.flags (not_lt.mp hneg)]
    have hextra : w.toInt.toNat = spec.fieldWidth.toInt.toNat - len := by omega
    rw [hextra]
    cases hl : spec.flags.left with
    | true => simp
    | false =>
      cases hz : spec.flags.zeropad with
      | true => simp
      | false => simp

theorem length_headText_le (hn : num < 2 ^ 64) (hw : -1 ≤ spec.fieldWidth.toInt) :
    (headText num spec).length ≤ 3 := by
  obtain ⟨sign, width, -, -, hwidth, hle⟩ := numberSign_cases spec hn hw
  obtain ⟨-, hpfx⟩ := prefixWidth_toInt spec (magnitude num spec) width (by omega)
  rw [headText, List.length_append]
  omega

theorem length_bodyText_lt (hn : num < 2 ^ 64) (hb : IsBase spec.base) :
    (bodyText num spec).length < 2 ^ 15 := by
  have hlt := spec.precision.toInt_lt
  have hlen := numeral_length_le_of_isBase hb (magnitude_lt spec hn)
  rw [length_bodyText]
  omega

theorem padding_total_le (flags : FormatFlags) (w : Int16) : (padding flags w).total ≤ 3 * 2 ^ 15 := by
  have hle : ∀ w : Int16, downCount 0 w ≤ 2 ^ 15 := by
    intro w
    have hlt := (w - 1).toInt_lt
    rw [downCount]
    omega
  have h₁ := hle w
  have h₂ := hle (downLeft 0 w)
  have h₃ := hle (downLeft 0 (downLeft 0 w))
  unfold padding Padding.total
  split_ifs <;> dsimp only <;> omega

/-- Where it does not, there is more padding than there should be. -/
theorem length_numberText_of_not_widthFits (hn : num < 2 ^ 64) (hb : IsBase spec.base)
    (hw : -1 ≤ spec.fieldWidth.toInt) (hfits : ¬WidthFits num spec) :
    (fieldText num spec).length < (numberText num spec).length ∧
      (numberText num spec).length < 2 ^ 18 := by
  obtain ⟨w, hwidth, htext⟩ := numberText_eq hn hb hw
  have hhead := length_headText_le hn hw
  have hbody := length_bodyText_lt hn hb
  have htotal := padding_total_le spec.flags w
  have hlen : (numberText num spec).length = (headText num spec).length + (bodyText num spec).length
      + (padding spec.flags w).total := by
    rw [htext, Padding.total]
    simp only [List.length_append, List.length_replicate]
    omega
  rw [length_fieldText, ← length_bodyText, hlen]
  unfold WidthFits at hfits
  have hloops : padLoops spec.flags ≤ 3 := by
    unfold padLoops
    split_ifs <;> omega
  obtain ⟨left, hleft⟩ : ∃ left : ℤ, spec.fieldWidth.toInt - (headText num spec).length
      - (bodyText num spec).length = left := ⟨_, rfl⟩
  rw [hleft] at hfits hwidth
  have hpos : 0 < (padding spec.flags w).total := by
    by_cases hmin : left < -2 ^ 15
    · -- the width has wrapped around before the first loop
      have hw' : w.toInt = left + 2 ^ 16 := by
        rw [hwidth, Int.bmod_def]
        omega
      rw [padding_of_nonneg spec.flags (by omega)]
      unfold Padding.total
      split_ifs <;> dsimp only <;> omega
    · have hw' : w.toInt = left := by
        rw [hwidth, Int.bmod_def]
        omega
      exact padding_of_wrap spec.flags (by omega) (by omega)
  omega

end Width

/-- **`number` lays out its field**: it writes `fieldText`, whose length is that of the width or of the
text, whichever is more. -/
def LaysOut (stop : ℕ) (k : Out) (num : ℕ) (spec : PrintfSpec) : Prop :=
  number stop k num spec = .ok (Out.puts stop k (fieldText num spec)) ∧
    ((fieldText num spec).length : ℤ) = max spec.fieldWidth.toInt ((headText num spec).length +
      max spec.precision.toInt (numeral spec.base (magnitude num spec)).length)

section Layout

variable {num : ℕ} {spec : PrintfSpec}

theorem laysOut_of_widthFits (stop : ℕ) (k : Out) (hn : num < 2 ^ 64) (hb : IsBase spec.base)
    (hw : -1 ≤ spec.fieldWidth.toInt) (hfits : WidthFits num spec) : LaysOut stop k num spec := by
  have hlen := length_fieldText num spec
  have hpos : 0 < (numeral spec.base (magnitude num spec)).length :=
    List.length_pos_iff.mpr (numeral_ne_nil _ _)
  refine ⟨?_, by omega⟩
  rw [number_eq stop k hn hb, numberText_of_widthFits hn hb hw hfits]

theorem widthFits_of_laysOut (stop : ℕ) (k : Out) (hn : num < 2 ^ 64) (hb : IsBase spec.base)
    (hw : -1 ≤ spec.fieldWidth.toInt) (h : LaysOut stop k num spec) : WidthFits num spec := by
  by_contra hfits
  obtain ⟨hlt, hlen⟩ := length_numberText_of_not_widthFits hn hb hw hfits
  have heq := h.1
  rw [number_eq stop k hn hb] at heq
  -- the cursor tells the two texts apart
  have hpos : (Out.puts stop k (numberText num spec)).pos % 2 ^ 32
      = (Out.puts stop k (fieldText num spec)).pos % 2 ^ 32 := by rw [Except.ok.inj heq]
  rw [Sink.puts_pos_mod, Sink.puts_pos_mod] at hpos
  omega

/-- The field is right if and only if the width that is left fits a `signed short`. -/
theorem number_layout_iff (stop : ℕ) (k : Out) (hn : num < 2 ^ 64) (hb : IsBase spec.base)
    (hw : -1 ≤ spec.fieldWidth.toInt) : LaysOut stop k num spec ↔ WidthFits num spec :=
  ⟨widthFits_of_laysOut stop k hn hb hw, laysOut_of_widthFits stop k hn hb hw⟩

end Layout

/-- `%#8x`. -/
def sampleSpec : PrintfSpec := ⟨.uint, { special := true, small := true }, 16, 0, 8, -1⟩

/-- `255` in a buffer of sixteen bytes. -/
theorem number_layout_iff_sample : fieldText 255 sampleSpec = "    0xff".toList.map ascii ∧
    LaysOut 0x1010 ⟨0x1000, fun _ => 0⟩ 255 sampleSpec :=
  ⟨by decide, (number_layout_iff 0x1010 ⟨0x1000, fun _ => 0⟩ (by decide) (Or.inr (Or.inr rfl))
    (by decide)).mpr (by decide)⟩

/-- `%.32767u`: with the precision taken off, the width is at its least value, and the first padding
loop wraps around. -/
theorem number_layout_wraps : ¬∀ (stop : ℕ) (k : Out) (num : ℕ) (spec : PrintfSpec), num < 2 ^ 64 →
    IsBase spec.base → -1 ≤ spec.fieldWidth.toInt → -1 ≤ spec.precision.toInt →
    LaysOut stop k num spec := by
  intro hall
  have h := hall 0 ⟨0, fun _ => 0⟩ 1 ⟨.uint, {}, 10, 0, -1, 32767⟩ (by decide) (Or.inr (Or.inl rfl))
    (by decide) (by decide)
  have hfits := widthFits_of_laysOut 0 ⟨0, fun _ => 0⟩ (by decide) (Or.inr (Or.inl rfl)) (by decide) h
  unfold WidthFits at hfits
  rw [length_bodyText] at hfits
  exact absurd hfits (by decide)

end Sandix
