import Sandix.Lib.Ctype
import Sandix.Machinery.Exec
import Sandix.Machinery.Word

/-!
# Lib/Format — decoding a format

`format_decode` and `skip_atoi` of `lib/vsprintf.c`.  Each call decodes one token: a run of text, or a
conversion with its flags, width, precision and modifier.  A `*` ends a call early, and the type it
leaves in the specification makes the next call go on where this one stopped.

A format is read through `FormatString.read`, which faults past the terminating NUL.  The theorems say
that it never does: every position the decoder reaches lies at or before the NUL, because it moves on
only from a character that is not the NUL (`formatDecode_returns`).
-/

namespace Sandix

open Machinery

/-- A string as C has it: the bytes before its NUL.  No object has more than `INT_MAX` bytes. -/
structure FormatString where
  bytes : List UInt8
  nonzero : ∀ b ∈ bytes, b ≠ 0
  short : bytes.length < 2 ^ 31

namespace FormatString

/-- The check on a literal. -/
theorem nonzero_of_all {bytes : List UInt8} (h : bytes.all (· != 0) = true) :
    ∀ b ∈ bytes, b ≠ 0 := by
  intro b hb
  exact bne_iff_ne.mp (List.all_eq_true.mp h b hb)

/-- The position of the NUL. -/
def length (f : FormatString) : ℕ := f.bytes.length

/-- `fmt[p]`. -/
def read (f : FormatString) (p : ℕ) : Exec UInt8 :=
  if h : p < f.bytes.length then .ok (f.bytes.get ⟨p, h⟩)
  else if p = f.bytes.length then .ok 0
  else .error .fault

end FormatString

/-- `enum format_type`. -/
inductive FormatType
  | none
  | width
  | precision
  | char
  | str
  | ptr
  | percentChar
  | invalid
  | longLong
  | ulong
  | long
  | ubyte
  | byte
  | ushort
  | short
  | uint
  | int
  | sizeT
  | ptrdiff
deriving DecidableEq, Repr

/-- The bits of `flags`. -/
structure FormatFlags where
  sign : Bool := false
  left : Bool := false
  plus : Bool := false
  space : Bool := false
  zeropad : Bool := false
  small : Bool := false
  special : Bool := false
deriving DecidableEq, Repr

/-- `struct printf_spec`. -/
structure PrintfSpec where
  type : FormatType
  flags : FormatFlags
  base : ℕ
  modifier : UInt8
  fieldWidth : Int16
  precision : Int16
deriving DecidableEq, Repr

section Decode

variable (f : FormatString)

/-- One round of `skip_atoi`. -/
def skipAtoiStep (s : ℕ × ℤ) : Exec ((ℕ × ℤ) ⊕ (ℕ × ℤ)) := do
  let c ← f.read s.1
  let i := int32 (u32 (s.2 * 10 + c.toNat - (ascii '0').toNat))
  if isdigit (← f.read (s.1 + 1)) then pure (.inl (s.1 + 1, i)) else pure (.inr (s.1 + 1, i))

/-- `skip_atoi`: the position after the digits, and the number. -/
def skipAtoi (p : ℕ) : Exec (ℕ × ℤ) := Exec.loop (skipAtoiStep f) (f.length + 1) (p, 0)

/-- One round of the scan for a `%`. -/
def textStep (p : ℕ) : Exec (ℕ ⊕ ℕ) := do
  let c ← f.read p
  if c = 0 then pure (.inr p)
  else if c = ascii '%' then pure (.inr p)
  else pure (.inl (p + 1))

/-- One round of the loop over the flags. -/
def flagsStep (s : ℕ × FormatFlags) : Exec ((ℕ × FormatFlags) ⊕ (ℕ × FormatFlags)) := do
  let p := s.1 + 1
  let c ← f.read p
  if c = ascii '-' then pure (.inl (p, { s.2 with left := true }))
  else if c = ascii '+' then pure (.inl (p, { s.2 with plus := true }))
  else if c = ascii ' ' then pure (.inl (p, { s.2 with space := true }))
  else if c = ascii '#' then pure (.inl (p, { s.2 with special := true }))
  else if c = ascii '0' then pure (.inl (p, { s.2 with zeropad := true }))
  else pure (.inr (p, s.2))

/-- The final type of an integer conversion. -/
def PrintfSpec.integerType (spec : PrintfSpec) : FormatType :=
  if spec.modifier = ascii 'L' then .longLong
  else if spec.modifier = ascii 'l' then if spec.flags.sign then .long else .ulong
  else if fastTolower spec.modifier = ascii 'z' then .sizeT
  else if spec.modifier = ascii 't' then .ptrdiff
  else if spec.modifier = ascii 'H' then if spec.flags.sign then .byte else .ubyte
  else if spec.modifier = ascii 'h' then if spec.flags.sign then .short else .ushort
  else if spec.flags.sign then .int else .uint

/-- An integer conversion in base `base`, once the modifier is known. -/
def PrintfSpec.integer (spec : PrintfSpec) (base : ℕ) (flags : FormatFlags) : PrintfSpec :=
  let spec := { spec with base, flags }
  { spec with type := spec.integerType }

/-- The conversion specifier at `p`. -/
def decodeConversion (p : ℕ) (spec : PrintfSpec) : Exec (ℕ × PrintfSpec) := do
  let spec := { spec with base := 10 }
  let c ← f.read p
  if c = ascii 'c' then pure (p + 1, { spec with type := .char })
  else if c = ascii 's' then pure (p + 1, { spec with type := .str })
  else if c = ascii 'p' then pure (p + 1, { spec with type := .ptr })
  else if c = ascii '%' then pure (p + 1, { spec with type := .percentChar })
  else if c = ascii 'd' ∨ c = ascii 'i' then
    pure (p + 1, spec.integer 10 { spec.flags with sign := true })
  else if c = ascii 'u' then pure (p + 1, spec.integer 10 spec.flags)
  else if c = ascii 'x' then pure (p + 1, spec.integer 16 { spec.flags with small := true })
  else if c = ascii 'X' then pure (p + 1, spec.integer 16 spec.flags)
  else if c = ascii 'o' then pure (p + 1, spec.integer 8 spec.flags)
  else pure (p, { spec with type := .invalid })

/-- The modifier at `p`, and the position after it; a doubled `l` or `h` is `L` or `H`. -/
def decodeModifierAt (p : ℕ) : Exec (ℕ × UInt8) := do
  let c ← f.read p
  if c = ascii 'h' ∨ fastTolower c = ascii 'l' ∨ fastTolower c = ascii 'z' ∨ c = ascii 't' then
    if (← f.read (p + 1)) = c then
      if c = ascii 'l' then pure (p + 2, ascii 'L')
      else if c = ascii 'h' then pure (p + 2, ascii 'H')
      else pure (p + 1, c)
    else pure (p + 1, c)
  else pure (p, 0xff)

/-- From the label `modifier`. -/
def decodeModifier (p : ℕ) (spec : PrintfSpec) : Exec (ℕ × PrintfSpec) := do
  let (p, modifier) ← decodeModifierAt f p
  decodeConversion f p { spec with modifier }

/-- From the label `precision`. -/
def decodePrecision (p : ℕ) (spec : PrintfSpec) : Exec (ℕ × PrintfSpec) := do
  let spec := { spec with precision := -1 }
  if (← f.read p) = ascii '.' then
    let c ← f.read (p + 1)
    if isdigit c then
      let (p, i) ← skipAtoi f (p + 1)
      let precision := Int16.ofInt i
      decodeModifier f p { spec with precision := if precision < 0 then 0 else precision }
    else if c = ascii '*' then pure (p + 2, { spec with type := .precision })
    else decodeModifier f (p + 1) spec
  else decodeModifier f p spec

/-- The width after the flags. -/
def decodeWidth (p : ℕ) (spec : PrintfSpec) : Exec (ℕ × PrintfSpec) := do
  let spec := { spec with fieldWidth := -1 }
  let c ← f.read p
  if isdigit c then
    let (p, i) ← skipAtoi f p
    decodePrecision f p { spec with fieldWidth := Int16.ofInt i }
  else if c = ascii '*' then pure (p + 1, { spec with type := .width })
  else decodePrecision f p spec

/-- A token from its beginning. -/
def decodeToken (start : ℕ) (spec : PrintfSpec) : Exec (ℕ × PrintfSpec) := do
  let spec := { spec with type := .none }
  let p ← Exec.loop (textStep f) (f.length + 1) start
  if p ≠ start ∨ (← f.read p) = 0 then pure (p, spec)
  else
    let (p, flags) ← Exec.loop (flagsStep f) (f.length + 1) (p, {})
    decodeWidth f p { spec with flags }

/-- `format_decode`: the count of characters read, and the specification. -/
def formatDecode (start : ℕ) (spec : PrintfSpec) : Exec (ℕ × PrintfSpec) := do
  let (p, spec) ←
    match spec.type with
    | .width =>
      decodePrecision f start <|
        if spec.fieldWidth < 0 then
          { spec with
            type := .none
            fieldWidth := -spec.fieldWidth
            flags := { spec.flags with left := true } }
        else { spec with type := .none }
    | .precision =>
      decodeModifier f start
        { spec with type := .none, precision := if spec.precision < 0 then 0 else spec.precision }
    | _ => decodeToken f start spec
  pure (p - start, spec)

end Decode

/-! ## Staying before the NUL -/

namespace FormatString

variable {f : FormatString} {p : ℕ}

/-- Up to the NUL a read returns, and before it something other than the NUL. -/
theorem read_returns (hp : p ≤ f.length) :
    (f.read p).Returns fun c => c ≠ 0 ↔ p < f.length := by
  unfold length at *
  unfold read
  rcases Nat.lt_or_eq_of_le hp with h | h
  · rw [dif_pos h]
    exact .ok ⟨fun _ => h, fun _ => f.nonzero _ (List.get_mem _ _)⟩
  · rw [dif_neg (not_lt.mpr h.ge), if_pos h]
    exact .ok ⟨fun h => absurd rfl h, fun h' => absurd h h'.ne⟩

end FormatString

/-- An integer conversion. -/
def FormatType.isInteger : FormatType → Bool
  | .longLong | .ulong | .long | .ubyte | .byte | .ushort | .short | .uint | .int | .sizeT
  | .ptrdiff => true
  | _ => false

/-- What the decoder returns from `p`: a position at or before the NUL, after `p` unless the conversion
is invalid, and a base `number` knows. -/
structure Decoded (f : FormatString) (p : ℕ) (r : ℕ × PrintfSpec) : Prop where
  le : p ≤ r.1
  le_length : r.1 ≤ f.length
  progress : r.1 = p → r.2.type = .invalid
  base : r.2.type.isInteger → r.2.base = 8 ∨ r.2.base = 10 ∨ r.2.base = 16

section Spec

variable {f : FormatString} {p : ℕ} {spec : PrintfSpec}

/-- The digits of a number end before or at the NUL. -/
theorem skipAtoi_returns (hp : p < f.length) :
    (skipAtoi f p).Returns fun r => p < r.1 ∧ r.1 ≤ f.length := by
  refine Exec.loop_spec (skipAtoiStep f) (fun k s => p ≤ s.1 ∧ s.1 < f.length ∧ f.length - s.1 = k)
    (fun r => p < r.1 ∧ r.1 ≤ f.length) ?_ (k := f.length - p) ⟨le_rfl, hp, rfl⟩ (by omega)
  rintro k ⟨q, i⟩ ⟨hpq, hq, rfl⟩
  obtain ⟨c, hc, -⟩ := FormatString.read_returns (f := f) (p := q) hq.le
  obtain ⟨d, hd, hd'⟩ := FormatString.read_returns (f := f) (p := q + 1) hq
  dsimp only at hpq hq ⊢
  rw [skipAtoiStep, hc, Exec.ok_bind, hd, Exec.ok_bind]
  by_cases hdigit : isdigit d = true
  · have hne : d ≠ 0 := by
      rintro rfl
      exact absurd hdigit (by decide)
    rw [if_pos hdigit]
    exact Or.inl ⟨_, _, rfl, by omega, by omega, hd'.mp hne, rfl⟩
  · rw [if_neg hdigit]
    exact Or.inr ⟨_, rfl, by omega, hq⟩

/-- The scan for a `%` stops at one, or at the NUL. -/
theorem text_returns (hp : p ≤ f.length) :
    (Exec.loop (textStep f) (f.length + 1) p).Returns fun q => p ≤ q ∧ q ≤ f.length ∧
      (q < f.length → f.read q = .ok (ascii '%')) := by
  refine Exec.loop_spec (textStep f) (fun k q => p ≤ q ∧ q ≤ f.length ∧ f.length - q = k)
    (fun q => p ≤ q ∧ q ≤ f.length ∧ (q < f.length → f.read q = .ok (ascii '%'))) ?_
    (k := f.length - p) ⟨le_rfl, hp, rfl⟩ (by omega)
  rintro k q ⟨hpq, hq, rfl⟩
  obtain ⟨c, hc, hc'⟩ := FormatString.read_returns hq
  rw [textStep, hc, Exec.ok_bind]
  by_cases h₀ : c = 0
  · rw [if_pos h₀]
    exact Or.inr ⟨q, rfl, hpq, hq, fun hlt => absurd h₀ (hc'.mpr hlt)⟩
  · have hlt := hc'.mp h₀
    rw [if_neg h₀]
    by_cases hpct : c = ascii '%'
    · rw [if_pos hpct]
      exact Or.inr ⟨q, rfl, hpq, hq, fun _ => hc.trans (congrArg Except.ok hpct)⟩
    · rw [if_neg hpct]
      exact Or.inl ⟨_, _, rfl, by omega, by omega, hlt, rfl⟩

/-- The flags end before or at the NUL. -/
theorem flags_returns (hp : p < f.length) (flags : FormatFlags) :
    (Exec.loop (flagsStep f) (f.length + 1) (p, flags)).Returns
      fun r => p < r.1 ∧ r.1 ≤ f.length := by
  refine Exec.loop_spec (flagsStep f) (fun k s => p ≤ s.1 ∧ s.1 < f.length ∧ f.length - s.1 = k)
    (fun r => p < r.1 ∧ r.1 ≤ f.length) ?_ (k := f.length - p) ⟨le_rfl, hp, rfl⟩ (by omega)
  rintro k ⟨q, flags⟩ ⟨hpq, hq, rfl⟩
  obtain ⟨c, hc, hc'⟩ := FormatString.read_returns (f := f) (p := q + 1) hq
  dsimp only at hpq hq ⊢
  rw [flagsStep, hc, Exec.ok_bind]
  have hnext : ∀ x : Char, ascii x ≠ 0 → c = ascii x → q + 1 < f.length :=
    fun x hx h => hc'.mp (h ▸ hx)
  split_ifs with h₁ h₂ h₃ h₄ h₅
  · exact Or.inl ⟨_, _, rfl, by omega, by omega, hnext _ (by decide) h₁, rfl⟩
  · exact Or.inl ⟨_, _, rfl, by omega, by omega, hnext _ (by decide) h₂, rfl⟩
  · exact Or.inl ⟨_, _, rfl, by omega, by omega, hnext _ (by decide) h₃, rfl⟩
  · exact Or.inl ⟨_, _, rfl, by omega, by omega, hnext _ (by decide) h₄, rfl⟩
  · exact Or.inl ⟨_, _, rfl, by omega, by omega, hnext _ (by decide) h₅, rfl⟩
  · exact Or.inr ⟨_, rfl, by omega, hq⟩

/-- A conversion of one character. -/
theorem Decoded.next {spec' : PrintfSpec} (hp : p < f.length)
    (hbase : spec'.type.isInteger → spec'.base = 8 ∨ spec'.base = 10 ∨ spec'.base = 16) :
    Decoded f p (p + 1, spec') :=
  ⟨Nat.le_succ p, hp, fun h => absurd h (Nat.succ_ne_self p), hbase⟩

/-- The conversion specifier. -/
theorem decodeConversion_returns (hp : p ≤ f.length) (spec : PrintfSpec) :
    (decodeConversion f p spec).Returns (Decoded f p) := by
  obtain ⟨c, hc, hc'⟩ := FormatString.read_returns hp
  rw [decodeConversion, hc, Exec.ok_bind]
  have hlt : ∀ x : Char, ascii x ≠ 0 → c = ascii x → p < f.length := fun x hx h => hc'.mp (h ▸ hx)
  refine .ite (fun h => .ok (.next (hlt _ (by decide) h) nofun)) fun _ => ?_
  refine .ite (fun h => .ok (.next (hlt _ (by decide) h) nofun)) fun _ => ?_
  refine .ite (fun h => .ok (.next (hlt _ (by decide) h) nofun)) fun _ => ?_
  refine .ite (fun h => .ok (.next (hlt _ (by decide) h) nofun)) fun _ => ?_
  refine .ite (fun h => .ok (.next (h.elim (hlt _ (by decide)) (hlt _ (by decide)))
    fun _ => Or.inr (Or.inl rfl))) fun _ => ?_
  refine .ite (fun h => .ok (.next (hlt _ (by decide) h) fun _ => Or.inr (Or.inl rfl))) fun _ => ?_
  refine .ite (fun h => .ok (.next (hlt _ (by decide) h) fun _ => Or.inr (Or.inr rfl))) fun _ => ?_
  refine .ite (fun h => .ok (.next (hlt _ (by decide) h) fun _ => Or.inr (Or.inr rfl))) fun _ => ?_
  refine .ite (fun h => .ok (.next (hlt _ (by decide) h) fun _ => Or.inl rfl)) fun _ => ?_
  exact .ok ⟨le_rfl, hp, fun _ => rfl, nofun⟩

theorem Decoded.of_le {q : ℕ} {r : ℕ × PrintfSpec} (h : Decoded f q r) (hpq : p ≤ q) :
    Decoded f p r :=
  ⟨hpq.trans h.le, h.le_length, fun hr => h.progress (by have := h.le; omega), h.base⟩

theorem isdigit_ne_zero {c : UInt8} (h : isdigit c = true) : c ≠ 0 := by
  rintro rfl
  exact absurd h (by decide)

theorem fastTolower_ne_zero {c : UInt8} {x : Char} (h : fastTolower c = ascii x)
    (hx : fastTolower 0 ≠ ascii x) : c ≠ 0 := by
  rintro rfl
  exact hx h

/-- The modifier, which may be cut short by the NUL. -/
theorem decodeModifierAt_returns (hp : p ≤ f.length) :
    (decodeModifierAt f p).Returns fun r => p ≤ r.1 ∧ r.1 ≤ f.length := by
  obtain ⟨c, hc, hc'⟩ := FormatString.read_returns hp
  rw [decodeModifierAt, hc, Exec.ok_bind]
  refine .ite (fun h => ?_) fun _ => .ok ⟨le_rfl, hp⟩
  have hne : c ≠ 0 := by
    rcases h with rfl | h | h | rfl
    · decide
    · exact fastTolower_ne_zero h (by decide)
    · exact fastTolower_ne_zero h (by decide)
    · decide
  have hlt := hc'.mp hne
  obtain ⟨d, hd, hd'⟩ := FormatString.read_returns (f := f) (p := p + 1) hlt
  rw [hd, Exec.ok_bind]
  refine .ite (fun hdc => ?_) fun _ => .ok ⟨Nat.le_succ p, hlt⟩
  have hlt' : p + 1 < f.length := hd'.mp (hdc ▸ hne)
  refine .ite (fun _ => .ok ⟨Nat.le_add_right p 2, hlt'⟩) fun _ => ?_
  exact .ite (fun _ => .ok ⟨Nat.le_add_right p 2, hlt'⟩) fun _ => .ok ⟨Nat.le_succ p, hlt⟩

theorem decodeModifier_returns (hp : p ≤ f.length) (spec : PrintfSpec) :
    (decodeModifier f p spec).Returns (Decoded f p) := by
  refine (decodeModifierAt_returns hp).bind ?_
  rintro ⟨q, modifier⟩ ⟨hpq, hq⟩
  exact (decodeConversion_returns hq _).mono fun r hr => hr.of_le hpq

theorem decodePrecision_returns (hp : p ≤ f.length) (spec : PrintfSpec) :
    (decodePrecision f p spec).Returns (Decoded f p) := by
  obtain ⟨c, hc, hc'⟩ := FormatString.read_returns hp
  rw [decodePrecision, hc, Exec.ok_bind]
  refine .ite (fun h => ?_) fun _ => decodeModifier_returns hp _
  have hlt := hc'.mp (h ▸ by decide)
  obtain ⟨d, hd, hd'⟩ := FormatString.read_returns (f := f) (p := p + 1) hlt
  rw [hd, Exec.ok_bind]
  refine .ite (fun hdigit => ?_) fun _ => .ite (fun hstar => ?_) fun _ => ?_
  · refine (skipAtoi_returns (hd'.mp (isdigit_ne_zero hdigit))).bind ?_
    rintro ⟨q, i⟩ ⟨hpq, hq⟩
    exact (decodeModifier_returns hq _).mono fun r hr => hr.of_le (by dsimp only at hpq ⊢; omega)
  · have hlt' : p + 1 < f.length := hd'.mp (hstar ▸ by decide)
    exact .ok ⟨Nat.le_add_right p 2, hlt', fun h => absurd h (by simp), nofun⟩
  · exact (decodeModifier_returns hlt _).mono fun r hr => hr.of_le (Nat.le_succ p)

theorem decodeWidth_returns (hp : p ≤ f.length) (spec : PrintfSpec) :
    (decodeWidth f p spec).Returns (Decoded f p) := by
  obtain ⟨c, hc, hc'⟩ := FormatString.read_returns hp
  rw [decodeWidth, hc, Exec.ok_bind]
  refine .ite (fun hdigit => ?_) fun _ => .ite (fun hstar => ?_) fun _ =>
    decodePrecision_returns hp _
  · refine (skipAtoi_returns (hc'.mp (isdigit_ne_zero hdigit))).bind ?_
    rintro ⟨q, i⟩ ⟨hpq, hq⟩
    exact (decodePrecision_returns hq _).mono fun r hr => hr.of_le (le_of_lt hpq)
  · exact .ok (.next (hc'.mp (hstar ▸ by decide)) nofun)

/-- A token from its beginning takes at least one character. -/
theorem decodeToken_returns (hp : p < f.length) (spec : PrintfSpec) :
    (decodeToken f p spec).Returns fun r => Decoded f p r ∧ p < r.1 := by
  refine (text_returns hp.le).bind ?_
  rintro q ⟨hpq, hq, hpct⟩
  obtain ⟨c, hc, hc'⟩ := FormatString.read_returns hq
  rw [hc, Exec.ok_bind]
  refine .ite (fun hstop => ?_) fun hgo => ?_
  · have hlt : p < q := by
      rcases hstop with hne | h₀
      · omega
      · have := mt hc'.mpr (not_not.mpr h₀)
        omega
    exact .ok ⟨⟨hpq, hq, fun h => absurd h hlt.ne', nofun⟩, hlt⟩
  · rw [not_or, not_not] at hgo
    obtain ⟨rfl, hne⟩ := hgo
    refine (flags_returns (hc'.mp hne) {}).bind ?_
    rintro ⟨q', flags⟩ ⟨hlt, hq'⟩
    exact (decodeWidth_returns hq' _).mono fun r hr => ⟨hr.of_le (le_of_lt hlt), hlt.trans_le hr.le⟩

/-- The states in which a call goes on where the last one stopped. -/
def FormatType.resumes (t : FormatType) : Bool := t = .width ∨ t = .precision

/-- **`format_decode`** returns, ends at or before the NUL, and moves on, but for an invalid conversion
after a `*`. -/
theorem formatDecode_returns (hp : p < f.length) (spec : PrintfSpec) :
    (formatDecode f p spec).Returns fun r => p + r.1 ≤ f.length ∧
      (r.1 = 0 → spec.type.resumes ∧ r.2.type = .invalid) ∧
      (r.2.type.isInteger → r.2.base = 8 ∨ r.2.base = 10 ∨ r.2.base = 16) := by
  have hpos : ∀ r : ℕ × PrintfSpec, Decoded f p r → (spec.type.resumes ∨ p < r.1) →
      p + (r.1 - p) ≤ f.length ∧ (r.1 - p = 0 → spec.type.resumes ∧ r.2.type = .invalid) ∧
      (r.2.type.isInteger → r.2.base = 8 ∨ r.2.base = 10 ∨ r.2.base = 16) := by
    intro r hr hgo
    have hle := hr.le
    have hlen := hr.le_length
    refine ⟨by omega, fun h₀ => ⟨hgo.resolve_right (by omega), hr.progress (by omega)⟩, hr.base⟩
  rw [formatDecode]
  split
  · rename_i htype
    refine (decodePrecision_returns hp.le _).bind fun r hr => .ok (hpos r hr (Or.inl ?_))
    rw [htype]
    rfl
  · rename_i htype
    refine (decodeModifier_returns hp.le _).bind fun r hr => .ok (hpos r hr (Or.inl ?_))
    rw [htype]
    rfl
  · exact (decodeToken_returns hp _).bind fun r hr => .ok (hpos r hr.1 (Or.inr hr.2))

end Spec

end Sandix
