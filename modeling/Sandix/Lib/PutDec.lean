import Sandix.Machinery.Exec
import Sandix.Machinery.Numeral
import Sandix.Machinery.Word

/-!
# Lib/PutDec — decimal digits without a division

The decimal conversion of `lib/vsprintf.c`.  Digits come out least significant first, two at a time
through the table `decpair`; quotients are taken by multiplying with a reciprocal and shifting.  A store
outside the buffer, an index outside the table and a read before the buffer are faults.

The functions are written over an arithmetic: `Arith.machine` is that of the 32-bit machine, and
`Arith.checked` stops where a result wraps or a reciprocal misses the quotient.  Both do the same on
values that are in range (`Arith.checked_le_machine`), and `putDec_exact` stays in range: on 64 bits
`put_dec` returns, has written the digits of its argument, and has not left its 24 bytes.
-/

namespace Sandix

open Machinery

/-! ## Arithmetic -/

/-- The operations of the conversion on `unsigned int`; `wide m s d` and `narrow m s d` take the
quotient by `d` as a product with `m`, of 64 and of 32 bits, shifted by `s`. -/
structure Arith where
  add : ℕ → ℕ → Exec ℕ
  sub : ℕ → ℕ → Exec ℕ
  mul : ℕ → ℕ → Exec ℕ
  wide : (m s d : ℕ) → ℕ → Exec ℕ
  narrow : (m s d : ℕ) → ℕ → Exec ℕ

namespace Arith

/-- What the machine computes. -/
def machine : Arith where
  add a b := .ok ((a + b) % 2 ^ 32)
  sub a b := .ok (sub32 a b)
  mul a b := .ok (a * b % 2 ^ 32)
  wide m s _ x := .ok ((x * m % 2 ^ 64) >>> s % 2 ^ 32)
  narrow m s _ x := .ok ((x * m % 2 ^ 32) >>> s)

/-- The same, stopped by a wrapped result or a wrong quotient. -/
def checked : Arith where
  add a b := if a + b < 2 ^ 32 then .ok (a + b) else .error .bug
  sub a b := if a < 2 ^ 32 ∧ b ≤ a then .ok (a - b) else .error .bug
  mul a b := if a * b < 2 ^ 32 then .ok (a * b) else .error .bug
  wide m s d x :=
    if x * m < 2 ^ 64 ∧ x / d < 2 ^ 32 ∧ (x * m) >>> s = x / d then .ok (x / d) else .error .bug
  narrow m s d x :=
    if x * m < 2 ^ 32 ∧ (x * m) >>> s = x / d then .ok (x / d) else .error .bug

section Checked

variable {a b m s d x : ℕ}

theorem checked_add (h : a + b < 2 ^ 32) : checked.add a b = .ok (a + b) := if_pos h

theorem checked_sub (ha : a < 2 ^ 32) (h : b ≤ a) : checked.sub a b = .ok (a - b) := if_pos ⟨ha, h⟩

theorem checked_mul (h : a * b < 2 ^ 32) : checked.mul a b = .ok (a * b) := if_pos h

theorem checked_wide (h : x * m < 2 ^ 64) (hx : x / d < 2 ^ 32) (hq : (x * m) / 2 ^ s = x / d) :
    checked.wide m s d x = .ok (x / d) :=
  if_pos ⟨h, hx, by rw [Nat.shiftRight_eq_div_pow, hq]⟩

theorem checked_narrow (h : x * m < 2 ^ 32) (hq : (x * m) / 2 ^ s = x / d) :
    checked.narrow m s d x = .ok (x / d) :=
  if_pos ⟨h, by rw [Nat.shiftRight_eq_div_pow, hq]⟩

end Checked

/-- An arithmetic that does not stop where `ar` does not, and computes the same. -/
structure Le (ar ar' : Arith) : Prop where
  add : ∀ a b, Exec.Le (ar.add a b) (ar'.add a b)
  sub : ∀ a b, Exec.Le (ar.sub a b) (ar'.sub a b)
  mul : ∀ a b, Exec.Le (ar.mul a b) (ar'.mul a b)
  wide : ∀ m s d x, Exec.Le (ar.wide m s d x) (ar'.wide m s d x)
  narrow : ∀ m s d x, Exec.Le (ar.narrow m s d x) (ar'.narrow m s d x)

/-- The checks take nothing away from what the machine computes. -/
theorem checked_le_machine : Le checked machine where
  add a b := Exec.Le.check fun h => congrArg Except.ok (Nat.mod_eq_of_lt h)
  sub a b := Exec.Le.check fun h => congrArg Except.ok (sub32_of_le h.1 h.2)
  mul a b := Exec.Le.check fun h => congrArg Except.ok (Nat.mod_eq_of_lt h)
  wide m s d x := Exec.Le.check fun h => by
    refine congrArg Except.ok ?_
    rw [Nat.mod_eq_of_lt h.1, h.2.2, Nat.mod_eq_of_lt h.2.1]
  narrow m s d x := Exec.Le.check fun h => by
    refine congrArg Except.ok ?_
    rw [Nat.mod_eq_of_lt h.1, h.2]

end Arith

/-! ## The buffer and the table -/

/-- `buf[i] = c`. -/
def storeByte (buf : List UInt8) (i : ℕ) (c : UInt8) : Exec (List UInt8) :=
  if i < buf.length then .ok (buf.set i c) else .error .fault

/-- `*((u16 *)(buf + i)) = w`, the low byte first. -/
def storeU16 (buf : List UInt8) (i w : ℕ) : Exec (List UInt8) := do
  let buf ← storeByte buf i (UInt8.ofNat w)
  storeByte buf (i + 1) (UInt8.ofNat (w / 256))

/-- `decpair[x]`. -/
def decpair (x : ℕ) : Exec ℕ :=
  if x < 100 then .ok ((x % 10 ||| (x / 10) <<< 8) + 0x3030) else .error .fault

/-- `*((u16 *)(buf + i)) = decpair[x]`. -/
def storePair (buf : List UInt8) (i x : ℕ) : Exec (List UInt8) := do
  storeU16 buf i (← decpair x)

/-! ## The conversion -/

/-- `out_r`, in `put_dec_trunc8`: the last pair, of which a leading zero is not counted. -/
def putDecLast (buf : List UInt8) (i r : ℕ) : Exec (List UInt8 × ℕ) := do
  let buf ← storePair buf i r
  pure (buf, i + if r < 10 then 1 else 2)

section Conversion

variable (ar : Arith)

/-- `buf[i..] = decpair[x - 100*q]`. -/
def storeRest (buf : List UInt8) (i x q : ℕ) : Exec (List UInt8) := do
  storePair buf i (← ar.sub x (← ar.mul 100 q))

/-- `put_dec_trunc8`, on `buf + i`. -/
def putDecTrunc8 (buf : List UInt8) (i r : ℕ) : Exec (List UInt8 × ℕ) := do
  if r < 100 then putDecLast buf i r
  else
    let q ← ar.wide 0x28f5c29 32 100 r
    let buf ← storeRest ar buf i r q
    if q < 100 then putDecLast buf (i + 2) q
    else
      let r ← ar.wide 0x28f5c29 32 100 q
      let buf ← storeRest ar buf (i + 2) q r
      if r < 100 then putDecLast buf (i + 4) r
      else
        let q ← ar.narrow 0x147b 19 100 r
        let buf ← storeRest ar buf (i + 4) r q
        putDecLast buf (i + 6) q

/-- `put_dec_full4`, on `buf + i`. -/
def putDecFull4 (buf : List UInt8) (i r : ℕ) : Exec (List UInt8) := do
  let q ← ar.narrow 0x147b 19 100 r
  let buf ← storeRest ar buf i r q
  storePair buf (i + 2) q

/-- `put_dec_helper4`, on `buf + i`. -/
def putDecHelper4 (buf : List UInt8) (i x : ℕ) : Exec (List UInt8 × ℕ) := do
  let q ← ar.wide 0x346DC5D7 43 10000 x
  let buf ← putDecFull4 ar buf i (← ar.sub x (← ar.mul q 10000))
  pure (buf, q)

/-- `while (buf[-1] == '0') --buf`, from `buf + i`. -/
def stripZeros (buf : List UInt8) : ℕ → Exec ℕ
  | 0 => .error .fault
  | i + 1 => if buf[i]? = some 0x30 then stripZeros buf i else .ok (i + 1)

/-- `put_dec`: the buffer, and the count of digits. -/
def putDec (buf : List UInt8) (n : ℕ) : Exec (List UInt8 × ℕ) := do
  if n < 100 * 1000 * 1000 then putDecTrunc8 ar buf 0 n
  else
    let d1 := (n % 2 ^ 32) >>> 16
    let h := n >>> 32
    let d2 := h &&& 0xffff
    let d3 := h >>> 16
    let q ← ar.add (← ar.add (← ar.add (← ar.mul 656 d3) (← ar.mul 7296 d2)) (← ar.mul 5536 d1))
      (n % 2 ^ 32 &&& 0xffff)
    let (buf, q) ← putDecHelper4 ar buf 0 q
    let q ← ar.add q
      (← ar.add (← ar.add (← ar.mul 7671 d3) (← ar.mul 9496 d2)) (← ar.mul 6 d1))
    let (buf, q) ← putDecHelper4 ar buf 4 q
    let q ← ar.add q (← ar.add (← ar.mul 4749 d3) (← ar.mul 42 d2))
    let (buf, q) ← putDecHelper4 ar buf 8 q
    let q ← ar.add q (← ar.mul 281 d3)
    if q ≠ 0 then putDecTrunc8 ar buf 12 q
    else do
      let i ← stripZeros buf 12
      pure (buf, i)

end Conversion

/-! ## What is written -/

/-- The character of a decimal digit. -/
def decChar (d : ℕ) : UInt8 := UInt8.ofNat (0x30 + d)

/-- The digits `ds` have been written from `i` on, and what is before them is as it was. -/
structure Wrote (buf : List UInt8) (i : ℕ) (ds : List ℕ) (buf' : List UInt8) : Prop where
  room : i + ds.length ≤ buf.length
  length_eq : buf'.length = buf.length
  take_eq : buf'.take (i + ds.length) = buf.take i ++ ds.map decChar
  digits : ∀ d ∈ ds, d < 10

namespace Wrote

variable {buf buf' buf'' : List UInt8} {i : ℕ} {ds es : List ℕ}

theorem trans (h : Wrote buf i ds buf') (h' : Wrote buf' (i + ds.length) es buf'') :
    Wrote buf i (ds ++ es) buf'' where
  room := by
    have := h'.room
    rw [h.length_eq] at this
    rwa [List.length_append, ← Nat.add_assoc]
  length_eq := h'.length_eq.trans h.length_eq
  take_eq := by
    rw [List.length_append, ← Nat.add_assoc, h'.take_eq, h.take_eq, List.map_append,
      List.append_assoc]
  digits d hd := by
    rcases List.mem_append.mp hd with hd | hd
    · exact h.digits d hd
    · exact h'.digits d hd

theorem length_before (h : Wrote buf i ds buf') :
    (buf.take i ++ ds.map decChar).length = i + ds.length := by
  have hroom := h.room
  rw [List.length_append, List.length_take, List.length_map]
  omega

/-- The digits before the last one. -/
theorem init {d : ℕ} (h : Wrote buf i (ds ++ [d]) buf') : Wrote buf i ds buf' where
  room := by
    have := h.room
    rw [List.length_append, List.length_singleton] at this
    omega
  length_eq := h.length_eq
  take_eq := by
    have hroom := h.room
    have htake := congrArg (List.take (i + ds.length)) h.take_eq
    rw [List.length_append, List.length_singleton] at hroom htake
    have hlen : (buf.take i ++ ds.map decChar).length = i + ds.length := by
      rw [List.length_append, List.length_take, List.length_map]
      omega
    rwa [List.take_take, min_eq_left (by omega), List.map_append, ← List.append_assoc,
      List.take_left' hlen] at htake
  digits e he := h.digits e (List.mem_append_left _ he)

/-- The character at the last digit. -/
theorem getElem?_last {d : ℕ} (h : Wrote buf i (ds ++ [d]) buf') :
    buf'[i + ds.length]? = some (decChar d) := by
  have hlen := h.init.length_before
  have htake := h.take_eq
  rw [List.length_append, List.length_singleton, ← Nat.add_assoc] at htake
  rw [← List.getElem?_take_of_lt (Nat.lt_succ_self (i + ds.length)), htake, List.map_append,
    ← List.append_assoc, List.getElem?_append_right hlen.le, hlen, Nat.sub_self]
  rfl

end Wrote

theorem take_set_succ {buf : List UInt8} {i : ℕ} (hi : i < buf.length) (a : UInt8) :
    (buf.set i a).take (i + 1) = buf.take i ++ [a] := by
  rw [List.take_succ_eq_append_getElem (by rwa [List.length_set]), List.take_set_of_le le_rfl,
    List.getElem_set_self]

theorem take_set_set {buf : List UInt8} {i : ℕ} (hi : i + 2 ≤ buf.length) (a b : UInt8) :
    ((buf.set i a).set (i + 1) b).take (i + 2) = buf.take i ++ [a, b] := by
  have hlen : i + 1 < (buf.set i a).length := by
    rw [List.length_set]
    omega
  rw [take_set_succ hlen, take_set_succ (by omega), List.append_assoc]
  rfl

/-- Two digits are stored. -/
theorem storePair_wrote (buf : List UInt8) {i x : ℕ} (hi : i + 2 ≤ buf.length) (hx : x < 100) :
    ∃ buf', storePair buf i x = .ok buf' ∧ Wrote buf i [x % 10, x / 10] buf' := by
  have hpair : (x % 10 ||| (x / 10) <<< 8) + 0x3030 = 0x30 + x % 10 + 256 * (0x30 + x / 10) := by
    interval_cases x <;> rfl
  have hlow : UInt8.ofNat (0x30 + x % 10 + 256 * (0x30 + x / 10)) = decChar (x % 10) := by
    apply UInt8.toNat_inj.mp
    simp [decChar]
  have hhigh : UInt8.ofNat ((0x30 + x % 10 + 256 * (0x30 + x / 10)) / 256) = decChar (x / 10) := by
    rw [decChar]
    congr 1
    omega
  have hset : (buf.set i (decChar (x % 10))).length = buf.length := List.length_set
  refine ⟨(buf.set i (decChar (x % 10))).set (i + 1) (decChar (x / 10)), ?_, hi, ?_, ?_, ?_⟩
  · rw [storePair, decpair, if_pos hx, hpair, Exec.ok_bind, storeU16, hlow, hhigh, storeByte,
      if_pos (by omega), Exec.ok_bind, storeByte, if_pos (by omega)]
  · rw [List.length_set, hset]
  · exact take_set_set hi _ _
  · intro d hd
    simp only [List.mem_cons, List.not_mem_nil, or_false] at hd
    omega

/-- Two digits in front of the rest. -/
theorem pair_numeral {r : ℕ} (hr : 100 ≤ r) :
    [r % 100 % 10, r % 100 / 10] ++ numeral 10 (r / 100) = numeral 10 r := by
  rw [numeral_append (by decide) (fun d hd => ?_) (by omega)]
  · congr 1
    simp only [Nat.ofDigits_cons, Nat.ofDigits_nil, List.length_cons, List.length_nil]
    omega
  · simp only [List.mem_cons, List.not_mem_nil, or_false] at hd
    omega

/-- A run that returns the numeral of `r` at `i`. -/
def PutsAt (x : Exec (List UInt8 × ℕ)) (buf : List UInt8) (i r : ℕ) : Prop :=
  ∃ buf', x = .ok (buf', i + (numeral 10 r).length) ∧ Wrote buf i (numeral 10 r) buf'

/-- A pair, and then a run that writes the rest. -/
theorem PutsAt.pair {x : Exec (List UInt8 × ℕ)} {buf b : List UInt8} {i r : ℕ} (hr : 100 ≤ r)
    (hw : Wrote buf i [r % 100 % 10, r % 100 / 10] b) (h : PutsAt x b (i + 2) (r / 100)) :
    PutsAt x buf i r := by
  obtain ⟨b', hx, hw'⟩ := h
  have hlen := congrArg List.length (pair_numeral hr)
  rw [List.length_append, List.length_cons, List.length_cons, List.length_nil] at hlen
  refine ⟨b', ?_, pair_numeral hr ▸ hw.trans hw'⟩
  rw [hx, ← hlen, ← Nat.add_assoc]

/-- The last pair. -/
theorem putDecLast_puts (buf : List UInt8) {i r : ℕ} (hi : i + 2 ≤ buf.length) (hr : r < 100) :
    PutsAt (putDecLast buf i r) buf i r := by
  unfold PutsAt
  obtain ⟨b, hb, hw⟩ := storePair_wrote buf hi hr
  by_cases hlt : r < 10
  · have hw' : Wrote buf i [r % 10] b := Wrote.init (d := r / 10) hw
    rw [Nat.mod_eq_of_lt hlt] at hw'
    rw [numeral_of_lt hlt]
    refine ⟨b, ?_, hw'⟩
    rw [putDecLast, hb, Exec.ok_bind, if_pos hlt]
    rfl
  · rw [numeral_cons (by decide) (by omega), numeral_of_lt (by omega)]
    refine ⟨b, ?_, hw⟩
    rw [putDecLast, hb, Exec.ok_bind, if_neg hlt]
    rfl

/-- **Scanning back** over the zeros leaves the numeral. -/
theorem stripZeros_eq {buf buf' : List UInt8} {n : ℕ} (hn : n ≠ 0) {ds : List ℕ}
    (hw : Wrote buf 0 ds buf') (hval : Nat.ofDigits 10 ds = n) :
    stripZeros buf' ds.length = .ok (numeral 10 n).length ∧ Wrote buf 0 (numeral 10 n) buf' := by
  induction ds using List.reverseRecOn with
  | nil => exact absurd hval.symm hn
  | append_singleton ds d ih =>
    have hchar := hw.getElem?_last
    rw [Nat.zero_add] at hchar
    rw [List.length_append, List.length_singleton, stripZeros, hchar]
    by_cases hd : d = 0
    · subst hd
      rw [if_pos (show some (decChar 0) = some 0x30 from rfl)]
      refine ih hw.init ?_
      rwa [Nat.ofDigits_append, Nat.ofDigits_singleton, Nat.mul_zero, Nat.add_zero] at hval
    · have hlt : d < 10 := hw.digits d (by simp)
      have hnum : numeral 10 n = ds ++ [d] := by
        rw [← numeral_of_lt hlt, numeral_append (by decide)
          (fun e he => hw.digits e (List.mem_append_left _ he)) hd, ← hval, Nat.ofDigits_append,
          Nat.ofDigits_singleton]
      have hne : some (decChar d) ≠ some 0x30 := by
        interval_cases d <;> first | exact absurd rfl hd | decide
      rw [if_neg hne, hnum]
      exact ⟨by simp, hw⟩

/-- Four digits in front of the rest. -/
theorem PutsAt.four {x : Exec (List UInt8 × ℕ)} {buf b : List UInt8} {i m r : ℕ} {ds : List ℕ}
    (hw : Wrote buf i ds b) (hlen : ds.length = 4) (hval : Nat.ofDigits 10 ds = m) (hr : r ≠ 0)
    (h : PutsAt x b (i + 4) r) : PutsAt x buf i (m + 10000 * r) := by
  obtain ⟨b', hx, hw'⟩ := h
  have hnum : numeral 10 (m + 10000 * r) = ds ++ numeral 10 r := by
    rw [numeral_append (by decide) hw.digits hr, hval, hlen, show 10 ^ 4 = 10000 from rfl]
  rw [← hlen] at hx hw'
  refine ⟨b', ?_, hnum ▸ hw.trans hw'⟩
  rw [hx, hnum, List.length_append, Nat.add_assoc]

/-- The four limbs of a 64-bit number, as `put_dec` takes them out. -/
theorem limbs {n : ℕ} (hn : n < 2 ^ 64) :
    ∃ d0 d1 d2 d3, n % 2 ^ 32 &&& 0xffff = d0 ∧ (n % 2 ^ 32) >>> 16 = d1 ∧ n >>> 32 &&& 0xffff = d2 ∧
      (n >>> 32) >>> 16 = d3 ∧ d0 < 2 ^ 16 ∧ d1 < 2 ^ 16 ∧ d2 < 2 ^ 16 ∧ d3 < 2 ^ 16 ∧
      n = d0 + 2 ^ 16 * d1 + 2 ^ 32 * d2 + 2 ^ 48 * d3 := by
  have hmask : ∀ x : ℕ, x &&& 0xffff = x % 2 ^ 16 := fun x => Nat.and_two_pow_sub_one_eq_mod x 16
  simp only [hmask, Nat.shiftRight_eq_div_pow]
  exact ⟨_, _, _, _, rfl, rfl, rfl, rfl, by omega, by omega, by omega, by omega, by omega⟩

/-! ## The digits -/

open Arith

/-- What a quotient by 100 leaves over is a pair. -/
theorem storeRest_wrote (buf : List UInt8) {i x : ℕ} (hi : i + 2 ≤ buf.length) (hx : x < 2 ^ 32) :
    ∃ buf', storeRest checked buf i x (x / 100) = .ok buf' ∧
      Wrote buf i [x % 100 % 10, x % 100 / 10] buf' := by
  obtain ⟨b, hb, hw⟩ := storePair_wrote buf hi (Nat.mod_lt x (by decide : 0 < 100))
  refine ⟨b, ?_, hw⟩
  have hsub : x - 100 * (x / 100) = x % 100 := by omega
  rw [storeRest, checked_mul (by omega), Exec.ok_bind, checked_sub hx (by omega), Exec.ok_bind, hsub,
    hb]

/-- **`put_dec_trunc8`** writes the digits of `r`. -/
theorem putDecTrunc8_puts (buf : List UInt8) {i r : ℕ} (hi : i + 8 ≤ buf.length) (hr : r < 10 ^ 8) :
    PutsAt (putDecTrunc8 checked buf i r) buf i r := by
  rw [putDecTrunc8]
  by_cases h₁ : r < 100
  · rw [if_pos h₁]
    exact putDecLast_puts buf (by omega) h₁
  obtain ⟨b₁, hb₁, hw₁⟩ := storeRest_wrote buf (i := i) (x := r) (by omega) (by omega)
  have hlen₁ := hw₁.length_eq
  rw [if_neg h₁, checked_wide (by omega) (by omega) (by omega), Exec.ok_bind, hb₁, Exec.ok_bind]
  refine PutsAt.pair (not_lt.mp h₁) hw₁ ?_
  obtain ⟨q, hq⟩ : ∃ q, q = r / 100 := ⟨_, rfl⟩
  rw [← hq]
  by_cases h₂ : q < 100
  · rw [if_pos h₂]
    exact putDecLast_puts b₁ (by omega) h₂
  obtain ⟨b₂, hb₂, hw₂⟩ := storeRest_wrote b₁ (i := i + 2) (x := q) (by omega) (by omega)
  have hlen₂ := hw₂.length_eq
  rw [if_neg h₂, checked_wide (by omega) (by omega) (by omega), Exec.ok_bind, hb₂, Exec.ok_bind]
  refine PutsAt.pair (not_lt.mp h₂) hw₂ ?_
  obtain ⟨r', hr'⟩ : ∃ r', r' = q / 100 := ⟨_, rfl⟩
  rw [← hr']
  by_cases h₃ : r' < 100
  · rw [if_pos h₃]
    exact putDecLast_puts b₂ (by omega) h₃
  obtain ⟨b₃, hb₃, hw₃⟩ := storeRest_wrote b₂ (i := i + 4) (x := r') (by omega) (by omega)
  have hlen₃ := hw₃.length_eq
  rw [if_neg h₃, checked_narrow (by omega) (by omega), Exec.ok_bind, hb₃, Exec.ok_bind]
  refine PutsAt.pair (not_lt.mp h₃) hw₃ ?_
  exact putDecLast_puts b₃ (by omega) (by omega)

/-- `put_dec_full4` writes four digits. -/
theorem putDecFull4_wrote (buf : List UInt8) {i r : ℕ} (hi : i + 4 ≤ buf.length) (hr : r < 10000) :
    ∃ buf' ds, putDecFull4 checked buf i r = .ok buf' ∧ Wrote buf i ds buf' ∧ ds.length = 4 ∧
      Nat.ofDigits 10 ds = r := by
  obtain ⟨b₁, h₁, hw₁⟩ := storeRest_wrote buf (i := i) (x := r) (by omega) (by omega)
  obtain ⟨b₂, h₂, hw₂⟩ := storePair_wrote b₁ (i := i + 2) (x := r / 100)
    (by rw [hw₁.length_eq]; omega) (by omega)
  refine ⟨b₂, _, ?_, hw₁.trans hw₂, rfl, ?_⟩
  · rw [putDecFull4, checked_narrow (by omega) (by omega), Exec.ok_bind, h₁, Exec.ok_bind, h₂]
  · simp only [List.cons_append, List.nil_append, Nat.ofDigits_cons, Nat.ofDigits_nil]
    omega

/-- `put_dec_helper4` writes four digits and returns the rest. -/
theorem putDecHelper4_wrote (buf : List UInt8) {i x : ℕ} (hi : i + 4 ≤ buf.length)
    (hx : x < 1128869999) :
    ∃ buf' ds, putDecHelper4 checked buf i x = .ok (buf', x / 10000) ∧ Wrote buf i ds buf' ∧
      ds.length = 4 ∧ Nat.ofDigits 10 ds = x % 10000 := by
  obtain ⟨b, ds, hb, hw⟩ :=
    putDecFull4_wrote buf hi (Nat.mod_lt x (by decide : 0 < 10000))
  have hsub : x - x / 10000 * 10000 = x % 10000 := by omega
  refine ⟨b, ds, ?_, hw⟩
  rw [putDecHelper4, checked_wide (by omega) (by omega) (by omega), Exec.ok_bind,
    checked_mul (by omega), Exec.ok_bind, checked_sub (by omega) (by omega), Exec.ok_bind, hsub, hb]
  rfl

/-- **`put_dec`** writes the digits of `n`, over any arithmetic that is right where nothing wraps. -/
theorem putDec_puts {buf : List UInt8} (hbuf : buf.length = 24) {n : ℕ} (hn : n < 2 ^ 64) :
    PutsAt (putDec checked buf n) buf 0 n := by
  rw [putDec]
  by_cases hsmall : n < 100 * 1000 * 1000
  · rw [if_pos hsmall]
    exact putDecTrunc8_puts buf (by omega) (by omega)
  obtain ⟨d0, d1, d2, d3, h0, h1, h2, h3, hd0, hd1, hd2, hd3, hsum⟩ := limbs hn
  rw [if_neg hsmall]
  dsimp only
  rw [h0, h1, h2, h3]
  -- the sums of each group of four digits, with the carry from the group before
  obtain ⟨s₁, hs₁⟩ : ∃ s₁, 656 * d3 + 7296 * d2 + 5536 * d1 + d0 = s₁ := ⟨_, rfl⟩
  obtain ⟨b₁, ds₁, hb₁, hw₁, hlen₁, hval₁⟩ :=
    putDecHelper4_wrote buf (i := 0) (x := s₁) (by omega) (by omega)
  have hl₁ := hw₁.length_eq
  rw [checked_mul (by omega), Exec.ok_bind, checked_mul (by omega), Exec.ok_bind,
    checked_add (by omega), Exec.ok_bind, checked_mul (by omega), Exec.ok_bind, checked_add (by omega),
    Exec.ok_bind, checked_add (by omega), Exec.ok_bind, hs₁, hb₁, Exec.ok_bind]
  dsimp only
  obtain ⟨s₂, hs₂⟩ : ∃ s₂, s₁ / 10000 + (7671 * d3 + 9496 * d2 + 6 * d1) = s₂ := ⟨_, rfl⟩
  obtain ⟨b₂, ds₂, hb₂, hw₂, hlen₂, hval₂⟩ :=
    putDecHelper4_wrote b₁ (i := 4) (x := s₂) (by omega) (by omega)
  have hl₂ := hw₂.length_eq
  rw [checked_mul (by omega), Exec.ok_bind, checked_mul (by omega), Exec.ok_bind,
    checked_add (by omega), Exec.ok_bind, checked_mul (by omega), Exec.ok_bind, checked_add (by omega),
    Exec.ok_bind, checked_add (by omega), Exec.ok_bind, hs₂, hb₂, Exec.ok_bind]
  dsimp only
  obtain ⟨s₃, hs₃⟩ : ∃ s₃, s₂ / 10000 + (4749 * d3 + 42 * d2) = s₃ := ⟨_, rfl⟩
  obtain ⟨b₃, ds₃, hb₃, hw₃, hlen₃, hval₃⟩ :=
    putDecHelper4_wrote b₂ (i := 8) (x := s₃) (by omega) (by omega)
  have hl₃ := hw₃.length_eq
  rw [checked_mul (by omega), Exec.ok_bind, checked_mul (by omega), Exec.ok_bind,
    checked_add (by omega), Exec.ok_bind, checked_add (by omega), Exec.ok_bind, hs₃, hb₃,
    Exec.ok_bind]
  dsimp only
  obtain ⟨q, hq⟩ : ∃ q, s₃ / 10000 + 281 * d3 = q := ⟨_, rfl⟩
  rw [checked_mul (by omega), Exec.ok_bind, checked_add (by omega), Exec.ok_bind, hq]
  have hn : n = s₁ % 10000 + 10000 * (s₂ % 10000 + 10000 * (s₃ % 10000 + 10000 * q)) := by omega
  by_cases hq₀ : q = 0
  · rw [if_neg (not_not.mpr hq₀)]
    have hw₁₂ : Wrote buf 0 (ds₁ ++ ds₂) b₂ := hw₁.trans (by rwa [Nat.zero_add, hlen₁])
    have hw : Wrote buf 0 (ds₁ ++ ds₂ ++ ds₃) b₃ :=
      hw₁₂.trans (by rwa [List.length_append, hlen₁, hlen₂])
    obtain ⟨hstrip, hwn⟩ := stripZeros_eq (n := n) (by omega) hw (by
      simp only [Nat.ofDigits_append, List.length_append, hlen₁, hlen₂, hval₁, hval₂, hval₃]
      omega)
    simp only [List.length_append, hlen₁, hlen₂, hlen₃] at hstrip
    refine ⟨b₃, ?_, hwn⟩
    rw [hstrip, Nat.zero_add]
    rfl
  · rw [if_pos hq₀, hn]
    refine PutsAt.four hw₁ hlen₁ hval₁ (by omega) ?_
    refine PutsAt.four hw₂ hlen₂ hval₂ (by omega) ?_
    refine PutsAt.four hw₃ hlen₃ hval₃ (by omega) ?_
    exact putDecTrunc8_puts b₃ (by omega) (by omega)

/-! ## The machine's run -/

section Machine

variable {ar ar' : Arith} (h : ar.Le ar')

include h

theorem storeRest_le (buf : List UInt8) (i x q : ℕ) :
    Exec.Le (storeRest ar buf i x q) (storeRest ar' buf i x q) :=
  (h.mul _ _).bind fun _ => (h.sub _ _).bind fun _ => .refl _

theorem putDecTrunc8_le (buf : List UInt8) (i r : ℕ) :
    Exec.Le (putDecTrunc8 ar buf i r) (putDecTrunc8 ar' buf i r) := by
  refine .ite (.refl _) ((h.wide _ _ _ _).bind fun q => (storeRest_le h _ _ _ _).bind fun b₁ => ?_)
  refine .ite (.refl _) ((h.wide _ _ _ _).bind fun r => (storeRest_le h _ _ _ _).bind fun b₂ => ?_)
  refine .ite (.refl _) ((h.narrow _ _ _ _).bind fun q => ?_)
  exact (storeRest_le h _ _ _ _).bind fun b₃ => .refl _

theorem putDecHelper4_le (buf : List UInt8) (i x : ℕ) :
    Exec.Le (putDecHelper4 ar buf i x) (putDecHelper4 ar' buf i x) := by
  refine (h.wide _ _ _ _).bind fun q => (h.mul _ _).bind fun m => (h.sub _ _).bind fun r => ?_
  refine Exec.Le.bind ?_ fun _ => .refl _
  exact (h.narrow _ _ _ _).bind fun q => (storeRest_le h _ _ _ _).bind fun _ => .refl _

/-- A run that is not stopped by the checks of `ar` is a run of `ar'`. -/
theorem putDec_le (buf : List UInt8) (n : ℕ) : Exec.Le (putDec ar buf n) (putDec ar' buf n) := by
  refine .ite (putDecTrunc8_le h _ _ _) ?_
  refine (h.mul _ _).bind fun _ => (h.mul _ _).bind fun _ => (h.add _ _).bind fun _ => ?_
  refine (h.mul _ _).bind fun _ => (h.add _ _).bind fun _ => (h.add _ _).bind fun _ => ?_
  refine (putDecHelper4_le h _ _ _).bind fun r₁ => ?_
  refine (h.mul _ _).bind fun _ => (h.mul _ _).bind fun _ => (h.add _ _).bind fun _ => ?_
  refine (h.mul _ _).bind fun _ => (h.add _ _).bind fun _ => (h.add _ _).bind fun _ => ?_
  refine (putDecHelper4_le h _ _ _).bind fun r₂ => ?_
  refine (h.mul _ _).bind fun _ => (h.mul _ _).bind fun _ => (h.add _ _).bind fun _ => ?_
  refine (h.add _ _).bind fun _ => (putDecHelper4_le h _ _ _).bind fun r₃ => ?_
  refine (h.mul _ _).bind fun _ => (h.add _ _).bind fun _ => ?_
  exact .ite (putDecTrunc8_le h _ _ _) (.refl _)

end Machine

theorem putDec_puts_machine {buf : List UInt8} (hbuf : buf.length = 24) {n : ℕ} (hn : n < 2 ^ 64) :
    PutsAt (putDec machine buf n) buf 0 n := by
  obtain ⟨buf', hrun, hw⟩ := putDec_puts hbuf hn
  exact ⟨buf', putDec_le checked_le_machine buf n _ hrun, hw⟩

/-- **`put_dec` is exact**: no check stops it — nothing wraps, every quotient is the true one, every
index is in the table and every store in the 24 bytes — and the machine's run, which is the same, has
written the decimal digits of `n`, least significant first. -/
theorem putDec_exact {buf : List UInt8} (hbuf : buf.length = 24) {n : ℕ} (hn : n < 2 ^ 64) :
    ∃ buf', putDec checked buf n = .ok (buf', (numeral 10 n).length) ∧
      putDec machine buf n = .ok (buf', (numeral 10 n).length) ∧ buf'.length = 24 ∧
      buf'.take (numeral 10 n).length = (numeral 10 n).map decChar := by
  obtain ⟨buf', hrun, hw⟩ := putDec_puts hbuf hn
  rw [Nat.zero_add] at hrun
  refine ⟨buf', hrun, putDec_le checked_le_machine buf n _ hrun, hw.length_eq.trans hbuf, ?_⟩
  have htake := hw.take_eq
  rwa [Nat.zero_add, List.take_zero, List.nil_append] at htake

theorem putDec_exact_max :
    (List.replicate 24 (0 : UInt8)).length = 24 ∧ 2 ^ 64 - 1 < 2 ^ 64 ∧
    ∃ buf', putDec checked (List.replicate 24 0) (2 ^ 64 - 1)
        = .ok (buf', (numeral 10 (2 ^ 64 - 1)).length) ∧
      putDec machine (List.replicate 24 0) (2 ^ 64 - 1)
        = .ok (buf', (numeral 10 (2 ^ 64 - 1)).length) ∧ buf'.length = 24 ∧
      buf'.take (numeral 10 (2 ^ 64 - 1)).length = (numeral 10 (2 ^ 64 - 1)).map decChar :=
  ⟨rfl, by decide, putDec_exact rfl (by decide)⟩

end Sandix
