import Sandix.Lib.Ctype
import Sandix.Machinery.Bytes

/-!
# Lib/Hexdump — bytes as hexadecimal text

`hex2bin` and `bin2hex` of `lib/hexdump.c`.  A `char` is signed, so the comparisons of `hex_to_bin` turn
down every byte above 127; `tolower` moves some of them, but never to a digit (`hexToBin_nonneg_iff`).

* `hexCodec` — what `bin2hex` writes `hex2bin` reads back; `hex2bin` accepts exactly the hexadecimal
  digits, and what it makes of them is written as the same text in lower case.
-/

namespace Sandix

open Machinery Function

/-- The value of a `char`. -/
def schar (c : UInt8) : ℤ := c.toInt8.toInt

/-- `hex_asc`. -/
def hexAsc (i : ℕ) : UInt8 := literal "0123456789abcdef".toList i

/-- `hex_asc_upper`. -/
def hexAscUpper (i : ℕ) : UInt8 := literal "0123456789ABCDEF".toList i

/-- `hex_asc_lo`. -/
def hexAscLo (x : UInt8) : UInt8 := hexAsc (x &&& 0x0f).toNat

/-- `hex_asc_hi`. -/
def hexAscHi (x : UInt8) : UInt8 := hexAsc ((x &&& 0xf0) >>> 4).toNat

/-- `hex_to_bin`. -/
def hexToBin (ch : UInt8) : ℤ :=
  if schar ch ≥ 48 ∧ schar ch ≤ 57 then schar ch - 48
  else
    let ch := tolower ch
    if schar ch ≥ 97 ∧ schar ch ≤ 102 then schar ch - 97 + 10 else -1

/-- `(hi << 4) | lo`, as it is stored. -/
def hexPack (hi lo : ℤ) : UInt8 := UInt8.ofNat (hi.toNat <<< 4 ||| lo.toNat)

/-- `hex2bin`: the result, and memory. -/
def hex2bin (mem : ℕ → UInt8) (dst src : ℕ) : ℕ → ℤ × (ℕ → UInt8)
  | 0 => (0, mem)
  | count + 1 =>
    let hi := hexToBin (mem (src % 2 ^ 32))
    let lo := hexToBin (mem ((src + 1) % 2 ^ 32))
    if hi < 0 ∨ lo < 0 then (-1, mem)
    else hex2bin (update mem (dst % 2 ^ 32) (hexPack hi lo)) (dst + 1) (src + 2) count

/-- `hex_byte_pack`: the pointer behind the digits, and memory. -/
def hexBytePack (mem : ℕ → UInt8) (buf : ℕ) (byte : UInt8) : ℕ × (ℕ → UInt8) :=
  (buf + 2, update (update mem (buf % 2 ^ 32) (hexAscHi byte)) ((buf + 1) % 2 ^ 32) (hexAscLo byte))

/-- `bin2hex`: the pointer behind the digits, and memory. -/
def bin2hex (mem : ℕ → UInt8) (dst src : ℕ) : ℕ → ℕ × (ℕ → UInt8)
  | 0 => (dst % 2 ^ 32, mem)
  | count + 1 =>
    let (dst, mem) := hexBytePack mem dst (mem (src % 2 ^ 32))
    bin2hex mem dst (src + 1) count

/-! ## Digits -/

/-- A hexadecimal digit, of either case. -/
def IsHexDigit (c : UInt8) : Prop :=
  (48 ≤ c ∧ c ≤ 57) ∨ (65 ≤ c ∧ c ≤ 70) ∨ 97 ≤ c ∧ c ≤ 102
deriving Decidable

/-- A letter in lower case. -/
def lowerCase (c : UInt8) : UInt8 := if 65 ≤ c ∧ c ≤ 90 then c + 32 else c

/-- A property of bytes is checked on all 256. -/
theorem forall_byte {P : UInt8 → Prop} (h : ∀ n < 256, P (UInt8.ofNat n)) (c : UInt8) : P c := by
  have hc := h c.toNat c.toNat_lt
  rwa [UInt8.ofNat_toNat] at hc

/-- `hex_to_bin` accepts the digits; the digit of its value is the character in lower case. -/
theorem hexToBin_nonneg_iff (c : UInt8) :
    (0 ≤ hexToBin c ↔ IsHexDigit c) ∧
      (IsHexDigit c → hexToBin c < 16 ∧ hexAsc (hexToBin c).toNat = lowerCase c) := by
  revert c
  refine forall_byte ?_
  decide +kernel

/-- A byte is packed from its digits. -/
theorem hexPack_hexAsc (x : UInt8) :
    (IsHexDigit (hexAscHi x) ∧ IsHexDigit (hexAscLo x)) ∧
      hexPack (hexToBin (hexAscHi x)) (hexToBin (hexAscLo x)) = x := by
  revert x
  refine forall_byte ?_
  decide +kernel

/-- The digits of a packed byte. -/
theorem hexAsc_hexPack {hi lo : ℤ} (hhi : 0 ≤ hi ∧ hi < 16) (hlo : 0 ≤ lo ∧ lo < 16) :
    hexAscHi (hexPack hi lo) = hexAsc hi.toNat ∧
      hexAscLo (hexPack hi lo) = hexAsc lo.toNat := by
  have hall : ∀ a < 16, ∀ b < 16,
      hexAscHi (hexPack (a : ℕ) (b : ℕ)) = hexAsc a ∧
        hexAscLo (hexPack (a : ℕ) (b : ℕ)) = hexAsc b := by decide +kernel
  have hpair := hall hi.toNat (by omega) lo.toNat (by omega)
  rwa [Int.toNat_of_nonneg hhi.1, Int.toNat_of_nonneg hlo.1] at hpair

/-! ## Buffers

Two buffers lie apart when one ends before the other starts.  Neither wraps. -/

/-- What `bin2hex` writes, and that it writes nothing else. -/
theorem bin2hex_spec : ∀ (count : ℕ) {mem : ℕ → UInt8} {dst src : ℕ}, src + count ≤ 2 ^ 32 →
    dst + 2 * count ≤ 2 ^ 32 → (src + count ≤ dst ∨ dst + 2 * count ≤ src) →
    (∀ i < count, (bin2hex mem dst src count).2 (dst + 2 * i) = hexAscHi (mem (src + i)) ∧
      (bin2hex mem dst src count).2 (dst + 2 * i + 1) = hexAscLo (mem (src + i))) ∧
    ∀ y, (y < dst ∨ dst + 2 * count ≤ y) → (bin2hex mem dst src count).2 y = mem y
  | 0, _, _, _, _, _, _ => ⟨fun _ h => absurd h (Nat.not_lt_zero _), fun _ _ => rfl⟩
  | count + 1, mem, dst, src, hsrc, hdst, hapart => by
      have hstep : bin2hex mem dst src (count + 1)
          = bin2hex (hexBytePack mem dst (mem (src % 2 ^ 32))).2 (dst + 2) (src + 1) count := rfl
      have hpack : ∀ y, (hexBytePack mem dst (mem (src % 2 ^ 32))).2 y = if y = dst + 1 then
          hexAscLo (mem src) else if y = dst then hexAscHi (mem src) else mem y := fun y => by
        rw [hexBytePack, Nat.mod_eq_of_lt (by omega : dst < 2 ^ 32),
          Nat.mod_eq_of_lt (by omega : dst + 1 < 2 ^ 32), Nat.mod_eq_of_lt (by omega : src < 2 ^ 32)]
        simp only [update_apply]
      rw [hstep]
      generalize (hexBytePack mem dst (mem (src % 2 ^ 32))).2 = mem' at hpack ⊢
      obtain ⟨hdigits, hframe⟩ := @bin2hex_spec count mem' (dst + 2) (src + 1) (by omega)
        (by omega) (by omega)
      refine ⟨fun i hi => ?_, fun y hy => ?_⟩
      · rcases i with _ | i
        · rw [hframe _ (by omega), hframe _ (by omega), hpack, hpack]
          simp
        · obtain ⟨hhi, hlo⟩ := hdigits i (by omega)
          rw [show dst + 2 * (i + 1) = dst + 2 + 2 * i by ring, hhi, hlo, hpack, if_neg (by omega),
            if_neg (by omega), show src + (i + 1) = src + 1 + i by ring]
          exact ⟨rfl, rfl⟩
      · rw [hframe y (by omega), hpack, if_neg (by omega), if_neg (by omega)]

/-- What `hex2bin` accepts, what it writes then, and that it writes nothing else. -/
theorem hex2bin_spec : ∀ (count : ℕ) {mem : ℕ → UInt8} {dst src : ℕ}, src + 2 * count ≤ 2 ^ 32 →
    dst + count ≤ 2 ^ 32 → (src + 2 * count ≤ dst ∨ dst + count ≤ src) →
    ((hex2bin mem dst src count).1 = 0 ↔
      ∀ i < count, IsHexDigit (mem (src + 2 * i)) ∧ IsHexDigit (mem (src + 2 * i + 1))) ∧
    ((hex2bin mem dst src count).1 = 0 → ∀ i < count, (hex2bin mem dst src count).2 (dst + i) =
      hexPack (hexToBin (mem (src + 2 * i))) (hexToBin (mem (src + 2 * i + 1)))) ∧
    ∀ y, (y < dst ∨ dst + count ≤ y) → (hex2bin mem dst src count).2 y = mem y
  | 0, _, _, _, _, _, _ =>
      ⟨⟨fun _ _ h => absurd h (Nat.not_lt_zero _), fun _ => rfl⟩,
        fun _ _ h => absurd h (Nat.not_lt_zero _), fun _ _ => rfl⟩
  | count + 1, mem, dst, src, hsrc, hdst, hapart => by
      rw [hex2bin, Nat.mod_eq_of_lt (by omega : src < 2 ^ 32),
        Nat.mod_eq_of_lt (by omega : src + 1 < 2 ^ 32), Nat.mod_eq_of_lt (by omega : dst < 2 ^ 32)]
      have hhi := (hexToBin_nonneg_iff (mem src)).1
      have hlo := (hexToBin_nonneg_iff (mem (src + 1))).1
      by_cases hbad : hexToBin (mem src) < 0 ∨ hexToBin (mem (src + 1)) < 0
      · simp only [if_pos hbad]
        refine ⟨⟨fun h => absurd h (by decide), fun h => ?_⟩, fun h => absurd h (by decide),
          fun _ _ => trivial⟩
        obtain ⟨h0, h1⟩ := h 0 (by omega)
        have h0' := hhi.mpr h0
        have h1' := hlo.mpr h1
        omega
      · simp only [if_neg hbad]
        rw [not_or, not_lt, not_lt, hhi, hlo] at hbad
        have hsame : ∀ y, y ≠ dst → update mem dst (hexPack (hexToBin (mem src))
            (hexToBin (mem (src + 1)))) y = mem y := fun y hy => update_of_ne hy _ _
        have hput : update mem dst (hexPack (hexToBin (mem src)) (hexToBin (mem (src + 1)))) dst =
            hexPack (hexToBin (mem src)) (hexToBin (mem (src + 1))) := update_self _ _ _
        generalize update mem dst _ = mem' at hsame hput ⊢
        obtain ⟨haccept, hwrite, hframe⟩ := @hex2bin_spec count mem' (dst + 1) (src + 2) (by omega)
          (by omega) (by omega)
        have hread : ∀ i < count, mem' (src + 2 + 2 * i) = mem (src + 2 * (i + 1)) ∧
            mem' (src + 2 + 2 * i + 1) = mem (src + 2 * (i + 1) + 1) := fun i hi => by
          rw [hsame _ (by omega), hsame _ (by omega), show src + 2 + 2 * i = src + 2 * (i + 1) by ring]
          exact ⟨rfl, rfl⟩
        refine ⟨haccept.trans ⟨fun h i hi => ?_, fun h i hi => ?_⟩, fun hok i hi => ?_, fun y hy => ?_⟩
        · rcases i with _ | i
          · exact hbad
          · have hdigits := h i (by omega)
            rwa [(hread i (by omega)).1, (hread i (by omega)).2] at hdigits
        · rw [(hread i hi).1, (hread i hi).2]
          exact h (i + 1) (by omega)
        · rcases i with _ | i
          · exact (hframe _ (by omega)).trans hput
          · have hbyte := hwrite hok i (by omega)
            rwa [(hread i (by omega)).1, (hread i (by omega)).2,
              show dst + 1 + i = dst + (i + 1) by ring] at hbyte
        · rw [hframe y (by omega), hsame y (by omega)]

/-! ## The codec -/

theorem mem_bytesAt_iff {mem : ℕ → UInt8} {a n : ℕ} (h : a + n ≤ 2 ^ 32) {c : UInt8} :
    c ∈ bytesAt mem a n ↔ ∃ i < n, mem (a + i) = c := by
  rw [bytesAt, List.mem_map]
  refine exists_congr fun i => ?_
  rw [List.mem_range]
  exact and_congr_right fun hi => by rw [Nat.mod_eq_of_lt (by omega)]

/-- Two buffers hold the same, up to `f`. -/
theorem bytesAt_eq_map {m m' : ℕ → UInt8} {a b n : ℕ} (ha : a + n ≤ 2 ^ 32) (hb : b + n ≤ 2 ^ 32)
    {f : UInt8 → UInt8} (h : ∀ i < n, m (a + i) = f (m' (b + i))) :
    bytesAt m a n = (bytesAt m' b n).map f := by
  rw [bytesAt, bytesAt, List.map_map]
  refine List.map_congr_left fun i hi => ?_
  have hi := List.mem_range.mp hi
  rw [comp_apply, Nat.mod_eq_of_lt (by omega), Nat.mod_eq_of_lt (by omega), h i hi]

/-- The characters of a text, two at a time. -/
theorem forall_lt_double {P : ℕ → Prop} {n : ℕ} :
    (∀ j < 2 * n, P j) ↔ ∀ i < n, P (2 * i) ∧ P (2 * i + 1) := by
  refine ⟨fun h i hi => ⟨h _ (by omega), h _ (by omega)⟩, fun h j hj => ?_⟩
  obtain ⟨heven, hodd⟩ := h (j / 2) (by omega)
  rcases Nat.mod_two_eq_zero_or_one j with hmod | hmod
  · rwa [show 2 * (j / 2) = j by omega] at heven
  · rwa [show 2 * (j / 2) + 1 = j by omega] at hodd

/-- **The hex codec round-trips.**  The text `bin2hex` makes of any bytes is accepted by `hex2bin`, which
yields the bytes again.  `hex2bin` accepts exactly the texts of hexadecimal digits, and `bin2hex` makes of
its result the text in lower case. -/
theorem hexCodec (mem : ℕ → UInt8) (count : ℕ) :
    (∀ src hex dst, src + count ≤ 2 ^ 32 → hex + 2 * count ≤ 2 ^ 32 → dst + count ≤ 2 ^ 32 →
      (src + count ≤ hex ∨ hex + 2 * count ≤ src) → (hex + 2 * count ≤ dst ∨ dst + count ≤ hex) →
      (hex2bin (bin2hex mem hex src count).2 dst hex count).1 = 0 ∧
        bytesAt (hex2bin (bin2hex mem hex src count).2 dst hex count).2 dst count =
          bytesAt mem src count) ∧
    ∀ src dst, src + 2 * count ≤ 2 ^ 32 → dst + count ≤ 2 ^ 32 →
      (src + 2 * count ≤ dst ∨ dst + count ≤ src) →
      ((hex2bin mem dst src count).1 = 0 ↔ ∀ c ∈ bytesAt mem src (2 * count), IsHexDigit c) ∧
        ((hex2bin mem dst src count).1 = 0 → ∀ hex, hex + 2 * count ≤ 2 ^ 32 →
          (dst + count ≤ hex ∨ hex + 2 * count ≤ dst) →
          bytesAt (bin2hex (hex2bin mem dst src count).2 hex dst count).2 hex (2 * count) =
            (bytesAt mem src (2 * count)).map lowerCase) := by
  constructor
  · intro src hex dst hsrc hhex hdst hapart hapart'
    obtain ⟨hdigits, -⟩ := @bin2hex_spec count mem hex src hsrc hhex hapart
    generalize (bin2hex mem hex src count).2 = mem' at hdigits ⊢
    obtain ⟨haccept, hwrite, -⟩ := @hex2bin_spec count mem' dst hex hhex hdst hapart'
    have hok : (hex2bin mem' dst hex count).1 = 0 := haccept.mpr fun i hi => by
      rw [(hdigits i hi).1, (hdigits i hi).2]
      exact (hexPack_hexAsc _).1
    refine ⟨hok, ?_⟩
    rw [← List.map_id (bytesAt mem src count)]
    refine bytesAt_eq_map hdst hsrc fun i hi => ?_
    rw [hwrite hok i hi, (hdigits i hi).1, (hdigits i hi).2, (hexPack_hexAsc _).2, id]
  · intro src dst hsrc hdst hapart
    obtain ⟨haccept, hwrite, -⟩ := @hex2bin_spec count mem dst src hsrc hdst hapart
    constructor
    · rw [haccept]
      have hpairs := @forall_lt_double (fun j => IsHexDigit (mem (src + j))) count
      simp only [mem_bytesAt_iff hsrc, forall_exists_index, and_imp, forall_apply_eq_imp_iff₂]
      exact hpairs.symm
    · intro hok hex hhex hapart'
      have hbytes := hwrite hok
      obtain ⟨hdigits, -⟩ := @bin2hex_spec count (hex2bin mem dst src count).2 hex dst hdst hhex hapart'
      refine bytesAt_eq_map hhex hsrc ?_
      rw [forall_lt_double]
      intro i hi
      obtain ⟨hhi, hlo⟩ := haccept.mp hok i hi
      obtain ⟨hhi', hhi''⟩ := (hexToBin_nonneg_iff (mem (src + 2 * i))).2 hhi
      obtain ⟨hlo', hlo''⟩ := (hexToBin_nonneg_iff (mem (src + 2 * i + 1))).2 hlo
      have hasc := hexAsc_hexPack ⟨(hexToBin_nonneg_iff _).1.mpr hhi, hhi'⟩
        ⟨(hexToBin_nonneg_iff _).1.mpr hlo, hlo'⟩
      rw [← add_assoc, ← add_assoc, (hdigits i hi).1, (hdigits i hi).2, hbytes i hi, hasc.1, hasc.2,
        hhi'', hlo'']
      exact ⟨rfl, rfl⟩

/-- The text `Fa` is accepted and written back as `fa`; the byte 70 comes back from its own text. -/
theorem hexCodec_fa :
    ((hex2bin (update (update (fun _ => 0) 0 70) 1 97) 2 0 1).1 = 0 ∧
      bytesAt (bin2hex (hex2bin (update (update (fun _ => 0) 0 70) 1 97) 2 0 1).2 3 2 1).2 3 2 =
        [102, 97]) ∧
      bytesAt (hex2bin (bin2hex (update (update (fun _ => 0) 0 70) 1 97) 2 0 1).2 4 2 1).2 4 1 = [70] := by
  obtain ⟨hround, htext⟩ := hexCodec (update (update (fun _ => 0) 0 70) 1 97) 1
  obtain ⟨haccept, hlower⟩ := htext 0 2 (by norm_num) (by norm_num) (Or.inl (by norm_num))
  have hok := haccept.mpr (by
    simp only [bytesAt, List.range_succ, List.range_zero, List.nil_append, List.map_cons, List.map_nil,
      List.cons_append, List.forall_mem_cons]
    exact ⟨by decide, by decide, List.forall_mem_nil _⟩)
  refine ⟨⟨hok, ?_⟩, ?_⟩
  · exact (hlower hok 3 (by norm_num) (Or.inl (by norm_num))).trans (by decide)
  · exact (hround 0 2 4 (by norm_num) (by norm_num) (by norm_num) (Or.inl (by norm_num))
      (Or.inl (by norm_num))).2.trans (by decide)

end Sandix
