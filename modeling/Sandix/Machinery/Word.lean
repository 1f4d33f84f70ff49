import Mathlib.Tactic

/-!
# Machinery/Word — unsigned and signed 32-bit arithmetic on `ℕ` and `ℤ`

A machine word is a natural number below `2 ^ 32`; sums and products are reduced with `% 2 ^ 32`.
`sub32` is subtraction with wrap-around, computed in `ℤ`: the literal `2 ^ 32` added to a natural
number is a numeral that the kernel may take apart in unary.
-/

namespace Machinery

/-- `a - b` in 32-bit unsigned arithmetic. -/
def sub32 (a b : ℕ) : ℕ := (((a : ℤ) - b) % 2 ^ 32).toNat

theorem sub32_lt (a b : ℕ) : sub32 a b < 2 ^ 32 := by
  rw [sub32]
  omega

/-- `a - b` in 64-bit unsigned arithmetic. -/
def sub64 (a b : ℕ) : ℕ := (((a : ℤ) - b) % 2 ^ 64).toNat

theorem sub64_of_le {a b : ℕ} (ha : a < 2 ^ 64) (h : b ≤ a) : sub64 a b = a - b := by
  rw [sub64]
  omega

/-- The low 32 bits of an integer: the conversion to `u32`. -/
def u32 (i : ℤ) : ℕ := (i % 2 ^ 32).toNat

/-- The conversion of an unsigned value to a 32-bit `int`, modulo `2 ^ 32`. -/
def int32 (n : ℕ) : ℤ :=
  if (n : ℤ) % 2 ^ 32 < 2 ^ 31 then (n : ℤ) % 2 ^ 32 else (n : ℤ) % 2 ^ 32 - 2 ^ 32

/-- The conversion to a 64-bit unsigned value. -/
def u64 (i : ℤ) : ℕ := (i % 2 ^ 64).toNat

theorem u64_lt (i : ℤ) : u64 i < 2 ^ 64 := by
  rw [u64]
  omega

/-- Without a borrow it is subtraction. -/
theorem sub32_of_le {a b : ℕ} (ha : a < 2 ^ 32) (h : b ≤ a) : sub32 a b = a - b := by
  rw [sub32]
  omega

theorem sub32_zero {a : ℕ} (ha : a < 2 ^ 32) : sub32 a 0 = a := sub32_of_le ha (Nat.zero_le a)

/-- Two subtractions are one. -/
theorem sub32_sub32 (a b c : ℕ) : sub32 (sub32 a b) c = sub32 a (b + c) := by
  simp only [sub32]
  omega

theorem u32_natCast {n : ℕ} (h : n < 2 ^ 32) : u32 n = n := by
  rw [u32]
  omega

theorem u32_lt (i : ℤ) : u32 i < 2 ^ 32 := by
  rw [u32]
  omega

/-- An `int` survives the conversion to `u32` and back. -/
theorem int32_u32 {i : ℤ} (h₁ : -2 ^ 31 ≤ i) (h₂ : i < 2 ^ 31) : int32 (u32 i) = i := by
  unfold int32 u32
  split_ifs <;> omega

/-- A word survives the conversion to `int` and back. -/
theorem u32_int32 {n : ℕ} (h : n < 2 ^ 32) : u32 (int32 n) = n := by
  unfold int32 u32
  split_ifs <;> omega

theorem int32_of_lt {n : ℕ} (h : n < 2 ^ 31) : int32 n = n := by
  unfold int32
  split_ifs <;> omega

/-! ## Masks -/

/-- Clearing the low `k` bits of a word. -/
theorem and_compl_mask {x k : ℕ} (hx : x < 2 ^ 32) (hk : k ≤ 32) :
    x &&& (2 ^ 32 - 1 - (2 ^ k - 1)) = x / 2 ^ k * 2 ^ k := by
  have hpos : 0 < 2 ^ k := by positivity
  have hle : 2 ^ k ≤ 2 ^ 32 := Nat.pow_le_pow_right (by decide) hk
  have hmask : 2 ^ 32 - 1 - (2 ^ k - 1) = 2 ^ 32 - (2 ^ k - 1 + 1) := by omega
  apply Nat.eq_of_testBit_eq
  intro i
  rw [hmask, Nat.testBit_and, Nat.testBit_two_pow_sub_succ (by omega), Nat.testBit_two_pow_sub_one,
    Nat.testBit_mul_two_pow, Nat.testBit_div_two_pow]
  by_cases hki : k ≤ i
  · rw [show i - k + k = i by omega]
    by_cases hi : i < 32
    · simp [hki, hi]
    · have : x.testBit i = false :=
        Nat.testBit_lt_two_pow (hx.trans_le (Nat.pow_le_pow_right (by decide) (not_lt.mp hi)))
      simp [this]
  · have : i < k := not_le.mp hki
    simp [hki, this]

/-- Setting the low `k` bits, and one more. -/
theorem or_mask_succ (x k : ℕ) : (x ||| (2 ^ k - 1)) + 1 = (x / 2 ^ k + 1) * 2 ^ k := by
  have hpos : 0 < 2 ^ k := by positivity
  have hlow : x % 2 ^ k ||| (2 ^ k - 1) = 2 ^ k - 1 := by
    apply Nat.eq_of_testBit_eq
    intro i
    rw [Nat.testBit_or, Nat.testBit_mod_two_pow, Nat.testBit_two_pow_sub_one]
    cases decide (i < k) <;> simp
  have hor : x ||| (2 ^ k - 1) = 2 ^ k * (x / 2 ^ k) + (2 ^ k - 1) := by
    nth_rewrite 1 [← Nat.div_add_mod x (2 ^ k)]
    rw [Nat.two_pow_add_eq_or_of_lt (Nat.mod_lt _ hpos), Nat.two_pow_add_eq_or_of_lt (by omega),
      Nat.or_assoc, hlow]
  rw [hor, Nat.mul_comm, Nat.add_mul]
  omega

theorem and_seven (n : ℕ) : n &&& 7 = n % 8 := Nat.and_two_pow_sub_one_eq_mod n 3

/-- A multiple of `2 ^ k` has no low bits. -/
theorem or_and_low {n f m k : ℕ} (hm : m < 2 ^ k) : (n * 2 ^ k ||| f) &&& m = f &&& m := by
  apply Nat.eq_of_testBit_eq
  intro i
  rw [Nat.testBit_and, Nat.testBit_or, Nat.testBit_mul_two_pow, Nat.testBit_and]
  by_cases hi : k ≤ i
  · rw [Nat.testBit_lt_two_pow (hm.trans_le (Nat.pow_le_pow_right (by decide) hi)), Bool.and_false,
      Bool.and_false]
  · simp [hi]

/-- The high bits of a multiple of `2 ^ k` with some low bits set. -/
theorem or_and_high {n f k : ℕ} (hf : f < 2 ^ k) (hk : k ≤ 32) (hn : n * 2 ^ k + f < 2 ^ 32) :
    (n * 2 ^ k ||| f) &&& (2 ^ 32 - 1 - (2 ^ k - 1)) = n * 2 ^ k := by
  have hpos : 0 < 2 ^ k := by positivity
  have hor : n * 2 ^ k ||| f = n * 2 ^ k + f := by
    rw [Nat.mul_comm]
    exact (Nat.two_pow_add_eq_or_of_lt hf n).symm
  rw [hor, and_compl_mask hn hk, Nat.mul_comm n, Nat.mul_add_div hpos, Nat.div_eq_of_lt hf,
    Nat.add_zero, Nat.mul_comm]

end Machinery
