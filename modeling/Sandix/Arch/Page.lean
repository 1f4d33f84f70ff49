import Sandix.Machinery.Word

/-!
# Arch/Page — pages and the kernel's view of physical memory

`arch/x86/include/asm/page.h` and `io.h`, for the 32-bit kernel: physical memory is mapped at
`pageOffset`, and an address is a 32-bit word.
-/

namespace Sandix

open Machinery

abbrev pageShift : ℕ := 12

abbrev pageSize : ℕ := 4096

/-- `PMD_SHIFT`, for two-level page tables. -/
abbrev pmdShift : ℕ := 22

/-- `PMD_SIZE`. -/
abbrev pmdSize : ℕ := 2 ^ pmdShift

/-- `CONFIG_PAGE_OFFSET`, for the default 3G/1G split. -/
abbrev pageOffset : ℕ := 0xc0000000

/-- `phys_to_virt`, and `__va`. -/
def physToVirt (address : ℕ) : ℕ := (address + pageOffset) % 2 ^ 32

/-- `virt_to_phys`. -/
def virtToPhys (address : ℕ) : ℕ := sub32 address pageOffset

theorem virtToPhys_physToVirt {address : ℕ} (h : address < 2 ^ 32) :
    virtToPhys (physToVirt address) = address := by
  rw [virtToPhys, physToVirt, sub32, pageOffset]
  omega

/-! ## Rounding -/

/-- `round_up`: `((x - 1) | (y - 1)) + 1`, on 32 bits. -/
def roundUp (x y : ℕ) : ℕ := ((sub32 x 1 ||| sub32 y 1) + 1) % 2 ^ 32

/-- `round_down`: `x & ~(y - 1)`, on 32 bits. -/
def roundDown (x y : ℕ) : ℕ := x &&& (2 ^ 32 - 1 - sub32 y 1)

theorem roundDown_le (x y : ℕ) : roundDown x y ≤ x := Nat.and_le_left

/-- A page-aligned address survives the trip through its page number. -/
theorem roundDown_page (x : ℕ) :
    (roundDown x pageSize >>> pageShift) <<< pageShift = roundDown x pageSize := by
  refine Nat.eq_of_testBit_eq fun i => ?_
  have hmask : 2 ^ 32 - 1 - sub32 pageSize 1 = 0xfffff000 := by decide
  rw [roundDown, hmask, Nat.testBit_shiftLeft]
  by_cases hi : pageShift ≤ i
  · rw [Nat.testBit_shiftRight, Nat.add_sub_cancel' hi]
    simp [hi]
  · rw [Nat.testBit_and, decide_eq_false hi, Bool.false_and]
    rw [pageShift, not_le] at hi
    interval_cases i <;> simp [Nat.testBit]

section Rounding

variable {x k : ℕ}

theorem sub32_two_pow_one (hk : k < 32) : sub32 (2 ^ k) 1 = 2 ^ k - 1 :=
  sub32_of_le (Nat.pow_lt_pow_right (by decide) hk) Nat.one_le_two_pow

/-- Rounding down to a power of two. -/
theorem roundDown_two_pow (hx : x < 2 ^ 32) (hk : k < 32) :
    roundDown x (2 ^ k) = x / 2 ^ k * 2 ^ k := by
  rw [roundDown, sub32_two_pow_one hk, and_compl_mask hx hk.le]

theorem dvd_roundDown (hk : k < 32) : 2 ^ k ∣ roundDown x (2 ^ k) := by
  have hmask : 2 ^ 32 - 1 - (2 ^ k - 1) = 2 ^ k * (2 ^ (32 - k) - 1) := by
    rw [Nat.mul_sub, ← Nat.pow_add, Nat.add_sub_cancel' hk.le, Nat.mul_one]
    have : 0 < 2 ^ k := by positivity
    omega
  rw [roundDown, sub32_two_pow_one hk, hmask, Nat.dvd_iff_mod_eq_zero, Nat.and_mod_two_pow,
    Nat.mul_mod_right, Nat.and_zero]

/-- Rounding up to a power of two; past the last multiple the result is `0`. -/
theorem roundUp_two_pow (hx : x < 2 ^ 32) (hk : k < 32) :
    roundUp x (2 ^ k) = (x + (2 ^ k - 1)) / 2 ^ k * 2 ^ k % 2 ^ 32 := by
  have hpos : 0 < 2 ^ k := by positivity
  rw [roundUp, sub32_two_pow_one hk, or_mask_succ]
  rcases Nat.eq_zero_or_pos x with rfl | hx₀
  · have hprod : 2 ^ k * 2 ^ (32 - k) = 2 ^ 32 := by rw [← Nat.pow_add, Nat.add_sub_cancel' hk.le]
    have hquot : (2 ^ 32 - 1) / 2 ^ k + 1 = 2 ^ (32 - k) := by
      have hsub := Nat.mul_sub_div 0 (2 ^ k) (2 ^ (32 - k)) (by positivity)
      rw [hprod, Nat.zero_div, Nat.zero_add] at hsub
      have : 0 < 2 ^ (32 - k) := by positivity
      omega
    rw [show sub32 0 1 = 2 ^ 32 - 1 from rfl, hquot, Nat.mul_comm, hprod, Nat.mod_self, Nat.zero_add,
      Nat.div_eq_of_lt (by omega), Nat.zero_mul, Nat.zero_mod]
  · rw [sub32_of_le hx hx₀, ← Nat.add_div_right _ hpos]
    congr 3
    omega

/-- Rounding down gives the last multiple up to `x`. -/
theorem roundDown_isGreatest (hx : x < 2 ^ 32) (hk : k < 32) :
    IsGreatest {d | 2 ^ k ∣ d ∧ d ≤ x} (roundDown x (2 ^ k)) := by
  refine ⟨⟨dvd_roundDown hk, roundDown_le _ _⟩, ?_⟩
  rintro _ ⟨⟨c, rfl⟩, hle⟩
  rw [roundDown_two_pow hx hk, Nat.mul_comm]
  exact Nat.mul_le_mul_right _ ((Nat.le_div_iff_mul_le (by positivity)).mpr (by linarith))

/-- The last multiple of a power of two below 4 GiB. -/
theorem two_pow_dvd_last (hk : k < 32) : 2 ^ k ∣ 2 ^ 32 - 2 ^ k :=
  Nat.dvd_sub (pow_dvd_pow 2 hk.le) dvd_rfl

theorem le_last_of_two_pow_dvd {d : ℕ} (hk : k < 32) (hd : 2 ^ k ∣ d) (hlt : d < 2 ^ 32) :
    d ≤ 2 ^ 32 - 2 ^ k := by
  have hle := Nat.le_of_dvd (by omega) (Nat.dvd_sub (pow_dvd_pow 2 hk.le) hd)
  omega

/-- Up to that one, rounding up gives the first multiple from `x` on. -/
theorem roundUp_isLeast (hx : x ≤ 2 ^ 32 - 2 ^ k) (hk : k < 32) :
    IsLeast {u | 2 ^ k ∣ u ∧ x ≤ u} (roundUp x (2 ^ k)) := by
  have hpos : 0 < 2 ^ k := by positivity
  have hlt : 2 ^ k < 2 ^ 32 := Nat.pow_lt_pow_right (by decide) hk
  have hceil : ∀ u, 2 ^ k ∣ u → x ≤ u → (x + (2 ^ k - 1)) / 2 ^ k * 2 ^ k ≤ u := by
    rintro _ ⟨c, rfl⟩ hle
    rw [Nat.mul_comm (2 ^ k) c] at hle ⊢
    refine Nat.mul_le_mul_right _ (Nat.lt_succ_iff.mp ?_)
    rw [Nat.div_lt_iff_lt_mul hpos, Nat.succ_mul]
    omega
  rw [roundUp_two_pow (by omega) hk, Nat.mod_eq_of_lt
    (lt_of_le_of_lt (hceil _ (two_pow_dvd_last hk) hx) (by omega))]
  refine ⟨⟨dvd_mul_left _ _, ?_⟩, fun u hu => hceil u hu.1 hu.2⟩
  have hlast := Nat.lt_div_mul_add (a := x + (2 ^ k - 1)) hpos
  omega

/-- Past it, rounding up wraps around to `0`. -/
theorem roundUp_wraps (hx : x < 2 ^ 32) (hlast : 2 ^ 32 - 2 ^ k < x) (hk : k < 32) :
    roundUp x (2 ^ k) = 0 := by
  have hpos : 0 < 2 ^ k := by positivity
  have hlt : 2 ^ k < 2 ^ 32 := Nat.pow_lt_pow_right (by decide) hk
  have hprod : 2 ^ (32 - k) * 2 ^ k = 2 ^ 32 := by rw [← Nat.pow_add, Nat.sub_add_cancel hk.le]
  have hquot : (x + (2 ^ k - 1)) / 2 ^ k = 2 ^ (32 - k) := by
    refine Nat.div_eq_of_lt_le ?_ ?_
    · rw [hprod]
      omega
    · rw [Nat.succ_mul, hprod]
      omega
  rw [roundUp_two_pow hx hk, hquot, hprod, Nat.mod_self]

theorem roundDown_pageSize (hx : x < 2 ^ 32) : roundDown x pageSize = x / pageSize * pageSize :=
  roundDown_two_pow (k := 12) hx (by decide)

/-- Rounding up to a page, from at most the start of the last one. -/
theorem roundUp_pageSize (hx : x ≤ 0xfffff000) :
    roundUp x pageSize = (x + 4095) / pageSize * pageSize := by
  rw [show pageSize = 2 ^ 12 from rfl, roundUp_two_pow (by omega) (by decide)]
  omega

/-- Rounding down to `0`, whose mask has every bit, gives `0`. -/
theorem roundDown_zero (x : ℕ) : roundDown x 0 = 0 := by
  have hmask : 2 ^ 32 - 1 - sub32 0 1 = 0 := by decide
  rw [roundDown, hmask, Nat.and_zero]

theorem roundUp_zero_left (y : ℕ) : roundUp 0 y = 0 := by
  have hones : sub32 0 1 = 2 ^ 32 - 1 := by decide
  rw [roundUp, hones, Nat.or_comm, or_mask_succ, Nat.mul_mod_left]

end Rounding

end Sandix
