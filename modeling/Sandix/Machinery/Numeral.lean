import Mathlib.Data.Nat.Digits.Lemmas
import Mathlib.Tactic

/-!
# Machinery/Numeral — the digits a program prints

`Nat.digits`, but with a digit for zero.
-/

namespace Machinery

/-- The digits of `n` in base `b`, least significant first, and a single `0` for zero. -/
def numeral (b n : ℕ) : List ℕ := if n = 0 then [0] else Nat.digits b n

variable {b n m : ℕ}

theorem numeral_of_lt (h : n < b) : numeral b n = [n] := by
  unfold numeral
  split_ifs with hn
  · rw [hn]
  · exact Nat.digits_of_lt b n hn h

/-- Digits in front of a number that is not zero. -/
theorem numeral_append (hb : 1 < b) {ds : List ℕ} (hds : ∀ d ∈ ds, d < b) (hm : m ≠ 0) :
    ds ++ numeral b m = numeral b (Nat.ofDigits b ds + b ^ ds.length * m) := by
  have hpos : 0 < b ^ ds.length * m := by positivity
  rw [numeral, numeral, if_neg hm, if_neg (by omega)]
  have hval : Nat.ofDigits b ds + b ^ ds.length * m = Nat.ofDigits b (ds ++ Nat.digits b m) := by
    rw [Nat.ofDigits_append, Nat.ofDigits_digits]
  rw [hval, Nat.digits_ofDigits b hb]
  · intro d hd
    rcases List.mem_append.mp hd with hd | hd
    · exact hds d hd
    · exact Nat.digits_lt_base hb hd
  · intro hne
    have hne' : Nat.digits b m ≠ [] := Nat.digits_ne_nil_iff_ne_zero.mpr hm
    rw [List.getLast_append_of_ne_nil _ hne']
    exact Nat.getLast_digit_ne_zero b hm

theorem numeral_cons (hb : 1 < b) (h : b ≤ n) : numeral b n = n % b :: numeral b (n / b) := by
  have hn : n ≠ 0 := by omega
  have hq : n / b ≠ 0 := (Nat.div_pos h (by omega)).ne'
  rw [numeral, numeral, if_neg hn, if_neg hq, Nat.digits_def' hb (by omega)]

theorem numeral_ne_nil (b n : ℕ) : numeral b n ≠ [] := by
  unfold numeral
  split_ifs with hn
  · simp
  · exact Nat.digits_ne_nil_iff_ne_zero.mpr hn

theorem numeral_lt (hb : 1 < b) {d : ℕ} (hd : d ∈ numeral b n) : d < b := by
  unfold numeral at hd
  split_ifs at hd
  · rw [List.mem_singleton.mp hd]
    omega
  · exact Nat.digits_lt_base hb hd

/-- A number below `b ^ k` has at most `k` digits. -/
theorem numeral_length_le (hb : 1 < b) {k : ℕ} (hk : 0 < k) (h : n < b ^ k) :
    (numeral b n).length ≤ k := by
  unfold numeral
  split_ifs
  · exact hk
  · exact (Nat.digits_length_le_iff hb n).mpr h

end Machinery
