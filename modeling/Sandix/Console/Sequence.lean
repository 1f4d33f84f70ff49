import Sandix.Machinery.Numeral
import Sandix.Console.Cursor

/-!
# Console/Sequence — a control sequence as it is typed

`CSI n c` is the bytes `ESC [`, the decimal digits of `n` and the final byte `c`.

* `conSteps_csiSeq` — from plain text, the whole sequence does what `VT_CSI_HANDLE` does on `c` with
  `n` as the only parameter, and the scanner is back to plain text.
-/

namespace Sandix

open Machinery Function

variable {vga : VgaVars} {vc : VcStruct}

/-- `CSI n c`. -/
def csiSeq (n : ℕ) (c : UInt8) : List UInt8 :=
  27 :: 91 :: ((numeral 10 n).reverse.map (fun d => UInt8.ofNat (48 + d)) ++ [c])

/-- The console as `VT_CSI_HANDLE` finds it, with the single parameter `n`. -/
def withParameter (vc : VcStruct) (n : ℕ) : VcStruct :=
  { vc with par := update (clearPar vc).par 0 n, npar := 0 }

@[simp] theorem withParameter_par (vc : VcStruct) (n : ℕ) : (withParameter vc n).par 0 = n := by
  simp [withParameter]

theorem toNat_digit {d : ℕ} (hd : d < 10) : (UInt8.ofNat (48 + d)).toNat = 48 + d := by
  rw [UInt8.toNat_ofNat']
  omega

/-- A byte is the character whose code it is. -/
theorem ofNat_toNat_eq_iff (c : UInt8) (ch : Char) : Char.ofNat c.toNat = ch ↔ c.toNat = ch.toNat := by
  have hvalid : Nat.isValidChar c.toNat := Or.inl (by have := c.toNat_lt; omega)
  have hcode : (Char.ofNat c.toNat).toNat = c.toNat := by
    rw [Char.ofNat, dif_pos hvalid]
    rfl
  constructor
  · rintro rfl
    exact hcode.symm
  · intro h
    rw [h, Char.ofNat_toNat]

/-- A byte that draws nothing. -/
theorem conSteps_cons_of_silent {t t' : Term} {b : UInt8} (h : conStep vga t b.toNat = (t', []))
    (bs : List UInt8) : conSteps vga t (b :: bs) = conSteps vga t' bs := by
  rw [conSteps, h]
  rfl

/-- A digit is taken into the parameter. -/
theorem vtCsiParameter_digit (vc : VcStruct) (n : ℕ) {d : ℕ} (hd : d < 10) :
    vtCsiParameter vc n (48 + d) =
      (⟨{ vc with par := update vc.par n ((10 * vc.par n + d) % 2 ^ 32) }, ⟨.csiParameter, n⟩⟩, []) := by
  have hsemi : ¬ (Char.ofNat (48 + d) = ';' ∧ n < nPar - 1) := by
    rintro ⟨hc, -⟩
    interval_cases d <;> exact absurd hc (by decide)
  unfold vtCsiParameter
  rw [if_neg hsemi, if_pos (by omega)]
  simp only [Nat.add_sub_cancel_left]

/-- The digits of a number, most significant first, make the number. -/
theorem foldl_numeral (n : ℕ) : (numeral 10 n).reverse.foldl (fun a d => 10 * a + d) 0 = n := by
  rw [List.foldl_reverse]
  have hof : Nat.ofDigits 10 (numeral 10 n) = n := by
    unfold numeral
    split_ifs with hn
    · rw [hn]
      rfl
    · exact Nat.ofDigits_digits 10 n
  rw [Nat.ofDigits_eq_foldr] at hof
  simpa only [Nat.cast_id, add_comm] using hof

/-- A string of digits is taken into the parameter, digit by digit. -/
theorem conSteps_digits (rest : List UInt8) : ∀ (ds : List ℕ), (∀ d ∈ ds, d < 10) →
    ∀ (vc : VcStruct) (a : ℕ), vc.par 0 = a % 2 ^ 32 →
    conSteps vga ⟨vc, ⟨.csiParameter, 0⟩⟩ (ds.map (fun d => UInt8.ofNat (48 + d)) ++ rest) =
      conSteps vga ⟨{ vc with
        par := update vc.par 0 (ds.foldl (fun a d => 10 * a + d) a % 2 ^ 32) }, ⟨.csiParameter, 0⟩⟩ rest
  | [], _, vc, a, ha => by
      rw [List.foldl_nil, ← ha, update_eq_self]
      rfl
  | d :: ds, hds, vc, a, ha => by
      have hd : d < 10 := hds d List.mem_cons_self
      have hstep : (10 * vc.par 0 + d) % 2 ^ 32 = (10 * a + d) % 2 ^ 32 := by
        rw [ha]
        omega
      have hdigit : conStep vga ⟨vc, ⟨.csiParameter, 0⟩⟩ (UInt8.ofNat (48 + d)).toNat =
          (⟨{ vc with par := update vc.par 0 ((10 * a + d) % 2 ^ 32) }, ⟨.csiParameter, 0⟩⟩, []) := by
        rw [toNat_digit hd, ← hstep]
        exact vtCsiParameter_digit vc 0 hd
      rw [List.map_cons, List.cons_append, conSteps_cons_of_silent hdigit,
        conSteps_digits rest ds (fun e he => hds e (List.mem_cons_of_mem _ he)) _ (10 * a + d)
          (by simp), List.foldl_cons]
      simp only [update_idem]

/-- The bytes that end a control sequence with no separator in it. -/
def Final (c : UInt8) : Prop := c.toNat ≠ 59 ∧ ¬ (48 ≤ c.toNat ∧ c.toNat ≤ 57)

/-- **A control sequence of one parameter**, from plain text to plain text. -/
theorem conSteps_csiSeq {n : ℕ} (hn : n < 2 ^ 32) {c : UInt8} (hc : Final c) (m : ℕ) :
    conSteps vga ⟨vc, ⟨.normal, m⟩⟩ (csiSeq n c) =
      (⟨(csiHandle (withParameter vc n) c.toNat).1, ⟨.normal, 0⟩⟩,
        (csiHandle (withParameter vc n) c.toNat).2) := by
  obtain ⟨d, ds, hds⟩ : ∃ d ds, (numeral 10 n).reverse = d :: ds := by
    cases h : (numeral 10 n).reverse with
    | nil => exact absurd (List.reverse_eq_nil_iff.mp h) (numeral_ne_nil 10 n)
    | cons d ds => exact ⟨d, ds, rfl⟩
  have hdigit : ∀ e ∈ d :: ds, e < 10 := by
    rw [← hds]
    exact fun e he => numeral_lt (by decide) (List.mem_reverse.mp he)
  have hd : d < 10 := hdigit d List.mem_cons_self
  have hvalue := foldl_numeral n
  rw [hds] at hvalue
  -- the first digit clears the parameters and is then taken as any other
  have hfirst : conStep vga ⟨vc, ⟨.csiQuestion, m⟩⟩ (48 + d) =
      conStep vga ⟨clearPar vc, ⟨.csiParameter, 0⟩⟩ (48 + d) := by
    have hq : Char.ofNat (48 + d) ≠ '?' := by
      intro hq
      interval_cases d <;> exact absurd hq (by decide)
    simp only [conStep, if_neg hq]
  have hopen : conSteps vga ⟨vc, ⟨.normal, m⟩⟩ (csiSeq n c) =
      conSteps vga ⟨clearPar vc, ⟨.csiParameter, 0⟩⟩
        ((d :: ds).map (fun d => UInt8.ofNat (48 + d)) ++ [c]) := by
    have hesc : conStep vga ⟨vc, ⟨.normal, m⟩⟩ (27 : UInt8).toNat = (⟨vc, ⟨.esc, m⟩⟩, []) := rfl
    have hcsi : conStep vga ⟨vc, ⟨.esc, m⟩⟩ (91 : UInt8).toNat = (⟨vc, ⟨.csiQuestion, m⟩⟩, []) := rfl
    rw [csiSeq, hds, conSteps_cons_of_silent hesc, conSteps_cons_of_silent hcsi, List.map_cons,
      List.cons_append, conSteps, conSteps, toNat_digit hd, hfirst]
  have hpar : (clearPar vc).par 0 = 0 % 2 ^ 32 := rfl
  rw [hopen, conSteps_digits [c] (d :: ds) hdigit (clearPar vc) 0 hpar, hvalue, Nat.mod_eq_of_lt hn]
  -- the final byte
  have hsemi : ¬ (Char.ofNat c.toNat = ';' ∧ 0 < nPar - 1) := by
    rintro ⟨h, -⟩
    exact hc.1 ((ofNat_toNat_eq_iff c ';').mp h)
  simp only [conSteps, conStep, vtCsiParameter, if_neg hsemi, if_neg hc.2, List.append_nil]
  rfl

/-- `ESC c`, for the sequences of two bytes. -/
theorem conSteps_esc (m : ℕ) {c : UInt8} (hc : Char.ofNat c.toNat ≠ '[') :
    conSteps vga ⟨vc, ⟨.normal, m⟩⟩ [27, c] =
      (⟨(vtEsc vga vc c.toNat).1, ⟨.normal, m⟩⟩, (vtEsc vga vc c.toNat).2) := by
  have hesc : conStep vga ⟨vc, ⟨.normal, m⟩⟩ (27 : UInt8).toNat = (⟨vc, ⟨.esc, m⟩⟩, []) := rfl
  rw [conSteps_cons_of_silent hesc]
  simp only [conSteps, conStep, if_neg hc, List.append_nil]

end Sandix
