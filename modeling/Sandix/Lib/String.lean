import Sandix.Machinery.Bytes
import Sandix.Machinery.Exec

/-!
# Lib/String — the string functions in C

The generic versions of `lib/string.c`, over byte memory.  A function that writes returns its value and
memory; one whose only bound is the end of a string runs on a budget.  A string is a `CString`: a pointer
that is not null, and bytes up to the first that is zero.

What these functions leave in memory is one `overwrite` each (`memmove_eq`, `strncpy_eq`, `strncat_eq`),
and what they return is said of the two strings (`strncmp_eq_zero_iff`, `strstr_spec`).
-/

namespace Sandix

open Machinery Function

/-- The ascending loop of `memmove`. -/
def memmoveUp (m : ℕ → UInt8) (tmp s : ℕ) : ℕ → ℕ → UInt8
  | 0 => m
  | count + 1 => memmoveUp (update m (tmp % 2 ^ 32) (m (s % 2 ^ 32))) (tmp + 1) (s + 1) count

/-- The descending loop of `memmove`: the pointers stand `count` bytes up. -/
def memmoveDown (m : ℕ → UInt8) (dest src : ℕ) : ℕ → ℕ → UInt8
  | 0 => m
  | count + 1 =>
    memmoveDown (update m ((dest + count) % 2 ^ 32) (m ((src + count) % 2 ^ 32))) dest src count

/-- `memmove`. -/
def memmove (m : ℕ → UInt8) (dest src count : ℕ) : ℕ × (ℕ → UInt8) :=
  (dest, if dest ≤ src then memmoveUp m dest src count else memmoveDown m dest src count)

/-- The loop of `strncpy`. -/
def strncpyLoop (m : ℕ → UInt8) (tmp src : ℕ) : ℕ → ℕ → UInt8
  | 0 => m
  | count + 1 =>
    let c := m (src % 2 ^ 32)
    strncpyLoop (update m (tmp % 2 ^ 32) c) (tmp + 1) (if c ≠ 0 then src + 1 else src) count

/-- `strncpy`. -/
def strncpy (m : ℕ → UInt8) (dest src count : ℕ) : ℕ × (ℕ → UInt8) :=
  (dest, strncpyLoop m dest src count)

/-- A pointer is moved on while it does not point to a NUL. -/
def skipTextStep (m : ℕ → UInt8) (p : ℕ) : Exec (ℕ ⊕ ℕ) :=
  if m (p % 2 ^ 32) ≠ 0 then .ok (.inl (p + 1)) else .ok (.inr p)

def skipText (fuel : ℕ) (m : ℕ → UInt8) (p : ℕ) : Exec ℕ := Exec.loop (skipTextStep m) fuel p

/-- `strlen`. -/
def strlen (fuel : ℕ) (m : ℕ → UInt8) (s : ℕ) : Exec ℕ := do
  let sc ← skipText fuel m s
  return sc - s

/-- `strnlen`, from position `i` on. -/
def strnlen (s : ℕ → UInt8) : ℕ → ℕ → ℕ
  | 0, i => i
  | n + 1, i => if s i = 0 then i else strnlen s n (i + 1)

/-- The appending loop of `strncat`; when the limit is used up the string is ended. -/
def strncatLoop (m : ℕ → UInt8) (dest src : ℕ) : ℕ → ℕ → UInt8
  | 0 => update m (dest % 2 ^ 32) 0
  | count + 1 =>
    let c := m (src % 2 ^ 32)
    let m := update m (dest % 2 ^ 32) c
    if c ≠ 0 then strncatLoop m (dest + 1) (src + 1) count else m

/-- `strncat`. -/
def strncat (fuel : ℕ) (m : ℕ → UInt8) (dest src count : ℕ) : Exec (ℕ × (ℕ → UInt8)) := do
  let tmp := dest
  if count ≠ 0 then
    let dest ← skipText fuel m dest
    return (tmp, strncatLoop m dest src count)
  else return (tmp, m)

/-- `strncmp`. -/
def strncmp (m : ℕ → UInt8) (cs ct : ℕ) : ℕ → ℤ
  | 0 => 0
  | count + 1 =>
    let c1 := m (cs % 2 ^ 32)
    let c2 := m (ct % 2 ^ 32)
    if c1 ≠ c2 then if c1 < c2 then -1 else 1
    else if c1 = 0 then 0
    else strncmp m (cs + 1) (ct + 1) count

/-- `memcmp`. -/
def memcmp (m : ℕ → UInt8) (su1 su2 : ℕ) : ℕ → ℤ
  | 0 => 0
  | count + 1 =>
    let res : ℤ := (m (su1 % 2 ^ 32)).toNat - (m (su2 % 2 ^ 32)).toNat
    if res ≠ 0 then res else memcmp m (su1 + 1) (su2 + 1) count

/-- The loop of `strstr`, with `l1` bytes left of the string searched; `l2` is not 0. -/
def strstrLoop (m : ℕ → UInt8) (s2 l2 : ℕ) : ℕ → ℕ → ℕ
  | _, 0 => 0
  | s1, l1 + 1 =>
    if l1 + 1 ≥ l2 then
      if memcmp m s1 s2 l2 = 0 then s1 else strstrLoop m s2 l2 (s1 + 1) l1
    else 0

/-- `strstr`. -/
def strstr (fuel : ℕ) (m : ℕ → UInt8) (s1 s2 : ℕ) : Exec ℕ := do
  let l2 ← strlen fuel m s2
  if l2 = 0 then return s1
  else
    let l1 ← strlen fuel m s1
    return strstrLoop m s2 l2 s1 l1

/-! ## `memmove` -/

section Memmove

variable {m : ℕ → UInt8} {dest src : ℕ}

theorem memmoveUp_eq (h : dest ≤ src) : ∀ {count k : ℕ}, dest + k + count ≤ 2 ^ 32 →
    src + k + count ≤ 2 ^ 32 → memmoveUp (overwrite m dest m src k) (dest + k) (src + k) count =
      overwrite m dest m src (k + count)
  | 0, k, _, _ => by rw [memmoveUp, Nat.add_zero]
  | count + 1, k, hd, hs => by
      rw [memmoveUp, overwrite_one (by omega) (by omega), overwrite_forward h, Nat.add_assoc,
        Nat.add_assoc, memmoveUp_eq h (by omega) (by omega)]
      congr 1
      omega

theorem memmoveDown_eq (h : src ≤ dest) : ∀ {count k : ℕ}, dest + count ≤ 2 ^ 32 →
    src + count ≤ 2 ^ 32 →
    memmoveDown (overwrite m (dest + count) m (src + count) k) dest src count =
      overwrite m dest m src (count + k)
  | 0, k, _, _ => by
      rw [memmoveDown]
      simp only [Nat.add_zero, Nat.zero_add]
  | count + 1, k, hd, hs => by
      have hback : overwrite (overwrite m (dest + count + 1) m (src + count + 1) k) (dest + count)
          (overwrite m (dest + count + 1) m (src + count + 1) k) (src + count) 1 =
          overwrite m (dest + count) m (src + count) (1 + k) :=
        overwrite_backward (by omega) 1 k
      rw [memmoveDown, overwrite_one (by omega) (by omega), ← Nat.add_assoc, ← Nat.add_assoc, hback,
        memmoveDown_eq h (by omega) (by omega)]
      congr 1
      omega

/-- **`memmove` moves the block**, however the two overlap. -/
theorem memmove_eq {count : ℕ} (hd : dest + count ≤ 2 ^ 32) (hs : src + count ≤ 2 ^ 32) :
    memmove m dest src count = (dest, overwrite m dest m src count) := by
  rw [memmove]
  congr 1
  split_ifs with h
  · have hup := memmoveUp_eq (m := m) (k := 0) h hd hs
    rwa [overwrite_zero, Nat.add_zero, Nat.add_zero, Nat.zero_add] at hup
  · have hdown := memmoveDown_eq (m := m) (k := 0) (not_le.mp h).le hd hs
    rwa [overwrite_zero, Nat.add_zero] at hdown

end Memmove

/-! ## Strings -/

/-- A string of `l` characters at `a`. -/
structure CString (m : ℕ → UInt8) (a l : ℕ) : Prop where
  nonnull : a ≠ 0
  fits : a + l < 2 ^ 32
  text : ∀ i < l, m (a + i) ≠ 0
  nul : m (a + l) = 0

/-- The `l` characters at `a`, followed by NULs. -/
def textAt (m : ℕ → UInt8) (a l i : ℕ) : UInt8 := if i < l then m (a + i) else 0

section Text

variable {m : ℕ → UInt8} {a l i : ℕ}

theorem textAt_of_lt (h : i < l) : textAt m a l i = m (a + i) := if_pos h

theorem textAt_of_le (h : l ≤ i) : textAt m a l i = 0 := if_neg (not_lt.mpr h)

namespace CString

theorem textAt_of_le_length (h : CString m a l) (hi : i ≤ l) : textAt m a l i = m (a + i) := by
  rcases hi.lt_or_eq with hi | rfl
  · exact textAt_of_lt hi
  · rw [textAt_of_le le_rfl, h.nul]

theorem textAt_ne_zero (h : CString m a l) : textAt m a l i ≠ 0 ↔ i < l := by
  refine ⟨fun hne => ?_, fun hi => ?_⟩
  · by_contra hi
    exact hne (textAt_of_le (not_lt.mp hi))
  · rw [textAt_of_lt hi]
    exact h.text i hi

theorem skipText_eq (h : CString m a l) {fuel : ℕ} (hfuel : l < fuel) :
    skipText fuel m a = .ok (a + l) := by
  obtain ⟨p, hp, rfl⟩ := Exec.loop_spec (skipTextStep m) (fun k p => k ≤ l ∧ p = a + (l - k))
    (fun p => p = a + l) (fun k p hI => by
      obtain ⟨hk, rfl⟩ := hI
      have hmod : (a + (l - k)) % 2 ^ 32 = a + (l - k) := Nat.mod_eq_of_lt (by have := h.fits; omega)
      rw [skipTextStep, hmod]
      by_cases hpos : 0 < k
      · exact Or.inl ⟨k - 1, _, if_pos (h.text _ (by omega)), by omega, by omega, by omega⟩
      · obtain rfl : k = 0 := by omega
        exact Or.inr ⟨_, if_neg (not_not.mpr h.nul), rfl⟩)
    (k := l) (s := a) ⟨le_rfl, by omega⟩ hfuel
  exact hp

theorem strlen_eq (h : CString m a l) {fuel : ℕ} (hfuel : l < fuel) : strlen fuel m a = .ok l := by
  rw [strlen, h.skipText_eq hfuel, Exec.ok_bind, Exec.pure_eq_ok, Nat.add_sub_cancel_left]

end CString

end Text

/-! ## `strncpy` and `strncat` -/

section Copy

variable {m : ℕ → UInt8} {dest src sl : ℕ}

/-- A byte of the string is seen through what is written apart from it. -/
theorem CString.byte_overwrite (hs : CString m src sl) {k i : ℕ} {t : ℕ → UInt8}
    (hapart : BlocksApart dest k src (sl + 1)) (hi : i ≤ sl) :
    overwrite m dest t 0 k ((src + i) % 2 ^ 32) = textAt m src sl i := by
  have hfits := hs.fits
  unfold BlocksApart at hapart
  rw [Nat.mod_eq_of_lt (by omega), overwrite_of_notMem (by omega), hs.textAt_of_le_length hi]

theorem textAt_min (k : ℕ) : textAt m src sl (min k sl) = textAt m src sl k := by
  rcases Nat.lt_or_ge k sl with h | h
  · rw [Nat.min_eq_left h.le]
  · rw [Nat.min_eq_right h, textAt_of_le le_rfl, textAt_of_le h]

theorem strncpyLoop_eq (hs : CString m src sl) : ∀ {count k : ℕ}, dest + (k + count) ≤ 2 ^ 32 →
    BlocksApart dest (k + count) src (sl + 1) →
    strncpyLoop (overwrite m dest (textAt m src sl) 0 k) (dest + k) (src + min k sl) count =
      overwrite m dest (textAt m src sl) 0 (k + count)
  | 0, k, _, _ => by rw [strncpyLoop, Nat.add_zero]
  | count + 1, k, hd, hapart => by
      have hsrc : (if textAt m src sl k ≠ 0 then src + min k sl + 1 else src + min k sl) =
          src + min (k + 1) sl := by
        simp only [hs.textAt_ne_zero]
        split_ifs <;> omega
      have hbyte : textAt m src sl k = textAt m src sl (0 + k) := by rw [Nat.zero_add]
      rw [strncpyLoop, hs.byte_overwrite (by unfold BlocksApart at *; omega) (Nat.min_le_right k sl),
        textAt_min, hsrc, Nat.mod_eq_of_lt (by omega), hbyte, overwrite_succ, Nat.add_assoc,
        strncpyLoop_eq hs (by omega) (by convert hapart using 1; omega)]
      congr 1
      omega

/-- **`strncpy` writes the string, padded with NULs.** -/
theorem strncpy_eq (hs : CString m src sl) {count : ℕ} (hd : dest + count ≤ 2 ^ 32)
    (hapart : BlocksApart dest count src (sl + 1)) :
    strncpy m dest src count = (dest, overwrite m dest (textAt m src sl) 0 count) := by
  have hd' : dest + (0 + count) ≤ 2 ^ 32 := by rwa [Nat.zero_add]
  have hloop := strncpyLoop_eq hs hd' (by rwa [Nat.zero_add])
  rw [overwrite_zero, Nat.zero_min, Nat.add_zero, Nat.add_zero, Nat.zero_add] at hloop
  rw [strncpy, hloop]

/-- The last byte of a copied text. -/
theorem overwrite_textAt_end (m m' : ℕ → UInt8) (a src l : ℕ) :
    update (overwrite m a (textAt m' src l) 0 l) (a + l) 0 =
      overwrite m a (textAt m' src l) 0 (l + 1) := by
  rw [← overwrite_succ, Nat.zero_add, textAt_of_le le_rfl]

theorem strncatLoop_eq (hs : CString m src sl) {e l : ℕ} (he : e + l < 2 ^ 32)
    (hapart : BlocksApart e (l + 1) src (sl + 1)) : ∀ {count k : ℕ}, k ≤ l → l = min (k + count) sl →
    strncatLoop (overwrite m e (textAt m src l) 0 k) (e + k) (src + k) count =
      overwrite m e (textAt m src l) 0 (l + 1)
  | 0, k, hk, hl => by
      obtain rfl : k = l := by omega
      rw [strncatLoop, Nat.mod_eq_of_lt he, overwrite_textAt_end]
  | count + 1, k, hk, hl => by
      have hbyte : overwrite m e (textAt m src l) 0 k ((src + k) % 2 ^ 32) = textAt m src sl k :=
        hs.byte_overwrite (by unfold BlocksApart at *; omega) (by omega)
      rw [strncatLoop, hbyte, Nat.mod_eq_of_lt (by omega)]
      simp only [hs.textAt_ne_zero]
      split_ifs with hkl
      · have hnext : textAt m src sl k = textAt m src l (0 + k) := by
          rw [Nat.zero_add, textAt_of_lt hkl, textAt_of_lt (by omega)]
        rw [hnext, overwrite_succ, Nat.add_assoc, Nat.add_assoc,
          strncatLoop_eq hs he hapart (by omega) (by omega)]
      · obtain rfl : k = l := by omega
        rw [textAt_of_le (by omega), overwrite_textAt_end]

/-- `strncat` returns the same on every budget it returns on. -/
theorem strncat_unique {count fuel fuel' : ℕ} {r r' : ℕ × (ℕ → UInt8)}
    (h : strncat fuel m dest src count = .ok r) (h' : strncat fuel' m dest src count = .ok r') :
    r = r' := by
  rw [strncat] at h h'
  split_ifs at h h' with hcount
  · obtain ⟨p, hp, hret⟩ := Exec.bind_eq_ok.mp h
    obtain ⟨p', hp', hret'⟩ := Exec.bind_eq_ok.mp h'
    rw [Exec.loop_unique hp hp'] at hret
    exact Except.ok.inj (hret.symm.trans hret')
  · exact Except.ok.inj (h.symm.trans h')

/-- **`strncat` appends the string, up to the limit, and a NUL.** -/
theorem strncat_eq {dl count fuel : ℕ} (hd : CString m dest dl) (hs : CString m src sl)
    (hfits : dest + dl + min count sl < 2 ^ 32)
    (hapart : BlocksApart (dest + dl) (min count sl + 1) src (sl + 1)) (hfuel : dl < fuel) :
    strncat fuel m dest src count =
      .ok (dest, overwrite m (dest + dl) (textAt m src (min count sl)) 0 (min count sl + 1)) := by
  rw [strncat]
  split_ifs with hcount
  · have hlimit : min count sl = min (0 + count) sl := by rw [Nat.zero_add]
    have hloop := strncatLoop_eq hs hfits hapart (Nat.zero_le _) hlimit
    rw [overwrite_zero, Nat.add_zero, Nat.add_zero] at hloop
    rw [hd.skipText_eq hfuel, Exec.ok_bind, hloop, Exec.pure_eq_ok]
  · obtain rfl : count = 0 := not_not.mp hcount
    rw [Nat.zero_min, ← overwrite_textAt_end, overwrite_zero, Nat.add_zero, ← hd.nul, update_eq_self,
      Exec.pure_eq_ok]

end Copy

/-! ## `strncmp` and `strnlen` -/

section Limited

variable {m : ℕ → UInt8} {cs ct cl tl : ℕ}

theorem CString.byte_eq (h : CString m cs cl) {i : ℕ} (hi : i ≤ cl) :
    m ((cs + i) % 2 ^ 32) = textAt m cs cl i := by
  have hfits := h.fits
  rw [Nat.mod_eq_of_lt (by omega), h.textAt_of_le_length hi]

theorem strncmp_eq_zero_from (hcs : CString m cs cl) (hct : CString m ct tl) :
    ∀ {count k : ℕ}, k ≤ cl → k ≤ tl → (strncmp m (cs + k) (ct + k) count = 0 ↔
      ∀ i, k ≤ i → i < k + count → textAt m cs cl i = textAt m ct tl i)
  | 0, k, _, _ => by
      rw [strncmp]
      exact iff_of_true rfl fun i hi hi' => absurd hi' (by omega)
  | count + 1, k, hk, hk' => by
      have hsplit : (∀ i, k ≤ i → i < k + (count + 1) → textAt m cs cl i = textAt m ct tl i) ↔
          textAt m cs cl k = textAt m ct tl k ∧
            ∀ i, k + 1 ≤ i → i < k + 1 + count → textAt m cs cl i = textAt m ct tl i := by
        refine ⟨fun h => ⟨h k le_rfl (by omega), fun i hi hi' => h i (by omega) (by omega)⟩,
          fun h i hi hi' => ?_⟩
        rcases hi.lt_or_eq with hi | rfl
        · exact h.2 i hi (by omega)
        · exact h.1
      rw [strncmp, hcs.byte_eq hk, hct.byte_eq hk', hsplit]
      split_ifs with hne hlt h₀
      · exact iff_of_false (by decide) fun h => hne h.1
      · exact iff_of_false (by decide) fun h => hne h.1
      · -- both strings end here, and the padding agrees
        have hends : cl ≤ k ∧ tl ≤ k := by
          refine ⟨not_lt.mp fun h => hcs.textAt_ne_zero.mpr h h₀, not_lt.mp fun h => ?_⟩
          exact hct.textAt_ne_zero.mpr h ((not_not.mp hne).symm.trans h₀)
        refine iff_of_true rfl ⟨not_not.mp hne, fun i hi _ => ?_⟩
        rw [textAt_of_le (by omega), textAt_of_le (by omega)]
      · have hk₁ : k < cl := hcs.textAt_ne_zero.mp h₀
        have hk₂ : k < tl := hct.textAt_ne_zero.mp fun h => h₀ ((not_not.mp hne).trans h)
        rw [Nat.add_assoc, Nat.add_assoc, strncmp_eq_zero_from hcs hct hk₁ hk₂]
        exact (and_iff_right (not_not.mp hne)).symm

/-- **`strncmp` finds no difference exactly when the strings agree up to the limit.** -/
theorem strncmp_eq_zero_iff (hcs : CString m cs cl) (hct : CString m ct tl) {count : ℕ} :
    strncmp m cs ct count = 0 ↔ ∀ i < count, textAt m cs cl i = textAt m ct tl i := by
  have h := @strncmp_eq_zero_from m cs ct cl tl hcs hct count 0 (Nat.zero_le cl) (Nat.zero_le tl)
  rw [Nat.add_zero, Nat.add_zero, Nat.zero_add] at h
  exact h.trans ⟨fun h i hi => h i (Nat.zero_le i) hi, fun h i _ hi => h i hi⟩

theorem CString.strnlen_from (h : CString m cs cl) : ∀ {count i : ℕ}, i ≤ cl →
    strnlen (fun i => m ((cs + i) % 2 ^ 32)) count i = min (i + count) cl
  | 0, i, hi => by rw [strnlen, Nat.add_zero, Nat.min_eq_left hi]
  | count + 1, i, hi => by
      rw [strnlen, h.byte_eq hi]
      split_ifs with h₀
      · have hle : cl ≤ i := not_lt.mp fun hlt => h.textAt_ne_zero.mpr hlt h₀
        omega
      · have hlt : i < cl := h.textAt_ne_zero.mp h₀
        rw [CString.strnlen_from h hlt]
        congr 1
        omega

end Limited

/-! ## `strstr` -/

/-- The `tl` characters at `ct` occur at place `i` of the `cl` characters at `cs`. -/
def Occurs (m : ℕ → UInt8) (cs cl ct tl i : ℕ) : Prop :=
  i + tl ≤ cl ∧ ∀ j < tl, m (cs + i + j) = m (ct + j)

/-- `r` points to the first place where the one string occurs in the other, or is null if there is
none. -/
def FirstOccurrence (m : ℕ → UInt8) (cs cl ct tl r : ℕ) : Prop :=
  (∃ i, r = cs + i ∧ Occurs m cs cl ct tl i ∧ ∀ i' < i, ¬Occurs m cs cl ct tl i') ∨
    r = 0 ∧ ∀ i, ¬Occurs m cs cl ct tl i

section Search

variable {m : ℕ → UInt8} {cs cl ct tl : ℕ}

theorem FirstOccurrence.unique {r r' : ℕ} (h : FirstOccurrence m cs cl ct tl r)
    (h' : FirstOccurrence m cs cl ct tl r') : r = r' := by
  rcases h with ⟨i, rfl, hi, hmin⟩ | ⟨rfl, hnone⟩
  · rcases h' with ⟨i', rfl, hi', hmin'⟩ | ⟨rfl, hnone⟩
    · rcases Nat.lt_trichotomy i i' with hlt | rfl | hlt
      · exact absurd hi (hmin' i hlt)
      · rfl
      · exact absurd hi' (hmin i' hlt)
    · exact absurd hi (hnone i)
  · rcases h' with ⟨i', rfl, hi', _⟩ | ⟨rfl, _⟩
    · exact absurd hi' (hnone i')
    · rfl

theorem memcmp_eq_zero_iff : ∀ {count su1 su2 : ℕ}, memcmp m su1 su2 count = 0 ↔
    ∀ j < count, m ((su1 + j) % 2 ^ 32) = m ((su2 + j) % 2 ^ 32)
  | 0, _, _ => by
      rw [memcmp]
      exact iff_of_true rfl fun j hj => absurd hj (Nat.not_lt_zero j)
  | count + 1, su1, su2 => by
      rw [memcmp, Nat.forall_lt_succ_left]
      split_ifs with hne
      · refine iff_of_false hne fun h => hne ?_
        rw [show m (su1 % 2 ^ 32) = m (su2 % 2 ^ 32) from h.1, Int.sub_self]
      · have hsame : m (su1 % 2 ^ 32) = m (su2 % 2 ^ 32) := UInt8.toNat_inj.mp (by omega)
        rw [memcmp_eq_zero_iff]
        refine ⟨fun h => ⟨hsame, fun j hj => ?_⟩, fun h j hj => ?_⟩
        · rw [Nat.add_comm j, ← Nat.add_assoc, ← Nat.add_assoc]
          exact h j hj
        · rw [Nat.add_assoc, Nat.add_assoc, Nat.add_comm 1]
          exact h.2 j hj

/-- The comparison of `strstr` at place `k`. -/
theorem memcmp_occurs (hcs : CString m cs cl) (hct : CString m ct tl) {k : ℕ} (hk : k + tl ≤ cl) :
    memcmp m (cs + k) ct tl = 0 ↔ Occurs m cs cl ct tl k := by
  have hfits := hcs.fits
  have hfits' := hct.fits
  rw [memcmp_eq_zero_iff, Occurs, and_iff_right hk]
  refine forall₂_congr fun j hj => ?_
  rw [Nat.mod_eq_of_lt (by omega), Nat.mod_eq_of_lt (by omega)]

theorem strstrLoop_spec (hcs : CString m cs cl) (hct : CString m ct tl) (htl : tl ≠ 0) :
    ∀ {l1 k : ℕ}, k + l1 = cl → (∀ i < k, ¬Occurs m cs cl ct tl i) →
      FirstOccurrence m cs cl ct tl (strstrLoop m ct tl (cs + k) l1)
  | 0, k, hk, hno => by
      refine Or.inr ⟨by rw [strstrLoop], fun i hi => ?_⟩
      exact hno i (by have := hi.1; omega) hi
  | l1 + 1, k, hk, hno => by
      rw [strstrLoop]
      split_ifs with hlen hcmp
      · exact Or.inl ⟨k, rfl, (memcmp_occurs hcs hct (by omega)).mp hcmp, hno⟩
      · refine strstrLoop_spec hcs hct htl (k := k + 1) (by omega) fun i hi => ?_
        rcases Nat.lt_succ_iff_lt_or_eq.mp hi with hi | rfl
        · exact hno i hi
        · exact fun h => hcmp ((memcmp_occurs hcs hct (by omega)).mpr h)
      · refine Or.inr ⟨rfl, fun i hi => hno i ?_ hi⟩
        have := hi.1
        omega

/-- **`strstr` finds the first occurrence.** -/
theorem strstr_spec (hcs : CString m cs cl) (hct : CString m ct tl) {fuel : ℕ} (hcl : cl < fuel)
    (htl : tl < fuel) : ∃ r, strstr fuel m cs ct = .ok r ∧ FirstOccurrence m cs cl ct tl r := by
  rw [strstr, hct.strlen_eq htl, Exec.ok_bind]
  split_ifs with h₀
  · refine ⟨cs, rfl, Or.inl ⟨0, rfl, ⟨by omega, fun j hj => absurd hj (by omega)⟩, ?_⟩⟩
    exact fun i hi => absurd hi (Nat.not_lt_zero i)
  · rw [hcs.strlen_eq hcl, Exec.ok_bind]
    exact ⟨_, rfl, strstrLoop_spec hcs hct h₀ (k := 0) (Nat.zero_add cl)
      fun i hi => absurd hi (Nat.not_lt_zero i)⟩

end Search

end Sandix
