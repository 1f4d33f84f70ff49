import Mathlib.Tactic
import Mathlib.Logic.Equiv.Basic

/-!
# Machinery/Heap — binary heaps on arrays that are functions

An array is a function `f : ℕ → α` read below some length, and exchanging two cells is composing with
`Equiv.swap`.  `HeapFrom le f lo n` is the heap order below `n` for the parents from `lo` on;
`SiftInv` is that order with the edges out of one hole left open.  A sift starts from the heap of the
later parents (`SiftInv.start`), moves the hole to its largest child (`SiftInv.swap`), and closes it
(`SiftInv.finish`).
-/

namespace Machinery

variable {α : Type*} {le : α → α → Prop} {f : ℕ → α} {lo n r c : ℕ}

/-- `c` is a child of `p`. -/
def IsChild (c p : ℕ) : Prop := c = 2 * p + 1 ∨ c = 2 * p + 2

/-- Below `n`, every child of a parent from `lo` on is at most its parent. -/
def HeapFrom (le : α → α → Prop) (f : ℕ → α) (lo n : ℕ) : Prop :=
  ∀ p c, lo ≤ p → c < n → IsChild c p → le (f c) (f p)

/-- The heap order but for the edges out of the hole `r`, whose children are still below its
parent. -/
structure SiftInv (le : α → α → Prop) (f : ℕ → α) (lo n r : ℕ) : Prop where
  heap : ∀ p c, lo ≤ p → p ≠ r → c < n → IsChild c p → le (f c) (f p)
  grand : ∀ p c, lo ≤ p → IsChild r p → c < n → IsChild c r → le (f c) (f p)

/-- The root of a heap is its largest element. -/
theorem HeapFrom.le_root (hrefl : ∀ a, le a a) (htrans : ∀ a b c, le a b → le b c → le a c)
    (h : HeapFrom le f 0 n) (k : ℕ) (hk : k < n) : le (f k) (f 0) := by
  induction k using Nat.strongRecOn with
  | ind k ih =>
    rcases Nat.eq_zero_or_pos k with rfl | hpos
    · exact hrefl _
    · have hchild : IsChild k ((k - 1) / 2) := by
        unfold IsChild
        omega
      exact htrans _ _ _ (h _ k (Nat.zero_le _) hk hchild) (ih _ (by omega) (by omega))

namespace SiftInv

/-- One more parent in front of a heap. -/
theorem start (h : HeapFrom le f (r + 1) n) : SiftInv le f r n r where
  heap p c hp hne hc hchild := h p c (by omega) hc hchild
  grand p c hp hr := by
    unfold IsChild at hr
    omega

/-- The hole is at most its parents and at least its children: nothing is left open. -/
theorem finish (h : SiftInv le f lo n r) (hr : ∀ c, c < n → IsChild c r → le (f c) (f r)) :
    HeapFrom le f lo n := by
  intro p c hp hc hchild
  by_cases hpr : p = r
  · subst hpr
    exact hr c hc hchild
  · exact h.heap p c hp hpr hc hchild

/-- The hole changes places with its largest child. -/
theorem swap (h : SiftInv le f lo n r) (hlo : lo ≤ r) (hc : IsChild c r) (hcn : c < n)
    (hmax : ∀ d, d < n → IsChild d r → le (f d) (f c)) (hrc : le (f r) (f c)) :
    SiftInv le (f ∘ Equiv.swap r c) lo n c := by
  have hne : c ≠ r := by
    unfold IsChild at hc
    omega
  have hother : ∀ d, d ≠ r → d ≠ c → (f ∘ Equiv.swap r c) d = f d := fun d h₁ h₂ => by
    rw [Function.comp_apply, Equiv.swap_apply_of_ne_of_ne h₁ h₂]
  have hatr : (f ∘ Equiv.swap r c) r = f c := by rw [Function.comp_apply, Equiv.swap_apply_left]
  have hatc : (f ∘ Equiv.swap r c) c = f r := by rw [Function.comp_apply, Equiv.swap_apply_right]
  constructor
  · intro p d hp hpc hd hchild
    by_cases hpr : p = r
    · subst hpr
      rw [hatr]
      by_cases hdc : d = c
      · rwa [hdc, hatc]
      · rw [hother d (by unfold IsChild at hchild; omega) hdc]
        exact hmax d hd hchild
    · rw [hother p hpr hpc]
      by_cases hdr : d = r
      · subst hdr
        rw [hatr]
        exact h.grand p c hp hchild hcn hc
      · have hdc : d ≠ c := by
          unfold IsChild at hchild hc
          omega
        rw [hother d hdr hdc]
        exact h.heap p d hp hpr hd hchild
  · intro p d _ hchild hd hdc
    have hpr : p = r := by
      unfold IsChild at hchild hc
      omega
    rw [hpr, hatr, hother d (by unfold IsChild at hdc hc; omega) (by unfold IsChild at hdc; omega)]
    exact h.heap c d (by unfold IsChild at hc; omega) hne hd hdc

end SiftInv

end Machinery
