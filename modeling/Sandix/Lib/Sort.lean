import Sandix.Machinery.Exec
import Sandix.Machinery.Heap
import Sandix.Machinery.Word

/-!
# Lib/Sort — the heapsort of `lib/sort.c`

`sort` works on raw memory through a comparison and a swap function, both called with byte offsets
from the base of the array, and keeps its four counters scaled by the element size.  The state of the
memory is left abstract (`σ`); a `SortView` reads it as an array of elements.

`sort_sorted`: whatever the memory is, if the comparison is a total preorder on the elements then
`sort` returns, has only swapped elements of the array, and leaves it in order.
-/

namespace Sandix

open Machinery

/-- `cmp_func(base + x, base + y)` and `swap_func(base + x, base + y, size)`.  A comparison returns the
memory too, so that a memory may note what is read. -/
structure SortOps (σ : Type) where
  cmp : σ → ℕ → ℕ → ℤ × σ
  swap : σ → ℕ → ℕ → σ

section Model

variable {σ : Type} (ops : SortOps σ) (size : ℕ)

/-- `c`, or the child behind it when that is larger; the two are compared only if there is one behind. -/
def siftChild (n : ℤ) (s : σ) (c : ℤ) : ℤ × σ :=
  if u32 c < u32 (n - size) then
    let d := ops.cmp s (u32 c) (u32 (c + size))
    (if d.1 < 0 then int32 (u32 (c + size)) else c, d.2)
  else (c, s)

/-- One round of the inner loop: the element at `r` against its larger child.  The counters are
`int` and the sums with `size` are unsigned. -/
def siftStep (n : ℤ) : σ × ℤ → Exec (σ × ℤ ⊕ σ)
  | (s, r) =>
    if u32 (r * 2 + size) < u32 n then
      let child := siftChild ops size n s (int32 (u32 (r * 2 + size)))
      let d := ops.cmp child.2 (u32 r) (u32 child.1)
      if d.1 ≥ 0 then .ok (.inr d.2)
      else .ok (.inl (ops.swap d.2 (u32 r) (u32 child.1), child.1))
    else .ok (.inr s)

/-- The inner loop, on the first `n` bytes. -/
def sift (fuel : ℕ) (n : ℤ) (s : σ) (r : ℤ) : Exec σ := Exec.loop (siftStep ops size n) fuel (s, r)

/-- One round of the heapify loop. -/
def heapifyStep (fuel : ℕ) (n : ℤ) : σ × ℤ → Exec (σ × ℤ ⊕ σ)
  | (s, i) =>
    if 0 ≤ i then do
      let s ← sift ops size fuel n s i
      pure (.inl (s, int32 (u32 (i - size))))
    else .ok (.inr s)

/-- One round of the sort loop. -/
def sortStep (fuel : ℕ) : σ × ℤ → Exec (σ × ℤ ⊕ σ)
  | (s, i) =>
    if 0 < i then do
      let s ← sift ops size fuel i (ops.swap s 0 (u32 i)) 0
      pure (.inl (s, int32 (u32 (i - size))))
    else .ok (.inr s)

/-- `sort`. -/
def sort (num : ℕ) (s : σ) : Exec σ := do
  let n := int32 (u32 (num * size))
  let s ← Exec.loop (heapifyStep ops size (num + 1) n) (num + 1)
    (s, int32 (u32 (((num / 2 : ℕ) - 1) * size)))
  Exec.loop (sortStep ops size (num + 1)) (num + 1) (s, int32 (u32 (n - size)))

/-- `sort`, on a budget of its own for each loop. -/
def sortWithin (fuel num : ℕ) (s : σ) : Exec σ := do
  let n := int32 (u32 (num * size))
  let s ← Exec.loop (heapifyStep ops size fuel n) fuel
    (s, int32 (u32 (((num / 2 : ℕ) - 1) * size)))
  Exec.loop (sortStep ops size fuel) fuel (s, int32 (u32 (n - size)))

theorem sort_eq_sortWithin (num : ℕ) (s : σ) :
    sort ops size num s = sortWithin ops size (num + 1) num s := rfl

end Model

/-! ## Memory as an array of elements -/

/-- A C comparison function that orders its arguments totally. -/
structure CmpPreorder {α : Type} (cmp : α → α → ℤ) : Prop where
  flip : ∀ a b, 0 ≤ cmp a b ↔ cmp b a ≤ 0
  trans : ∀ a b c, cmp a b ≤ 0 → cmp b c ≤ 0 → cmp a c ≤ 0

namespace CmpPreorder

variable {α : Type} {cmp : α → α → ℤ}

theorem refl (h : CmpPreorder cmp) (a : α) : cmp a a ≤ 0 := by
  have := h.flip a a
  omega

end CmpPreorder

/-- `get s i` is the element `i` of the array in the memory `s`: the comparison sees the elements and
leaves them, and swapping swaps them. -/
structure SortView {σ α : Type} (ops : SortOps σ) (size num : ℕ) (get : σ → ℕ → α)
    (cmp : α → α → ℤ) : Prop where
  cmp_eq : ∀ s i j, i < num → j < num →
    (ops.cmp s (size * i) (size * j)).1 = cmp (get s i) (get s j)
  cmp_get : ∀ s i j, i < num → j < num → get (ops.cmp s (size * i) (size * j)).2 = get s
  swap_eq : ∀ s i j, i < num → j < num →
    get (ops.swap s (size * i) (size * j)) = get s ∘ Equiv.swap i j

/-- `s'` comes from `s` by comparing and swapping elements below `n`. -/
inductive Swaps {σ : Type} (ops : SortOps σ) (size n : ℕ) (s : σ) : σ → Prop
  | refl : Swaps ops size n s s
  | look {s' : σ} {i j : ℕ} : Swaps ops size n s s' → i < n → j < n →
      Swaps ops size n s (ops.cmp s' (size * i) (size * j)).2
  | step {s' : σ} {i j : ℕ} : Swaps ops size n s s' → i < n → j < n →
      Swaps ops size n s (ops.swap s' (size * i) (size * j))

namespace Swaps

variable {σ α : Type} {ops : SortOps σ} {size n n' num : ℕ} {s s' s'' : σ} {get : σ → ℕ → α}
  {cmp : α → α → ℤ}

theorem mono (h : Swaps ops size n s s') (hn : n ≤ n') : Swaps ops size n' s s' := by
  induction h with
  | refl => exact .refl
  | look _ hi hj ih => exact ih.look (by omega) (by omega)
  | step _ hi hj ih => exact ih.step (by omega) (by omega)

theorem trans (h : Swaps ops size n s s') (h' : Swaps ops size n s' s'') :
    Swaps ops size n s s'' := by
  induction h' with
  | refl => exact h
  | look _ hi hj ih => exact ih.look hi hj
  | step _ hi hj ih => exact ih.step hi hj

/-- Swapping below `n` permutes the elements below `n` and leaves the others. -/
theorem perm (h : Swaps ops size n s s') (v : SortView ops size num get cmp) (hn : n ≤ num) :
    ∃ π : Equiv.Perm ℕ, (∀ k, n ≤ k → π k = k) ∧ get s' = get s ∘ π := by
  induction h with
  | refl => exact ⟨1, fun _ _ => rfl, rfl⟩
  | look _ hi hj ih =>
    obtain ⟨π, hfix, hget⟩ := ih
    exact ⟨π, hfix, (v.cmp_get _ _ _ (by omega) (by omega)).trans hget⟩
  | @step s' i j _ hi hj ih =>
    obtain ⟨π, hfix, hget⟩ := ih
    refine ⟨π * Equiv.swap i j, fun k hk => ?_, ?_⟩
    · rw [Equiv.Perm.mul_apply, Equiv.swap_apply_of_ne_of_ne (by omega) (by omega), hfix k hk]
    · rw [v.swap_eq _ _ _ (by omega) (by omega), hget]
      rfl

end Swaps

/-- A permutation that fixes everything from `n` on permutes what is below. -/
theorem perm_lt {π : Equiv.Perm ℕ} {n k : ℕ} (hfix : ∀ k, n ≤ k → π k = k) (hk : k < n) :
    π k < n := by
  by_contra hge
  have := π.injective (hfix (π k) (not_lt.mp hge))
  omega

/-! ## The scaled counters -/

section Scaled

variable {size n k : ℕ}

theorem u32_scaled (h : size * k < 2 ^ 32) : u32 ((size : ℤ) * k) = size * k := by
  have := u32_natCast h
  push_cast at this
  exact this

theorem int32_scaled (h : size * k < 2 ^ 31) : int32 (u32 ((size : ℤ) * k)) = size * k := by
  have := int32_of_lt h
  rw [u32_scaled (by omega), this]
  push_cast
  rfl

/-- One element below a scaled position. -/
theorem scaled_pred (size p : ℕ) : (((size * (p + 1) : ℕ) : ℤ) - size) = (size * p : ℕ) := by
  push_cast
  ring

theorem scaled_lt (hsize : 0 < size) {i j : ℕ} : size * i < size * j ↔ i < j :=
  Nat.mul_lt_mul_left hsize

end Scaled

section Correct

variable {σ α : Type} {ops : SortOps σ} {size num : ℕ} {get : σ → ℕ → α} {cmp : α → α → ℤ}

/-- The larger child of the element `k` of the first `n`. -/
def largerChild (ops : SortOps σ) (size n k : ℕ) (s : σ) : ℕ :=
  if 2 * k + 2 < n ∧ (ops.cmp s (size * (2 * k + 1)) (size * (2 * k + 2))).1 < 0 then 2 * k + 2
  else 2 * k + 1

/-- The memory once the children of `k` are compared, if there are two. -/
def afterChildren (ops : SortOps σ) (size n k : ℕ) (s : σ) : σ :=
  if 2 * k + 2 < n then (ops.cmp s (size * (2 * k + 1)) (size * (2 * k + 2))).2 else s

theorem largerChild_lt {n k : ℕ} (h : 2 * k + 1 < n) (s : σ) :
    largerChild ops size n k s < n ∧ k < largerChild ops size n k s := by
  unfold largerChild
  split_ifs <;> omega

theorem afterChildren_swaps (n k : ℕ) (s : σ) : Swaps ops size n s (afterChildren ops size n k s) := by
  unfold afterChildren
  split_ifs with h
  · exact Swaps.refl.look (by omega) h
  · exact .refl

theorem afterChildren_get (v : SortView ops size num get cmp) {n : ℕ} (hn : n ≤ num) (k : ℕ) (s : σ) :
    get (afterChildren ops size n k s) = get s := by
  unfold afterChildren
  split_ifs with h
  · exact v.cmp_get _ _ _ (by omega) (by omega)
  · rfl

/-- The choice of the child, without the scaling. -/
theorem siftChild_eq (hsize : 0 < size) (hnum : size * num < 2 ^ 31) {n k : ℕ} (hn : n ≤ num)
    (h₁ : 2 * k + 1 < n) (s : σ) :
    siftChild ops size (size * n : ℕ) s (size * (2 * k + 1) : ℕ) =
      (((size * largerChild ops size n k s : ℕ) : ℤ), afterChildren ops size n k s) := by
  have hbound : size * n < 2 ^ 31 := lt_of_le_of_lt (Nat.mul_le_mul_left _ hn) hnum
  have hexp : size * (2 * k + 1) = 2 * (size * k) + size := by ring
  have hexp' : size * (2 * k + 2) = 2 * (size * k) + 2 * size := by ring
  have hlt₁ := (scaled_lt hsize).mpr h₁
  have hsub : u32 (((size * n : ℕ) : ℤ) - size) = size * n - size := by
    rw [← u32_natCast (n := size * n - size) (by omega)]
    congr 1
    omega
  have hsecond : (size * (2 * k + 1) < size * n - size) ↔ 2 * k + 2 < n := by
    have := scaled_lt hsize (i := 2 * k + 2) (j := n)
    omega
  have hright : u32 (((size * (2 * k + 1) : ℕ) : ℤ) + size) = size * (2 * k + 2) := by
    rw [hexp, hexp', ← u32_natCast (n := 2 * (size * k) + 2 * size) (by omega)]
    congr 1
    push_cast
    ring
  rw [siftChild, hsub, hright, u32_natCast (by omega : size * (2 * k + 1) < 2 ^ 32)]
  unfold largerChild afterChildren
  by_cases h₂ : 2 * k + 2 < n
  · have hlt₂ := (scaled_lt hsize).mpr h₂
    rw [if_pos (hsecond.mpr h₂), if_pos h₂, int32_of_lt (by omega : size * (2 * k + 2) < 2 ^ 31)]
    refine Prod.ext ?_ rfl
    dsimp only
    by_cases hless : (ops.cmp s (size * (2 * k + 1)) (size * (2 * k + 2))).1 < 0
    · rw [if_pos hless, if_pos ⟨h₂, hless⟩]
    · rw [if_neg hless, if_neg fun h => hless h.2]
  · rw [if_neg fun h => h₂ (hsecond.mp h), if_neg h₂, if_neg fun h => h₂ h.1]

/-- One round of the inner loop at element `k` of the first `n`, without the scaling. -/
theorem siftStep_eq (hsize : 0 < size) (hnum : size * num < 2 ^ 31) {n k : ℕ} (hn : n ≤ num)
    (hk : k < n) (s : σ) :
    siftStep ops size (size * n : ℕ) (s, (size * k : ℕ)) =
      if 2 * k + 1 < n then
        let d := ops.cmp (afterChildren ops size n k s) (size * k) (size * largerChild ops size n k s)
        if d.1 ≥ 0 then .ok (.inr d.2)
        else .ok (.inl (ops.swap d.2 (size * k) (size * largerChild ops size n k s),
          (size * largerChild ops size n k s : ℕ)))
      else .ok (.inr s) := by
  have hbound : size * n < 2 ^ 31 := lt_of_le_of_lt (Nat.mul_le_mul_left _ hn) hnum
  have hkn : size * k + size ≤ size * n := by
    rw [← Nat.mul_succ]
    exact Nat.mul_le_mul_left _ hk
  have hexp : size * (2 * k + 1) = 2 * (size * k) + size := by ring
  have hleft : u32 (((size * k : ℕ) : ℤ) * 2 + size) = size * (2 * k + 1) := by
    rw [hexp, ← u32_natCast (n := 2 * (size * k) + size) (by omega)]
    congr 1
    push_cast
    ring
  have hnn : u32 ((size * n : ℕ) : ℤ) = size * n := u32_natCast (by omega)
  have hkk : u32 ((size * k : ℕ) : ℤ) = size * k := u32_natCast (by omega)
  simp only [siftStep, hleft, hnn, hkk, scaled_lt hsize]
  by_cases h₁ : 2 * k + 1 < n
  · have hlt₁ := (scaled_lt hsize).mpr h₁
    have hlt := (scaled_lt hsize).mpr (@largerChild_lt σ ops size n k h₁ s).1
    rw [if_pos h₁, if_pos h₁, int32_of_lt (by omega : size * (2 * k + 1) < 2 ^ 31),
      siftChild_eq hsize hnum hn h₁]
    simp only [u32_natCast (hlt.trans (by omega : size * n < 2 ^ 32))]
  · rw [if_neg h₁, if_neg h₁]

/-- **One round of the inner loop** at element `k` of the first `n`: the element has no child, or is
at least as large as both, or changes places with the larger one. -/
theorem siftStep_cases (v : SortView ops size num get cmp) (hcmp : CmpPreorder cmp)
    (hsize : 0 < size) (hnum : size * num < 2 ^ 31) {n k : ℕ} (hn : n ≤ num) (hk : k < n) (s : σ) :
    ∃ s', Swaps ops size n s s' ∧ get s' = get s ∧
      ((siftStep ops size (size * n : ℕ) (s, (size * k : ℕ)) = .ok (.inr s') ∧
        ∀ c, c < n → IsChild c k → cmp (get s c) (get s k) ≤ 0) ∨
      ∃ c, IsChild c k ∧ c < n ∧ (∀ d, d < n → IsChild d k → cmp (get s d) (get s c) ≤ 0) ∧
        cmp (get s k) (get s c) ≤ 0 ∧
        siftStep ops size (size * n : ℕ) (s, (size * k : ℕ))
          = .ok (.inl (ops.swap s' (size * k) (size * c), (size * c : ℕ)))) := by
  rw [siftStep_eq hsize hnum hn hk]
  by_cases h₁ : 2 * k + 1 < n
  swap
  · refine ⟨s, .refl, rfl, Or.inl ⟨if_neg h₁, fun c hc hchild => ?_⟩⟩
    unfold IsChild at hchild
    omega
  rw [if_pos h₁]
  have hchild : IsChild (largerChild ops size n k s) k := by
    unfold largerChild
    split_ifs
    · exact Or.inr rfl
    · exact Or.inl rfl
  have hcn := (@largerChild_lt σ ops size n k h₁ s).1
  have hmax : ∀ d, d < n → IsChild d k →
      cmp (get s d) (get s (largerChild ops size n k s)) ≤ 0 := by
    intro d hdn hd
    unfold largerChild
    split_ifs with hboth
    · rw [v.cmp_eq _ _ _ (by omega) (by omega)] at hboth
      rcases hd with rfl | rfl
      · omega
      · exact hcmp.refl _
    · rcases hd with rfl | rfl
      · exact hcmp.refl _
      · rw [v.cmp_eq _ _ _ (by omega) (by omega)] at hboth
        exact (hcmp.flip _ _).mp (by omega)
  have hget := afterChildren_get v hn k s
  refine ⟨_, (afterChildren_swaps n k s).look hk hcn,
    (v.cmp_get _ _ _ (by omega) (by omega)).trans hget, ?_⟩
  dsimp only
  rw [v.cmp_eq _ _ _ (by omega) (by omega), hget]
  by_cases hge : cmp (get s k) (get s (largerChild ops size n k s)) ≥ 0
  · refine Or.inl ⟨if_pos hge, fun d hd hdk => ?_⟩
    exact hcmp.trans _ _ _ (hmax d hd hdk) ((hcmp.flip _ _).mp hge)
  · exact Or.inr ⟨_, hchild, hcn, hmax, by omega, if_neg hge⟩

/-- **The inner loop** closes the hole at `k`. -/
theorem sift_spec (v : SortView ops size num get cmp) (hcmp : CmpPreorder cmp) (hsize : 0 < size)
    (hnum : size * num < 2 ^ 31) (fuel : ℕ) {lo n k : ℕ} (hn : n ≤ num) (hk : k < n) (hlo : lo ≤ k)
    (hfuel : n < fuel) {s : σ} (hinv : SiftInv (fun a b => cmp a b ≤ 0) (get s) lo n k) :
    ∃ s', sift ops size fuel (size * n : ℕ) s (size * k : ℕ) = .ok s' ∧ Swaps ops size n s s' ∧
      HeapFrom (fun a b => cmp a b ≤ 0) (get s') lo n := by
  refine Exec.loop_spec (siftStep ops size (size * n : ℕ))
    (fun q p => ∃ j, p.2 = (size * j : ℕ) ∧ lo ≤ j ∧ j < n ∧ q = n - j ∧ Swaps ops size n s p.1 ∧
      SiftInv (fun a b => cmp a b ≤ 0) (get p.1) lo n j)
    (fun s' => Swaps ops size n s s' ∧ HeapFrom (fun a b => cmp a b ≤ 0) (get s') lo n) ?_
    ⟨k, rfl, hlo, hk, rfl, .refl, hinv⟩ (by omega)
  rintro q ⟨s', r⟩ ⟨j, hr, hlo, hj, rfl, hsw, hinv⟩
  dsimp only at hr hsw hinv
  subst hr
  obtain ⟨s'', hsw', hget, ⟨hs, hdone⟩ | ⟨c, hchild, hcn, hmax, hle, hs⟩⟩ :=
    siftStep_cases v hcmp hsize hnum hn hj s'
  · exact Or.inr ⟨s'', hs, hsw.trans hsw', hget ▸ hinv.finish hdone⟩
  · have hjc : j < c := by
      unfold IsChild at hchild
      omega
    refine Or.inl ⟨n - c, _, hs, by omega, c, rfl, by omega, hcn, rfl, (hsw.trans hsw').step hj hcn, ?_⟩
    dsimp only
    rw [v.swap_eq _ _ _ (by omega) (by omega), hget]
    exact hinv.swap hlo hchild hcn hmax hle

/-- The counter of the outer loops, one element below the position `p`. -/
theorem int32_pred (hsize : size < 2 ^ 31) {p : ℕ} (hp : size * p < 2 ^ 31) :
    int32 (u32 ((size * p : ℕ) - size)) = (size * p : ℕ) - size := int32_u32 (by omega) (by omega)

/-- The counters `sort` starts its loops with. -/
theorem sortWithin_eq (hsize : size < 2 ^ 31) (hnum : size * num < 2 ^ 31) (fuel : ℕ) (s : σ) :
    sortWithin ops size fuel num s =
      (Exec.loop (heapifyStep ops size fuel (size * num : ℕ)) fuel
        (s, ((size * (num / 2) : ℕ) : ℤ) - size) >>= fun s =>
      Exec.loop (sortStep ops size fuel) fuel (s, ((size * num : ℕ) : ℤ) - size)) := by
  have hn : int32 (u32 ((num : ℤ) * size)) = (size * num : ℕ) :=
    (congrArg (fun x => int32 (u32 x)) (mul_comm _ _)).trans
      ((int32_scaled hnum).trans (Nat.cast_mul _ _).symm)
  have hhalf : size * (num / 2) < 2 ^ 31 :=
    lt_of_le_of_lt (Nat.mul_le_mul_left _ (Nat.div_le_self _ _)) hnum
  have hi : int32 (u32 ((((num / 2 : ℕ) : ℤ) - 1) * size)) = (size * (num / 2) : ℕ) - size := by
    have harg : (((num / 2 : ℕ) : ℤ) - 1) * size = (size * (num / 2) : ℕ) - size := by
      push_cast
      ring
    exact (congrArg (fun x => int32 (u32 x)) harg).trans (int32_pred hsize hhalf)
  rw [sortWithin, hn, hi, int32_pred hsize hnum]

/-- **Heapify**: the whole array becomes a heap. -/
theorem heapify_spec (v : SortView ops size num get cmp) (hcmp : CmpPreorder cmp)
    (hsize : 0 < size) (hsize' : size < 2 ^ 31) (hnum : size * num < 2 ^ 31) (s : σ) :
    ∃ s', Exec.loop (heapifyStep ops size (num + 1) (size * num : ℕ)) (num + 1)
        (s, ((size * (num / 2) : ℕ) : ℤ) - size) = .ok s' ∧ Swaps ops size num s s' ∧
      HeapFrom (fun a b => cmp a b ≤ 0) (get s') 0 num := by
  refine Exec.loop_spec (heapifyStep ops size (num + 1) (size * num : ℕ))
    (fun q p => p.2 = (size * q : ℕ) - size ∧ q ≤ num / 2 ∧ Swaps ops size num s p.1 ∧
      HeapFrom (fun a b => cmp a b ≤ 0) (get p.1) q num)
    (fun s' => Swaps ops size num s s' ∧ HeapFrom (fun a b => cmp a b ≤ 0) (get s') 0 num) ?_
    ⟨rfl, le_rfl, .refl, fun p c hp hc hchild => ?_⟩ (by omega)
  · rintro q ⟨s', i⟩ ⟨hi, hq, hsw, hheap⟩
    dsimp only at hi hsw hheap
    subst hi
    rcases q with _ | q
    · refine Or.inr ⟨s', ?_, hsw, hheap⟩
      rw [heapifyStep, if_neg (by omega)]
    · have hpos := scaled_pred size q
      obtain ⟨s'', hsift, hsw', hheap'⟩ := sift_spec v hcmp hsize hnum (num + 1) (le_refl num)
        (by omega : q < num) (le_refl q) (by omega) (SiftInv.start hheap)
      have hle : size * q ≤ size * num := Nat.mul_le_mul_left _ (by omega)
      refine Or.inl ⟨q, (s'', (size * q : ℕ) - size), ?_, by omega, rfl, by omega,
        hsw.trans hsw', hheap'⟩
      rw [heapifyStep, hpos, if_pos (by omega), hsift, Exec.ok_bind,
        int32_pred hsize' (by omega)]
      rfl
  · unfold IsChild at hchild
    omega

/-- What the sort loop keeps when `m` elements are left in the heap: they are a heap, none is above an
element of the rest, and the rest is in order. -/
structure SortInv (cmp : α → α → ℤ) (f : ℕ → α) (m num : ℕ) : Prop where
  heap : HeapFrom (fun a b => cmp a b ≤ 0) f 0 m
  below : ∀ a b, a < m → m ≤ b → b < num → cmp (f a) (f b) ≤ 0
  sorted : ∀ a b, m ≤ a → a ≤ b → b < num → cmp (f a) (f b) ≤ 0

namespace SortInv

variable {f : ℕ → α} {q : ℕ}

/-- Moving the root behind the heap leaves a hole at the root. -/
theorem siftInv (h : SortInv cmp f (q + 2) num) :
    SiftInv (fun a b => cmp a b ≤ 0) (f ∘ Equiv.swap 0 (q + 1)) 0 (q + 1) 0 where
  heap p c _ hp hc hchild := by
    unfold IsChild at hchild
    rw [Function.comp_apply, Function.comp_apply,
      Equiv.swap_apply_of_ne_of_ne (by omega) (by omega),
      Equiv.swap_apply_of_ne_of_ne hp (by omega)]
    exact h.heap p c (Nat.zero_le _) (by omega) (by unfold IsChild; omega)
  grand p c _ hr := by
    unfold IsChild at hr
    omega

/-- **The root joins the ordered rest**, and the sift permutes what is left. -/
theorem step (hcmp : CmpPreorder cmp) (h : SortInv cmp f (q + 2) num) {π : Equiv.Perm ℕ}
    (hfix : ∀ k, q + 1 ≤ k → π k = k)
    (hheap : HeapFrom (fun a b => cmp a b ≤ 0) ((f ∘ Equiv.swap 0 (q + 1)) ∘ π) 0 (q + 1)) :
    SortInv cmp ((f ∘ Equiv.swap 0 (q + 1)) ∘ π) (q + 1) num := by
  have hroot : ∀ k, k < q + 2 → cmp (f k) (f 0) ≤ 0 :=
    h.heap.le_root hcmp.refl hcmp.trans
  -- the cells from `q + 1` on: the old root, then the old rest
  have hlast : ((f ∘ Equiv.swap 0 (q + 1)) ∘ π) (q + 1) = f 0 := by
    rw [Function.comp_apply, hfix _ le_rfl, Function.comp_apply, Equiv.swap_apply_right]
  have hrest : ∀ b, q + 2 ≤ b → ((f ∘ Equiv.swap 0 (q + 1)) ∘ π) b = f b := fun b hb => by
    rw [Function.comp_apply, hfix _ (by omega), Function.comp_apply,
      Equiv.swap_apply_of_ne_of_ne (by omega) (by omega)]
  have hfront : ∀ a, a < q + 1 → ∃ j, j < q + 2 ∧ ((f ∘ Equiv.swap 0 (q + 1)) ∘ π) a = f j := by
    intro a ha
    have := perm_lt hfix ha
    by_cases h0 : π a = 0
    · exact ⟨q + 1, by omega, by simp [h0]⟩
    · refine ⟨π a, by omega, ?_⟩
      rw [Function.comp_apply, Function.comp_apply, Equiv.swap_apply_of_ne_of_ne h0 (by omega)]
  refine ⟨hheap, fun a b ha hb hbn => ?_, fun a b ha hab hbn => ?_⟩
  · obtain ⟨j, hj, hfa⟩ := hfront a ha
    rw [hfa]
    rcases Nat.eq_or_lt_of_le hb with rfl | hb
    · rw [hlast]
      exact hroot j hj
    · rw [hrest b hb]
      exact h.below j b hj hb hbn
  · rcases Nat.eq_or_lt_of_le ha with rfl | ha
    · rw [hlast]
      rcases Nat.eq_or_lt_of_le hab with rfl | hab
      · rw [hlast]
        exact hcmp.refl _
      · rw [hrest b hab]
        exact h.below 0 b (by omega) hab hbn
    · rw [hrest a ha, hrest b (by omega)]
      exact h.sorted a b ha hab hbn

end SortInv

/-- **`sort` sorts**: it returns, has swapped elements of the array and nothing else, and leaves them
in order. -/
theorem sort_sorted (v : SortView ops size num get cmp) (hcmp : CmpPreorder cmp)
    (hsize : 0 < size) (hsize' : size < 2 ^ 31) (hnum : size * num < 2 ^ 31) (s : σ) :
    ∃ s', sort ops size num s = .ok s' ∧ Swaps ops size num s s' ∧
      ∀ a b, a ≤ b → b < num → cmp (get s' a) (get s' b) ≤ 0 := by
  obtain ⟨s₁, hs₁, hsw₁, hheap⟩ := heapify_spec v hcmp hsize hsize' hnum s
  rw [sort_eq_sortWithin, sortWithin_eq hsize' hnum, hs₁, Exec.ok_bind]
  refine Exec.loop_spec (sortStep ops size (num + 1))
    (fun m p => p.2 = (size * m : ℕ) - size ∧ m ≤ num ∧ Swaps ops size num s p.1 ∧
      SortInv cmp (get p.1) m num)
    (fun s' => Swaps ops size num s s' ∧ ∀ a b, a ≤ b → b < num → cmp (get s' a) (get s' b) ≤ 0) ?_
    ⟨rfl, le_rfl, hsw₁, hheap, fun a b _ h₁ h₂ => by omega, fun a b _ _ h => by omega⟩ (by omega)
  rintro m ⟨s', i⟩ ⟨hi, hm, hsw, hinv⟩
  dsimp only at hi hsw hinv
  subst hi
  by_cases hm2 : m < 2
  · refine Or.inr ⟨s', ?_, hsw, fun a b hab hb => ?_⟩
    · have : size * m ≤ size * 1 := Nat.mul_le_mul_left _ (by omega)
      rw [sortStep, if_neg (by omega)]
    · rcases Nat.lt_or_ge a m with ha | ha
      · rcases Nat.lt_or_ge b m with hb' | hb'
        · rw [show b = a by omega]
          exact hcmp.refl _
        · exact hinv.below a b ha hb' hb
      · exact hinv.sorted a b ha hab hb
  · obtain ⟨q, rfl⟩ : ∃ q, m = q + 2 := ⟨m - 2, by omega⟩
    have hpos := scaled_pred size (q + 1)
    have hq : size * (q + 1) ≤ size * num := Nat.mul_le_mul_left _ (by omega)
    have hq0 : 0 < size * (q + 1) := Nat.mul_pos hsize (Nat.succ_pos _)
    have hswap := v.swap_eq s' 0 (q + 1) (by omega) (by omega)
    obtain ⟨s'', hsift, hsw', hheap'⟩ := sift_spec v hcmp hsize hnum (num + 1)
      (by omega : q + 1 ≤ num) (Nat.succ_pos q) (le_refl 0) (by omega)
      (hswap ▸ hinv.siftInv : SiftInv (fun a b => cmp a b ≤ 0)
        (get (ops.swap s' (size * 0) (size * (q + 1)))) 0 (q + 1) 0)
    obtain ⟨π, hfix, hget⟩ := hsw'.perm v (by omega)
    rw [hswap] at hget
    refine Or.inl ⟨q + 1, (s'', (size * (q + 1) : ℕ) - size), ?_, by omega, rfl, by omega, ?_, ?_⟩
    · simp only [Nat.mul_zero, Nat.cast_zero] at hsift
      rw [sortStep, hpos, if_pos (by omega), u32_natCast (by omega), hsift, Exec.ok_bind,
        int32_pred hsize' (by omega)]
      rfl
    · exact ((hsw.step (by omega : 0 < num) (by omega : q + 1 < num)).trans
        (hsw'.mono (by omega)))
    · dsimp only
      rw [hget]
      exact hinv.step hcmp hfix (hget ▸ hheap')

end Correct

/-! ## Two runs side by side -/

section Sim

variable {σ τ : Type} {ops : SortOps σ} {ops' : SortOps τ} {size num : ℕ}

/-- Two memories that the elements cannot tell apart: related ones compare alike and stay related when
the same two elements are swapped. -/
structure SortSim (ops : SortOps σ) (ops' : SortOps τ) (size num : ℕ) (R : σ → τ → Prop) : Prop where
  cmp_eq : ∀ s t i j, R s t → i < num → j < num →
    (ops.cmp s (size * i) (size * j)).1 = (ops'.cmp t (size * i) (size * j)).1
  cmp : ∀ s t i j, R s t → i < num → j < num →
    R (ops.cmp s (size * i) (size * j)).2 (ops'.cmp t (size * i) (size * j)).2
  swap : ∀ s t i j, R s t → i < num → j < num →
    R (ops.swap s (size * i) (size * j)) (ops'.swap t (size * i) (size * j))

variable {R : σ → τ → Prop} (sim : SortSim ops ops' size num R) (hsize : 0 < size)
  (hnum : size * num < 2 ^ 31)

include sim hsize hnum

theorem siftStep_sim {n k : ℕ} (hn : n ≤ num) (hk : k < n) {s : σ} {t : τ} (hR : R s t) :
    (∃ s' t', R s' t' ∧ siftStep ops size (size * n : ℕ) (s, (size * k : ℕ)) = .ok (.inr s') ∧
      siftStep ops' size (size * n : ℕ) (t, (size * k : ℕ)) = .ok (.inr t')) ∨
    ∃ c s' t', c < n ∧ R s' t' ∧
      siftStep ops size (size * n : ℕ) (s, (size * k : ℕ)) = .ok (.inl (s', (size * c : ℕ))) ∧
      siftStep ops' size (size * n : ℕ) (t, (size * k : ℕ)) = .ok (.inl (t', (size * c : ℕ))) := by
  rw [siftStep_eq hsize hnum hn hk, siftStep_eq hsize hnum hn hk]
  by_cases h₁ : 2 * k + 1 < n
  swap
  · exact Or.inl ⟨s, t, hR, if_neg h₁, if_neg h₁⟩
  have hchild : largerChild ops' size n k t = largerChild ops size n k s := by
    unfold largerChild
    by_cases h₂ : 2 * k + 2 < n
    · rw [sim.cmp_eq s t _ _ hR (by omega) (by omega)]
    · rw [if_neg fun h => h₂ h.1, if_neg fun h => h₂ h.1]
  have hafter : R (afterChildren ops size n k s) (afterChildren ops' size n k t) := by
    unfold afterChildren
    split_ifs
    · exact sim.cmp s t _ _ hR (by omega) (by omega)
    · exact hR
  have hcn := (@largerChild_lt σ ops size n k h₁ s).1
  have hR' := sim.cmp _ _ k (largerChild ops size n k s) hafter (by omega) (by omega)
  rw [if_pos h₁, if_pos h₁, hchild]
  dsimp only
  rw [← sim.cmp_eq _ _ _ _ hafter (by omega) (by omega)]
  by_cases hge : (ops.cmp (afterChildren ops size n k s) (size * k)
      (size * largerChild ops size n k s)).1 ≥ 0
  · exact Or.inl ⟨_, _, hR', if_pos hge, if_pos hge⟩
  · exact Or.inr ⟨_, _, _, hcn, sim.swap _ _ _ _ hR' (by omega) (by omega), if_neg hge, if_neg hge⟩

theorem sift_sim {fuel n k : ℕ} (hn : n ≤ num) (hk : k < n) {s s' : σ} {t : τ} (hR : R s t)
    (h : sift ops size fuel (size * n : ℕ) s (size * k : ℕ) = .ok s') :
    ∃ t', sift ops' size fuel (size * n : ℕ) t (size * k : ℕ) = .ok t' ∧ R s' t' := by
  refine Exec.loop_sim (siftStep ops' size (size * n : ℕ))
    (fun p q => p.2 = q.2 ∧ R p.1 q.1 ∧ ∃ j < n, p.2 = ((size * j : ℕ) : ℤ)) R ?_ ?_
    ⟨rfl, hR, k, hk, rfl⟩ h
  · rintro ⟨s, r⟩ p' ⟨t, r'⟩ ⟨rfl, hR, j, hj, rfl⟩ hstep
    rcases siftStep_sim sim hsize hnum hn hj hR with ⟨s₁, t₁, -, hs, -⟩ | ⟨c, s₁, t₁, hc, hR', hs, ht⟩
    · rw [hs] at hstep
      cases hstep
    · rw [hs] at hstep
      cases hstep
      exact ⟨_, ht, rfl, hR', c, hc, rfl⟩
  · rintro ⟨s, r⟩ b ⟨t, r'⟩ ⟨rfl, hR, j, hj, rfl⟩ hstep
    rcases siftStep_sim sim hsize hnum hn hj hR with
      ⟨s₁, t₁, hR', hs, ht⟩ | ⟨c, s₁, t₁, hc, hR', hs, ht⟩
    · rw [hs] at hstep
      cases hstep
      exact ⟨t₁, ht, hR'⟩
    · rw [hs] at hstep
      cases hstep

theorem heapifyLoop_sim (hsize' : size < 2 ^ 31) {fuel fuel' : ℕ} {s s' : σ} {t : τ} (hR : R s t)
    (h : Exec.loop (heapifyStep ops size fuel (size * num : ℕ)) fuel'
      (s, ((size * (num / 2) : ℕ) : ℤ) - size) = .ok s') :
    ∃ t', Exec.loop (heapifyStep ops' size fuel (size * num : ℕ)) fuel'
      (t, ((size * (num / 2) : ℕ) : ℤ) - size) = .ok t' ∧ R s' t' := by
  refine Exec.loop_sim (heapifyStep ops' size fuel (size * num : ℕ))
    (fun p q => p.2 = q.2 ∧ R p.1 q.1 ∧ ∃ m ≤ num / 2, p.2 = ((size * m : ℕ) : ℤ) - size) R ?_ ?_
    ⟨rfl, hR, num / 2, le_rfl, rfl⟩ h
  · rintro ⟨s, i⟩ p' ⟨t, i'⟩ ⟨rfl, hR, m, hm, rfl⟩ hstep
    rcases m with _ | m
    · rw [heapifyStep, if_neg (by omega)] at hstep
      cases hstep
    · rw [scaled_pred] at hstep ⊢
      rw [heapifyStep, if_pos (by omega), Exec.bind_eq_ok] at hstep
      obtain ⟨s₁, hsift, hnext⟩ := hstep
      obtain ⟨t₁, hsift', hR'⟩ := sift_sim sim hsize hnum le_rfl (by omega : m < num) hR hsift
      have hle : size * m ≤ size * num := Nat.mul_le_mul_left _ (by omega)
      rw [int32_pred hsize' (by omega)] at hnext
      cases hnext
      refine ⟨(t₁, ((size * m : ℕ) : ℤ) - size), ?_, rfl, hR', m, by omega, rfl⟩
      rw [heapifyStep, if_pos (by omega), hsift', Exec.ok_bind, int32_pred hsize' (by omega)]
      rfl
  · rintro ⟨s, i⟩ b ⟨t, i'⟩ ⟨rfl, hR, m, hm, rfl⟩ hstep
    by_cases hpos : (0 : ℤ) ≤ ((size * m : ℕ) : ℤ) - size
    · rw [heapifyStep, if_pos hpos, Exec.bind_eq_ok] at hstep
      obtain ⟨s₁, -, hnext⟩ := hstep
      cases hnext
    · rw [heapifyStep, if_neg hpos] at hstep
      cases hstep
      exact ⟨t, by rw [heapifyStep, if_neg hpos], hR⟩

theorem sortLoop_sim (hsize' : size < 2 ^ 31) {fuel fuel' : ℕ} {s s' : σ} {t : τ} (hR : R s t)
    (h : Exec.loop (sortStep ops size fuel) fuel' (s, ((size * num : ℕ) : ℤ) - size) = .ok s') :
    ∃ t', Exec.loop (sortStep ops' size fuel) fuel' (t, ((size * num : ℕ) : ℤ) - size) = .ok t' ∧
      R s' t' := by
  refine Exec.loop_sim (sortStep ops' size fuel)
    (fun p q => p.2 = q.2 ∧ R p.1 q.1 ∧ ∃ m ≤ num, p.2 = ((size * m : ℕ) : ℤ) - size) R ?_ ?_
    ⟨rfl, hR, num, le_rfl, rfl⟩ h
  · rintro ⟨s, i⟩ p' ⟨t, i'⟩ ⟨rfl, hR, m, hm, rfl⟩ hstep
    by_cases hm2 : m < 2
    · have hle : size * m ≤ size * 1 := Nat.mul_le_mul_left _ (by omega)
      rw [sortStep, if_neg (by omega)] at hstep
      cases hstep
    · obtain ⟨m, rfl⟩ : ∃ q, m = q + 2 := ⟨m - 2, by omega⟩
      have hle : size * (m + 1) ≤ size * num := Nat.mul_le_mul_left _ (by omega)
      have hpos : 0 < size * (m + 1) := Nat.mul_pos hsize (Nat.succ_pos _)
      rw [scaled_pred] at hstep ⊢
      rw [sortStep, if_pos (by omega), u32_natCast (by omega), Exec.bind_eq_ok] at hstep
      obtain ⟨s₁, hsift, hnext⟩ := hstep
      have hswap := sim.swap s t 0 (m + 1) hR (by omega) (by omega)
      rw [Nat.mul_zero] at hswap
      obtain ⟨t₁, hsift', hR'⟩ := @sift_sim σ τ ops ops' size num R sim hsize hnum fuel (m + 1) 0
        (by omega) (by omega) _ _ _ hswap (by simpa using hsift)
      rw [int32_pred hsize' (by omega)] at hnext
      cases hnext
      refine ⟨(t₁, ((size * (m + 1) : ℕ) : ℤ) - size), ?_, rfl, hR', m + 1, by omega, rfl⟩
      simp only [Nat.mul_zero, Nat.cast_zero] at hsift'
      rw [sortStep, if_pos (by omega), u32_natCast (by omega), hsift', Exec.ok_bind,
        int32_pred hsize' (by omega)]
      rfl
  · rintro ⟨s, i⟩ b ⟨t, i'⟩ ⟨rfl, hR, m, hm, rfl⟩ hstep
    by_cases hpos : (0 : ℤ) < ((size * m : ℕ) : ℤ) - size
    · rw [sortStep, if_pos hpos, Exec.bind_eq_ok] at hstep
      obtain ⟨s₁, -, hnext⟩ := hstep
      cases hnext
    · rw [sortStep, if_neg hpos] at hstep
      cases hstep
      exact ⟨t, by rw [sortStep, if_neg hpos], hR⟩

/-- **`sort` sees the elements of the array and nothing else.** -/
theorem sort_sim (hsize' : size < 2 ^ 31) {s s' : σ} {t : τ} (hR : R s t)
    (h : sort ops size num s = .ok s') : ∃ t', sort ops' size num t = .ok t' ∧ R s' t' := by
  rw [sort_eq_sortWithin, sortWithin_eq hsize' hnum, Exec.bind_eq_ok] at h
  obtain ⟨s₁, hheap, hsort⟩ := h
  obtain ⟨t₁, hheap', hR₁⟩ := heapifyLoop_sim sim hsize hnum hsize' hR hheap
  obtain ⟨t', hsort', hR'⟩ := sortLoop_sim sim hsize hnum hsize' hR₁ hsort
  refine ⟨t', ?_, hR'⟩
  rw [sort_eq_sortWithin, sortWithin_eq hsize' hnum, hheap', Exec.ok_bind, hsort']

end Sim

end Sandix
