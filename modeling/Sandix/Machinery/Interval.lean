import Mathlib.Tactic

/-!
# Machinery/Interval — lists of half-open intervals in ascending order

A list whose members name half-open intervals `[s x, e x)` of `ℕ`.  `Ascending s e lo xs` says that
the intervals are non-empty, start at or after `lo` and follow one another without overlap; it is
defined along the list, so that a recursion over the list carries it in its accumulator `lo`, and
`ascending_iff` reads it back as the two facts a user wants.  `MaximalGap` is what the intervals leave
free of a window, and `maximalGap_cons` finds it along the list.  A search that goes down such a list
finds the greatest of its hits first (`findSome?_isGreatest`).
-/

namespace Machinery

variable {α β : Type*} {s e : α → ℕ}

/-- Non-empty intervals, in order and disjoint, from `lo` on. -/
def Ascending (s e : α → ℕ) : ℕ → List α → Prop
  | _, [] => True
  | lo, x :: xs => lo ≤ s x ∧ s x < e x ∧ Ascending s e (e x) xs

/-- The address `a` lies in one of the intervals. -/
def Covers (s e : α → ℕ) (xs : List α) (a : ℕ) : Prop := ∃ x ∈ xs, s x ≤ a ∧ a < e x

@[simp] theorem ascending_nil {lo : ℕ} : Ascending s e lo [] := trivial

@[simp] theorem ascending_cons {lo : ℕ} {x : α} {xs : List α} :
    Ascending s e lo (x :: xs) ↔ lo ≤ s x ∧ s x < e x ∧ Ascending s e (e x) xs := Iff.rfl

@[simp] theorem not_covers_nil {a : ℕ} : ¬Covers s e [] a := by simp [Covers]

@[simp] theorem covers_cons {x : α} {xs : List α} {a : ℕ} :
    Covers s e (x :: xs) a ↔ (s x ≤ a ∧ a < e x) ∨ Covers s e xs a := by simp [Covers]

/-- **An ascending list, read as a whole**: every member is non-empty and starts at or after `lo`,
and any two are disjoint in the order of the list. -/
theorem ascending_iff : ∀ {lo : ℕ} {xs : List α}, Ascending s e lo xs ↔
    (∀ x ∈ xs, lo ≤ s x ∧ s x < e x) ∧ xs.Pairwise fun x y => e x ≤ s y
  | lo, [] => by simp
  | lo, x :: xs => by
      rw [ascending_cons, ascending_iff, List.pairwise_cons]
      constructor
      · rintro ⟨hlo, hx, hall, hpw⟩
        refine ⟨fun y hy => ?_, fun y hy => (hall y hy).1, hpw⟩
        rcases List.mem_cons.mp hy with rfl | hy
        · exact ⟨hlo, hx⟩
        · have := hall y hy
          omega
      · rintro ⟨hall, hx, hpw⟩
        have h₀ := hall x (by simp)
        refine ⟨h₀.1, h₀.2, fun y hy => ⟨hx y hy, (hall y ?_).2⟩, hpw⟩
        exact List.mem_cons_of_mem _ hy

namespace Ascending

variable {lo lo' : ℕ} {xs ys : List α} {x : α}

theorem start_ge (h : Ascending s e lo xs) (hx : x ∈ xs) : lo ≤ s x :=
  ((ascending_iff.mp h).1 x hx).1

theorem start_lt_stop (h : Ascending s e lo xs) (hx : x ∈ xs) : s x < e x :=
  ((ascending_iff.mp h).1 x hx).2

theorem le_of_covers (h : Ascending s e lo xs) {a : ℕ} (ha : Covers s e xs a) : lo ≤ a := by
  obtain ⟨x, hx, hsa, -⟩ := ha
  exact (h.start_ge hx).trans hsa

theorem weaken (h : Ascending s e lo xs) (hlo : lo' ≤ lo) : Ascending s e lo' xs := by
  rw [ascending_iff] at h ⊢
  refine ⟨fun y hy => ?_, h.2⟩
  have := h.1 y hy
  omega

/-- A start may be raised as far as every member still allows. -/
theorem raise (h : Ascending s e lo xs) (hlo : ∀ x ∈ xs, lo' ≤ s x) : Ascending s e lo' xs := by
  rw [ascending_iff] at h ⊢
  exact ⟨fun y hy => ⟨hlo y hy, (h.1 y hy).2⟩, h.2⟩

/-- Dropping members keeps the order. -/
theorem sublist (h : Ascending s e lo xs) (hs : ys.Sublist xs) : Ascending s e lo ys := by
  rw [ascending_iff] at h ⊢
  exact ⟨fun y hy => h.1 y (hs.subset hy), h.2.sublist hs⟩

theorem append_iff : Ascending s e lo (xs ++ ys) ↔
    Ascending s e lo xs ∧ Ascending s e lo ys ∧ ∀ x ∈ xs, ∀ y ∈ ys, e x ≤ s y := by
  rw [ascending_iff, ascending_iff, ascending_iff, List.pairwise_append]
  constructor
  · rintro ⟨hall, hx, hy, hxy⟩
    exact ⟨⟨fun z hz => hall z (by simp [hz]), hx⟩, ⟨fun z hz => hall z (by simp [hz]), hy⟩, hxy⟩
  · rintro ⟨⟨hxa, hx⟩, ⟨hya, hy⟩, hxy⟩
    refine ⟨fun z hz => ?_, hx, hy, hxy⟩
    rcases List.mem_append.mp hz with h | h
    · exact hxa z h
    · exact hya z h

/-- Replacing each interval by intervals inside it keeps the order. -/
theorem flatMap {s' e' : β → ℕ} {f : α → List β} (h : Ascending s e lo xs)
    (hf : ∀ x ∈ xs, Ascending s' e' (s x) (f x) ∧ ∀ y ∈ f x, e' y ≤ e x) :
    Ascending s' e' lo (xs.flatMap f) := by
  induction xs generalizing lo with
  | nil => exact trivial
  | cons x xs ih =>
    obtain ⟨hlo, hx, hxs⟩ := ascending_cons.mp h
    obtain ⟨hfx, hend⟩ := hf x (by simp)
    have hrec := ih hxs fun y hy => hf y (by simp [hy])
    rw [List.flatMap_cons, append_iff]
    refine ⟨hfx.weaken hlo, hrec.weaken (by omega), fun y hy z hz => ?_⟩
    exact (hend y hy).trans (hrec.start_ge hz)

end Ascending

/-- The intervals are non-empty and pairwise disjoint, and their union is `[lo, hi)`. -/
structure Tiles (lo hi : ℕ) (xs : List (ℕ × ℕ)) : Prop where
  nonempty : ∀ x ∈ xs, x.1 < x.2
  disjoint : xs.Pairwise fun x y => x.2 ≤ y.1 ∨ y.2 ≤ x.1
  union : ∀ a, (∃ x ∈ xs, x.1 ≤ a ∧ a < x.2) ↔ lo ≤ a ∧ a < hi

namespace Tiles

variable {lo mid hi : ℕ} {xs : List (ℕ × ℕ)}

theorem nil (lo : ℕ) : Tiles lo lo [] where
  nonempty := by simp
  disjoint := List.Pairwise.nil
  union a := by simp

/-- A member lies inside the union. -/
theorem le_of_mem (h : Tiles lo hi xs) {x : ℕ × ℕ} (hx : x ∈ xs) : lo ≤ x.1 ∧ x.2 ≤ hi := by
  have hlt := h.nonempty x hx
  have h₁ := (h.union x.1).mp ⟨x, hx, le_rfl, hlt⟩
  have h₂ := (h.union (x.2 - 1)).mp ⟨x, hx, by omega, by omega⟩
  omega

/-- One more interval, below. -/
theorem below (h : Tiles mid hi xs) (hlt : lo < mid) (hle : mid ≤ hi) :
    Tiles lo hi (xs ++ [(lo, mid)]) where
  nonempty := by
    intro x hx
    rcases List.mem_append.mp hx with hx | hx
    · exact h.nonempty x hx
    · rw [List.mem_singleton.mp hx]
      exact hlt
  disjoint := by
    refine List.pairwise_append.mpr ⟨h.disjoint, List.pairwise_singleton _ _, fun x hx y hy => ?_⟩
    rw [List.mem_singleton.mp hy]
    exact Or.inr (h.le_of_mem hx).1
  union a := by
    simp only [List.mem_append, List.mem_singleton, or_and_right, exists_or, exists_eq_left, h.union]
    omega

/-- One more interval, above. -/
theorem above (h : Tiles lo mid xs) (hle : lo ≤ mid) (hlt : mid < hi) :
    Tiles lo hi (xs ++ [(mid, hi)]) where
  nonempty := by
    intro x hx
    rcases List.mem_append.mp hx with hx | hx
    · exact h.nonempty x hx
    · rw [List.mem_singleton.mp hx]
      exact hlt
  disjoint := by
    refine List.pairwise_append.mpr ⟨h.disjoint, List.pairwise_singleton _ _, fun x hx y hy => ?_⟩
    rw [List.mem_singleton.mp hy]
    exact Or.inl (h.le_of_mem hx).2
  union a := by
    simp only [List.mem_append, List.mem_singleton, or_and_right, exists_or, exists_eq_left, h.union]
    omega

end Tiles

/-- **Separated intervals hide no seam**: an interval inside their union lies inside one of them. -/
theorem covers_interval_iff {xs : List α} (hsep : xs.Pairwise fun x y => e x < s y) {lo hi : ℕ}
    (hlt : lo < hi) :
    (∀ a, lo ≤ a → a < hi → Covers s e xs a) ↔ ∃ x ∈ xs, s x ≤ lo ∧ hi ≤ e x := by
  constructor
  · intro h
    obtain ⟨x, hx, hxlo, hlox⟩ := h lo le_rfl hlt
    refine ⟨x, hx, hxlo, not_lt.mp fun hend => ?_⟩
    -- the first address after `x` would lie in an interval that touches `x`
    obtain ⟨y, hy, hyx, hxy⟩ := h (e x) hlox.le hend
    have hne : x ≠ y := by
      rintro rfl
      omega
    have : Std.Symm fun x y => e x < s y ∨ e y < s x := ⟨fun _ _ => Or.symm⟩
    rcases (hsep.imp (S := fun x y => e x < s y ∨ e y < s x) Or.inl).forall hx hy hne with h | h
    · omega
    · omega
  · rintro ⟨x, hx, hlo, hhi⟩ a hla hah
    exact ⟨x, hx, hlo.trans hla, hah.trans_le hhi⟩

/-! ## Gaps -/

/-- `[g.1, g.2)` is a gap of the intervals inside `[lo, hi)`: nothing of it is covered, and it cannot be
made longer at either end. -/
structure MaximalGap (s e : α → ℕ) (xs : List α) (lo hi : ℕ) (g : ℕ × ℕ) : Prop where
  inside : lo ≤ g.1 ∧ g.1 < g.2 ∧ g.2 ≤ hi
  free : ∀ a, g.1 ≤ a → a < g.2 → ¬Covers s e xs a
  left : g.1 = lo ∨ Covers s e xs (g.1 - 1)
  right : g.2 = hi ∨ Covers s e xs g.2

section Gaps

variable {lo hi : ℕ} {x : α} {xs : List α} {g : ℕ × ℕ}

/-- Where nothing is covered the whole window is the gap. -/
theorem maximalGap_of_free (hfree : ∀ a, lo ≤ a → a < hi → ¬Covers s e xs a) :
    MaximalGap s e xs lo hi g ↔ lo < hi ∧ g = (lo, hi) := by
  constructor
  · rintro ⟨⟨hlo, hlt, hhi⟩, -, hleft, hright⟩
    have h₁ : g.1 = lo := by
      by_contra hne
      exact hfree _ (by omega) (by omega) (hleft.resolve_left hne)
    have h₂ : g.2 = hi := by
      by_contra hne
      exact hfree _ (by omega) (by omega) (hright.resolve_left hne)
    exact ⟨by omega, Prod.ext h₁ h₂⟩
  · rintro ⟨hlt, rfl⟩
    exact ⟨⟨le_rfl, hlt, le_rfl⟩, hfree, Or.inl rfl, Or.inl rfl⟩

/-- An interval below the window. -/
theorem maximalGap_of_stop_le (hx : e x ≤ lo) :
    MaximalGap s e (x :: xs) lo hi g ↔ MaximalGap s e xs lo hi g := by
  have hcov : ∀ {a}, lo ≤ a → (Covers s e (x :: xs) a ↔ Covers s e xs a) := by
    intro a ha
    rw [covers_cons, or_iff_right]
    omega
  constructor
  · rintro ⟨hin, hfree, hleft, hright⟩
    refine ⟨hin, fun a h₁ h₂ h => hfree a h₁ h₂ ((hcov (by omega)).mpr h), ?_,
      hright.imp_right (hcov (by omega)).mp⟩
    by_cases heq : g.1 = lo
    · exact Or.inl heq
    · exact hleft.imp_right (hcov (by omega)).mp
  · rintro ⟨hin, hfree, hleft, hright⟩
    refine ⟨hin, fun a h₁ h₂ h => hfree a h₁ h₂ ((hcov (by omega)).mp h), ?_,
      hright.imp_right (hcov (by omega)).mpr⟩
    by_cases heq : g.1 = lo
    · exact Or.inl heq
    · exact hleft.imp_right (hcov (by omega)).mpr

/-- **The first interval that meets the window** ends a gap in front of it, and the others lie above
it. -/
theorem maximalGap_cons (h : Ascending s e (e x) xs) (hx : s x < e x) (h₁ : s x < hi) (h₂ : lo < e x) :
    MaximalGap s e (x :: xs) lo hi g ↔
      (lo < s x ∧ g = (lo, s x)) ∨ MaximalGap s e xs (min (e x) hi) hi g := by
  have hge : ∀ {a}, Covers s e xs a → e x ≤ a := h.le_of_covers
  have hself : ∀ a, s x ≤ a → a < e x → Covers s e (x :: xs) a := fun a ha ha' =>
    covers_cons.mpr (Or.inl ⟨ha, ha'⟩)
  constructor
  · rintro ⟨⟨hlo, hlt, hhi⟩, hfree, hleft, hright⟩
    rcases Nat.lt_or_ge g.1 (s x) with hbelow | habove
    · -- the gap starts below `x`, and so ends there
      have hend : g.2 ≤ s x := not_lt.mp fun hgt => hfree (s x) hbelow.le hgt (hself _ le_rfl hx)
      have h₁' : g.1 = lo := by
        refine hleft.resolve_right fun hcov => ?_
        rcases covers_cons.mp hcov with hc | hc
        · omega
        · have := hge hc
          omega
      have h₂' : g.2 = s x := by
        rcases covers_cons.mp (hright.resolve_left (by omega)) with hc | hc
        · omega
        · have := hge hc
          omega
      exact Or.inl ⟨by omega, Prod.ext h₁' h₂'⟩
    · have hstart : e x ≤ g.1 := not_lt.mp fun hgt => hfree g.1 le_rfl hlt (hself _ habove hgt)
      refine Or.inr ⟨⟨by omega, hlt, hhi⟩, fun a ha ha' hc => ?_, ?_, ?_⟩
      · exact hfree a ha ha' (covers_cons.mpr (Or.inr hc))
      · by_cases heq : g.1 = min (e x) hi
        · exact Or.inl heq
        · rcases covers_cons.mp (hleft.resolve_left (by omega)) with hc | hc
          · omega
          · exact Or.inr hc
      · refine hright.imp_right fun hc => (covers_cons.mp hc).resolve_left ?_
        omega
  · rintro (⟨hlt, rfl⟩ | ⟨⟨hlo, hlt, hhi⟩, hfree, hleft, hright⟩)
    · refine ⟨⟨le_rfl, hlt, h₁.le⟩, fun a ha ha' hc => ?_, Or.inl rfl, Or.inr (hself _ le_rfl hx)⟩
      dsimp only at ha ha'
      rcases covers_cons.mp hc with hc | hc
      · omega
      · have := hge hc
        omega
    · have hstart : e x ≤ g.1 := by omega
      refine ⟨⟨by omega, hlt, hhi⟩, fun a ha ha' hc => ?_, Or.inr ?_,
        hright.imp_right fun hc => covers_cons.mpr (Or.inr hc)⟩
      · rcases covers_cons.mp hc with hc | hc
        · omega
        · exact hfree a ha ha' hc
      · rcases hleft with heq | hc
        · exact hself _ (by omega) (by omega)
        · exact covers_cons.mpr (Or.inr hc)

end Gaps

/-! ## Searching a list in order -/

/-- **The first hit of a search in descending order is the greatest of all.** -/
theorem findSome?_isGreatest {γ : Type*} [Preorder γ] {f : α → Option γ} {S : α → Set γ} :
    ∀ {xs : List α}, (∀ x ∈ xs, ∀ c, f x = some c → IsGreatest (S x) c) →
    (∀ x ∈ xs, f x = none → ∀ c, c ∉ S x) →
    (xs.Pairwise fun x y => ∀ c ∈ S x, ∀ d ∈ S y, d ≤ c) →
    (∀ c, xs.findSome? f = some c → IsGreatest {d | ∃ x ∈ xs, d ∈ S x} c) ∧
      (xs.findSome? f = none → ∀ d, ¬∃ x ∈ xs, d ∈ S x)
  | [], _, _, _ => by simp
  | x :: xs, hsome, hnone, hpair => by
      obtain ⟨hx, hxs⟩ := List.pairwise_cons.mp hpair
      obtain ⟨ihSome, ihNone⟩ := findSome?_isGreatest
        (fun y hy => hsome y (List.mem_cons_of_mem _ hy))
        (fun y hy => hnone y (List.mem_cons_of_mem _ hy)) hxs
      simp only [List.findSome?_cons, List.exists_mem_cons_iff]
      rcases hf : f x with _ | c
      · have hempty := hnone x (by simp) hf
        simpa only [hempty, false_or] using And.intro ihSome ihNone
      · have hgreatest := hsome x (by simp) c hf
        refine ⟨fun c' hc' => ?_, fun h => by cases h⟩
        obtain rfl := Option.some.inj hc'
        refine ⟨Or.inl hgreatest.1, ?_⟩
        rintro d (hd | ⟨y, hy, hd⟩)
        · exact hgreatest.2 hd
        · exact hx y hy c hgreatest.1 d hd

end Machinery
