import Sandix.Machinery.Interval

/-!
# Machinery/Labelled — labelled intervals and the map they stand for

Intervals in ascending order, each with a label, stand for a partial map from addresses to labels
(`Stands`).  Such a list is *tight* when no interval could be joined with the next: they touch and
carry one label.  A map has at most one tight list (`Ascending.ext`), so whatever edits have led to it
cannot be told from the list; in particular the map says how long it is (`Ascending.length_eq_ncard`)
and what it leaves free (`Stands.maximalGap_iff`).

A map is edited by `paint`, which labels what is free of a set, `erase` and `relabel`.  Painting twice
with one label does not depend on the order (`paint_comm`).
-/

namespace Machinery

variable {α γ : Type*} {s e : α → ℕ} {l : α → γ}

/-! ## The map of a list -/

/-- The address `a` lies in an interval labelled `c`. -/
def LabelAt (s e : α → ℕ) (l : α → γ) (xs : List α) (a : ℕ) (c : γ) : Prop :=
  ∃ x ∈ xs, (s x ≤ a ∧ a < e x) ∧ l x = c

/-- The list stands for the partial map `m`. -/
def Stands (s e : α → ℕ) (l : α → γ) (xs : List α) (m : ℕ → Option γ) : Prop :=
  ∀ a c, LabelAt s e l xs a c ↔ m a = some c

/-- No two intervals could be joined. -/
def Tight (s e : α → ℕ) (l : α → γ) (xs : List α) : Prop :=
  xs.Pairwise fun x y => ¬(e x = s y ∧ l x = l y)

theorem labelAt_cons {x : α} {xs : List α} {a : ℕ} {c : γ} : LabelAt s e l (x :: xs) a c ↔
    ((s x ≤ a ∧ a < e x) ∧ l x = c) ∨ LabelAt s e l xs a c := by
  simp [LabelAt]

theorem LabelAt.covers {xs : List α} {a : ℕ} {c : γ} (h : LabelAt s e l xs a c) : Covers s e xs a :=
  let ⟨x, hx, ha, _⟩ := h
  ⟨x, hx, ha⟩

namespace Ascending

variable {lo : ℕ} {x y : α} {xs ys : List α}

/-- The first interval, as far as it reaches. -/
theorem labelAt_head (h : Ascending s e lo (x :: xs)) {a : ℕ} {c : γ} (ha : a < e x) :
    LabelAt s e l (x :: xs) a c ↔ s x ≤ a ∧ l x = c := by
  obtain ⟨-, -, hxs⟩ := ascending_cons.mp h
  rw [labelAt_cons, or_iff_left, and_iff_left ha]
  intro hat
  have := hxs.le_of_covers hat.covers
  omega

/-- The rest, behind the first interval. -/
theorem labelAt_tail {a : ℕ} {c : γ} (ha : e x ≤ a) :
    LabelAt s e l (x :: xs) a c ↔ LabelAt s e l xs a c := by
  rw [labelAt_cons, or_iff_right]
  rintro ⟨⟨-, hlt⟩, -⟩
  omega

/-- The first interval of a tight list ends where its label does. -/
theorem head_stop (h : Ascending s e lo (x :: xs)) (ht : Tight s e l (x :: xs)) :
    ¬LabelAt s e l (x :: xs) (e x) (l x) := by
  rw [labelAt_tail le_rfl]
  rintro ⟨y, hy, ⟨hs, -⟩, hl⟩
  have hge := (ascending_cons.mp h).2.2.start_ge hy
  exact (List.pairwise_cons.mp ht).1 y hy ⟨by omega, hl.symm⟩

/-- The first interval starts where the map does. -/
theorem head_start_le {lo' : ℕ} (hx : Ascending s e lo (x :: xs)) (hy : Ascending s e lo' (y :: ys))
    (h : ∀ a c, LabelAt s e l (x :: xs) a c ↔ LabelAt s e l (y :: ys) a c) : s y ≤ s x := by
  have hat : LabelAt s e l (x :: xs) (s x) (l x) :=
    (hx.labelAt_head (ascending_cons.mp hx).2.1).mpr ⟨le_rfl, rfl⟩
  have hfrom : Ascending s e (s y) (y :: ys) := ⟨le_rfl, (ascending_cons.mp hy).2⟩
  exact hfrom.le_of_covers ((h _ _).mp hat).covers

/-- Two tight lists of one map start with intervals that end together. -/
theorem head_stop_le {lo' : ℕ} (hx : Ascending s e lo (x :: xs)) (hy : Ascending s e lo' (y :: ys))
    (ht : Tight s e l (x :: xs)) (hs : s x = s y) (hl : l x = l y)
    (h : ∀ a c, LabelAt s e l (x :: xs) a c ↔ LabelAt s e l (y :: ys) a c) : e y ≤ e x := by
  by_contra hlt
  refine hx.head_stop ht ((h _ _).mpr ((hy.labelAt_head (not_le.mp hlt)).mpr ⟨?_, hl.symm⟩))
  have := (ascending_cons.mp hx).2.1
  omega

/-- **A map has at most one tight list.** -/
theorem ext : ∀ {xs ys : List α} {lo lo' : ℕ}, Ascending s e lo xs → Ascending s e lo' ys →
    Tight s e l xs → Tight s e l ys →
    (∀ a c, LabelAt s e l xs a c ↔ LabelAt s e l ys a c) →
      xs.map (fun x => (s x, e x, l x)) = ys.map fun y => (s y, e y, l y)
  | [], [], _, _, _, _, _, _, _ => rfl
  | [], y :: ys, _, _, _, hy, _, _, h => by
      obtain ⟨_, hz, -⟩ := (h _ _).mpr
        ((hy.labelAt_head (ascending_cons.mp hy).2.1).mpr ⟨le_rfl, rfl⟩)
      exact absurd hz List.not_mem_nil
  | x :: xs, [], _, _, hx, _, _, _, h => by
      obtain ⟨_, hz, -⟩ := (h _ _).mp
        ((hx.labelAt_head (ascending_cons.mp hx).2.1).mpr ⟨le_rfl, rfl⟩)
      exact absurd hz List.not_mem_nil
  | x :: xs, y :: ys, _, _, hx, hy, htx, hty, h => by
      have h' : ∀ a c, LabelAt s e l (y :: ys) a c ↔ LabelAt s e l (x :: xs) a c :=
        fun a c => (h a c).symm
      have hs : s x = s y := le_antisymm (head_start_le hy hx h') (head_start_le hx hy h)
      have hl : l x = l y := by
        have hat := (hx.labelAt_head (l := l) (ascending_cons.mp hx).2.1).mpr ⟨le_rfl, rfl⟩
        have hat' := (h _ _).mp hat
        rw [hs, hy.labelAt_head (ascending_cons.mp hy).2.1] at hat'
        exact hat'.2.symm
      have he : e x = e y :=
        le_antisymm (head_stop_le hy hx hty hs.symm hl.symm h') (head_stop_le hx hy htx hs hl h)
      have hrest := ext (ascending_cons.mp hx).2.2 (ascending_cons.mp hy).2.2
        (List.pairwise_cons.mp htx).2 (List.pairwise_cons.mp hty).2 fun a c => by
          rcases lt_or_ge a (e x) with ha | ha
          · -- in front of the tails nothing is labelled
            refine iff_of_false (fun hat => ?_) fun hat => ?_
            · exact absurd ((ascending_cons.mp hx).2.2.le_of_covers hat.covers) (by omega)
            · exact absurd ((ascending_cons.mp hy).2.2.le_of_covers hat.covers) (by omega)
          · rw [← labelAt_tail ha, h, labelAt_tail (he ▸ ha)]
      rw [List.map_cons, List.map_cons, hrest, hs, he, hl]

end Ascending

/-! ## What a map says of its list -/

/-- Where a label starts. -/
def starts (m : ℕ → Option γ) : Set ℕ := {a | m a ≠ none ∧ ∀ b, b + 1 = a → m b ≠ m a}

/-- The free intervals of `[lo, hi)` that cannot be made longer. -/
def gaps (m : ℕ → Option γ) (lo hi : ℕ) : Set (ℕ × ℕ) :=
  {g | (lo ≤ g.1 ∧ g.1 < g.2 ∧ g.2 ≤ hi) ∧ (∀ a, g.1 ≤ a → a < g.2 → m a = none) ∧
    (g.1 = lo ∨ m (g.1 - 1) ≠ none) ∧ (g.2 = hi ∨ m g.2 ≠ none)}

section Stands

variable {lo hi : ℕ} {xs : List α} {m : ℕ → Option γ}

theorem Stands.covers_iff (h : Stands s e l xs m) {a : ℕ} : Covers s e xs a ↔ m a ≠ none := by
  constructor
  · rintro ⟨x, hx, ha⟩
    rw [(h a (l x)).mp ⟨x, hx, ha, rfl⟩]
    exact Option.some_ne_none _
  · intro ha
    obtain ⟨c, hc⟩ := Option.ne_none_iff_exists'.mp ha
    exact ((h a c).mpr hc).covers

/-- What the list leaves free can be read off the map. -/
theorem Stands.maximalGap_iff (h : Stands s e l xs m) {g : ℕ × ℕ} :
    MaximalGap s e xs lo hi g ↔ g ∈ gaps m lo hi := by
  simp only [gaps, Set.mem_ofPred_eq, ← h.covers_iff]
  constructor
  · rintro ⟨hin, hfree, hleft, hright⟩
    exact ⟨hin, fun a ha ha' => not_not.mp (h.covers_iff.not.mp (hfree a ha ha')), hleft, hright⟩
  · rintro ⟨hin, hfree, hleft, hright⟩
    exact ⟨hin, fun a ha ha' => h.covers_iff.not.mpr (not_not.mpr (hfree a ha ha')), hleft, hright⟩

/-- The intervals of a tight list start where the labels of its map do. -/
theorem Ascending.mem_starts_iff (h : Ascending s e lo xs) (ht : Tight s e l xs)
    (hm : Stands s e l xs m) {a : ℕ} : a ∈ starts m ↔ a ∈ xs.map s := by
  have hpair := (ascending_iff.mp h).2
  rw [List.mem_map]
  constructor
  · rintro ⟨ha, hprev⟩
    obtain ⟨c, hc⟩ := Option.ne_none_iff_exists'.mp ha
    obtain ⟨x, hx, hin, hl⟩ := (hm a c).mpr hc
    refine ⟨x, hx, ?_⟩
    by_contra hne
    obtain ⟨b, rfl⟩ : ∃ b, b + 1 = a := ⟨a - 1, by omega⟩
    exact hprev b rfl (((hm b c).mp ⟨x, hx, by omega, hl⟩).trans hc.symm)
  · rintro ⟨x, hx, rfl⟩
    have hat : m (s x) = some (l x) := (hm _ _).mp ⟨x, hx, ⟨le_rfl, h.start_lt_stop hx⟩, rfl⟩
    refine ⟨by rw [hat]; exact Option.some_ne_none _, fun b hb hsame => ?_⟩
    obtain ⟨y, hy, hin, hl⟩ := (hm b (l x)).mpr (hsame.trans hat)
    -- an interval that ends at `s x` and has its label would have been joined with `x`
    have hjoin : xs.Pairwise fun x y => e x ≤ s y ∧ ¬(e x = s y ∧ l x = l y) := hpair.and ht
    have hends := h.start_lt_stop hx
    have hcases : ∀ y ∈ xs, ∀ x ∈ xs, y = x ∨ (e y ≤ s x ∧ ¬(e y = s x ∧ l y = l x)) ∨
        (e x ≤ s y ∧ ¬(e x = s y ∧ l x = l y)) :=
      List.Pairwise.forall_of_forall_of_flip (fun _ _ => Or.inl rfl)
        (hjoin.imp fun h => Or.inr (Or.inl h)) (hjoin.imp fun h => Or.inr (Or.inr h))
    rcases hcases y hy x hx with rfl | ⟨hle, hno⟩ | ⟨hle, -⟩
    · omega
    · exact hno ⟨by omega, hl⟩
    · omega

/-- **A tight list is as long as its map has starts.** -/
theorem Ascending.length_eq_ncard (h : Ascending s e lo xs) (ht : Tight s e l xs)
    (hm : Stands s e l xs m) : xs.length = (starts m).ncard := by
  have hset : starts m = ((xs.map s).toFinset : Set ℕ) := by
    ext a
    rw [h.mem_starts_iff ht hm, Finset.mem_coe, List.mem_toFinset]
  have hnodup : (xs.map s).Nodup := by
    refine List.pairwise_map.mpr ((ascending_iff.mp h).2.imp_of_mem fun hx _ hle => ?_)
    have := h.start_lt_stop hx
    omega
  rw [hset, Set.ncard_coe_finset, List.toFinset_card_of_nodup hnodup, List.length_map]

end Stands

/-! ## Edits of a map -/

section Edits

open Classical

variable (S : Set ℕ) (m : ℕ → Option γ)

/-- Label what is free of `S`. -/
noncomputable def paint (c : γ) : ℕ → Option γ :=
  fun a => (m a).orElse fun _ => if a ∈ S then some c else none

/-- Free `S`. -/
noncomputable def erase : ℕ → Option γ := fun a => if a ∈ S then none else m a

/-- Change the labels inside `S`. -/
noncomputable def relabel (g : γ → γ) : ℕ → Option γ := fun a => if a ∈ S then (m a).map g else m a

variable {S m}

theorem paint_eq_some {c d : γ} {a : ℕ} :
    paint S m c a = some d ↔ m a = some d ∨ (a ∈ S ∧ m a = none) ∧ c = d := by
  rw [paint]
  cases h : m a with
  | some v => simp
  | none => by_cases ha : a ∈ S <;> simp [ha]

theorem erase_eq_some {d : γ} {a : ℕ} : erase S m a = some d ↔ m a = some d ∧ a ∉ S := by
  rw [erase]
  by_cases ha : a ∈ S <;> simp [ha]

theorem relabel_eq_some {g : γ → γ} {d : γ} {a : ℕ} :
    relabel S m g a = some d ↔ if a ∈ S then ∃ c, m a = some c ∧ g c = d else m a = some d := by
  rw [relabel]
  by_cases ha : a ∈ S <;> simp [ha]

/-- **Painting with one label commutes.** -/
theorem paint_comm (S T : Set ℕ) (m : ℕ → Option γ) (c : γ) :
    paint S (paint T m c) c = paint T (paint S m c) c := by
  funext a
  rw [paint, paint, paint, paint]
  cases m a with
  | some v => rfl
  | none => by_cases hS : a ∈ S <;> by_cases hT : a ∈ T <;> simp [hS, hT]

end Edits

end Machinery
