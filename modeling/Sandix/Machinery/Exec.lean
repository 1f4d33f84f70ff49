import Mathlib.Tactic

/-!
# Machinery/Exec — running a loop whose body may stop the machine

A C loop is a `step` on the variables it carries: the next state, or the value the loop leaves with.
`Exec.loop` runs it on a fuel budget, and running out of budget is an outcome of its own
(`Stop.fuel`), never a silent result: a loop that is proved to return has been proved to terminate.

`loop_spec` is the induction of the library — an invariant that a step preserves while a variant falls
— with `loop_inv` for a loop already known to return, and `loop_sim` its counterpart for two loops that
run side by side (`loop_map`, when one is the image of the other).
-/

namespace Machinery

/-- The ways a computation ends without returning: a failed `BUG_ON`, a `panic`, an access the
hardware refuses, an exhausted budget. -/
inductive Stop
  | bug
  | panic
  | fault
  | fuel
deriving DecidableEq, Repr

/-- `ENOMEM`. -/
def ENOMEM : ℤ := 12

/-- `EBUSY`. -/
def EBUSY : ℤ := 16

/-- `EINVAL`. -/
def EINVAL : ℤ := 22

/-- A computation that returns or stops. -/
abbrev Exec (α : Type) := Except Stop α

namespace Exec

variable {σ β γ : Type}

@[simp] theorem ok_bind (a : β) (f : β → Exec γ) : ((Except.ok a : Exec β) >>= f) = f a := rfl

@[simp] theorem error_bind (e : Stop) (f : β → Exec γ) :
    ((Except.error e : Exec β) >>= f) = Except.error e := rfl

@[simp] theorem pure_eq_ok (a : β) : (pure a : Exec β) = Except.ok a := rfl

/-- A sequence that returned did so through both halves. -/
theorem bind_eq_ok {x : Exec β} {f : β → Exec γ} {c : γ} :
    (x >>= f) = .ok c ↔ ∃ b, x = .ok b ∧ f b = .ok c := by
  cases x with
  | error e => simp
  | ok b => simp

/-- The computation returns a value meeting `Q`, or ends where the program chose to stop. -/
def Safe (x : Exec β) (Q : β → Prop) : Prop :=
  (∃ b, x = .ok b ∧ Q b) ∨ x = .error .panic ∨ x = .error .bug

namespace Safe

variable {x : Exec β} {f : β → Exec γ} {P Q : β → Prop} {R : γ → Prop} {b : β}

theorem ok (h : Q b) : Safe (.ok b) Q := Or.inl ⟨b, rfl, h⟩

theorem panic : Safe (.error .panic : Exec β) Q := Or.inr (Or.inl rfl)

theorem bug : Safe (.error .bug : Exec β) Q := Or.inr (Or.inr rfl)

theorem mono (h : Safe x P) (hPQ : ∀ b, P b → Q b) : Safe x Q := by
  rcases h with ⟨b, rfl, hP⟩ | rfl | rfl
  · exact ok (hPQ b hP)
  · exact panic
  · exact bug

/-- Sequencing. -/
theorem bind (h : Safe x P) (hf : ∀ b, P b → Safe (f b) R) : Safe (x >>= f) R := by
  rcases h with ⟨b, rfl, hP⟩ | rfl | rfl
  · rw [ok_bind]
    exact hf b hP
  · exact panic
  · exact bug

theorem and (hP : Safe x P) (hQ : Safe x Q) : Safe x fun b => P b ∧ Q b := by
  rcases hP with ⟨b, rfl, hP⟩ | rfl | rfl
  · rcases hQ with ⟨b', hb, hQ⟩ | hb | hb
    · cases hb
      exact ok ⟨hP, hQ⟩
    · cases hb
    · cases hb
  · exact panic
  · exact bug

/-- What is true of every value returned. -/
theorem of_ok (h : Safe x P) (hQ : ∀ b, x = .ok b → Q b) : Safe x Q := by
  rcases h with ⟨b, rfl, -⟩ | rfl | rfl
  · exact ok (hQ b rfl)
  · exact panic
  · exact bug

end Safe

/-- The computation returns, with a value meeting `Q`. -/
def Returns (x : Exec β) (Q : β → Prop) : Prop := ∃ b, x = .ok b ∧ Q b

namespace Returns

variable {x y : Exec β} {f : β → Exec γ} {P Q : β → Prop} {R : γ → Prop} {b : β}

theorem ok (h : Q b) : Returns (.ok b) Q := ⟨b, rfl, h⟩

theorem mono (h : Returns x P) (hPQ : ∀ b, P b → Q b) : Returns x Q := by
  obtain ⟨b, hx, hb⟩ := h
  exact ⟨b, hx, hPQ b hb⟩

/-- Sequencing. -/
theorem bind (h : Returns x P) (hf : ∀ b, P b → Returns (f b) R) : Returns (x >>= f) R := by
  obtain ⟨b, rfl, hb⟩ := h
  rw [ok_bind]
  exact hf b hb

theorem ite {c : Prop} [Decidable c] (h₁ : c → Returns x Q) (h₂ : ¬c → Returns y Q) :
    Returns (if c then x else y) Q := by
  split_ifs with h
  · exact h₁ h
  · exact h₂ h

end Returns

/-- Whatever `x` returns, `y` returns: `y` may only go on where `x` stops. -/
def Le (x y : Exec β) : Prop := ∀ b, x = .ok b → y = .ok b

namespace Le

theorem refl (x : Exec β) : Le x x := fun _ h => h

theorem bind {x y : Exec β} {f g : β → Exec γ} (h : Le x y) (hf : ∀ b, Le (f b) (g b)) :
    Le (x >>= f) (y >>= g) := by
  intro c hc
  obtain ⟨b, hx, hb⟩ := bind_eq_ok.mp hc
  rw [h b hx, ok_bind]
  exact hf b c hb

/-- A check in front of a value. -/
theorem check {c : Prop} [Decidable c] {b : β} {e : Stop} {y : Exec β} (h : c → y = .ok b) :
    Le (if c then .ok b else .error e) y := by
  intro v hv
  split_ifs at hv with hc
  rw [h hc, hv]

theorem ite {c : Prop} [Decidable c] {x x' y y' : Exec β} (h : Le x y) (h' : Le x' y') :
    Le (if c then x else x') (if c then y else y') := by
  split_ifs
  · exact h
  · exact h'

end Le

/-- Run `step` until it leaves with a value, for at most `fuel` rounds. -/
def loop (step : σ → Exec (σ ⊕ β)) : ℕ → σ → Exec β
  | 0, _ => .error .fuel
  | n + 1, s => step s >>= fun
    | .inl s' => loop step n s'
    | .inr b => .ok b

variable {step : σ → Exec (σ ⊕ β)} {s s' : σ} {b : β} {n m : ℕ}

theorem loop_next (h : step s = .ok (.inl s')) : loop step (n + 1) s = loop step n s' := by
  rw [loop, h, ok_bind]

theorem loop_done (h : step s = .ok (.inr b)) : loop step (n + 1) s = .ok b := by
  rw [loop, h, ok_bind]

/-- A step that leaves with whatever `x` returns. -/
theorem loop_of_step_bind {x : Exec β} (h : step s = x >>= fun b => .ok (.inr b)) :
    loop step (n + 1) s = x := by
  cases x with
  | error e => rw [loop, h, error_bind, error_bind]
  | ok b => exact loop_done h

/-- **The variant rule.**  `I k s` is the invariant at variant `k`: a step from it either leaves with
a value meeting `Q` or reaches the invariant again at a smaller variant; then a budget above the
variant is enough. -/
theorem loop_spec (step : σ → Exec (σ ⊕ β)) (I : ℕ → σ → Prop) (Q : β → Prop)
    (hstep : ∀ k s, I k s → (∃ k' s', step s = .ok (.inl s') ∧ k' < k ∧ I k' s') ∨
      ∃ b, step s = .ok (.inr b) ∧ Q b) :
    ∀ {n k : ℕ} {s : σ}, I k s → k < n → ∃ b, loop step n s = .ok b ∧ Q b := by
  intro n
  induction n with
  | zero => intro k s _ hk; omega
  | succ n ih =>
    intro k s hI hk
    rcases hstep k s hI with ⟨k', s', hs, hlt, hI'⟩ | ⟨b, hs, hQ⟩
    · obtain ⟨b, hb, hQ⟩ := ih hI' (by omega)
      exact ⟨b, by rw [loop_next hs, hb], hQ⟩
    · exact ⟨b, loop_done hs, hQ⟩

/-- **The invariant rule**, for a loop known to return: what every round keeps holds at the end. -/
theorem loop_inv (I : σ → Prop) (Q : β → Prop)
    (hnext : ∀ {s s'}, I s → step s = .ok (.inl s') → I s')
    (hdone : ∀ {s b}, I s → step s = .ok (.inr b) → Q b) :
    ∀ {n : ℕ} {s : σ}, I s → loop step n s = .ok b → Q b
  | 0, _, _, h => by simp [loop] at h
  | n + 1, s, hI, h => by
      rw [loop, bind_eq_ok] at h
      obtain ⟨r, hs, hr⟩ := h
      cases r with
      | inl s' => exact loop_inv I Q hnext hdone (hnext hI hs) hr
      | inr b' => exact Except.ok.inj hr ▸ hdone hI hs

/-- Two budgets on which the loop returns give the same value. -/
theorem loop_unique {b' : β} : ∀ {n m : ℕ} {s : σ}, loop step n s = .ok b → loop step m s = .ok b' → b = b'
  | 0, _, _, h, _ => by simp [loop] at h
  | _ + 1, 0, _, _, h => by simp [loop] at h
  | n + 1, m + 1, s, h, h' => by
      rw [loop, bind_eq_ok] at h h'
      obtain ⟨r, hs, hr⟩ := h
      obtain ⟨r', hs', hr'⟩ := h'
      obtain rfl := Except.ok.inj (hs.symm.trans hs')
      cases r with
      | inl s' => exact loop_unique hr hr'
      | inr b'' => exact (Except.ok.inj hr).symm.trans (Except.ok.inj hr')

/-- **The simulation rule.**  Two loops go round for round, `R` holding before each round and `Q` at the
end: when the first returns, so does the second. -/
theorem loop_sim {τ δ : Type} (step' : τ → Exec (τ ⊕ δ)) (R : σ → τ → Prop) (Q : β → δ → Prop)
    (hnext : ∀ {s s' t}, R s t → step s = .ok (.inl s') → ∃ t', step' t = .ok (.inl t') ∧ R s' t')
    (hdone : ∀ {s b t}, R s t → step s = .ok (.inr b) → ∃ d, step' t = .ok (.inr d) ∧ Q b d) :
    ∀ {n : ℕ} {s : σ} {t : τ}, R s t → loop step n s = .ok b → ∃ d, loop step' n t = .ok d ∧ Q b d
  | 0, _, _, _, h => by simp [loop] at h
  | n + 1, s, t, hR, h => by
      rw [loop, bind_eq_ok] at h
      obtain ⟨r, hs, hr⟩ := h
      cases r with
      | inl s' =>
        obtain ⟨t', ht, hR'⟩ := hnext hR hs
        rw [loop_next ht]
        exact loop_sim step' R Q hnext hdone hR' hr
      | inr b' =>
        obtain ⟨d, hd, hQ⟩ := hdone hR hs
        exact ⟨d, loop_done hd, Except.ok.inj hr ▸ hQ⟩

/-- **The map rule.**  Where `φ` takes every round of one loop to a round of the other, it takes the loop
to the other, outcome for outcome. -/
theorem loop_map {τ δ : Type} {step' : τ → Exec (τ ⊕ δ)} {φ : σ → τ} {ψ : β → δ}
    (hstep : ∀ s, step' (φ s) = (step s).map (Sum.map φ ψ)) :
    ∀ (n : ℕ) (s : σ), loop step' n (φ s) = (loop step n s).map ψ
  | 0, _ => rfl
  | n + 1, s => by
      rw [loop, loop, hstep]
      cases step s with
      | error e => rfl
      | ok r =>
        cases r with
        | inl s' => exact loop_map hstep n s'
        | inr b => rfl

end Exec

end Machinery
