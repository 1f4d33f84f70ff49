import Sandix.Machinery.Exec

/-!
# Machinery/Proc — procedures on a state that outlives a stop

A `Proc σ α` runs on a state, returns or stops, and leaves the state behind in either case: what had
been done before a `panic` has been done.

`Triple P x Q E` is a Hoare triple with a second postcondition `E` for the runs that stop.  With
`E = fun _ => False` it is total correctness — a loop that runs out of budget has stopped.  The rules
follow the structure of a procedure; `Triple.loop` is the variant rule of `Machinery/Exec` and
`Triple.foldlM` an invariant over the part of the list that is done.
-/

namespace Machinery

/-- A computation on a state `σ` that returns or stops. -/
abbrev Proc (σ α : Type) := EStateM Stop σ α

namespace Proc

variable {σ α β γ : Type}

/-- A computation that does not look at the state. -/
def ofExec (x : Exec α) : Proc σ α := fun s =>
  match x with
  | .ok a => .ok a s
  | .error e => .error e s

theorem ofExec_ok_bind (a : α) (f : α → Proc σ β) : (ofExec (.ok a) >>= f) = f a := rfl

/-- Run `step` until it leaves with a value, for at most `fuel` rounds. -/
def loop (step : β → Proc σ (β ⊕ γ)) : ℕ → β → Proc σ γ
  | 0, _ => throw .fuel
  | n + 1, b => do
    match ← step b with
    | .inl b' => loop step n b'
    | .inr c => pure c

/-- The state a run leaves behind. -/
def after (x : Proc σ α) (s : σ) : σ :=
  match x s with
  | .ok _ s' => s'
  | .error _ s' => s'

/-- A run that returned ended in `Q`, a run that stopped in `E`. -/
def Ends (Q : α → σ → Prop) (E : σ → Prop) : EStateM.Result Stop σ α → Prop
  | .ok a s => Q a s
  | .error _ s => E s

/-- **The triple**: from a state in `P`, a run that returns ends in `Q` and a run that stops in `E`. -/
def Triple (P : σ → Prop) (x : Proc σ α) (Q : α → σ → Prop) (E : σ → Prop) : Prop :=
  ∀ s, P s → Ends Q E (x s)

namespace Triple

variable {P P' : σ → Prop} {x : Proc σ α} {f : α → Proc σ β} {Q Q' : α → σ → Prop}
  {R : β → σ → Prop} {E : σ → Prop}

theorem pure (a : α) (h : ∀ s, P s → Q a s) : Triple P (Pure.pure a) Q E := h

theorem bind (hx : Triple P x Q E) (hf : ∀ a, Triple (Q a) (f a) R E) : Triple P (x >>= f) R E := by
  intro s hs
  have hxs := hx s hs
  change Ends R E (EStateM.bind x f s)
  unfold EStateM.bind
  cases hrun : x s with
  | ok a s' =>
    rw [hrun] at hxs
    exact hf a s' hxs
  | error e s' =>
    rw [hrun] at hxs
    exact hxs

theorem conseq (hx : Triple P x Q E) (hP : ∀ s, P' s → P s) (hQ : ∀ a s, Q a s → Q' a s) :
    Triple P' x Q' E := by
  intro s hs
  have hxs := hx s (hP s hs)
  cases hrun : x s with
  | ok a s' =>
    rw [hrun] at hxs
    exact hQ a s' hxs
  | error e s' =>
    rw [hrun] at hxs
    exact hxs

/-- Reading the state: it may be named. -/
theorem read {y : σ → Proc σ α} (hy : ∀ s₀, P s₀ → Triple (fun s => s = s₀) (y s₀) Q E) :
    Triple P (get >>= y) Q E :=
  bind (Q := fun s₀ s => P s₀ ∧ s = s₀) (fun _ hs => ⟨hs, rfl⟩) fun s₀ s hs => hy s₀ hs.1 s hs.2

/-- An update, before a procedure whose triple is known. -/
theorem update {y : Proc σ α} {g : σ → σ} {R : σ → Prop} (hy : Triple R y Q E)
    (h : ∀ s, P s → R (g s)) : Triple P (modify g >>= fun _ => y) Q E :=
  bind (Q := fun _ => R) h fun _ => hy

/-- Running on when a condition holds. -/
theorem ite {c : Prop} [Decidable c] {y : Proc σ α} (h₁ : c → Triple P x Q E)
    (h₂ : ¬c → Triple P y Q E) : Triple P (if c then x else y) Q E := by
  split_ifs with h
  · exact h₁ h
  · exact h₂ h

/-- **The variant rule.** -/
theorem loop {step : β → Proc σ (β ⊕ γ)} (I : ℕ → β → σ → Prop) {Q : γ → σ → Prop}
    (hstep : ∀ k b, Triple (I k b) (step b)
      (fun r s => Sum.elim (fun b' => ∃ k' < k, I k' b' s) (fun c => Q c s) r) E) :
    ∀ {n k : ℕ} {b : β}, k < n → Triple (I k b) (Proc.loop step n b) Q E := by
  intro n
  induction n with
  | zero => intro k b hk; omega
  | succ n ih =>
    intro k b hk
    refine (hstep k b).bind fun r => ?_
    cases r with
    | inl b' =>
      rintro s ⟨k', hlt, hI⟩
      exact ih (by omega) s hI
    | inr c => exact fun s hs => hs

/-- The rest of a loop over a list, with an invariant for every part that is done. -/
theorem foldlM_rest {step : β → α → Proc σ β} (I : List α → β → σ → Prop) {xs : List α}
    (hstep : ∀ done x rest, xs = done ++ x :: rest → ∀ b,
      Triple (I done b) (step b x) (I (done ++ [x])) E) :
    ∀ {done rest : List α} {b : β}, xs = done ++ rest →
      Triple (I done b) (rest.foldlM step b) (I xs) E := by
  intro done rest
  induction rest generalizing done with
  | nil =>
    intro b hxs s hs
    rw [List.append_nil] at hxs
    rw [List.foldlM_nil, hxs]
    exact hs
  | cons x rest ih =>
    intro b hxs
    rw [List.foldlM_cons]
    exact (hstep done x rest hxs b).bind fun b' => ih (by simp [hxs])

/-- **A loop over a list.** -/
theorem foldlM {step : β → α → Proc σ β} (I : List α → β → σ → Prop) {xs : List α} {b : β}
    (hstep : ∀ done x rest, xs = done ++ x :: rest → ∀ b,
      Triple (I done b) (step b x) (I (done ++ [x])) E) :
    Triple (I [] b) (xs.foldlM step b) (I xs) E :=
  foldlM_rest I hstep rfl

/-- What a triple says about the state left behind, when both postconditions say it. -/
theorem after {s : σ} {J : σ → Prop} (h : Triple P x Q E) (hs : P s) (hQ : ∀ a s', Q a s' → J s')
    (hE : ∀ s', E s' → J s') : J (x.after s) := by
  have hrun := h s hs
  unfold Proc.after
  cases hx : x s with
  | ok a s' =>
    rw [hx] at hrun
    exact hQ a s' hrun
  | error e s' =>
    rw [hx] at hrun
    exact hE s' hrun

/-- A triple whose runs do not stop. -/
theorem returns {s : σ} (h : Triple P x Q fun _ => False) (hs : P s) :
    ∃ a s', x s = .ok a s' ∧ Q a s' := by
  have hrun := h s hs
  cases hx : x s with
  | ok a s' =>
    rw [hx] at hrun
    exact ⟨a, s', rfl, hrun⟩
  | error e s' =>
    rw [hx] at hrun
    exact hrun.elim

end Triple

end Proc

end Machinery
