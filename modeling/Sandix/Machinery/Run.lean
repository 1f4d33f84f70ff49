import Sandix.Machinery.Exec

/-!
# Machinery/Run — runs of a state machine

A machine is a `step` on its states, and a run is a list of operations.  The states a run reaches
are those after its prefixes: `run_induction` carries an invariant along them, with what the run
says about each operation at hand.  `execFrom` and `exec_induction` are the same for a machine whose
steps may stop it, and `exec_returns_induction` shows on the way that none does.
-/

namespace Machinery

variable {σ ω : Type} {step : σ → ω → σ} {s : σ} {ops : List ω}

/-- What holds of every prefix holds of the empty one and of those that take the first element. -/
theorem forall_prefix_cons {P : List ω → Prop} {op : ω} :
    (∀ pre, pre <+: op :: ops → P pre) ↔ P [] ∧ ∀ pre, pre <+: ops → P (op :: pre) := by
  simp only [List.prefix_cons_iff]
  constructor
  · exact fun h => ⟨h [] (Or.inl rfl), fun pre hpre => h _ (Or.inr ⟨pre, rfl, hpre⟩)⟩
  · rintro ⟨hnil, hcons⟩ pre (rfl | ⟨pre', rfl, hpre⟩)
    · exact hnil
    · exact hcons pre' hpre

/-- The state after the operations. -/
def runFrom (step : σ → ω → σ) (s : σ) (ops : List ω) : σ := ops.foldl step s

@[simp] theorem runFrom_nil (step : σ → ω → σ) (s : σ) : runFrom step s [] = s := rfl

@[simp] theorem runFrom_concat (step : σ → ω → σ) (s : σ) (ops : List ω) (op : ω) :
    runFrom step s (ops ++ [op]) = step (runFrom step s ops) op := by
  rw [runFrom, runFrom, List.foldl_append, List.foldl_cons, List.foldl_nil]

/-- **Invariants along a run.** -/
theorem run_induction {I : σ → Prop} (hinit : I s)
    (hstep : ∀ pre op, pre ++ [op] <+: ops → I (runFrom step s pre) →
      I (step (runFrom step s pre) op)) :
    ∀ pre, pre <+: ops → I (runFrom step s pre) := by
  intro pre
  induction pre using List.reverseRecOn with
  | nil => exact fun _ => hinit
  | append_singleton pre op ih =>
    intro hpre
    rw [runFrom_concat]
    exact hstep pre op hpre (ih ((List.prefix_append pre [op]).trans hpre))

/-- The state after the operations, when none of them stops. -/
def execFrom (step : σ → ω → Exec σ) (s : σ) (ops : List ω) : Exec σ := ops.foldlM step s

@[simp] theorem execFrom_nil (step : σ → ω → Exec σ) (s : σ) : execFrom step s [] = .ok s := rfl

@[simp] theorem execFrom_concat (step : σ → ω → Exec σ) (s : σ) (ops : List ω) (op : ω) :
    execFrom step s (ops ++ [op]) = execFrom step s ops >>= fun t => step t op := by
  rw [execFrom, execFrom, List.foldlM_append]
  simp only [List.foldlM_cons, List.foldlM_nil, bind_pure]

/-- **Invariants along a run that may stop.** -/
theorem exec_induction {step : σ → ω → Exec σ} {I : σ → Prop} (hinit : I s)
    (hstep : ∀ pre op t t', pre ++ [op] <+: ops → execFrom step s pre = .ok t → I t →
      step t op = .ok t' → I t') :
    ∀ pre t, pre <+: ops → execFrom step s pre = .ok t → I t := by
  intro pre
  induction pre using List.reverseRecOn with
  | nil =>
    intro t _ ht
    rw [execFrom_nil, Except.ok.injEq] at ht
    exact ht ▸ hinit
  | append_singleton pre op ih =>
    intro t hpre ht
    rw [execFrom_concat, Exec.bind_eq_ok] at ht
    obtain ⟨u, hu, hop⟩ := ht
    exact hstep pre op u t hpre hu (ih u ((List.prefix_append pre [op]).trans hpre) hu) hop

/-- **Invariants along a run that goes through**: from the invariant no operation stops. -/
theorem exec_returns_induction {step : σ → ω → Exec σ} {I : σ → Prop} (hinit : I s)
    (hstep : ∀ pre op t, pre ++ [op] <+: ops → execFrom step s pre = .ok t → I t →
      ∃ t', step t op = .ok t' ∧ I t') :
    ∀ pre, pre <+: ops → ∃ t, execFrom step s pre = .ok t ∧ I t := by
  intro pre
  induction pre using List.reverseRecOn with
  | nil => exact fun _ => ⟨s, rfl, hinit⟩
  | append_singleton pre op ih =>
    intro hpre
    obtain ⟨t, ht, hI⟩ := ih ((List.prefix_append pre [op]).trans hpre)
    obtain ⟨t', hop, hI'⟩ := hstep pre op t hpre ht hI
    exact ⟨t', by rw [execFrom_concat, ht, Exec.ok_bind, hop], hI'⟩

end Machinery
