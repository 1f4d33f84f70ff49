import Sandix.Machinery.Run

/-!
# Console/Registry — console drivers and the consoles bound to them

`register_con_driver`, `unregister_con_driver` and `bind_con_driver` of `drivers/tty/vt/vt.c`, over
the table `registed_con_drivers` and the `driver` pointers of the consoles.

`unbind_con_driver` refuses nothing, so a driver can be unregistered under a console that is bound
to it.  `keepsRegistry_iff`: that is the only way a run leaves the registry inconsistent.
-/

namespace Sandix

open Machinery

/-- `MAX_NR_CON_DRIVERS`. -/
def maxNrConDrivers : ℕ := 4

/-- The registry: the table of drivers, the driver each console is bound to, and the drivers whose
`con_startup` was called, last first.  A driver and a console are their addresses, and `none` is the
null pointer. -/
structure ConTables (δ κ : Type) where
  drivers : Fin maxNrConDrivers → Option δ
  bound : κ → Option δ
  started : List δ

namespace ConTables

variable {δ κ : Type} [DecidableEq δ]

/-- The tables before the first call. -/
def empty : ConTables δ κ := ⟨fun _ => none, fun _ => none, []⟩

/-- The first slot that holds `v`. -/
def slotOf (t : ConTables δ κ) (v : Option δ) : Option (Fin maxNrConDrivers) :=
  (List.finRange maxNrConDrivers).find? fun i => t.drivers i = v

/-- `bind_con_driver`. -/
def bindConDriver [DecidableEq κ] (t : ConTables δ κ) (vc : κ) (con : δ) : ℤ × ConTables δ κ :=
  match t.slotOf (some con) with
  | some _ => (0, { t with bound := Function.update t.bound vc (some con) })
  | none => (-EINVAL, t)

/-- `unbind_con_driver`. -/
def unbindConDriver (_t : ConTables δ κ) (_con : δ) : ℤ := 0

/-- `register_con_driver`. -/
def registerConDriver (t : ConTables δ κ) (con : δ) : ℤ × ConTables δ κ :=
  match t.slotOf (some con) with
  | some _ => (-EBUSY, t)
  | none =>
    match t.slotOf none with
    | some i => (0, { t with drivers := Function.update t.drivers i (some con)
                             started := con :: t.started })
    | none => (-EINVAL, t)

/-- `unregister_con_driver`. -/
def unregisterConDriver (t : ConTables δ κ) (con : δ) : ℤ × ConTables δ κ :=
  let err := t.unbindConDriver con
  if err ≠ 0 then (err, t)
  else
    match t.slotOf (some con) with
    | some i => (0, { t with drivers := Function.update t.drivers i none })
    | none => (-EINVAL, t)

end ConTables

/-- A call to the registry. -/
inductive ConOp (δ κ : Type)
  | register (con : δ)
  | unregister (con : δ)
  | bind (vc : κ) (con : δ)

variable {δ κ : Type} [DecidableEq δ]

/-- The tables after a call. -/
def ConTables.step [DecidableEq κ] (t : ConTables δ κ) : ConOp δ κ → ConTables δ κ
  | .register con => (t.registerConDriver con).2
  | .unregister con => (t.unregisterConDriver con).2
  | .bind vc con => (t.bindConDriver vc con).2

/-- The tables after a sequence of calls. -/
def conTablesAfter [DecidableEq κ] (ops : List (ConOp δ κ)) : ConTables δ κ :=
  runFrom ConTables.step ConTables.empty ops

namespace ConTables

variable {t : ConTables δ κ} {con : δ}

/-! ## The invariant -/

/-- No driver occupies two slots. -/
def Once (t : ConTables δ κ) : Prop :=
  ∀ i j con, t.drivers i = some con → t.drivers j = some con → i = j

/-- The driver is in the table. -/
def Registered (t : ConTables δ κ) (con : δ) : Prop := ∃ i, t.drivers i = some con

/-- Some console is bound to the driver. -/
def Bound (t : ConTables δ κ) (con : δ) : Prop := ∃ vc, t.bound vc = some con

/-- No driver occupies two slots, and every console's driver is registered. -/
structure Consistent (t : ConTables δ κ) : Prop where
  once : t.Once
  registered : ∀ con, t.Bound con → t.Registered con

/-- Unregistering a driver that some console is bound to fails and leaves the tables. -/
def Refuses (t : ConTables δ κ) (con : δ) : Prop :=
  t.Bound con → (t.unregisterConDriver con).1 ≠ 0 ∧ (t.unregisterConDriver con).2 = t

theorem drivers_of_slotOf {v : Option δ} {i : Fin maxNrConDrivers} (h : t.slotOf v = some i) :
    t.drivers i = v := by
  simpa using List.find?_some h

theorem slotOf_eq_none {v : Option δ} : t.slotOf v = none ↔ ∀ i, t.drivers i ≠ v := by
  simp [slotOf, List.find?_eq_none]

/-- A registered driver is found. -/
theorem Registered.slotOf (h : t.Registered con) : ∃ i, t.slotOf (some con) = some i := by
  obtain ⟨i, hi⟩ := h
  rw [← Option.isSome_iff_exists, Option.isSome_iff_ne_none]
  exact fun hnone => slotOf_eq_none.mp hnone i hi

/-- Unregistering succeeds on every registered driver. -/
theorem unregisterConDriver_of_registered (h : t.Registered con) :
    (t.unregisterConDriver con).1 = 0 := by
  obtain ⟨i, hi⟩ := h.slotOf
  simp [unregisterConDriver, unbindConDriver, hi]

omit [DecidableEq δ] in
theorem empty_consistent : (empty : ConTables δ κ).Consistent := by
  refine ⟨?_, ?_⟩
  · intro i j con hi
    simp [empty] at hi
  · rintro con ⟨vc, hvc⟩
    simp [empty] at hvc

theorem Consistent.registerConDriver (h : t.Consistent) (con : δ) :
    (t.registerConDriver con).2.Consistent := by
  unfold ConTables.registerConDriver
  cases hcon : t.slotOf (some con) with
  | some i => exact h
  | none =>
    have hfree := slotOf_eq_none.mp hcon
    cases hnull : t.slotOf none with
    | none => exact h
    | some k =>
      have hk := drivers_of_slotOf hnull
      refine ⟨?_, ?_⟩
      · intro i j c hi hj
        simp only [Function.update_apply] at hi hj
        split_ifs at hi hj with hik hjk hjk
        · rw [hik, hjk]
        · rw [Option.some.inj hi] at hfree
          exact absurd hj (hfree j)
        · rw [Option.some.inj hj] at hfree
          exact absurd hi (hfree i)
        · exact h.once i j c hi hj
      · intro c hc
        obtain ⟨i, hi⟩ := h.registered c hc
        have hik : i ≠ k := by
          rintro rfl
          rw [hk] at hi
          exact absurd hi (by simp)
        exact ⟨i, by rw [← hi]; exact Function.update_of_ne hik _ _⟩

theorem Consistent.bindConDriver [DecidableEq κ] (h : t.Consistent) (vc : κ) (con : δ) :
    (t.bindConDriver vc con).2.Consistent := by
  unfold ConTables.bindConDriver
  cases hcon : t.slotOf (some con) with
  | none => exact h
  | some k =>
    refine ⟨h.once, ?_⟩
    rintro c ⟨w, hw⟩
    simp only [Function.update_apply] at hw
    split_ifs at hw with hwv
    · exact ⟨k, (drivers_of_slotOf hcon).trans hw⟩
    · exact h.registered c ⟨w, hw⟩

/-- Removing a driver is safe while no console is bound to it. -/
theorem Consistent.unregisterConDriver (h : t.Consistent) (hcon : ¬ t.Bound con) :
    (t.unregisterConDriver con).2.Consistent := by
  unfold ConTables.unregisterConDriver
  simp only [unbindConDriver, ne_eq, not_true_eq_false, if_false]
  cases hslot : t.slotOf (some con) with
  | none => exact h
  | some k =>
    have hk := drivers_of_slotOf hslot
    refine ⟨?_, ?_⟩
    · intro i j c hi hj
      simp only [Function.update_apply] at hi hj
      split_ifs at hi hj
      exact h.once i j c hi hj
    · intro c hc
      obtain ⟨i, hi⟩ := h.registered c hc
      have hik : i ≠ k := by
        rintro rfl
        rw [hk, Option.some.injEq] at hi
        exact hcon (hi ▸ hc)
      exact ⟨i, by rw [← hi]; exact Function.update_of_ne hik _ _⟩

/-- **One call.** -/
theorem Consistent.step [DecidableEq κ] (h : t.Consistent) {op : ConOp δ κ}
    (hop : ∀ con, op = .unregister con → ¬ t.Bound con) : (t.step op).Consistent := by
  cases op with
  | register con => exact h.registerConDriver con
  | unregister con => exact h.unregisterConDriver (hop con rfl)
  | bind vc con => exact h.bindConDriver vc con

end ConTables

/-! ## Runs -/

variable [DecidableEq κ]

/-- The registry's promise along a run: every state is consistent, and a call that unregisters a
driver in use is refused. -/
def KeepsRegistry (ops : List (ConOp δ κ)) : Prop :=
  (∀ pre, pre <+: ops → (conTablesAfter pre).Consistent) ∧
  ∀ pre con, pre ++ [.unregister con] <+: ops → (conTablesAfter pre).Refuses con

/-- **When the promise is kept**: no call of the run unregisters a driver that some console is bound
to at the time. -/
theorem keepsRegistry_iff (ops : List (ConOp δ κ)) :
    KeepsRegistry ops ↔
      ∀ pre con, pre ++ [.unregister con] <+: ops → ¬ (conTablesAfter pre).Bound con := by
  constructor
  · rintro ⟨hcons, hrefuse⟩ pre con hpre hbound
    have hreg := (hcons pre ((List.prefix_append _ _).trans hpre)).registered con hbound
    exact (hrefuse pre con hpre hbound).1 (ConTables.unregisterConDriver_of_registered hreg)
  · intro hfree
    refine ⟨run_induction ConTables.empty_consistent ?_, ?_⟩
    · intro pre op hpre hcons
      exact hcons.step fun con hop => hfree pre con (hop ▸ hpre)
    · exact fun pre con hpre hbound => absurd hbound (hfree pre con hpre)

/-- Register a driver, bind a console to it, unregister it: the console is left with a driver that
is in no slot. -/
theorem keepsRegistry_unregister_bound :
    ¬ KeepsRegistry ([.register 0, .bind 0 0, .unregister 0] : List (ConOp ℕ ℕ)) := by
  rintro ⟨hcons, -⟩
  obtain ⟨i, hi⟩ := (hcons _ List.prefix_rfl).registered 0 ⟨0, by decide⟩
  revert hi
  revert i
  decide

end Sandix
