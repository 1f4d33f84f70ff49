import Sandix.Tty.LdiscRefs

/-!
# Tty/LdiscLock — the lock of the discipline table

The functions of `Tty/Ldisc` once more, with `tty_ldiscs_lock`.  A call that asks for the lock while it
is held waits for ever, and so ends there.  The calls of one CPU follow each other: nobody else will
release it.

From a state with the lock free every function but `tty_unregister_ldisc` does what it does without a
lock, and leaves it free (`ttyLdiscChange_run`).  `tty_unregister_ldisc` returns `-EBUSY` with the lock
held, and follows the pointer in a slot that may be empty.

* `tableSafeAlong_iff` — the lock is free between the calls, and no empty slot is followed, exactly along
  the runs that unregister only disciplines that are there and not in use.
-/

namespace Sandix

open Machinery Function

/-- The ways a call ends without returning: waiting for the lock, at the pointer of an empty slot or of
an error, at a `BUG_ON`, in a `panic`. -/
inductive LdiscStop
  | spin
  | emptySlot
  | errPtr
  | bug
  | panic
deriving DecidableEq, Repr

/-- The line discipline layer, and whether `tty_ldiscs_lock` is held. -/
structure LockedLdisc (δ κ : Type) where
  ldiscs : LdiscState δ κ
  lock : Bool

/-- A function of the layer. -/
abbrev LdiscProc (δ κ α : Type) := StateT (LockedLdisc δ κ) (Except LdiscStop) α

variable {δ κ α : Type}

namespace LdiscProc

open LdiscState (inRange)

/-- A call that does not return. -/
def stop (e : LdiscStop) : LdiscProc δ κ α := fun _ => .error e

/-- A step on the disciplines and the ttys. -/
def onLdiscs (g : LdiscState δ κ → α × LdiscState δ κ) : LdiscProc δ κ α := fun s =>
  .ok ((g s.ldiscs).1, { s with ldiscs := (g s.ldiscs).2 })

/-- An update of the disciplines and the ttys. -/
def update (g : LdiscState δ κ → LdiscState δ κ) : LdiscProc δ κ Unit := onLdiscs fun s => ((), g s)

/-- `spin_lock_irqsave(&tty_ldiscs_lock, flags)`. -/
def spinLock : LdiscProc δ κ Unit := fun s =>
  if s.lock then .error .spin else .ok ((), { s with lock := true })

/-- `spin_unlock_irqrestore(&tty_ldiscs_lock, flags)`. -/
def spinUnlock : LdiscProc δ κ Unit := fun s => .ok ((), { s with lock := false })

section Functions

variable [DecidableEq δ] [DecidableEq κ]

/-- `tty_register_ldisc`. -/
def ttyRegisterLdisc (disc : ℤ) (new : δ) : LdiscProc δ κ ℤ := do
  if inRange disc then
    spinLock
    update fun s =>
      { s with table := Function.update s.table disc (some new)
               ops := Function.update s.ops new { s.ops new with num := disc, refcount := 0 } }
    spinUnlock
    pure 0
  else pure (-EINVAL)

/-- `tty_unregister_ldisc`. -/
def ttyUnregisterLdisc (disc : ℤ) : LdiscProc δ κ ℤ := do
  if inRange disc then
    spinLock
    match (← get).ldiscs.table disc with
    | none => stop .emptySlot
    | some o =>
      if ((← get).ldiscs.ops o).refcount ≠ 0 then pure (-EBUSY)
      else
        update fun s => { s with table := Function.update s.table disc none }
        spinUnlock
        pure 0
  else pure (-EINVAL)

/-- `get_ldops`. -/
def getLdops (disc : ℤ) : LdiscProc δ κ (Except ℤ δ) := do
  spinLock
  let ret ← onLdiscs fun s => s.getLdops disc
  spinUnlock
  pure ret

/-- `put_ldops`. -/
def putLdops (o : δ) : LdiscProc δ κ Unit := do
  spinLock
  update fun s => s.addRef o (-1)
  spinUnlock

/-- `tty_ldisc_get`. -/
def ttyLdiscGet (disc : ℤ) (mem : Bool) : LdiscProc δ κ (Except ℤ δ) := do
  if inRange disc then
    match ← getLdops disc with
    | .error e => pure (.error e)
    | .ok o =>
      if mem then pure (.ok o)
      else
        putLdops o
        pure (.error (-ENOMEM))
  else pure (.error (-EINVAL))

/-- `tty_ldisc_put`. -/
def ttyLdiscPut : Option δ → LdiscProc δ κ Unit
  | none => pure ()
  | some o => putLdops o

/-- `tty_ldisc_restore`. -/
def ttyLdiscRestore (t : κ) (old : δ) (env : LdiscEnv) : LdiscProc δ κ Unit := do
  match ← ttyLdiscGet ((← get).ldiscs.ops old).num (env.mem 1) with
  | .error _ => stop .errPtr
  | .ok old =>
    update fun s => (s.setLdisc t (some old)).ttySetTermiosLdisc t (s.ops old).num
    let ret ← onLdiscs fun s => s.ttyLdiscOpen t old (env.ret 1)
    if ret < 0 then
      ttyLdiscPut (some old)
      match ← ttyLdiscGet nTTY (env.mem 2) with
      | .error _ => stop .panic
      | .ok new =>
        update fun s => (s.setLdisc t (some new)).ttySetTermiosLdisc t nTTY
        let ret ← onLdiscs fun s => s.ttyLdiscOpen t new (env.ret 2)
        if ret < 0 then stop .panic else pure ()
    else pure ()

/-- `tty_ldisc_change`. -/
def ttyLdiscChange (t : κ) (disc : ℤ) (env : LdiscEnv) : LdiscProc δ κ ℤ := do
  match ((← get).ldiscs.tty t).ldisc with
  | none => stop .bug
  | some old =>
    if ((← get).ldiscs.ops old).num = disc then pure 0
    else
      match ← ttyLdiscGet disc (env.mem 0) with
      | .error e => pure e
      | .ok new =>
        update fun s => s.ttyLdiscClose t
        update fun s => (s.setLdisc t (some new)).ttySetTermiosLdisc t disc
        let ret ← onLdiscs fun s => s.ttyLdiscOpen t new (env.ret 0)
        if ret ≠ 0 then
          ttyLdiscPut (some new)
          ttyLdiscRestore t old env
        ttyLdiscPut (some old)
        pure ret

/-- `tty_ldisc_init`. -/
def ttyLdiscInit (t : κ) (mem : Bool) : LdiscProc δ κ Unit := do
  match ← ttyLdiscGet nTTY mem with
  | .error _ => stop .panic
  | .ok ld => update fun s => s.setLdisc t (some ld)

/-- `tty_ldisc_deinit`. -/
def ttyLdiscDeinit (t : κ) : LdiscProc δ κ Unit := do
  ttyLdiscPut ((← get).ldiscs.tty t).ldisc
  update fun s => s.setLdisc t none

end Functions

/-! ## With the lock free -/

/-- How a call of `Tty/Ldisc` that stopped ends here. -/
def ofStop : Stop → LdiscStop
  | .bug => .bug
  | .panic => .panic
  | .fault | .fuel => .errPtr

/-- What a call of `Tty/Ldisc` leaves, with the lock free. -/
def lift : Exec (α × LdiscState δ κ) → Except LdiscStop (α × LockedLdisc δ κ)
  | .ok (a, s) => .ok (a, ⟨s, false⟩)
  | .error e => .error (ofStop e)

section Run

variable {β : Type}

theorem bind_ok {x : LdiscProc δ κ α} {s s' : LockedLdisc δ κ} {a : α} (h : x s = .ok (a, s'))
    (f : α → LdiscProc δ κ β) : (x >>= f) s = f a s' := by
  change (x s >>= fun r => f r.1 r.2) = _
  rw [h]
  rfl

/-- The next step after one that leaves the lock free. -/
theorem bind_lift {x : LdiscProc δ κ α} {s : LockedLdisc δ κ} {r : α × LdiscState δ κ}
    (h : x s = lift (.ok r)) (f : α → LdiscProc δ κ β) : (x >>= f) s = f r.1 ⟨r.2, false⟩ :=
  bind_ok h f

theorem bind_error {x : LdiscProc δ κ α} {s : LockedLdisc δ κ} {e : LdiscStop} (h : x s = .error e)
    (f : α → LdiscProc δ κ β) : (x >>= f) s = .error e := by
  change (x s >>= fun r => f r.1 r.2) = _
  rw [h]
  rfl

theorem get_bind (s : LockedLdisc δ κ) (f : LockedLdisc δ κ → LdiscProc δ κ β) :
    ((get : LdiscProc δ κ (LockedLdisc δ κ)) >>= f) s = f s s := rfl

variable (s : LdiscState δ κ)

theorem onLdiscs_run (g : LdiscState δ κ → α × LdiscState δ κ) :
    onLdiscs g ⟨s, false⟩ = lift (.ok (g s)) := rfl

theorem update_run (g : LdiscState δ κ → LdiscState δ κ) :
    update g ⟨s, false⟩ = lift (.ok ((), g s)) := rfl

/-- **`tty_unregister_ldisc`**: on a discipline in use it returns without releasing the lock. -/
theorem ttyUnregisterLdisc_run {disc : ℤ} (hr : inRange disc) :
    ttyUnregisterLdisc disc ⟨s, false⟩ = match s.table disc with
      | none => .error .emptySlot
      | some o =>
        if (s.ops o).refcount ≠ 0 then .ok (-EBUSY, ⟨s, true⟩)
        else lift (s.ttyUnregisterLdisc disc) := by
  have hlock : (spinLock : LdiscProc δ κ Unit) ⟨s, false⟩ = .ok ((), ⟨s, true⟩) := rfl
  unfold ttyUnregisterLdisc LdiscState.ttyUnregisterLdisc
  rw [if_pos hr, if_pos hr, bind_ok hlock, get_bind]
  dsimp only
  cases s.table disc with
  | none => rfl
  | some o =>
    dsimp only
    rw [get_bind]
    by_cases hbusy : (s.ops o).refcount ≠ 0
    · rw [if_pos hbusy, if_pos hbusy]
      rfl
    · rw [if_neg hbusy, if_neg hbusy, if_neg hbusy]
      rfl

variable [DecidableEq δ]

theorem getLdops_run (disc : ℤ) : getLdops disc ⟨s, false⟩ = lift (.ok (s.getLdops disc)) := rfl

theorem ttyLdiscPut_run (ld : Option δ) :
    ttyLdiscPut ld ⟨s, false⟩ = lift (.ok ((), s.ttyLdiscPut ld)) := by
  cases ld with
  | none => rfl
  | some o => rfl

theorem ttyRegisterLdisc_run (disc : ℤ) (new : δ) :
    ttyRegisterLdisc disc new ⟨s, false⟩ = lift (.ok (s.ttyRegisterLdisc disc new)) := by
  unfold ttyRegisterLdisc LdiscState.ttyRegisterLdisc
  split_ifs with hr
  · rfl
  · rfl

theorem ttyLdiscGet_run (disc : ℤ) (mem : Bool) :
    ttyLdiscGet disc mem ⟨s, false⟩ = lift (.ok (s.ttyLdiscGet disc mem)) := by
  unfold ttyLdiscGet LdiscState.ttyLdiscGet
  by_cases hr : inRange disc
  · rw [if_pos hr, if_pos hr, bind_lift (getLdops_run s disc)]
    rcases s.getLdops disc with ⟨_ | o, s'⟩
    · rfl
    · cases mem with
      | false => rfl
      | true => rfl
  · rw [if_neg hr, if_neg hr]
    rfl

variable [DecidableEq κ]

theorem ttyLdiscRestore_run (t : κ) (old : δ) (env : LdiscEnv) :
    ttyLdiscRestore t old env ⟨s, false⟩
      = lift (s.ttyLdiscRestore t old env >>= fun s' => .ok ((), s')) := by
  unfold ttyLdiscRestore LdiscState.ttyLdiscRestore
  rw [get_bind, bind_lift (ttyLdiscGet_run s _ _)]
  rcases s.ttyLdiscGet (s.ops old).num (env.mem 1) with ⟨_ | old', s₁⟩
  · rfl
  dsimp only
  rw [bind_lift (update_run _ _), bind_lift (onLdiscs_run _ _)]
  dsimp only
  obtain ⟨ret, s₂⟩ := ((s₁.setLdisc t (some old')).ttySetTermiosLdisc t
    (s₁.ops old').num).ttyLdiscOpen t old' (env.ret 1)
  dsimp only
  by_cases hret : ret < 0
  · rw [if_pos hret, if_pos hret, bind_lift (ttyLdiscPut_run _ _), bind_lift (ttyLdiscGet_run _ _ _)]
    dsimp only
    rcases (s₂.ttyLdiscPut (some old')).ttyLdiscGet nTTY (env.mem 2) with ⟨_ | new, s₃⟩
    · rfl
    dsimp only
    rw [bind_lift (update_run _ _), bind_lift (onLdiscs_run _ _)]
    dsimp only
    obtain ⟨ret', s₄⟩ := ((s₃.setLdisc t (some new)).ttySetTermiosLdisc t nTTY).ttyLdiscOpen t new
      (env.ret 2)
    dsimp only
    by_cases hret' : ret' < 0
    · rw [if_pos hret', if_pos hret']
      rfl
    · rw [if_neg hret', if_neg hret']
      rfl
  · rw [if_neg hret, if_neg hret]
    rfl

/-- **`tty_ldisc_change`** finds the lock free and leaves it free. -/
theorem ttyLdiscChange_run (t : κ) (disc : ℤ) (env : LdiscEnv) :
    ttyLdiscChange t disc env ⟨s, false⟩ = lift (s.ttyLdiscChange t disc env) := by
  unfold ttyLdiscChange LdiscState.ttyLdiscChange
  rw [get_bind]
  dsimp only
  cases (s.tty t).ldisc with
  | none => rfl
  | some old =>
    dsimp only
    rw [get_bind]
    by_cases hnum : (s.ops old).num = disc
    · rw [if_pos hnum, if_pos hnum]
      rfl
    rw [if_neg hnum, if_neg hnum, bind_lift (ttyLdiscGet_run s _ _)]
    rcases s.ttyLdiscGet disc (env.mem 0) with ⟨_ | new, s₁⟩
    · rfl
    dsimp only
    rw [bind_lift (update_run _ _), bind_lift (update_run _ _), bind_lift (onLdiscs_run _ _)]
    dsimp only
    obtain ⟨ret, s₂⟩ := (((s₁.ttyLdiscClose t).setLdisc t (some new)).ttySetTermiosLdisc t
      disc).ttyLdiscOpen t new (env.ret 0)
    dsimp only
    by_cases hret : ret ≠ 0
    · rw [if_pos hret, if_pos hret]
      rw [bind_lift (ttyLdiscPut_run _ _)]
      have hrun := ttyLdiscRestore_run (s₂.ttyLdiscPut (some new)) t old env
      cases hres : (s₂.ttyLdiscPut (some new)).ttyLdiscRestore t old env with
      | error e =>
        rw [hres] at hrun
        exact bind_error hrun _
      | ok s₃ =>
        rw [hres] at hrun
        rw [bind_lift hrun]
        rfl
    · rw [if_neg hret, if_neg hret]
      rfl

theorem ttyLdiscInit_run (t : κ) (mem : Bool) :
    ttyLdiscInit t mem ⟨s, false⟩ = lift (s.ttyLdiscInit t mem >>= fun s' => .ok ((), s')) := by
  unfold ttyLdiscInit LdiscState.ttyLdiscInit
  rw [bind_lift (ttyLdiscGet_run s _ _)]
  rcases s.ttyLdiscGet nTTY mem with ⟨_ | ld, s₁⟩
  · rfl
  · rfl

theorem ttyLdiscDeinit_run (t : κ) :
    ttyLdiscDeinit t ⟨s, false⟩ = lift (.ok ((), s.ttyLdiscDeinit t)) := by
  unfold ttyLdiscDeinit
  rw [get_bind, bind_lift (ttyLdiscPut_run s _)]
  rfl

end Run

/-! ## Runs -/

section Runs

/-- The lock is free after the calls; where one did not return, it was not for the lock and not for an
empty slot. -/
def TableSafe : Except LdiscStop (LockedLdisc δ κ) → Prop
  | .ok s => s.lock = false
  | .error e => e ≠ .spin ∧ e ≠ .emptySlot

/-- What is left after a call that leaves the lock free. -/
theorem tableSafe_lift (y : Exec (α × LdiscState δ κ)) :
    TableSafe ((lift y).map Prod.snd) := by
  rcases y with e | ⟨a, s⟩
  · cases e with
    | bug => exact ⟨by decide, by decide⟩
    | panic => exact ⟨by decide, by decide⟩
    | fault => exact ⟨by decide, by decide⟩
    | fuel => exact ⟨by decide, by decide⟩
  · rfl

/-- A call whose value is dropped. -/
theorem drop_lift {x : LdiscProc δ κ α} {s : LockedLdisc δ κ} {y : Exec (α × LdiscState δ κ)}
    (h : x s = lift y) : TableSafe (((x >>= fun _ => pure ()) s).map Prod.snd) := by
  rcases y with e | ⟨a, s'⟩
  · rw [bind_error h]
    exact tableSafe_lift (α := Unit) (.error e)
  · rw [bind_ok h]
    rfl

variable [DecidableEq δ] [DecidableEq κ] (ttyLdiscNTTY : δ)

/-- A call. -/
def call : LdiscOp δ κ → LdiscProc δ κ Unit
  | .alloc t cLine ret => update fun s => s.allocTtyStruct ttyLdiscNTTY t cLine ret
  | .register disc new => ttyRegisterLdisc disc new >>= fun _ => pure ()
  | .unregister disc => ttyUnregisterLdisc disc >>= fun _ => pure ()
  | .init t mem => ttyLdiscInit t mem
  | .deinit t => ttyLdiscDeinit t
  | .change t disc env => ttyLdiscChange t disc env >>= fun _ => pure ()

/-- One more call, unless an earlier one did not return. -/
def step (r : Except LdiscStop (LockedLdisc δ κ)) (op : LdiscOp δ κ) :
    Except LdiscStop (LockedLdisc δ κ) := do
  let s ← r
  let (_, s) ← call ttyLdiscNTTY op s
  pure s

/-- What `tty_unregister_ldisc` needs: a discipline that is there, and not in use. -/
def Unregistrable (s : LdiscState δ κ) : LdiscOp δ κ → Prop
  | .unregister disc => inRange disc → ∃ o, s.table disc = some o ∧ (s.ops o).refcount = 0
  | _ => True

variable {ttyLdiscNTTY}

theorem step_ok (s : LockedLdisc δ κ) (op : LdiscOp δ κ) :
    step ttyLdiscNTTY (.ok s) op = (call ttyLdiscNTTY op s).map Prod.snd := by
  change ((call ttyLdiscNTTY op s) >>= fun r => pure r.2) = _
  cases call ttyLdiscNTTY op s with
  | error e => rfl
  | ok r => rfl

/-- **One call.** -/
theorem tableSafe_step (s : LdiscState δ κ) (op : LdiscOp δ κ) :
    TableSafe (step ttyLdiscNTTY (.ok ⟨s, false⟩) op) ↔ Unregistrable s op := by
  rw [step_ok]
  cases op with
  | alloc t cLine ret => exact ⟨fun _ => trivial, fun _ => rfl⟩
  | register disc new => exact ⟨fun _ => trivial, fun _ => drop_lift (ttyRegisterLdisc_run s disc new)⟩
  | init t mem =>
    refine ⟨fun _ => trivial, fun _ => ?_⟩
    rw [call, ttyLdiscInit_run]
    exact tableSafe_lift _
  | deinit t =>
    refine ⟨fun _ => trivial, fun _ => ?_⟩
    rw [call, ttyLdiscDeinit_run]
    exact tableSafe_lift _
  | change t disc env => exact ⟨fun _ => trivial, fun _ => drop_lift (ttyLdiscChange_run s t disc env)⟩
  | unregister disc =>
    by_cases hr : inRange disc
    · have hrun := ttyUnregisterLdisc_run s hr
      cases htable : s.table disc with
      | none =>
        rw [htable] at hrun
        rw [call, bind_error hrun]
        refine iff_of_false (fun h => h.2 rfl) fun h => ?_
        obtain ⟨o, ho, -⟩ := h hr
        rw [htable] at ho
        cases ho
      | some o =>
        rw [htable] at hrun
        dsimp only at hrun
        by_cases hbusy : (s.ops o).refcount ≠ 0
        · rw [if_pos hbusy] at hrun
          rw [call, bind_ok hrun]
          refine iff_of_false (fun h => Bool.noConfusion h) fun h => ?_
          obtain ⟨o', ho', hidle⟩ := h hr
          rw [htable, Option.some.injEq] at ho'
          exact hbusy (ho' ▸ hidle)
        · rw [if_neg hbusy] at hrun
          exact iff_of_true (drop_lift hrun) fun _ => ⟨o, htable, not_not.mp hbusy⟩
    · have hrun : ttyUnregisterLdisc disc ⟨s, false⟩ = .ok (-EINVAL, ⟨s, false⟩) := by
        rw [ttyUnregisterLdisc, if_neg hr]
        rfl
      refine iff_of_true ?_ fun h => absurd h hr
      rw [call, bind_ok hrun]
      rfl

variable (ttyLdiscNTTY)

/-- Every state the run reaches has the lock free, and no call of it waits for the lock or follows an
empty slot. -/
def TableSafeAlong (s : LdiscState δ κ) (calls : List (LdiscOp δ κ)) : Prop :=
  ∀ pre, pre <+: calls → TableSafe (runFrom (step ttyLdiscNTTY) (.ok ⟨s, false⟩) pre)

/-- **When the lock is balanced**: along the runs that unregister only disciplines that are there and not
in use, and along no others. -/
theorem tableSafeAlong_iff (s : LdiscState δ κ) (calls : List (LdiscOp δ κ)) :
    TableSafeAlong ttyLdiscNTTY s calls ↔
      ∀ pre op s', pre ++ [op] <+: calls →
        runFrom (step ttyLdiscNTTY) (.ok ⟨s, false⟩) pre = .ok s' → Unregistrable s'.ldiscs op := by
  constructor
  · rintro hsafe pre op ⟨s', lock⟩ hpre hrun
    have hbefore := hsafe pre ((List.prefix_append _ _).trans hpre)
    have hafter := hsafe (pre ++ [op]) hpre
    rw [hrun] at hbefore
    obtain rfl : lock = false := hbefore
    rw [runFrom_concat, hrun] at hafter
    exact (tableSafe_step s' op).mp hafter
  · intro hclean
    refine run_induction rfl fun pre op hpre hbefore => ?_
    cases hrun : runFrom (step ttyLdiscNTTY) (.ok ⟨s, false⟩) pre with
    | error e =>
      rw [hrun] at hbefore
      exact hbefore
    | ok s' =>
      rw [hrun] at hbefore
      have hop := hclean pre op s' hpre hrun
      obtain ⟨s', lock⟩ := s'
      obtain rfl : lock = false := hbefore
      exact (tableSafe_step s' op).mpr hop

end Runs

/-- A tty on `N_TTY`, and a call to unregister it: the lock stays held.  Unregistering a number that
stands for nothing follows an empty slot. -/
theorem tableSafeAlong_busy :
    ¬TableSafeAlong (κ := ℕ) (0 : ℕ) (LdiscState.ttyLdiscBegin 0 fun _ => ⟨0, 0, true⟩)
      [.init 0 true, .unregister 0] ∧
    ¬TableSafeAlong (κ := ℕ) (0 : ℕ) (LdiscState.ttyLdiscBegin 0 fun _ => ⟨0, 0, true⟩)
      [.unregister 5] := by
  constructor
  · intro hsafe
    have hlock : true = false := hsafe _ List.prefix_rfl
    cases hlock
  · intro hsafe
    exact (hsafe _ List.prefix_rfl).2 rfl

end LdiscProc

end Sandix
