import Sandix.Machinery.Exec

/-!
# Tty/Ldisc — line disciplines and their references

`drivers/tty/tty_ldisc.c`, with `alloc_tty_struct` of `tty_io.c`.  A `struct tty_ldisc` is made for
one tty and its `ops` never change, so a tty's `ldisc` is the discipline it points at.  What comes
from outside is an argument: whether `kmalloc` succeeds, and what the `open` methods return, call by
call (`LdiscEnv`).  `tty_ldiscs_lock` is left out here: `Tty/LdiscLock` puts it back.
-/

namespace Sandix

open Machinery Function

/-- `N_TTY`. -/
def nTTY : ℤ := 0

/-- `NR_LDISCS`. -/
def nrLdiscs : ℤ := 30

/-- The fields of `struct tty_ldisc_ops` the layer reads; `hasOpen` says that there is an `open`
method. -/
structure LdiscOps where
  num : ℤ
  refcount : ℤ
  hasOpen : Bool
deriving DecidableEq, Repr

/-- A tty: the discipline it is on, `TTY_LDISC_OPEN` of its flags, and `c_line` of its termios.
`opened` is no field of the tty: it records whether that discipline, since the tty is on it, has
been opened and not closed. -/
structure LdiscTty (δ : Type) where
  ldisc : Option δ
  ldiscOpen : Bool
  cLine : ℤ
  opened : Bool
deriving DecidableEq, Repr

/-- The table `tty_ldiscs`, the disciplines and the ttys. -/
@[ext] structure LdiscState (δ κ : Type) where
  table : ℤ → Option δ
  ops : δ → LdiscOps
  tty : κ → LdiscTty δ

/-- What the outside answers during one call: the `kmalloc`s and the `open`s, in order. -/
structure LdiscEnv where
  mem : ℕ → Bool
  ret : ℕ → ℤ

variable {δ κ : Type} [DecidableEq δ] [DecidableEq κ]

namespace LdiscState

/-- `ops->refcount += k`. -/
def addRef (s : LdiscState δ κ) (o : δ) (k : ℤ) : LdiscState δ κ :=
  { s with ops := update s.ops o { s.ops o with refcount := (s.ops o).refcount + k } }

/-- The tty `t` with other fields. -/
def setTty (s : LdiscState δ κ) (t : κ) (v : LdiscTty δ) : LdiscState δ κ :=
  { s with tty := update s.tty t v }

/-- The numbers the functions accept. -/
def inRange (disc : ℤ) : Bool := nTTY ≤ disc ∧ disc < nrLdiscs

/-- `tty_register_ldisc`. -/
def ttyRegisterLdisc (s : LdiscState δ κ) (disc : ℤ) (new : δ) : ℤ × LdiscState δ κ :=
  if inRange disc then
    (0, { s with table := update s.table disc (some new)
                 ops := update s.ops new { s.ops new with num := disc, refcount := 0 } })
  else (-EINVAL, s)

/-- `tty_unregister_ldisc`. -/
def ttyUnregisterLdisc (s : LdiscState δ κ) (disc : ℤ) : Exec (ℤ × LdiscState δ κ) :=
  if inRange disc then
    match s.table disc with
    | none => .error .fault
    | some o =>
      if (s.ops o).refcount ≠ 0 then .ok (-EBUSY, s)
      else .ok (0, { s with table := update s.table disc none })
  else .ok (-EINVAL, s)

/-- `get_ldops`. -/
def getLdops (s : LdiscState δ κ) (disc : ℤ) : Except ℤ δ × LdiscState δ κ :=
  match s.table disc with
  | some o => (.ok o, s.addRef o 1)
  | none => (.error (-EINVAL), s)

/-- `put_ldops`. -/
def putLdops (s : LdiscState δ κ) (o : δ) : LdiscState δ κ := s.addRef o (-1)

/-- `tty_ldisc_get`; `mem` says whether `kmalloc` succeeds. -/
def ttyLdiscGet (s : LdiscState δ κ) (disc : ℤ) (mem : Bool) : Except ℤ δ × LdiscState δ κ :=
  if inRange disc then
    match s.getLdops disc with
    | (.error e, s) => (.error e, s)
    | (.ok o, s) => if mem then (.ok o, s) else (.error (-ENOMEM), s.putLdops o)
  else (.error (-EINVAL), s)

/-- `tty_ldisc_put`. -/
def ttyLdiscPut (s : LdiscState δ κ) : Option δ → LdiscState δ κ
  | none => s
  | some o => s.putLdops o

/-- `tty->ldisc = ld`; nothing has opened it yet. -/
def setLdisc (s : LdiscState δ κ) (t : κ) (ld : Option δ) : LdiscState δ κ :=
  s.setTty t { s.tty t with ldisc := ld, opened := false }

/-- `tty_set_termios_ldisc`. -/
def ttySetTermiosLdisc (s : LdiscState δ κ) (t : κ) (disc : ℤ) : LdiscState δ κ :=
  s.setTty t { s.tty t with cLine := disc }

/-- `tty_ldisc_open`; `ret` is what the `open` method returns. -/
def ttyLdiscOpen (s : LdiscState δ κ) (t : κ) (ld : δ) (ret : ℤ) : ℤ × LdiscState δ κ :=
  if (s.ops ld).hasOpen ∧ ret ≠ 0 then
    (ret, s.setTty t { s.tty t with ldiscOpen := false, opened := false })
  else (0, s.setTty t { s.tty t with ldiscOpen := true, opened := true })

/-- `tty_ldisc_close`. -/
def ttyLdiscClose (s : LdiscState δ κ) (t : κ) : LdiscState δ κ :=
  s.setTty t { s.tty t with ldiscOpen := false, opened := false }

/-- `tty_ldisc_restore`, where `tty_ldisc_change` calls it: the second and third of its `kmalloc`s
and `open`s. -/
def ttyLdiscRestore (s : LdiscState δ κ) (t : κ) (old : δ) (env : LdiscEnv) :
    Exec (LdiscState δ κ) :=
  match s.ttyLdiscGet (s.ops old).num (env.mem 1) with
  | (.error _, _) => .error .fault
  | (.ok old, s) =>
    let s := (s.setLdisc t (some old)).ttySetTermiosLdisc t (s.ops old).num
    let (ret, s) := s.ttyLdiscOpen t old (env.ret 1)
    if ret < 0 then
      match (s.ttyLdiscPut (some old)).ttyLdiscGet nTTY (env.mem 2) with
      | (.error _, _) => .error .panic
      | (.ok new, s) =>
        let s := (s.setLdisc t (some new)).ttySetTermiosLdisc t nTTY
        let (ret, s) := s.ttyLdiscOpen t new (env.ret 2)
        if ret < 0 then .error .panic else .ok s
    else .ok s

/-- `tty_ldisc_change`. -/
def ttyLdiscChange (s : LdiscState δ κ) (t : κ) (disc : ℤ) (env : LdiscEnv) :
    Exec (ℤ × LdiscState δ κ) :=
  match (s.tty t).ldisc with
  | none => .error .bug
  | some old =>
    if (s.ops old).num = disc then .ok (0, s)
    else
      match s.ttyLdiscGet disc (env.mem 0) with
      | (.error e, s) => .ok (e, s)
      | (.ok new, s) => do
        let s := s.ttyLdiscClose t
        let s := (s.setLdisc t (some new)).ttySetTermiosLdisc t disc
        let (ret, s) := s.ttyLdiscOpen t new (env.ret 0)
        let s ← if ret ≠ 0 then (s.ttyLdiscPut (some new)).ttyLdiscRestore t old env else .ok s
        .ok (ret, s.ttyLdiscPut (some old))

/-- `tty_ldisc_init`. -/
def ttyLdiscInit (s : LdiscState δ κ) (t : κ) (mem : Bool) : Exec (LdiscState δ κ) :=
  match s.ttyLdiscGet nTTY mem with
  | (.error _, _) => .error .panic
  | (.ok ld, s) => .ok (s.setLdisc t (some ld))

/-- `tty_ldisc_deinit`. -/
def ttyLdiscDeinit (s : LdiscState δ κ) (t : κ) : LdiscState δ κ :=
  (s.ttyLdiscPut (s.tty t).ldisc).setLdisc t none

/-- `alloc_tty_struct` on the slot `t` of `tty_table`: `ttyLdiscNTTY` is `&tty_ldisc_N_TTY`, `cLine`
the driver's `init_termios.c_line`, `ret` what the `open` method returns. -/
def allocTtyStruct (s : LdiscState δ κ) (ttyLdiscNTTY : δ) (t : κ) (cLine ret : ℤ) :
    LdiscState δ κ :=
  let s := s.setLdisc t (some ttyLdiscNTTY)
  let s := (s.ttyLdiscOpen t ttyLdiscNTTY ret).2
  -- `tty->flags = 0`, `tty->termios = driver->init_termios`
  s.setTty t { s.tty t with ldiscOpen := false, cLine := cLine }

/-- The state `tty_ldisc_begin` leaves, whatever the disciplines held before. -/
def ttyLdiscBegin (ttyLdiscNTTY : δ) (ops : δ → LdiscOps) : LdiscState δ κ :=
  (ttyRegisterLdisc ⟨fun _ => none, ops, fun _ => ⟨none, false, 0, false⟩⟩ nTTY ttyLdiscNTTY).2

end LdiscState

end Sandix
