import Sandix.Machinery.Exec
import Sandix.Machinery.Word
import Sandix.Lib.Ctype

/-!
# Tty/NTty — the output side of the N_TTY line discipline

`drivers/tty/n_tty.c`, with `tty_write_room` and `tty_put_char` of `tty_io.c`, over any tty driver: a
driver is the operations `TtyOps` on a state of its own.  Locks and `flush_chars`, which no driver of
the tree provides, are left out.

`n_tty_write` is a loop that may not end on a driver without room, so it runs on a budget.
-/

namespace Sandix

open Machinery

/-- The operations of a tty driver: the bytes taken, or a negative error. -/
structure TtyOps (σ : Type) where
  write : σ → List UInt8 → ℤ × σ
  putChar : Option (σ → UInt8 → ℤ × σ)
  writeRoom : Option (σ → ℤ)

/-- A terminal: `c_oflag` of its termios, the line discipline's data, and the driver's state. -/
structure Tty (σ : Type) where
  oflag : ℕ
  column : ℕ
  canonColumn : ℕ
  drv : σ

/-! ## The flags of `c_oflag` -/

section Flags

variable (oflag : ℕ)

def oOPOST : Bool := oflag &&& 0o1 ≠ 0

def oOLCUC : Bool := oflag &&& 0o2 ≠ 0

def oONLCR : Bool := oflag &&& 0o4 ≠ 0

def oOCRNL : Bool := oflag &&& 0o10 ≠ 0

def oONOCR : Bool := oflag &&& 0o20 ≠ 0

def oONLRET : Bool := oflag &&& 0o40 ≠ 0

/-- `O_TABDLY(tty) == XTABS`. -/
def oXTABS : Bool := oflag &&& 0o14000 = 0o14000

end Flags

variable {σ : Type} (ops : TtyOps σ)

/-- `tty_write_room`. -/
def ttyWriteRoom (tty : Tty σ) : ℤ :=
  match ops.writeRoom with
  | some room => room tty.drv
  | none => 2048

/-- `tty->ops->write`. -/
def ttyOpsWrite (tty : Tty σ) (buf : List UInt8) : ℤ × Tty σ :=
  let r := ops.write tty.drv buf
  (r.1, { tty with drv := r.2 })

/-- `tty_put_char`. -/
def ttyPutChar (tty : Tty σ) (ch : UInt8) : ℤ × Tty σ :=
  match ops.putChar with
  | some put =>
    let r := put tty.drv ch
    (r.1, { tty with drv := r.2 })
  | none => ttyOpsWrite ops tty [ch]

/-- `do_output_char`: the space used, or `-1` when there is too little. -/
def doOutputChar (c : UInt8) (tty : Tty σ) (space : ℤ) : ℤ × Tty σ :=
  if space = 0 then (-1, tty)
  else if c = 10 then
    let tty := if oONLRET tty.oflag then { tty with column := 0 } else tty
    if oONLCR tty.oflag then
      if space < 2 then (-1, tty)
      else (2, (ttyOpsWrite ops { tty with canonColumn := 0, column := 0 } [13, 10]).2)
    else (1, (ttyPutChar ops { tty with canonColumn := tty.column } 10).2)
  else if c = 13 then
    if oONOCR tty.oflag ∧ tty.column = 0 then (0, tty)
    else if oOCRNL tty.oflag then
      let tty := if oONLRET tty.oflag then { tty with canonColumn := 0, column := 0 } else tty
      (1, (ttyPutChar ops tty 10).2)
    else (1, (ttyPutChar ops { tty with canonColumn := 0, column := 0 } 13).2)
  else if c = 9 then
    let spaces := 8 - (tty.column &&& 7)
    let tty' := { tty with column := (tty.column + spaces) % 2 ^ 32 }
    if oXTABS tty.oflag then
      if space < spaces then (-1, tty)
      else (spaces, (ttyOpsWrite ops tty' (List.replicate spaces 32)).2)
    else (1, (ttyPutChar ops tty' 9).2)
  else if c = 8 then
    let tty := if tty.column > 0 then { tty with column := tty.column - 1 } else tty
    (1, (ttyPutChar ops tty 8).2)
  else
    let c := if !iscntrl c ∧ oOLCUC tty.oflag then toupper c else c
    (1, (ttyPutChar ops tty c).2)

/-- `process_output`. -/
def processOutput (ch : UInt8) (tty : Tty σ) : ℤ × Tty σ :=
  let r := doOutputChar ops ch tty (ttyWriteRoom ops tty)
  (if r.1 < 0 then -1 else 0, r.2)

/-- One round of the loop of `process_output_block`: whether it goes on, and the data it leaves. -/
def blockChar (tty : Tty σ) (ch : UInt8) : Bool × Tty σ :=
  if ch = 10 then
    let tty := if oONLRET tty.oflag then { tty with column := 0 } else tty
    if oONLCR tty.oflag then (false, tty) else (true, { tty with canonColumn := tty.column })
  else if ch = 13 then
    if oONOCR tty.oflag ∧ tty.column = 0 then (false, tty)
    else if oOCRNL tty.oflag then (false, tty)
    else (true, { tty with canonColumn := 0, column := 0 })
  else if ch = 9 then (false, tty)
  else if ch = 8 then
    (true, if tty.column > 0 then { tty with column := tty.column - 1 } else tty)
  else if !iscntrl ch ∧ oOLCUC tty.oflag then (false, tty)
  else (true, tty)

/-- The loop of `process_output_block`: how many characters it passed. -/
def blockScan (tty : Tty σ) : List UInt8 → ℕ × Tty σ
  | [] => (0, tty)
  | ch :: rest =>
    let r := blockChar tty ch
    if r.1 then
      let r' := blockScan r.2 rest
      (r'.1 + 1, r'.2)
    else (0, r.2)

/-- `process_output_block`. -/
def processOutputBlock (tty : Tty σ) (buf : List UInt8) : ℤ × Tty σ :=
  let space := ttyWriteRoom ops tty
  if space = 0 then (0, tty)
  else
    -- `count > space` compares unsigned values
    let r := blockScan tty (buf.take (u32 space))
    ttyOpsWrite ops r.2 (buf.take r.1)

/-- `EAGAIN`. -/
abbrev eagain : ℤ := 11

/-- The variables of the loops of `n_tty_write`: the bytes left, and how many are done. -/
structure WriteLoop (σ : Type) where
  tty : Tty σ
  rest : List UInt8
  done : ℕ

/-- `(b - buf) ? (b - buf) : retval`. -/
def WriteLoop.result (s : WriteLoop σ) (retval : ℤ) : ℤ × Tty σ :=
  (if s.done ≠ 0 then s.done else retval, s.tty)

/-- One round of the `OPOST` loop of `n_tty_write`. -/
def opostRound (s : WriteLoop σ) : Exec (WriteLoop σ ⊕ (ℤ × Tty σ)) :=
  if s.rest = [] then .ok (.inr (s.result 0))
  else
    let r := processOutputBlock ops s.tty s.rest
    if r.1 < 0 then
      if r.1 = -eagain then .ok (.inl { s with tty := r.2 })
      else .ok (.inr ((⟨r.2, s.rest, s.done⟩ : WriteLoop σ).result r.1))
    else
      let s' : WriteLoop σ := ⟨r.2, s.rest.drop r.1.toNat, s.done + r.1.toNat⟩
      match s'.rest with
      | [] => .ok (.inr (s'.result 0))
      | ch :: rest =>
        let q := processOutput ops ch s'.tty
        if q.1 < 0 then .ok (.inl { s' with tty := q.2 })
        else .ok (.inl ⟨q.2, rest, s'.done + 1⟩)

/-- One round of the raw loop of `n_tty_write`. -/
def rawRound (s : WriteLoop σ) : Exec (WriteLoop σ ⊕ (ℤ × Tty σ)) :=
  if s.rest = [] then .ok (.inr (s.result 0))
  else
    let r := ttyOpsWrite ops s.tty s.rest
    let s' : WriteLoop σ := { s with tty := r.2 }
    if r.1 < 0 then .ok (.inr (s'.result r.1))
    else if r.1 = 0 then .ok (.inr (s'.result 0))
    else .ok (.inl ⟨r.2, s.rest.drop r.1.toNat, s.done + r.1.toNat⟩)

/-- `n_tty_write`. -/
def nTtyWrite (fuel : ℕ) (tty : Tty σ) (buf : List UInt8) : Exec (ℤ × Tty σ) :=
  if oOPOST tty.oflag then Exec.loop (opostRound ops) fuel ⟨tty, buf, 0⟩
  else Exec.loop (rawRound ops) fuel ⟨tty, buf, 0⟩

end Sandix
