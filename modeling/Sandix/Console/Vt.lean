import Sandix.Console.Vgacon

/-!
# Console/Vt — the terminal emulator

`drivers/tty/vt/vt.c`.  `conStep` is one round of the loop of `con_write`: it takes the console, the
two local variables the loop carries (`Scanner`) and a byte.  `conWrite` is the whole call, on a
`Console` — a virtual console with the driver's variables and the hardware.

A function that only changes the console returns the console, one that only draws returns its
accesses, and one that does both returns the pair.
-/

namespace Sandix

open Machinery

/-! ## Cursor motion -/

/-- `save_cursor`. -/
def saveCursor (vc : VcStruct) : VcStruct := { vc with savedX := vc.x, savedY := vc.y }

/-- `restore_cursor`. -/
def restoreCursor (vc : VcStruct) : VcStruct := { vc with x := vc.savedX, y := vc.savedY }

/-- `carriage_return`. -/
def carriageReturn (vc : VcStruct) : VcStruct :=
  { vc with pos := sub32 vc.pos (vc.x * 2 % 2 ^ 32), x := 0 }

/-- `scrdown`. -/
def scrdown (vga : VgaVars) (vc : VcStruct) (lines : ℤ) : VcStruct × List ScrOp :=
  conScroll vga vc .down lines

/-- `line_feed`. -/
def lineFeed (vga : VgaVars) (vc : VcStruct) : VcStruct × List ScrOp :=
  let r :=
    if (vc.y + 1) % 2 ^ 32 = vc.rows then scrdown vga vc 1
    else ({ vc with y := (vc.y + 1) % 2 ^ 32 }, [])
  ({ r.1 with pos := (r.1.pos + r.1.rowSize) % 2 ^ 32 }, r.2)

/-- `gotoxy`.  The coordinates are `int`s compared with unsigned bounds, so they are passed here as
the unsigned values the comparison sees. -/
def gotoxy (vc : VcStruct) (newX newY : ℕ) : VcStruct :=
  if newX ≥ vc.cols ∨ newY ≥ vc.rows then vc
  else
    { vc with
      x := newX
      y := newY
      pos := (vc.visibleOrigin + (vc.cols * newY + newX) * 2 % 2 ^ 32) % 2 ^ 32 }

/-! ## Erasing, inserting and deleting -/

/-- `delete_char`. -/
def deleteChar (vc : VcStruct) (nr : ℕ) : List ScrOp :=
  let rest := sub32 (sub32 vc.cols vc.x) nr
  [.memcpyw vc.pos ((vc.pos + 2 * nr) % 2 ^ 32) rest,
    -- `p + vc->vc_cols - vc->vc_x - nr`, one pointer step at a time
    .memsetw (sub32 (sub32 ((vc.pos + 2 * vc.cols) % 2 ^ 32) (2 * vc.x)) (2 * nr)) vc.erasedChar nr]

/-- `insert_char`. -/
def insertChar (vc : VcStruct) (nr : ℕ) : List ScrOp :=
  [.memmovew ((vc.pos + 2 * nr) % 2 ^ 32) vc.pos (sub32 (sub32 vc.cols vc.x) nr),
    .memsetw vc.pos vc.erasedChar nr]

/-- `csi_J`: erase the display. -/
def csiJ (vc : VcStruct) : List ScrOp :=
  match vc.par 0 with
  | 0 => [.memsetw vc.pos vc.erasedChar (sub32 vc.scrEnd vc.pos >>> 1)]
  | 1 =>
    [.memsetw vc.visibleOrigin vc.erasedChar
      ((sub32 vc.pos vc.visibleOrigin >>> 1) + 1)]
  | 2 => [.memsetw vc.visibleOrigin vc.erasedChar (vc.cols * vc.rows % 2 ^ 32)]
  | 3 => [.memsetw vc.origin vc.erasedChar ((sub32 vc.pos vc.origin >>> 1) + 1)]
  | _ => []

/-- `csi_K`: erase the line.  Cases 1 and 2 fall through to the `return` of the default case. -/
def csiK (vc : VcStruct) : List ScrOp :=
  match vc.par 0 with
  | 0 => [.memsetw vc.pos vc.erasedChar (sub32 vc.cols vc.x)]
  | _ => []

/-- The count that `csi_P` and `csi_at` take from the first parameter. -/
def charCount (vc : VcStruct) : ℕ :=
  if vc.par 0 > sub32 vc.cols vc.x then sub32 vc.cols vc.x
  else if vc.par 0 = 0 then 1
  else vc.par 0

/-- `csi_P`: delete characters in the current line. -/
def csiP (vc : VcStruct) : List ScrOp := deleteChar vc (charCount vc)

/-- `csi_X`: erase characters in the current line. -/
def csiX (vc : VcStruct) : List ScrOp :=
  let nr := if vc.par 0 = 0 then 1 else vc.par 0
  let nr := if nr > sub32 vc.cols vc.x then sub32 vc.cols vc.x else nr
  [.memsetw vc.pos vc.erasedChar nr]

/-- `csi_at`: insert blanks in the current line. -/
def csiAt (vc : VcStruct) : List ScrOp := insertChar vc (charCount vc)

/-! ## Attributes -/

/-- `update_attribute`. -/
def updateAttribute (vc : VcStruct) : VcStruct :=
  let attr := (vc.fColor &&& 0x7) ||| (vc.bColor &&& 0x7) * 2 ^ 4 ||| (vc.blink &&& 0x1) * 2 ^ 7
  { vc with attr := attr, erasedChar := ((vc.erasedChar &&& 0xff) ||| attr) % 2 ^ 16 }

/-- One parameter of `csi_m`. -/
def csiMPar (vc : VcStruct) (p : ℕ) : VcStruct :=
  if p = 0 then { vc with bold := 0, underline := 0, blink := 0, fColor := 7, bColor := 0 }
  else if p = 1 then { vc with bold := 1 }
  else if p = 4 then { vc with underline := 1 }
  else if p = 5 then { vc with blink := 1 }
  else if 30 ≤ p ∧ p ≤ 37 then { vc with fColor := p - 30 }
  else if 40 ≤ p ∧ p ≤ 47 then { vc with bColor := p - 40 }
  else if p = 38 then { vc with fColor := 7 }
  else if p = 48 then { vc with bColor := 0 }
  else vc

/-- `csi_m`: set attributes from the parameters `0 … vc_npar`. -/
def csiM (vc : VcStruct) : VcStruct :=
  updateAttribute ((List.range (vc.npar + 1)).foldl (fun v i => csiMPar v (vc.par i)) vc)

/-! ## The state machine -/

/-- The states of the scanner. -/
inductive VtState
  | normal
  | esc
  | csiQuestion
  | csiParameter
  | csiHandle
deriving DecidableEq, Repr

/-- The local variables of `con_write` that live across rounds. -/
structure Scanner where
  state : VtState
  npar : ℕ
deriving DecidableEq, Repr

/-- What `con_write` starts with, on every call. -/
def Scanner.start : Scanner := ⟨.normal, 0⟩

/-- A console and a scanner between two bytes. -/
@[ext] structure Term where
  vc : VcStruct
  scan : Scanner

/-- `if (vc->vc_par[i]) vc->vc_par[i]--`. -/
def decPar (vc : VcStruct) (i : ℕ) : VcStruct :=
  { vc with par := Function.update vc.par i (vc.par i - 1) }

/-- `if (!vc->vc_par[i]) vc->vc_par[i]++`. -/
def defPar (vc : VcStruct) (i : ℕ) : VcStruct :=
  { vc with par := Function.update vc.par i (if vc.par i = 0 then 1 else vc.par i) }

/-- The parameters of `'r'` with their defaults: the first line and the last. -/
def regionPar (vc : VcStruct) : VcStruct :=
  { defPar vc 0 with
    par := Function.update (defPar vc 0).par 1 (if vc.par 1 = 0 then vc.rows else vc.par 1) }

/-- The case `'r'` of `VT_CSI_HANDLE`: the scrolling region, of at least two lines. -/
def csiR (vc : VcStruct) : VcStruct :=
  let v := regionPar vc
  if v.par 0 < v.par 1 ∧ v.par 1 ≤ v.rows then
    gotoxy { v with top := v.par 0 - 1, bottom := v.par 1 } 0 0
  else v

/-- The state `VT_CSI_HANDLE`: the final byte of a control sequence. -/
def csiHandle (vc : VcStruct) (c : ℕ) : VcStruct × List ScrOp :=
  match Char.ofNat c with
  | 'G' | '\x60' => let vc := decPar vc 0; (gotoxy vc (vc.par 0) vc.y, [])
  | 'A' => let vc := defPar vc 0; (gotoxy vc vc.x (sub32 vc.y (vc.par 0)), [])
  | 'B' | 'e' => let vc := defPar vc 0; (gotoxy vc vc.x ((vc.y + vc.par 0) % 2 ^ 32), [])
  | 'C' | 'a' => let vc := defPar vc 0; (gotoxy vc ((vc.x + vc.par 0) % 2 ^ 32) vc.y, [])
  | 'D' => let vc := defPar vc 0; (gotoxy vc ((vc.x + vc.par 0) % 2 ^ 32) vc.y, [])
  | 'E' => let vc := defPar vc 0; (gotoxy vc 0 ((vc.y + vc.par 0) % 2 ^ 32), [])
  | 'F' => let vc := defPar vc 0; (gotoxy vc 0 (sub32 vc.y (vc.par 0)), [])
  | 'd' => let vc := decPar vc 0; (gotoxy vc vc.x (vc.par 0), [])
  | 'H' | 'f' => let vc := decPar (decPar vc 0) 1; (gotoxy vc (vc.par 1) (vc.par 0), [])
  | 'J' => (vc, csiJ vc)
  | 'K' => (vc, csiK vc)
  | 'P' => (vc, csiP vc)
  | 'X' => (vc, csiX vc)
  | 'm' => (csiM vc, [])
  | 'r' => (csiR vc, [])
  | 's' => (saveCursor vc, [])
  | 'u' => (restoreCursor vc, [])
  | '@' => (vc, csiAt vc)
  -- 'L' and 'M' compute a count and drop it; 'c' calls the empty `respond_ID`
  | _ => (vc, [])

/-- The state `VT_NORMAL`: a printable character, or a control character. -/
def vtNormal (vga : VgaVars) (vc : VcStruct) (c : ℕ) : VcStruct × List ScrOp :=
  if 31 < c ∧ c < 127 then
    -- a wrap left pending in the column past the last is taken first
    let r :=
      if vc.x = vc.cols then lineFeed vga { vc with x := 0, pos := sub32 vc.pos vc.rowSize }
      else (vc, [])
    ({ r.1 with x := (r.1.x + 1) % 2 ^ 32, pos := (r.1.pos + 2) % 2 ^ 32 },
      r.2 ++ conPutc r.1 c r.1.y r.1.x)
  else if c = 8 then
    if vc.x ≠ 0 then ({ vc with x := vc.x - 1, pos := sub32 vc.pos 2 }, []) else (vc, [])
  else if c = 9 then
    let w := 8 - (vc.x &&& 7)
    let vc := { vc with x := (vc.x + w) % 2 ^ 32, pos := (vc.pos + w * 2) % 2 ^ 32 }
    if vc.x ≥ vc.cols then
      lineFeed vga { vc with x := vc.x - vc.cols, pos := sub32 vc.pos vc.rowSize }
    else (vc, [])
  else if c = 10 ∨ c = 11 ∨ c = 12 then lineFeed vga vc
  else if c = 13 then (carriageReturn vc, [])
  else (vc, [])

/-- The state `VT_ESC`: the byte after an escape that does not open a control sequence.
`reverse_line_feed` and `respond_ID` have empty bodies. -/
def vtEsc (vga : VgaVars) (vc : VcStruct) (c : ℕ) : VcStruct × List ScrOp :=
  match Char.ofNat c with
  | 'D' => lineFeed vga vc
  | 'E' => (gotoxy { vc with y := (vc.y + 1) % 2 ^ 32 } 0 vc.y, [])
  | '7' => (saveCursor vc, [])
  | '8' => (restoreCursor vc, [])
  | _ => (vc, [])

/-- The state `VT_CSI_PARAMETER`, falling through to `VT_CSI_HANDLE` on a byte that is neither a
digit nor a separator with room for another parameter. -/
def vtCsiParameter (vc : VcStruct) (n c : ℕ) : Term × List ScrOp :=
  if Char.ofNat c = ';' ∧ n < nPar - 1 then (⟨vc, ⟨.csiParameter, n + 1⟩⟩, [])
  else if 48 ≤ c ∧ c ≤ 57 then
    let par := Function.update vc.par n ((10 * vc.par n + (c - 48)) % 2 ^ 32)
    (⟨{ vc with par := par }, ⟨.csiParameter, n⟩⟩, [])
  else
    let r := csiHandle { vc with npar := n } c
    (⟨r.1, ⟨.normal, n⟩⟩, r.2)

/-- `vc_par` with its `NPAR` entries cleared. -/
def clearPar (vc : VcStruct) : VcStruct :=
  { vc with par := fun i => if i < nPar then 0 else vc.par i }

/-- One round of the loop of `con_write`, on the byte `c`. -/
def conStep (vga : VgaVars) (t : Term) (c : ℕ) : Term × List ScrOp :=
  match t.scan.state with
  | .normal =>
    let r := vtNormal vga t.vc c
    (⟨r.1, { t.scan with state := if c = 27 then .esc else .normal }⟩, r.2)
  | .esc =>
    if Char.ofNat c = '[' then (⟨t.vc, { t.scan with state := .csiQuestion }⟩, [])
    else
      let r := vtEsc vga t.vc c
      (⟨r.1, { t.scan with state := .normal }⟩, r.2)
  | .csiQuestion =>
    if Char.ofNat c = '?' then (⟨clearPar t.vc, ⟨.csiParameter, 0⟩⟩, [])
    else vtCsiParameter (clearPar t.vc) 0 c
  | .csiParameter => vtCsiParameter t.vc t.scan.npar c
  | .csiHandle =>
    let r := csiHandle t.vc c
    (⟨r.1, { t.scan with state := .normal }⟩, r.2)

/-- The loop of `con_write` over the bytes of the buffer. -/
def conSteps (vga : VgaVars) (t : Term) : List UInt8 → Term × List ScrOp
  | [] => (t, [])
  | b :: bs =>
    let r := conStep vga t b.toNat
    let r' := conSteps vga r.1 bs
    (r'.1, r.2 ++ r'.2)

/-- A virtual console on its hardware. -/
structure Console where
  vga : VgaVars
  vc : VcStruct
  hw : Hw

/-- `con_write`: the bytes written, or `-EFAULT` without a driver. -/
def conWrite (con : Console) (buf : List UInt8) : ℤ × Console :=
  if con.vc.driver = none then (-14, con)
  else
    -- `hide_cursor` and `set_cursor` both draw the cursor where `vc_pos` is
    let r := conSteps con.vga ⟨con.vc, Scanner.start⟩ buf
    let ops := conCursor con.vga con.vc ++ r.2 ++ conCursor con.vga r.1.vc
    (buf.length, { con with vc := r.1.vc, hw := con.hw.run ops })

/-- `con_put_char`. -/
def conPutChar (con : Console) (ch : UInt8) : ℤ × Console := conWrite con [ch]

/-! ## Runs -/

/-- The console after a sequence of `con_write` calls. -/
def conRun (con : Console) (bufs : List (List UInt8)) : Console :=
  bufs.foldl (fun con buf => (conWrite con buf).2) con

/-- The rounds of one loop, each with the state before it and its byte. -/
def rounds (vga : VgaVars) (t : Term) : List UInt8 → List (Term × ℕ)
  | [] => []
  | b :: bs => (t, b.toNat) :: rounds vga (conStep vga t b.toNat).1 bs

/-- The rounds of one `con_write` call. -/
def writeRounds (con : Console) (buf : List UInt8) : List (Term × ℕ) :=
  if con.vc.driver = none then [] else rounds con.vga ⟨con.vc, Scanner.start⟩ buf

/-- The rounds of a sequence of `con_write` calls. -/
def runRounds (con : Console) : List (List UInt8) → List (Term × ℕ)
  | [] => []
  | buf :: bufs => writeRounds con buf ++ runRounds (conWrite con buf).2 bufs

/-! ## The console at boot -/

/-- The driver's variables once `console_init` has registered the driver. -/
def bootVga (si : ScreenInfo) : VgaVars := vgaconStartup si VgaVars.zero

/-- The first console as `console_init` leaves it: bound to the VGA driver and initialised. -/
def bootVc (si : ScreenInfo) : VcStruct :=
  (vgaconInit (bootVga si) { VcStruct.zero with driver := some .vga }).2

/-- The console at boot, over any screen contents, with nothing written yet. -/
def bootConsole (si : ScreenInfo) (mem crtc : ℕ → ℕ) : Console :=
  ⟨bootVga si, bootVc si, ⟨mem, [], crtc⟩⟩

end Sandix
