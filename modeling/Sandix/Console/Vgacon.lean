import Sandix.Arch.Page
import Sandix.Console.Screen

/-!
# Console/Vgacon — the virtual console record and its low-level drivers

`include/sandix/console.h`, `drivers/console/vgacon.c` and `drivers/console/dummycon.c`.  Every
`unsigned` field is a natural number below `2 ^ 32`, and the arithmetic on it is reduced; addresses
are those of the 32-bit kernel.

The driver's file-level variables are `VgaVars`.  `vgaconStartup` sets them from the boot screen
information, and nothing writes them afterwards.
-/

namespace Sandix

open Machinery

/-- The registered console drivers, `vga_con` and `dummy_con`. -/
inductive ConDriver
  | vga
  | dummy
deriving DecidableEq, Repr

/-- `NPAR`: how many parameters an escape sequence holds. -/
def nPar : ℕ := 16

/-- `struct vc_struct`: the fields the terminal code and its drivers use. -/
structure VcStruct where
  driver : Option ConDriver
  cols : ℕ
  rows : ℕ
  rowSize : ℕ
  scrSize : ℕ
  origin : ℕ
  scrEnd : ℕ
  visibleOrigin : ℕ
  top : ℕ
  bottom : ℕ
  erasedChar : ℕ
  attr : ℕ
  blink : ℕ
  fColor : ℕ
  bColor : ℕ
  bold : ℕ
  underline : ℕ
  x : ℕ
  y : ℕ
  savedX : ℕ
  savedY : ℕ
  pos : ℕ
  npar : ℕ
  par : ℕ → ℕ

/-- An entry of `vc_struct_map`, in zeroed static storage. -/
def VcStruct.zero : VcStruct where
  driver := none
  cols := 0
  rows := 0
  rowSize := 0
  scrSize := 0
  origin := 0
  scrEnd := 0
  visibleOrigin := 0
  top := 0
  bottom := 0
  erasedChar := 0
  attr := 0
  blink := 0
  fColor := 0
  bColor := 0
  bold := 0
  underline := 0
  x := 0
  y := 0
  savedX := 0
  savedY := 0
  pos := 0
  npar := 0
  par := fun _ => 0

/-- The fields of `struct screen_info` that `vgacon_startup` reads. -/
structure ScreenInfo where
  origX : UInt8
  origY : UInt8
  origVideoMode : UInt8
  origVideoCols : UInt8
  origVideoEgaBx : UInt16
  origVideoLines : UInt8
deriving DecidableEq, Repr

/-- The private variables of the VGA driver that its functions read. -/
structure VgaVars where
  hasCalledStartup : Bool
  visibleOrigin : ℕ
  vramBase : ℕ
  vramEnd : ℕ
  vramSize : ℕ
  pos : ℕ
  x : ℕ
  y : ℕ
  vramAttr : ℕ
  erasedChar : ℕ
  videoNumCols : ℕ
  videoNumRows : ℕ
deriving DecidableEq, Repr

def VgaVars.zero : VgaVars := ⟨false, 0, 0, 0, 0, 0, 0, 0, 0, 0, 0, 0⟩

/-! ## Start-up -/

/-- `vgacon_startup`: the frame buffer of the video mode, and the geometry and cursor the boot
loader left. -/
def vgaconStartup (si : ScreenInfo) (vga : VgaVars) : VgaVars :=
  if vga.hasCalledStartup then vga
  else if si.origVideoMode = 0 ∧ si.origVideoLines = 0 ∧ si.origVideoCols = 0 then
    { vga with hasCalledStartup := true }
  else
    let physBase := if si.origVideoMode = 7 then 0xb0000 else 0xb8000
    let size := if si.origVideoEgaBx &&& 0xff ≠ 0x10 then 0x8000 else 0x2000
    let base := physToVirt physBase
    let cols := si.origVideoCols.toNat
    { hasCalledStartup := true
      visibleOrigin := base
      vramBase := base
      vramEnd := base + size
      vramSize := size
      pos := (cols * si.origY.toNat + si.origX.toNat) * 2 + base
      x := si.origX.toNat
      y := si.origY.toNat
      vramAttr := 0x7
      erasedChar := 0x7 * 2 ^ 8 ||| 0x20
      videoNumCols := cols
      videoNumRows := si.origVideoLines.toNat }

/-- `vgacon_init`, with its result code: `-EPERM` before the driver has started. -/
def vgaconInit (vga : VgaVars) (vc : VcStruct) : ℤ × VcStruct :=
  if !vga.hasCalledStartup then (-1, vc)
  else
    let rowSize := vga.videoNumCols * 2 % 2 ^ 32
    let scrSize := rowSize * vga.videoNumRows % 2 ^ 32
    (0, { vc with
      x := vga.x
      y := vga.y
      pos := vga.pos
      cols := vga.videoNumCols
      rows := vga.videoNumRows
      rowSize := rowSize
      scrSize := scrSize
      attr := vga.vramAttr
      origin := vga.vramBase
      scrEnd := (vga.visibleOrigin + scrSize) % 2 ^ 32
      top := 0
      bottom := vga.videoNumRows
      visibleOrigin := vga.visibleOrigin
      erasedChar := vga.erasedChar })

/-- `dummycon_init`. -/
def dummyconInit (vc : VcStruct) : ℤ × VcStruct := (0, { vc with cols := 80, rows := 25 })

/-! ## The CRT controller -/

/-- `vga_set_mem_top`: the visible window starts at `vc_visible_origin`. -/
def vgaSetMemTop (vga : VgaVars) (vc : VcStruct) : List ScrOp :=
  let offset := sub32 vc.visibleOrigin vga.vramBase
  [.writeVga 0x0C (0xff &&& offset >>> 9), .writeVga 0x0D (0xff &&& offset >>> 1)]

/-- `vga_set_cursor`: the hardware cursor goes to `vc_pos`. -/
def vgaSetCursor (vga : VgaVars) (vc : VcStruct) : List ScrOp :=
  let offset := sub32 vc.pos vga.vramBase
  [.writeVga 0x0E (0xff &&& offset >>> 9), .writeVga 0x0F (0xff &&& offset >>> 1)]

/-! ## Characters and scrolling -/

/-- `VGA_ADDR`: the address of the cell in row `y`, column `x` of the visible window. -/
def vgaAddr (vc : VcStruct) (y x : ℕ) : ℕ :=
  (vc.visibleOrigin + (vc.cols * y + x) * 2 % 2 ^ 32) % 2 ^ 32

/-- `VGA_ATTR`: a character under the current attribute, as a cell. -/
def vgaAttr (vc : VcStruct) (ch : ℕ) : ℕ := (vc.attr * 2 ^ 8 ||| ch % 2 ^ 8) % 2 ^ 16

/-- `vgacon_putc`. -/
def vgaconPutc (vc : VcStruct) (ch y x : ℕ) : List ScrOp :=
  [.writew (vgaAttr vc ch) (vgaAddr vc y x)]

/-- `VWIN_UP` and `VWIN_DOWN`: the direction the visible window moves. -/
inductive Vwin
  | up
  | down
deriving DecidableEq, Repr

/-- `vgacon_scroll`: move the visible window, and start over at the base of video memory when it
would leave at the end.  The copy made then is of `delta` bytes, the rows scrolled by. -/
def vgaconScroll (vga : VgaVars) (vc : VcStruct) (dir : Vwin) (lines : ℤ) :
    VcStruct × List ScrOp :=
  -- `lines` is an `int`; it is positive where it is compared with the unsigned `vc_rows / 2`
  if lines ≤ 0 ∨ lines.toNat ≥ vc.rows / 2 then (vc, [])
  else
    let delta := lines.toNat * vc.rowSize % 2 ^ 32
    match dir with
    | .up =>
      let vc' :=
        if sub32 vc.visibleOrigin delta ≤ vga.vramBase then
          { vc with
            visibleOrigin := vga.vramBase
            scrEnd := (vga.vramBase + vc.scrSize) % 2 ^ 32 }
        else
          { vc with
            visibleOrigin := sub32 vc.visibleOrigin delta
            scrEnd := sub32 vc.scrEnd delta }
      (vc', vgaSetMemTop vga vc')
    | .down =>
      if (vc.scrEnd + delta) % 2 ^ 32 ≤ vga.vramEnd then
        let vc' := { vc with
          visibleOrigin := (vc.visibleOrigin + delta) % 2 ^ 32
          scrEnd := (vc.scrEnd + delta) % 2 ^ 32 }
        (vc', vgaSetMemTop vga vc')
      else
        let vc' := { vc with
          pos := (vga.vramBase + sub32 vc.pos vc.visibleOrigin) % 2 ^ 32
          visibleOrigin := vga.vramBase
          scrEnd := (vga.vramBase + vc.scrSize) % 2 ^ 32 }
        (vc', .memcpyw vga.vramBase vc.visibleOrigin (delta / 2) :: vgaSetCursor vga vc' ++
          vgaSetMemTop vga vc')

/-! ## The driver operations

The operations of `vc->driver`; `dummy_con` has `DUMMY` for each of them. -/

/-- `con_cursor`: every mode of `vgacon_cursor` draws the cursor. -/
def conCursor (vga : VgaVars) (vc : VcStruct) : List ScrOp :=
  if vc.driver = some .vga then vgaSetCursor vga vc else []

/-- `con_putc`. -/
def conPutc (vc : VcStruct) (ch y x : ℕ) : List ScrOp :=
  if vc.driver = some .vga then vgaconPutc vc ch y x else []

/-- `con_scroll`. -/
def conScroll (vga : VgaVars) (vc : VcStruct) (dir : Vwin) (lines : ℤ) : VcStruct × List ScrOp :=
  if vc.driver = some .vga then vgaconScroll vga vc dir lines else (vc, [])

end Sandix
