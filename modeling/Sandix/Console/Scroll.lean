import Sandix.Console.CursorRun

/-!
# Console/Scroll — a line feed on the bottom row

The window normally moves down by a row and leaves video memory alone, so the rows of the screen move
up by one.  With no room below, `vgacon_scroll` starts over at the base of video memory: it copies as
many cells as it scrolls by, not the screen, and moves `vc_pos` with the window before `line_feed` adds
a row to it.

* `lineFeed_scrolls_iff` — the text moves up by a row and the cursor stays exactly when there is room
  below the window.
-/

namespace Sandix

open Machinery

variable {vga : VgaVars} {vc : VcStruct}

/-- The address of the cell in row `y`, column `x` of the visible window. -/
def VcStruct.cell (vc : VcStruct) (y x : ℕ) : ℕ := vc.visibleOrigin + 2 * (vc.cols * y + x)

/-- What a line feed on the bottom row is for: every row moves up by one, and the cursor stays where
it is, its address being that of its cell. -/
structure ScrollsText (vga : VgaVars) (vc : VcStruct) (hw : Hw) : Prop where
  text : ∀ i < vc.rows - 1, ∀ j < vc.cols,
    (hw.run (lineFeed vga vc).2).mem ((lineFeed vga vc).1.cell i j) = hw.mem (vc.cell (i + 1) j)
  row : (lineFeed vga vc).1.y + 1 = vc.rows
  column : (lineFeed vga vc).1.x = vc.x
  address : Synced (lineFeed vga vc).1

/-- Programming the CRT controller does not touch the screen. -/
theorem run_vgaSetMemTop_mem (hw : Hw) (vga : VgaVars) (vc : VcStruct) :
    (hw.run (vgaSetMemTop vga vc)).mem = hw.mem := rfl

/-- A row further down is a window further down. -/
theorem cell_windowDown (h : Window vga vc) (i j : ℕ) :
    (windowDown vc).cell i j = vc.cell (i + 1) j := by
  have hrow := h.rowSize_eq
  simp only [VcStruct.cell, windowDown, Nat.mul_succ]
  omega

/-- **Scrolling by a line feed.**  From any cursor on the bottom row, over any screen, of any geometry
of at least four rows that fits in video memory: the text moves up by one row and the cursor keeps its
place exactly when there is room for a row below the window. -/
theorem lineFeed_scrolls_iff (h : Window vga vc) (hvga : vc.driver = some .vga) (hrows : 4 ≤ vc.rows)
    (hcursor : CursorInv vga vc) (hlast : vc.y + 1 = vc.rows) (hw : Hw) :
    ScrollsText vga vc hw ↔ RoomBelow vga vc := by
  have hsync := lineFeed_synced_iff h hvga hrows hcursor.x_le hcursor.y_lt hcursor.pos_eq
  constructor
  · intro hscroll
    exact hsync.mp hscroll.address hlast
  · intro hroom
    have hfeed : lineFeed vga vc =
        ({ windowDown vc with pos := (vc.pos + vc.rowSize) % 2 ^ 32 },
          vgaSetMemTop vga (windowDown vc)) := by
      rcases lineFeed_cases h hcursor.y_lt with ⟨hlt, -⟩ | ⟨-, heq⟩
      · omega
      · rw [heq, scrdown_room h hvga hrows hroom]
        rfl
    refine ⟨fun i _ j _ => ?_, ?_, ?_, hsync.mpr fun _ => hroom⟩
    · rw [hfeed, run_vgaSetMemTop_mem]
      exact congrArg hw.mem (cell_windowDown h i j)
    · rw [hfeed]
      exact hlast
    · rw [hfeed]
      rfl

/-- A cleared 80 by 25 screen after `n` line feeds. -/
def fedConsole (n : ℕ) : Console :=
  conRun (bootConsole vgaText (fun _ => 0) fun _ => 0) [List.replicate n 10]

/-- The 25th line feed, the first on the bottom row. -/
theorem lineFeed_scrolls_first :
    (fedConsole 24).vc.y + 1 = (fedConsole 24).vc.rows ∧
    (ScrollsText (fedConsole 24).vga (fedConsole 24).vc (fedConsole 24).hw ↔
      RoomBelow (fedConsole 24).vga (fedConsole 24).vc) := by
  have hlast : (fedConsole 24).vc.y + 1 = (fedConsole 24).vc.rows := by decide +kernel
  have hon : OnScreen (fedConsole 24).vga (fedConsole 24).vc := by
    constructor <;> decide +kernel
  refine ⟨hlast, lineFeed_scrolls_iff hon.window hon.driver hon.rows_ge ?_ hlast _⟩
  refine hon.cursorInv_iff.mpr ?_
  unfold Synced
  decide +kernel

/-- The 204th line feed finds no room below, and leaves the address a row below the cursor. -/
theorem lineFeed_scrolls_noRoom :
    ((fedConsole 203).vc.y + 1 = (fedConsole 203).vc.rows ∧ 4 ≤ (fedConsole 203).vc.rows ∧
      (fedConsole 203).vc.pos = (fedConsole 203).vc.cell 24 0) ∧
    ¬ ScrollsText (fedConsole 203).vga (fedConsole 203).vc (fedConsole 203).hw := by
  refine ⟨by decide +kernel, fun h => ?_⟩
  have hpos := h.address
  unfold Synced at hpos
  exact absurd hpos (by decide +kernel)

end Sandix
