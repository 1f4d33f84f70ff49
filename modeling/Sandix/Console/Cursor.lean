import Sandix.Console.Vt

/-!
# Console/Cursor — where one byte leaves the cursor

The cursor is kept twice, as coordinates and as an address.  `OnScreen` is what every byte
preserves: the coordinates are on the screen (or in the pending-wrap column) and the visible window
is inside video memory.  `Synced` says that the address is the one of the coordinates.

* `conStep_onScreen` — one byte keeps `OnScreen`, whatever it is.
* `conStep_synced_iff` — from a synchronised cursor, one byte leaves a synchronised cursor exactly
  when it is `CursorKept`: a line feed on the bottom row finds room below the window, and a restore
  returns to the cell the cursor is in.
-/

namespace Sandix

open Machinery

/-- The visible window lies in video memory, and the row after it in the address space. -/
structure Window (vga : VgaVars) (vc : VcStruct) : Prop where
  cols_pos : 0 < vc.cols
  rowSize_eq : vc.rowSize = 2 * vc.cols
  scrSize_eq : vc.scrSize = 2 * (vc.cols * vc.rows)
  scrEnd_eq : vc.scrEnd = vc.visibleOrigin + vc.scrSize
  base_le : vga.vramBase ≤ vc.visibleOrigin
  end_le : vc.scrEnd ≤ vga.vramEnd
  vramEnd_lt : vga.vramEnd + vc.rowSize < 2 ^ 32

/-- The window lies in video memory and the cursor's coordinates, current and saved, on it. -/
structure OnScreen (vga : VgaVars) (vc : VcStruct) : Prop where
  driver : vc.driver = some .vga
  cols_ge : 8 ≤ vc.cols
  cols_lt : vc.cols < 2 ^ 8
  rows_ge : 4 ≤ vc.rows
  rows_lt : vc.rows < 2 ^ 8
  rowSize_eq : vc.rowSize = 2 * vc.cols
  scrSize_eq : vc.scrSize = 2 * (vc.cols * vc.rows)
  vramEnd_lt : vga.vramEnd < 2 ^ 32 - 2 ^ 20
  origin_eq : vc.origin = vga.vramBase
  scrEnd_eq : vc.scrEnd = vc.visibleOrigin + vc.scrSize
  base_le : vga.vramBase ≤ vc.visibleOrigin
  end_le : vc.scrEnd ≤ vga.vramEnd
  x_le : vc.x ≤ vc.cols
  y_lt : vc.y < vc.rows
  savedX_le : vc.savedX ≤ vc.cols
  savedY_lt : vc.savedY < vc.rows
  pos_lt : vc.pos < 2 ^ 32

/-- The address of the cursor is that of its coordinates. -/
def Synced (vc : VcStruct) : Prop :=
  vc.pos = vc.visibleOrigin + 2 * (vc.cols * vc.y + vc.x)

/-- The cursor bookkeeping invariant. -/
structure CursorInv (vga : VgaVars) (vc : VcStruct) : Prop where
  x_le : vc.x ≤ vc.cols
  y_lt : vc.y < vc.rows
  pos_eq : vc.pos = vc.visibleOrigin + 2 * (vc.cols * vc.y + vc.x)
  scrEnd_eq : vc.scrEnd = vc.visibleOrigin + vc.scrSize
  base_le : vga.vramBase ≤ vc.visibleOrigin
  end_le : vc.scrEnd ≤ vga.vramEnd

variable {vga : VgaVars} {vc : VcStruct}

theorem OnScreen.window (h : OnScreen vga vc) : Window vga vc where
  cols_pos := by have := h.cols_ge; omega
  rowSize_eq := h.rowSize_eq
  scrSize_eq := h.scrSize_eq
  scrEnd_eq := h.scrEnd_eq
  base_le := h.base_le
  end_le := h.end_le
  vramEnd_lt := by
    have hend := h.vramEnd_lt
    have hcols := h.cols_lt
    have hrow := h.rowSize_eq
    omega

theorem OnScreen.cursorInv_iff (h : OnScreen vga vc) : CursorInv vga vc ↔ Synced vc :=
  ⟨fun hc => hc.pos_eq, fun hs => ⟨h.x_le, h.y_lt, hs, h.scrEnd_eq, h.base_le, h.end_le⟩⟩

/-- A row that is on the screen ends on the screen. -/
theorem row_le {y : ℕ} (hy : y < vc.rows) : vc.cols * y + vc.cols ≤ vc.cols * vc.rows :=
  Nat.mul_le_mul_left vc.cols hy

/-- The linear facts of a console on screen, with `cols * rows` and `cols * y` as atoms. -/
theorem OnScreen.bounds (h : OnScreen vga vc) :
    (8 ≤ vc.cols ∧ vc.cols < 2 ^ 8 ∧ 4 ≤ vc.rows ∧ vc.rows < 2 ^ 8 ∧ vc.rowSize = 2 * vc.cols) ∧
    (vc.scrSize = 2 * (vc.cols * vc.rows) ∧ vc.scrEnd = vc.visibleOrigin + vc.scrSize ∧
      vga.vramBase ≤ vc.visibleOrigin ∧ vc.scrEnd ≤ vga.vramEnd ∧
      vga.vramEnd < 2 ^ 32 - 2 ^ 20) ∧
    (vc.x ≤ vc.cols ∧ vc.y < vc.rows ∧ vc.cols * vc.y + vc.cols ≤ vc.cols * vc.rows) :=
  ⟨⟨h.cols_ge, h.cols_lt, h.rows_ge, h.rows_lt, h.rowSize_eq⟩,
    ⟨h.scrSize_eq, h.scrEnd_eq, h.base_le, h.end_le, h.vramEnd_lt⟩,
    ⟨h.x_le, h.y_lt, row_le h.y_lt⟩⟩

/-- The linear facts of a window, with `cols * rows` as an atom. -/
theorem Window.bounds (h : Window vga vc) :
    (0 < vc.cols ∧ vc.rows ≤ vc.cols * vc.rows ∧ vc.rowSize = 2 * vc.cols) ∧
    (vc.scrSize = 2 * (vc.cols * vc.rows) ∧ vc.scrEnd = vc.visibleOrigin + vc.scrSize ∧
      vga.vramBase ≤ vc.visibleOrigin ∧ vc.scrEnd ≤ vga.vramEnd ∧
      vga.vramEnd + vc.rowSize < 2 ^ 32) :=
  ⟨⟨h.cols_pos, Nat.le_mul_of_pos_left _ h.cols_pos, h.rowSize_eq⟩,
    ⟨h.scrSize_eq, h.scrEnd_eq, h.base_le, h.end_le, h.vramEnd_lt⟩⟩

/-! ## Parameters and attributes

Nothing of the screen depends on them. -/

theorem OnScreen.setNpar (h : OnScreen vga vc) (n : ℕ) : OnScreen vga { vc with npar := n } :=
  { h with }

theorem OnScreen.setPar (h : OnScreen vga vc) (par : ℕ → ℕ) : OnScreen vga { vc with par := par } :=
  { h with }

theorem clearPar_onScreen (h : OnScreen vga vc) : OnScreen vga (clearPar vc) := { h with }

theorem clearPar_synced (hs : Synced vc) : Synced (clearPar vc) := hs

/-- `v` is `vc` with another pen. -/
def Repenned (vc v : VcStruct) : Prop := ∃ bold underline blink f b, v =
  { vc with bold := bold, underline := underline, blink := blink, fColor := f, bColor := b }

theorem csiMPar_repenned (vc : VcStruct) (p : ℕ) : Repenned vc (csiMPar vc p) := by
  unfold csiMPar
  iterate 8 refine iteInduction (fun _ => ⟨_, _, _, _, _, rfl⟩) fun _ => ?_
  exact ⟨_, _, _, _, _, rfl⟩

theorem csiMPar_onScreen (h : OnScreen vga vc) (p : ℕ) : OnScreen vga (csiMPar vc p) := by
  obtain ⟨_, _, _, _, _, hpen⟩ := csiMPar_repenned vc p
  rw [hpen]
  exact { h with }

theorem csiMPar_synced (h : Synced vc) (p : ℕ) : Synced (csiMPar vc p) := by
  obtain ⟨_, _, _, _, _, hpen⟩ := csiMPar_repenned vc p
  rw [hpen]
  exact h

theorem csiM_onScreen (h : OnScreen vga vc) : OnScreen vga (csiM vc) := by
  have hfold : OnScreen vga ((List.range (vc.npar + 1)).foldl (fun v i => csiMPar v (vc.par i)) vc) :=
    List.foldlRecOn _ _ h fun v hv i _ => csiMPar_onScreen hv (vc.par i)
  exact { hfold with }

theorem csiM_synced (h : Synced vc) : Synced (csiM vc) := by
  have hfold : Synced ((List.range (vc.npar + 1)).foldl (fun v i => csiMPar v (vc.par i)) vc) :=
    List.foldlRecOn _ _ h fun v hv i _ => csiMPar_synced hv (vc.par i)
  exact hfold

/-! ## Motion -/

/-- The address of a cell of the screen, computed without overflow. -/
theorem Window.addr_eq (h : Window vga vc) {x y : ℕ} (hx : x ≤ vc.cols) (hy : y < vc.rows) :
    (vc.visibleOrigin + (vc.cols * y + x) * 2 % 2 ^ 32) % 2 ^ 32 =
      vc.visibleOrigin + 2 * (vc.cols * y + x) := by
  have hrow := row_le hy
  have hb := h.bounds
  omega

theorem gotoxy_onScreen (h : OnScreen vga vc) (x y : ℕ) : OnScreen vga (gotoxy vc x y) := by
  unfold gotoxy
  split_ifs with hout
  · exact h
  · exact { h with
      x_le := by dsimp only; omega
      y_lt := by dsimp only; omega
      pos_lt := Nat.mod_lt _ (by decide) }

theorem gotoxy_synced (h : OnScreen vga vc) (hs : Synced vc) (x y : ℕ) :
    Synced (gotoxy vc x y) := by
  unfold gotoxy
  split_ifs with hout
  · exact hs
  · exact h.window.addr_eq (by omega) (by omega)

theorem saveCursor_onScreen (h : OnScreen vga vc) : OnScreen vga (saveCursor vc) :=
  { h with
    savedX_le := h.x_le
    savedY_lt := h.y_lt }

theorem restoreCursor_onScreen (h : OnScreen vga vc) : OnScreen vga (restoreCursor vc) :=
  { h with
    x_le := h.savedX_le
    y_lt := h.savedY_lt }

/-- The saved cursor is in the cell the cursor is in. -/
def SavedHere (vc : VcStruct) : Prop :=
  vc.cols * vc.savedY + vc.savedX = vc.cols * vc.y + vc.x

theorem restoreCursor_synced_iff (hs : Synced vc) :
    Synced (restoreCursor vc) ↔ SavedHere vc := by
  unfold Synced at hs
  simp only [Synced, restoreCursor, SavedHere, hs]
  omega

theorem carriageReturn_synced (h : OnScreen vga vc) (hs : Synced vc) :
    Synced (carriageReturn vc) := by
  have hb := h.bounds
  unfold Synced at *
  simp only [carriageReturn, sub32]
  omega

/-! ## Line feeds -/

/-- The window moved down by one row. -/
def windowDown (vc : VcStruct) : VcStruct :=
  { vc with
    visibleOrigin := vc.visibleOrigin + vc.rowSize
    scrEnd := vc.scrEnd + vc.rowSize }

/-- The window moved back to the base of video memory, with the cursor's address. -/
def windowBack (vga : VgaVars) (vc : VcStruct) : VcStruct :=
  { vc with
    pos := (vga.vramBase + sub32 vc.pos vc.visibleOrigin) % 2 ^ 32
    visibleOrigin := vga.vramBase
    scrEnd := vga.vramBase + vc.scrSize }

/-- There is room for one more row below the window. -/
def RoomBelow (vga : VgaVars) (vc : VcStruct) : Prop := vc.scrEnd + vc.rowSize ≤ vga.vramEnd

theorem scrdown_room (h : Window vga vc) (hvga : vc.driver = some .vga) (hrows : 4 ≤ vc.rows)
    (hroom : RoomBelow vga vc) :
    scrdown vga vc 1 = (windowDown vc, vgaSetMemTop vga (windowDown vc)) := by
  have hb := h.bounds
  unfold RoomBelow at hroom
  have hdelta : (1 : ℤ).toNat * vc.rowSize % 2 ^ 32 = vc.rowSize := by
    rw [Int.toNat_one, one_mul]
    omega
  have horigin : (vc.visibleOrigin + vc.rowSize) % 2 ^ 32 = vc.visibleOrigin + vc.rowSize := by omega
  have hscr : (vc.scrEnd + vc.rowSize) % 2 ^ 32 = vc.scrEnd + vc.rowSize := by omega
  unfold scrdown conScroll vgaconScroll windowDown
  rw [if_pos hvga, if_neg (by omega)]
  simp only [hdelta, horigin, hscr]
  rw [if_pos hroom]

theorem scrdown_wrap (h : Window vga vc) (hvga : vc.driver = some .vga) (hrows : 4 ≤ vc.rows)
    (hroom : ¬ RoomBelow vga vc) :
    scrdown vga vc 1 = (windowBack vga vc, .memcpyw vga.vramBase vc.visibleOrigin vc.cols ::
      vgaSetCursor vga (windowBack vga vc) ++ vgaSetMemTop vga (windowBack vga vc)) := by
  have hb := h.bounds
  unfold RoomBelow at hroom
  have hdelta : (1 : ℤ).toNat * vc.rowSize % 2 ^ 32 = vc.rowSize := by
    rw [Int.toNat_one, one_mul]
    omega
  have hhalf : vc.rowSize / 2 = vc.cols := by omega
  have hscr : (vc.scrEnd + vc.rowSize) % 2 ^ 32 = vc.scrEnd + vc.rowSize := by omega
  have hback : (vga.vramBase + vc.scrSize) % 2 ^ 32 = vga.vramBase + vc.scrSize := by omega
  unfold scrdown conScroll vgaconScroll windowBack
  rw [if_pos hvga, if_neg (by omega)]
  simp only [hdelta, hhalf, hscr, hback]
  rw [if_neg hroom]

/-- **What a line feed does**: down one row; or, on the bottom row, the window moves instead. -/
theorem lineFeed_cases (h : Window vga vc) (hy : vc.y < vc.rows) :
    (vc.y + 1 < vc.rows ∧ lineFeed vga vc =
      ({ vc with y := vc.y + 1, pos := (vc.pos + vc.rowSize) % 2 ^ 32 }, [])) ∨
    (vc.y + 1 = vc.rows ∧ lineFeed vga vc =
      ({ (scrdown vga vc 1).1 with
        pos := ((scrdown vga vc 1).1.pos + (scrdown vga vc 1).1.rowSize) % 2 ^ 32 },
        (scrdown vga vc 1).2)) := by
  have hb := h.bounds
  have hmod : (vc.y + 1) % 2 ^ 32 = vc.y + 1 := by omega
  unfold lineFeed
  by_cases hlast : vc.y + 1 = vc.rows
  · right
    rw [hmod, if_pos hlast]
    exact ⟨hlast, rfl⟩
  · left
    rw [hmod, if_neg hlast]
    exact ⟨by omega, rfl⟩

/-- A scroll moves neither the column nor the right edge. -/
theorem scrdown_column (vga : VgaVars) (vc : VcStruct) (lines : ℤ) :
    (scrdown vga vc lines).1.x = vc.x ∧ (scrdown vga vc lines).1.cols = vc.cols := by
  simp only [scrdown, conScroll, vgaconScroll]
  split_ifs <;> exact ⟨rfl, rfl⟩

/-- Nor does a line feed. -/
theorem lineFeed_column (vga : VgaVars) (vc : VcStruct) :
    (lineFeed vga vc).1.x = vc.x ∧ (lineFeed vga vc).1.cols = vc.cols := by
  unfold lineFeed
  split_ifs
  · exact scrdown_column vga vc 1
  · exact ⟨rfl, rfl⟩

theorem lineFeed_onScreen (h : OnScreen vga vc) : OnScreen vga (lineFeed vga vc).1 := by
  have hb := h.bounds
  rcases lineFeed_cases h.window h.y_lt with ⟨hy, heq⟩ | ⟨-, heq⟩
  · rw [heq]
    exact { h with
      y_lt := hy
      pos_lt := Nat.mod_lt _ (by decide) }
  · by_cases hroom : RoomBelow vga vc
    · rw [heq, scrdown_room h.window h.driver h.rows_ge hroom]
      exact { h with
        scrEnd_eq := by simp only [windowDown]; omega
        base_le := by simp only [windowDown]; omega
        end_le := hroom
        pos_lt := Nat.mod_lt _ (by decide) }
    · rw [heq, scrdown_wrap h.window h.driver h.rows_ge hroom]
      exact { h with
        scrEnd_eq := rfl
        base_le := le_rfl
        end_le := by simp only [windowBack]; omega
        pos_lt := Nat.mod_lt _ (by decide) }

/-- A line feed keeps the cursor synchronised, except on the bottom row with no room below: there
`vgacon_scroll` has already moved `vc_pos` with the window and the row is added once more. -/
theorem lineFeed_synced_iff (h : Window vga vc) (hvga : vc.driver = some .vga) (hrows : 4 ≤ vc.rows)
    (hx : vc.x ≤ vc.cols) (hy : vc.y < vc.rows) (hs : Synced vc) :
    Synced (lineFeed vga vc).1 ↔ (vc.y + 1 = vc.rows → RoomBelow vga vc) := by
  have hb := h.bounds
  have hrow := row_le hy
  unfold Synced at hs
  rcases lineFeed_cases h hy with ⟨hlt, heq⟩ | ⟨hlast, heq⟩
  · have hnext : vc.cols * (vc.y + 1) = vc.cols * vc.y + vc.cols := Nat.mul_succ _ _
    rw [heq]
    refine iff_of_true ?_ (by omega)
    simp only [Synced, hnext]
    omega
  · by_cases hroom : RoomBelow vga vc
    · rw [heq, scrdown_room h hvga hrows hroom]
      refine iff_of_true ?_ fun _ => hroom
      simp only [Synced, windowDown]
      omega
    · rw [heq, scrdown_wrap h hvga hrows hroom]
      refine iff_of_false ?_ fun hr => hroom (hr hlast)
      simp only [Synced, windowBack, sub32]
      omega

/-! ## Control sequences -/

theorem regionPar_onScreen (h : OnScreen vga vc) : OnScreen vga (regionPar vc) := { h with }

theorem csiR_onScreen (h : OnScreen vga vc) : OnScreen vga (csiR vc) := by
  have hr := regionPar_onScreen h
  unfold csiR
  dsimp only
  split
  · refine gotoxy_onScreen ?_ 0 0
    exact { hr with }
  · exact hr

theorem csiR_synced (h : OnScreen vga vc) (hs : Synced vc) : Synced (csiR vc) := by
  have hr := regionPar_onScreen h
  unfold csiR
  dsimp only
  split
  · refine gotoxy_synced (?_ : OnScreen vga _) ?_ 0 0
    · exact { hr with }
    · exact hs
  · exact hs

/-- **What the final byte of a control sequence does to the console.** -/
inductive CsiEffect (vc : VcStruct) (c : ℕ) : VcStruct → Prop
  | keep : CsiEffect vc c vc
  | goto (par : ℕ → ℕ) (x y : ℕ) : CsiEffect vc c (gotoxy { vc with par := par } x y)
  | sgr : Char.ofNat c = 'm' → CsiEffect vc c (csiM vc)
  | region : CsiEffect vc c (csiR vc)
  | save : CsiEffect vc c (saveCursor vc)
  | restore : Char.ofNat c = 'u' → CsiEffect vc c (restoreCursor vc)

theorem csiHandle_effect (vc : VcStruct) (c : ℕ) : CsiEffect vc c (csiHandle vc c).1 := by
  unfold csiHandle
  split
  -- the motions and the positions, then `J`, `K`, `P` and `X`, which only draw
  iterate 13 exact .goto _ _ _
  iterate 4 exact .keep
  · exact .sgr ‹_›
  · exact .region
  · exact .save
  · exact .restore ‹_›
  iterate 2 exact .keep

theorem csiHandle_onScreen (h : OnScreen vga vc) (c : ℕ) : OnScreen vga (csiHandle vc c).1 := by
  have heffect := csiHandle_effect vc c
  generalize (csiHandle vc c).1 = v at heffect ⊢
  cases heffect with
  | keep => exact h
  | goto par x y => exact gotoxy_onScreen (h.setPar par) x y
  | sgr => exact csiM_onScreen h
  | region => exact csiR_onScreen h
  | save => exact saveCursor_onScreen h
  | restore => exact restoreCursor_onScreen h

theorem csiHandle_synced (h : OnScreen vga vc) (hs : Synced vc) {c : ℕ}
    (hu : Char.ofNat c ≠ 'u') : Synced (csiHandle vc c).1 := by
  have heffect := csiHandle_effect vc c
  generalize (csiHandle vc c).1 = v at heffect ⊢
  cases heffect with
  | keep => exact hs
  | goto par x y => exact gotoxy_synced (h.setPar par) hs x y
  | sgr => exact csiM_synced hs
  | region => exact csiR_synced h hs
  | save => exact hs
  | restore hc => exact absurd hc hu

/-- The one control sequence that moves the coordinates without the address is the restore. -/
theorem csiHandle_synced_iff (h : OnScreen vga vc) (hs : Synced vc) (c : ℕ) :
    Synced (csiHandle vc c).1 ↔ (Char.ofNat c = 'u' → SavedHere vc) := by
  by_cases hu : Char.ofNat c = 'u'
  · have hrestore : (csiHandle vc c).1 = restoreCursor vc := by simp [csiHandle, hu]
    rw [hrestore, restoreCursor_synced_iff hs]
    exact ⟨fun hh _ => hh, fun hh => hh hu⟩
  · exact iff_of_true (csiHandle_synced h hs hu) fun h => absurd h hu

/-! ## Plain bytes -/

/-- The byte makes `VT_NORMAL` feed a line: a character with a wrap pending, a tab past the last
column, or a line feed. -/
def LineFeeds (vc : VcStruct) (c : ℕ) : Prop :=
  (31 < c ∧ c < 127 ∧ vc.x = vc.cols) ∨ (c = 9 ∧ vc.cols ≤ vc.x + (8 - vc.x % 8)) ∨
    c = 10 ∨ c = 11 ∨ c = 12

/-- The console before the line feed of a byte that feeds a line: a wrapped cursor is back in the
row it wrapped from. -/
def beforeFeed (vc : VcStruct) (c : ℕ) : VcStruct :=
  if 31 < c then { vc with x := 0, pos := sub32 vc.pos vc.rowSize }
  else if c = 9 then
    { vc with
      x := vc.x + (8 - vc.x % 8) - vc.cols
      pos := sub32 ((vc.pos + (8 - vc.x % 8) * 2) % 2 ^ 32) vc.rowSize }
  else vc

theorem beforeFeed_onScreen (h : OnScreen vga vc) (c : ℕ) : OnScreen vga (beforeFeed vc c) := by
  have hb := h.bounds
  unfold beforeFeed
  split_ifs with h₁ h₂
  · exact { h with
      x_le := Nat.zero_le _
      pos_lt := sub32_lt _ _ }
  · exact { h with
      x_le := by dsimp only; omega
      pos_lt := sub32_lt _ _ }
  · exact h

theorem beforeFeed_synced (h : OnScreen vga vc) (hs : Synced vc) {c : ℕ} (hc : LineFeeds vc c) :
    Synced (beforeFeed vc c) := by
  have hb := h.bounds
  unfold LineFeeds at hc
  unfold beforeFeed
  split_ifs with h₁ h₂
  · unfold Synced at *
    simp only [sub32]
    omega
  · unfold Synced at *
    simp only [sub32]
    omega
  · exact hs

/-- The console a printable byte is drawn on: a pending wrap has been taken. -/
def afterWrap (vga : VgaVars) (vc : VcStruct) (c : ℕ) : VcStruct × List ScrOp :=
  if vc.x = vc.cols then lineFeed vga (beforeFeed vc c) else (vc, [])

/-- The cursor advanced by one cell. -/
def advance (vc : VcStruct) : VcStruct :=
  { vc with x := vc.x + 1, pos := (vc.pos + 2) % 2 ^ 32 }

theorem afterWrap_onScreen (h : OnScreen vga vc) (c : ℕ) : OnScreen vga (afterWrap vga vc c).1 := by
  unfold afterWrap
  split_ifs
  · exact lineFeed_onScreen (beforeFeed_onScreen h c)
  · exact h

theorem afterWrap_x_lt (h : OnScreen vga vc) {c : ℕ} (hc : 31 < c) :
    (afterWrap vga vc c).1.x < (afterWrap vga vc c).1.cols := by
  have hb := h.bounds
  unfold afterWrap
  split_ifs
  · rw [(lineFeed_column _ _).1, (lineFeed_column _ _).2, beforeFeed, if_pos hc]
    dsimp only
    omega
  · dsimp only
    omega

/-- A printable byte is drawn where the cursor is once a pending wrap is taken. -/
theorem vtNormal_print (h : OnScreen vga vc) {c : ℕ} (hc : 31 < c ∧ c < 127) :
    vtNormal vga vc c = (advance (afterWrap vga vc c).1,
      (afterWrap vga vc c).2 ++ conPutc (afterWrap vga vc c).1 c (afterWrap vga vc c).1.y
        (afterWrap vga vc c).1.x) := by
  have hx : ((afterWrap vga vc c).1.x + 1) % 2 ^ 32 = (afterWrap vga vc c).1.x + 1 := by
    have hlt := afterWrap_x_lt h hc.1
    have hcols := (afterWrap_onScreen h c).cols_lt
    omega
  have hwrap : (if vc.x = vc.cols then
      lineFeed vga { vc with x := 0, pos := sub32 vc.pos vc.rowSize } else (vc, [])) =
      afterWrap vga vc c := by
    unfold afterWrap
    rw [beforeFeed, if_pos hc.1]
  unfold vtNormal
  rw [if_pos hc]
  simp only [hwrap, hx]
  rfl

/-- A control byte feeds a line or moves the cursor within its row. -/
theorem vtNormal_control (h : OnScreen vga vc) {c : ℕ} (hc : ¬ (31 < c ∧ c < 127)) :
    (LineFeeds vc c ∧ vtNormal vga vc c = lineFeed vga (beforeFeed vc c)) ∨
    (¬ LineFeeds vc c ∧ ∃ x pos, vtNormal vga vc c = ({ vc with x := x, pos := pos }, []) ∧
      x ≤ vc.cols ∧ pos < 2 ^ 32 ∧
      (Synced vc → pos = vc.visibleOrigin + 2 * (vc.cols * vc.y + x))) := by
  have hb := h.bounds
  unfold vtNormal
  rw [if_neg hc]
  by_cases hbs : c = 8
  · have hno : ¬ LineFeeds vc c := by unfold LineFeeds; omega
    rw [if_pos hbs]
    by_cases hx : vc.x = 0
    · rw [if_neg (not_not.mpr hx)]
      exact Or.inr ⟨hno, vc.x, vc.pos, rfl, h.x_le, h.pos_lt, fun hs => hs⟩
    · rw [if_pos hx]
      refine Or.inr ⟨hno, _, _, rfl, by omega, sub32_lt _ _, fun hs => ?_⟩
      unfold Synced at hs
      unfold sub32
      omega
  rw [if_neg hbs]
  by_cases hht : c = 9
  · have hmod : (vc.x + (8 - vc.x % 8)) % 2 ^ 32 = vc.x + (8 - vc.x % 8) := by omega
    rw [if_pos hht]
    simp only [and_seven, hmod]
    by_cases hlast : vc.cols ≤ vc.x + (8 - vc.x % 8)
    · rw [if_pos hlast]
      refine Or.inl ⟨Or.inr (Or.inl ⟨hht, hlast⟩), ?_⟩
      rw [beforeFeed, if_neg (by omega), if_pos hht]
    · rw [if_neg hlast]
      have hno : ¬ LineFeeds vc c := by unfold LineFeeds; omega
      refine Or.inr ⟨hno, _, _, rfl, by omega, Nat.mod_lt _ (by decide), fun hs => ?_⟩
      unfold Synced at hs
      omega
  rw [if_neg hht]
  by_cases hnl : c = 10 ∨ c = 11 ∨ c = 12
  · rw [if_pos hnl, beforeFeed, if_neg (by omega), if_neg hht]
    exact Or.inl ⟨Or.inr (Or.inr hnl), rfl⟩
  have hno : ¬ LineFeeds vc c := by unfold LineFeeds; omega
  rw [if_neg hnl]
  by_cases hcr : c = 13
  · rw [if_pos hcr]
    refine Or.inr ⟨hno, 0, _, rfl, by omega, sub32_lt _ _, fun hs => ?_⟩
    exact carriageReturn_synced h hs
  · rw [if_neg hcr]
    exact Or.inr ⟨hno, vc.x, vc.pos, rfl, h.x_le, h.pos_lt, fun hs => hs⟩

theorem beforeFeed_y (vc : VcStruct) (c : ℕ) : (beforeFeed vc c).y = vc.y := by
  unfold beforeFeed
  split_ifs <;> rfl

theorem beforeFeed_rows (vc : VcStruct) (c : ℕ) : (beforeFeed vc c).rows = vc.rows := by
  unfold beforeFeed
  split_ifs <;> rfl

theorem beforeFeed_roomBelow (c : ℕ) : RoomBelow vga (beforeFeed vc c) ↔ RoomBelow vga vc := by
  unfold beforeFeed
  split_ifs <;> rfl

/-- A byte that feeds a line keeps the cursor synchronised as far as the line feed does. -/
theorem lineFeed_beforeFeed_synced_iff (h : OnScreen vga vc) (hs : Synced vc) {c : ℕ}
    (hc : LineFeeds vc c) : Synced (lineFeed vga (beforeFeed vc c)).1 ↔
      (LineFeeds vc c → vc.y + 1 = vc.rows → RoomBelow vga vc) := by
  have hon := beforeFeed_onScreen h c
  rw [lineFeed_synced_iff hon.window hon.driver hon.rows_ge hon.x_le hon.y_lt
    (beforeFeed_synced h hs hc), beforeFeed_y, beforeFeed_rows, beforeFeed_roomBelow]
  exact ⟨fun hr _ => hr, fun hr => hr hc⟩

theorem advance_synced_iff (h : OnScreen vga vc) (hx : vc.x < vc.cols) :
    Synced (advance vc) ↔ Synced vc := by
  have hb := h.bounds
  have hpos := h.pos_lt
  unfold Synced advance
  dsimp only
  omega

theorem vtNormal_onScreen (h : OnScreen vga vc) (c : ℕ) : OnScreen vga (vtNormal vga vc c).1 := by
  by_cases hc : 31 < c ∧ c < 127
  · rw [vtNormal_print h hc]
    exact { afterWrap_onScreen h c with
      x_le := afterWrap_x_lt h hc.1
      pos_lt := Nat.mod_lt _ (by decide) }
  · rcases vtNormal_control h hc with ⟨-, heq⟩ | ⟨-, x, pos, heq, hx, hpos, -⟩
    · rw [heq]
      exact lineFeed_onScreen (beforeFeed_onScreen h c)
    · rw [heq]
      exact { h with
        x_le := hx
        pos_lt := hpos }

theorem vtNormal_synced_iff (h : OnScreen vga vc) (hs : Synced vc) (c : ℕ) :
    Synced (vtNormal vga vc c).1 ↔
      (LineFeeds vc c → vc.y + 1 = vc.rows → RoomBelow vga vc) := by
  by_cases hc : 31 < c ∧ c < 127
  · rw [vtNormal_print h hc, advance_synced_iff (afterWrap_onScreen h c) (afterWrap_x_lt h hc.1),
      afterWrap]
    split_ifs with hx
    · exact lineFeed_beforeFeed_synced_iff h hs (Or.inl ⟨hc.1, hc.2, hx⟩)
    · have hno : ¬ LineFeeds vc c := by unfold LineFeeds; omega
      exact iff_of_true hs fun hl => absurd hl hno
  · rcases vtNormal_control h hc with ⟨hl, heq⟩ | ⟨hno, x, pos, heq, -, -, hpos⟩
    · rw [heq]
      exact lineFeed_beforeFeed_synced_iff h hs hl
    · rw [heq]
      exact iff_of_true (hpos hs) fun hl => absurd hl hno

/-! ## One byte -/

/-- `ESC E` is a `gotoxy` to the start of the row: the increment of `vc_y` is overwritten. -/
theorem gotoxy_setY (vc : VcStruct) {x y : ℕ} (hx : x < vc.cols) (hy : y < vc.rows) (y' : ℕ) :
    gotoxy { vc with y := y' } x y = gotoxy vc x y := by
  unfold gotoxy
  dsimp only
  rw [if_neg (by omega), if_neg (by omega)]

theorem vtEsc_onScreen (h : OnScreen vga vc) (c : ℕ) : OnScreen vga (vtEsc vga vc c).1 := by
  have hcols := h.cols_ge
  unfold vtEsc
  split
  · exact lineFeed_onScreen h
  · rw [gotoxy_setY vc (by omega) h.y_lt]
    exact gotoxy_onScreen h 0 vc.y
  · exact saveCursor_onScreen h
  · exact restoreCursor_onScreen h
  · exact h

theorem vtEsc_synced_iff (h : OnScreen vga vc) (hs : Synced vc) (c : ℕ) :
    Synced (vtEsc vga vc c).1 ↔
      (Char.ofNat c = 'D' → vc.y + 1 = vc.rows → RoomBelow vga vc) ∧
      (Char.ofNat c = '8' → SavedHere vc) := by
  have hcols := h.cols_ge
  unfold vtEsc
  split
  · rename_i hc
    rw [lineFeed_synced_iff h.window h.driver h.rows_ge h.x_le h.y_lt hs]
    simp [hc]
  · rename_i hc
    rw [gotoxy_setY vc (by omega) h.y_lt]
    simp [hc, gotoxy_synced h hs]
  · rename_i hc
    refine iff_of_true hs ?_
    simp [hc]
  · rename_i hc
    rw [restoreCursor_synced_iff hs]
    simp [hc]
  · rename_i hD _ _ h8
    exact iff_of_true hs ⟨fun hc => (hD hc).elim, fun hc => (h8 hc).elim⟩

theorem vtCsiParameter_onScreen (h : OnScreen vga vc) (n c : ℕ) :
    OnScreen vga (vtCsiParameter vc n c).1.vc := by
  unfold vtCsiParameter
  split_ifs
  · exact h
  · exact h.setPar _
  · exact csiHandle_onScreen (h.setNpar n) c

theorem vtCsiParameter_synced_iff (h : OnScreen vga vc) (hs : Synced vc) (n c : ℕ) :
    Synced (vtCsiParameter vc n c).1.vc ↔ (Char.ofNat c = 'u' → SavedHere vc) := by
  unfold vtCsiParameter
  split_ifs with hsep hdigit
  · refine iff_of_true hs ?_
    simp [hsep.1]
  · have hu : Char.ofNat c ≠ 'u' := by
      obtain ⟨hlo, hhi⟩ := hdigit
      interval_cases c <;> decide
    exact iff_of_true hs fun hc => absurd hc hu
  · exact csiHandle_synced_iff (h.setNpar n) hs c

/-- What keeps the cursor synchronised, on the console before the byte: a line feed on the bottom
row has room below the window, and a restore finds the cursor in the cell it was saved in. -/
def CursorKept (vga : VgaVars) (t : Term) (c : ℕ) : Prop :=
  match t.scan.state with
  | .normal => LineFeeds t.vc c → t.vc.y + 1 = t.vc.rows → RoomBelow vga t.vc
  | .esc =>
    (Char.ofNat c = 'D' → t.vc.y + 1 = t.vc.rows → RoomBelow vga t.vc) ∧
    (Char.ofNat c = '8' → SavedHere t.vc)
  | .csiQuestion | .csiParameter | .csiHandle => Char.ofNat c = 'u' → SavedHere t.vc

/-- **One byte, whatever it is, leaves the console on screen.** -/
theorem conStep_onScreen {t : Term} (h : OnScreen vga t.vc) (c : ℕ) :
    OnScreen vga (conStep vga t c).1.vc := by
  unfold conStep
  split
  · exact vtNormal_onScreen h c
  · split_ifs
    · exact h
    · exact vtEsc_onScreen h c
  · split_ifs
    · exact clearPar_onScreen h
    · exact vtCsiParameter_onScreen (clearPar_onScreen h) 0 c
  · exact vtCsiParameter_onScreen h _ c
  · exact csiHandle_onScreen h c

/-- **One byte keeps a synchronised cursor synchronised exactly when it is `CursorKept`.** -/
theorem conStep_synced_iff {t : Term} (h : OnScreen vga t.vc) (hs : Synced t.vc) (c : ℕ) :
    Synced (conStep vga t c).1.vc ↔ CursorKept vga t c := by
  obtain ⟨vc, state, n⟩ := t
  cases state with
  | normal => exact vtNormal_synced_iff h hs c
  | esc =>
    by_cases hc : Char.ofNat c = '['
    · simp [conStep, CursorKept, hc, show Synced vc from hs]
    · rw [conStep]
      dsimp only
      rw [if_neg hc]
      exact vtEsc_synced_iff h hs c
  | csiQuestion =>
    by_cases hc : Char.ofNat c = '?'
    · simp [conStep, CursorKept, hc, clearPar_synced hs]
    · rw [conStep]
      dsimp only
      rw [if_neg hc]
      exact vtCsiParameter_synced_iff (clearPar_onScreen h) (clearPar_synced hs) 0 c
  | csiParameter => exact vtCsiParameter_synced_iff h hs n c
  | csiHandle => exact csiHandle_synced_iff h hs c

end Sandix
