import Sandix.Console.CursorRun
import Sandix.Console.Scroll
import Sandix.Console.Sequence

/-!
# Console/Motion — the relative cursor motions and the next line

`CSI n A`, `B`, `C` and `D` are meant to move the cursor up, down, right and left, each undoing its
opposite; `ESC E` to do what a carriage return and a line feed do.  In the code `D` adds its count to
the column, as `C` does, and `ESC E` passes the row to `gotoxy` before it increments it.

* `Motion.run_eq` — what each sequence does: one `gotoxy`.
* `relativeMotions_iff` — the four motions move as they should and undo one another exactly where the
  count is too large to move sideways at all, and the address was the cursor's; `ESC E` is the next
  line only where the cursor's address is a row behind it (`nextLine_iff`).
-/

namespace Sandix

open Machinery Function

variable {vga : VgaVars} {vc : VcStruct} {n : ℕ}

/-- The relative motions. -/
inductive Motion
  | up
  | down
  | right
  | left
deriving DecidableEq, Repr

namespace Motion

/-- The final byte of the sequence: `A`, `B`, `C` or `D`. -/
def final : Motion → UInt8
  | up => 65
  | down => 66
  | right => 67
  | left => 68

/-- The motion back. -/
def opposite : Motion → Motion
  | up => down
  | down => up
  | right => left
  | left => right

/-- The column a motion by `n` is meant to reach. -/
def targetX (vc : VcStruct) (n : ℕ) : Motion → ℤ
  | right => vc.x + n
  | left => vc.x - n
  | _ => vc.x

/-- The row a motion by `n` is meant to reach. -/
def targetY (vc : VcStruct) (n : ℕ) : Motion → ℤ
  | up => vc.y - n
  | down => vc.y + n
  | _ => vc.y

/-- The target is on the screen. -/
def Lands (m : Motion) (vc : VcStruct) (n : ℕ) : Prop :=
  (0 ≤ m.targetX vc n ∧ m.targetX vc n < vc.cols) ∧ 0 ≤ m.targetY vc n ∧ m.targetY vc n < vc.rows

/-- The console after the sequence `CSI n c` of the motion. -/
def run (vga : VgaVars) (m : Motion) (n : ℕ) (vc : VcStruct) : VcStruct :=
  (conSteps vga ⟨vc, Scanner.start⟩ (csiSeq n m.final)).1.vc

end Motion

/-- The cursor of two consoles is the same, coordinates and address. -/
def SameCursor (vc vc' : VcStruct) : Prop := vc'.x = vc.x ∧ vc'.y = vc.y ∧ vc'.pos = vc.pos

/-- The cursor moves by `n` cells where the target is on the screen, and stays otherwise. -/
def Motion.Moves (vga : VgaVars) (m : Motion) (n : ℕ) (vc : VcStruct) : Prop :=
  (m.Lands vc n → (m.run vga n vc).x = m.targetX vc n ∧ (m.run vga n vc).y = m.targetY vc n ∧
    (m.run vga n vc).pos = vc.cell (m.run vga n vc).y (m.run vga n vc).x) ∧
  (¬ m.Lands vc n → SameCursor vc (m.run vga n vc))

/-- The opposite motion by the same count brings the cursor back from where `m` was to take it. -/
def Motion.Undone (vga : VgaVars) (m : Motion) (n : ℕ) (vc : VcStruct) : Prop :=
  m.Lands vc n → SameCursor vc (m.opposite.run vga n (m.run vga n vc))

/-- `ESC E` leaves the cursor and the window where a carriage return and a line feed leave them. -/
def NextLine (vga : VgaVars) (vc : VcStruct) : Prop :=
  SameCursor (conSteps vga ⟨vc, Scanner.start⟩ [13, 10]).1.vc
      (conSteps vga ⟨vc, Scanner.start⟩ [27, 69]).1.vc ∧
    (conSteps vga ⟨vc, Scanner.start⟩ [27, 69]).1.vc.visibleOrigin =
      (conSteps vga ⟨vc, Scanner.start⟩ [13, 10]).1.vc.visibleOrigin

/-! ## What the sequences do -/

/-- `gotoxy` on a cell of the screen. -/
theorem gotoxy_cell (h : Window vga vc) {x y : ℕ} (hx : x < vc.cols) (hy : y < vc.rows) :
    gotoxy vc x y = { vc with x := x, y := y, pos := vc.cell y x } := by
  unfold gotoxy VcStruct.cell
  rw [if_neg (by omega), h.addr_eq hx.le hy]

theorem gotoxy_outside {x y : ℕ} (h : vc.cols ≤ x ∨ vc.rows ≤ y) : gotoxy vc x y = vc := if_pos h

theorem gotoxy_withParameter (vc : VcStruct) (n x y : ℕ) :
    gotoxy (withParameter vc n) x y = withParameter (gotoxy vc x y) n := by
  unfold gotoxy
  change (if x ≥ vc.cols ∨ y ≥ vc.rows then _ else _) = _
  split_ifs <;> rfl

theorem defPar_withParameter (hn : 1 ≤ n) : defPar (withParameter vc n) 0 = withParameter vc n := by
  have hne : n ≠ 0 := by omega
  simp [defPar, withParameter, hne]

/-- The column and the row a sequence passes to `gotoxy`; `CSI n D` computes them as `CSI n C` does. -/
def Motion.goal (vc : VcStruct) (n : ℕ) : Motion → ℕ × ℕ
  | .up => (vc.x, sub32 vc.y n)
  | .down => (vc.x, (vc.y + n) % 2 ^ 32)
  | .right => ((vc.x + n) % 2 ^ 32, vc.y)
  | .left => ((vc.x + n) % 2 ^ 32, vc.y)

/-- **What a motion does**: it is one `gotoxy`. -/
theorem Motion.run_eq (m : Motion) (hn : 1 ≤ n) (hlt : n < 2 ^ 32) :
    m.run vga n vc = withParameter (gotoxy vc (m.goal vc n).1 (m.goal vc n).2) n := by
  have hfinal : Final m.final := by cases m <;> exact ⟨by decide, by decide⟩
  rw [Motion.run, Scanner.start, conSteps_csiSeq hlt hfinal]
  cases m with
  | up =>
    change gotoxy (defPar (withParameter vc n) 0) vc.x
      (sub32 vc.y ((defPar (withParameter vc n) 0).par 0)) = _
    rw [defPar_withParameter hn, withParameter_par, gotoxy_withParameter]
    rfl
  | down =>
    change gotoxy (defPar (withParameter vc n) 0) vc.x
      ((vc.y + (defPar (withParameter vc n) 0).par 0) % 2 ^ 32) = _
    rw [defPar_withParameter hn, withParameter_par, gotoxy_withParameter]
    rfl
  | right =>
    change gotoxy (defPar (withParameter vc n) 0)
      ((vc.x + (defPar (withParameter vc n) 0).par 0) % 2 ^ 32) vc.y = _
    rw [defPar_withParameter hn, withParameter_par, gotoxy_withParameter]
    rfl
  | left =>
    change gotoxy (defPar (withParameter vc n) 0)
      ((vc.x + (defPar (withParameter vc n) 0).par 0) % 2 ^ 32) vc.y = _
    rw [defPar_withParameter hn, withParameter_par, gotoxy_withParameter]
    rfl

/-! ## A cursor on the screen -/

/-- A console whose cursor is in a cell of its window, and a count as a parameter can have it. -/
structure InCell (vga : VgaVars) (vc : VcStruct) (n : ℕ) : Prop where
  window : Window vga vc
  x_lt : vc.x < vc.cols
  y_lt : vc.y < vc.rows
  one_le : 1 ≤ n
  count_lt : n < 2 ^ 31

namespace InCell

theorem bounds (h : InCell vga vc n) :
    (vc.x < vc.cols ∧ vc.y < vc.rows ∧ 1 ≤ n ∧ n < 2 ^ 31) ∧ vc.cols < 2 ^ 31 ∧ vc.rows < 2 ^ 31 := by
  have hb := h.window.bounds
  have hcols : vc.cols ≤ vc.cols * vc.rows :=
    Nat.le_mul_of_pos_right _ (Nat.zero_lt_of_lt h.y_lt)
  exact ⟨⟨h.x_lt, h.y_lt, h.one_le, h.count_lt⟩, by omega, by omega⟩

/-- A motion that reaches a cell. -/
theorem run_cell (h : InCell vga vc n) {m : Motion} (hx : (m.goal vc n).1 < vc.cols)
    (hy : (m.goal vc n).2 < vc.rows) :
    m.run vga n vc = withParameter { vc with
      x := (m.goal vc n).1, y := (m.goal vc n).2,
      pos := vc.cell (m.goal vc n).2 (m.goal vc n).1 } n := by
  have hb := h.bounds
  rw [m.run_eq h.one_le (by omega), gotoxy_cell h.window hx hy]

/-- A motion that `gotoxy` refuses. -/
theorem run_outside (h : InCell vga vc n) {m : Motion}
    (hout : vc.cols ≤ (m.goal vc n).1 ∨ vc.rows ≤ (m.goal vc n).2) :
    m.run vga n vc = withParameter vc n := by
  have hb := h.bounds
  rw [m.run_eq h.one_le (by omega), gotoxy_outside hout]

/-- The cursor is in a cell after a motion that reaches one. -/
theorem moved (h : InCell vga vc n) {x y : ℕ} (hx : x < vc.cols) (hy : y < vc.rows) (pos : ℕ) :
    InCell vga (withParameter { vc with x := x, y := y, pos := pos } n) n :=
  ⟨{ h.window with }, hx, hy, h.one_le, h.count_lt⟩

/-- Every motion but `CSI n D` passes its target to `gotoxy`, out of range when it is off the screen. -/
theorem goal_of_lands (h : InCell vga vc n) {m : Motion} (hm : m ≠ .left) :
    (m.Lands vc n → (m.goal vc n).1 < vc.cols ∧ (m.goal vc n).2 < vc.rows ∧
      ((m.goal vc n).1 : ℤ) = m.targetX vc n ∧ ((m.goal vc n).2 : ℤ) = m.targetY vc n) ∧
    (¬ m.Lands vc n → vc.cols ≤ (m.goal vc n).1 ∨ vc.rows ≤ (m.goal vc n).2) := by
  have hb := h.bounds
  unfold Motion.Lands
  cases m with
  | up =>
    simp only [Motion.goal, Motion.targetX, Motion.targetY, sub32, true_and]
    exact ⟨fun hl => by omega, fun hl => by omega⟩
  | down =>
    simp only [Motion.goal, Motion.targetX, Motion.targetY, true_and]
    exact ⟨fun hl => by omega, fun hl => by omega⟩
  | right =>
    simp only [Motion.goal, Motion.targetX, Motion.targetY, and_true]
    exact ⟨fun hl => by omega, fun hl => by omega⟩
  | left => exact absurd rfl hm

/-- Up, down and right move as they should. -/
theorem moves (h : InCell vga vc n) {m : Motion} (hm : m ≠ .left) : m.Moves vga n vc := by
  obtain ⟨hin, hout⟩ := h.goal_of_lands hm
  refine ⟨fun hl => ?_, fun hl => ?_⟩
  · obtain ⟨hx, hy, hx', hy'⟩ := hin hl
    rw [h.run_cell hx hy]
    exact ⟨hx', hy', rfl⟩
  · rw [h.run_outside (hout hl)]
    exact ⟨rfl, rfl, rfl⟩

/-- `CSI n D` moves left exactly when it cannot move at all. -/
theorem left_moves_iff (h : InCell vga vc n) :
    Motion.Moves vga .left n vc ↔ vc.x < n ∧ vc.cols ≤ vc.x + n := by
  have hb := h.bounds
  have hmod : (vc.x + n) % 2 ^ 32 = vc.x + n := by omega
  have hgoal : Motion.goal vc n .left = (vc.x + n, vc.y) := by rw [Motion.goal, hmod]
  have hlands : Motion.Lands .left vc n ↔ n ≤ vc.x := by
    simp only [Motion.Lands, Motion.targetX, Motion.targetY]
    omega
  by_cases hreach : vc.x + n < vc.cols
  · have hrun := h.run_cell (m := .left) (by rw [hgoal]; exact hreach) (by rw [hgoal]; exact h.y_lt)
    have hx : (Motion.run vga .left n vc).x = vc.x + n := by
      rw [hrun, hgoal]
      rfl
    refine iff_of_false (fun hmoves => ?_) (by omega)
    by_cases hl : n ≤ vc.x
    · have hmoved := (hmoves.1 (hlands.mpr hl)).1
      rw [hx, Motion.targetX] at hmoved
      omega
    · have hsame := (hmoves.2 fun hc => hl (hlands.mp hc)).1
      rw [hx] at hsame
      omega
  · have hrun := h.run_outside (m := .left) (Or.inl (by rw [hgoal]; exact not_lt.mp hreach))
    have hx : (Motion.run vga .left n vc).x = vc.x := by
      rw [hrun]
      rfl
    constructor
    · intro hmoves
      refine ⟨not_le.mp fun hl => ?_, by omega⟩
      have hmoved := (hmoves.1 (hlands.mpr hl)).1
      rw [hx, Motion.targetX] at hmoved
      omega
    · rintro ⟨hl, -⟩
      refine ⟨fun hc => absurd (hlands.mp hc) (by omega), fun _ => ?_⟩
      rw [hrun]
      exact ⟨rfl, rfl, rfl⟩

theorem up_lands_iff (h : InCell vga vc n) : Motion.Lands .up vc n ↔ n ≤ vc.y := by
  have hb := h.bounds
  simp only [Motion.Lands, Motion.targetX, Motion.targetY]
  omega

theorem down_lands_iff (h : InCell vga vc n) : Motion.Lands .down vc n ↔ vc.y + n < vc.rows := by
  have hb := h.bounds
  simp only [Motion.Lands, Motion.targetX, Motion.targetY]
  omega

theorem right_lands_iff (h : InCell vga vc n) : Motion.Lands .right vc n ↔ vc.x + n < vc.cols := by
  have hb := h.bounds
  simp only [Motion.Lands, Motion.targetX, Motion.targetY]
  omega

theorem left_lands_iff (h : InCell vga vc n) : Motion.Lands .left vc n ↔ n ≤ vc.x := by
  have hb := h.bounds
  simp only [Motion.Lands, Motion.targetX, Motion.targetY]
  omega

/-- A motion to a cell, and one that leads back: the address is that of the cell it started in. -/
theorem back_iff (h : InCell vga vc n) {m m' : Motion} {x y : ℕ} (hgoal : m.goal vc n = (x, y))
    (hx : x < vc.cols) (hy : y < vc.rows)
    (hback : ∀ pos, m'.goal (withParameter { vc with x := x, y := y, pos := pos } n) n =
      (vc.x, vc.y)) :
    SameCursor vc (m'.run vga n (m.run vga n vc)) ↔ Synced vc := by
  have hrun := h.run_cell (m := m) (by rw [hgoal]; exact hx) (by rw [hgoal]; exact hy)
  rw [hgoal] at hrun
  have hthere := h.moved hx hy (vc.cell y x)
  have hagain := hthere.run_cell (m := m') (by rw [hback]; exact h.x_lt) (by rw [hback]; exact h.y_lt)
  rw [hback] at hagain
  rw [hrun, hagain]
  constructor
  · rintro ⟨-, -, hpos⟩
    exact hpos.symm
  · intro hs
    exact ⟨rfl, rfl, hs.symm⟩

/-- Down undoes up, for a synchronised cursor. -/
theorem up_undone_iff (h : InCell vga vc n) :
    Motion.Undone vga .up n vc ↔ (n ≤ vc.y → Synced vc) := by
  have hb := h.bounds
  have hgoal : n ≤ vc.y → Motion.goal vc n .up = (vc.x, vc.y - n) := by
    intro hn
    rw [Motion.goal, sub32_of_le (by omega) hn]
  rw [Motion.Undone, h.up_lands_iff]
  refine forall_congr' fun hn => h.back_iff (hgoal hn) h.x_lt (by omega) fun pos => ?_
  have hmod : (vc.y - n + n) % 2 ^ 32 = vc.y := by omega
  exact congrArg (Prod.mk vc.x) hmod

/-- Up undoes down, for a synchronised cursor. -/
theorem down_undone_iff (h : InCell vga vc n) :
    Motion.Undone vga .down n vc ↔ (vc.y + n < vc.rows → Synced vc) := by
  have hb := h.bounds
  have hgoal : vc.y + n < vc.rows → Motion.goal vc n .down = (vc.x, vc.y + n) := by
    intro hn
    rw [Motion.goal, Nat.mod_eq_of_lt (by omega)]
  rw [Motion.Undone, h.down_lands_iff]
  refine forall_congr' fun hn => h.back_iff (hgoal hn) h.x_lt hn fun pos => ?_
  have hsub : sub32 (vc.y + n) n = vc.y := by rw [sub32_of_le (by omega) (by omega)]; omega
  exact congrArg (Prod.mk vc.x) hsub

/-- Neither `C` nor `D` moves left. -/
theorem x_le_run (h : InCell vga vc n) {m : Motion} (hm : m = .right ∨ m = .left) :
    (m.run vga n vc).x = (if vc.x + n < vc.cols then vc.x + n else vc.x) ∧
      InCell vga (m.run vga n vc) n ∧ (m.run vga n vc).cols = vc.cols := by
  have hb := h.bounds
  have hgoal : m.goal vc n = (vc.x + n, vc.y) := by
    rcases hm with rfl | rfl <;> rw [Motion.goal, Nat.mod_eq_of_lt (by omega)]
  split_ifs with hreach
  · have hrun := h.run_cell (m := m) (by rw [hgoal]; exact hreach) (by rw [hgoal]; exact h.y_lt)
    rw [hgoal] at hrun
    rw [hrun]
    exact ⟨rfl, h.moved hreach h.y_lt _, rfl⟩
  · rw [h.run_outside (m := m) (Or.inl (by rw [hgoal]; exact not_lt.mp hreach))]
    exact ⟨rfl, h.moved h.x_lt h.y_lt _, rfl⟩

/-- Sideways, no motion is undone that was made. -/
theorem sideways_back_iff (h : InCell vga vc n) {m m' : Motion} (hm : m = .right ∨ m = .left)
    (hm' : m' = .right ∨ m' = .left) :
    SameCursor vc (m'.run vga n (m.run vga n vc)) ↔ vc.cols ≤ vc.x + n := by
  have hb := h.bounds
  obtain ⟨hx, hin, hcols⟩ := h.x_le_run hm
  obtain ⟨hx', -, -⟩ := hin.x_le_run hm'
  constructor
  · rintro ⟨hsame, -, -⟩
    by_contra hreach
    rw [if_pos (by omega)] at hx
    rw [hx, hcols] at hx'
    split_ifs at hx' <;> omega
  · intro hout
    have hgoal : ∀ k : Motion, k = .right ∨ k = .left → k.goal vc n = (vc.x + n, vc.y) := by
      rintro k (rfl | rfl) <;> rw [Motion.goal, Nat.mod_eq_of_lt (by omega)]
    have hrun := h.run_outside (m := m) (Or.inl (by rw [hgoal m hm]; exact hout))
    have hstay := h.moved h.x_lt h.y_lt vc.pos
    have hagain := hstay.run_outside (m := m') (Or.inl ?_)
    · rw [hrun]
      rw [show withParameter vc n = withParameter { vc with x := vc.x, y := vc.y, pos := vc.pos } n
        from rfl, hagain]
      exact ⟨rfl, rfl, rfl⟩
    · have hsame : m'.goal (withParameter { vc with x := vc.x, y := vc.y, pos := vc.pos } n) n =
          m'.goal vc n := by cases m' <;> rfl
      rw [hsame, hgoal m' hm']
      exact hout

theorem right_undone_iff (h : InCell vga vc n) :
    Motion.Undone vga .right n vc ↔ vc.cols ≤ vc.x + n := by
  rw [Motion.Undone, h.right_lands_iff, Motion.opposite,
    h.sideways_back_iff (Or.inl rfl) (Or.inr rfl)]
  omega

theorem left_undone_iff (h : InCell vga vc n) :
    Motion.Undone vga .left n vc ↔ (n ≤ vc.x → vc.cols ≤ vc.x + n) := by
  rw [Motion.Undone, h.left_lands_iff, Motion.opposite,
    h.sideways_back_iff (Or.inr rfl) (Or.inl rfl)]

end InCell

/-! ## The next line -/

/-- A scroll by one line leaves the window where it is: the driver has no scrolling, the rows are too
few for it, or the screen fills video memory. -/
def WindowStays (vga : VgaVars) (vc : VcStruct) : Prop :=
  vc.driver = some .vga → 4 ≤ vc.rows → ¬RoomBelow vga vc ∧ vc.visibleOrigin = vga.vramBase

theorem scrdown_still (hscroll : ¬(vc.driver = some .vga ∧ 4 ≤ vc.rows)) :
    scrdown vga vc 1 = (vc, []) := by
  unfold scrdown conScroll vgaconScroll
  split_ifs with hvga hfew
  · rfl
  · exact absurd ⟨hvga, by omega⟩ hscroll
  · rfl

/-- A scroll changes neither the row nor the size of a row. -/
theorem scrdown_row (vga : VgaVars) (vc : VcStruct) (lines : ℤ) :
    (scrdown vga vc lines).1.y = vc.y ∧ (scrdown vga vc lines).1.rowSize = vc.rowSize := by
  simp only [scrdown, conScroll, vgaconScroll]
  split_ifs <;> exact ⟨rfl, rfl⟩

/-- The window after a scroll by one line. -/
theorem scrdown_origin_iff (h : Window vga vc) :
    (scrdown vga vc 1).1.visibleOrigin = vc.visibleOrigin ↔ WindowStays vga vc := by
  have hb := h.bounds
  by_cases hscroll : vc.driver = some .vga ∧ 4 ≤ vc.rows
  · by_cases hroom : RoomBelow vga vc
    · rw [scrdown_room h hscroll.1 hscroll.2 hroom]
      refine iff_of_false ?_ fun hstays => (hstays hscroll.1 hscroll.2).1 hroom
      change vc.visibleOrigin + vc.rowSize ≠ vc.visibleOrigin
      omega
    · rw [scrdown_wrap h hscroll.1 hscroll.2 hroom]
      exact ⟨fun heq _ _ => ⟨hroom, heq.symm⟩, fun hstays => (hstays hscroll.1 hscroll.2).2.symm⟩
  · rw [scrdown_still hscroll]
    exact iff_of_true rfl fun hvga hrows => absurd ⟨hvga, hrows⟩ hscroll

/-- A scroll that leaves the window leaves the address. -/
theorem scrdown_pos (h : Window vga vc) (hstays : WindowStays vga vc) :
    (scrdown vga vc 1).1.pos % 2 ^ 32 = vc.pos % 2 ^ 32 := by
  have hb := h.bounds
  by_cases hscroll : vc.driver = some .vga ∧ 4 ≤ vc.rows
  · obtain ⟨hroom, horigin⟩ := hstays hscroll.1 hscroll.2
    rw [scrdown_wrap h hscroll.1 hscroll.2 hroom]
    change (vga.vramBase + sub32 vc.pos vc.visibleOrigin) % 2 ^ 32 % 2 ^ 32 = vc.pos % 2 ^ 32
    rw [horigin, sub32]
    omega
  · rw [scrdown_still hscroll]

/-- **When `ESC E` is the next line**: the row it passes to `gotoxy` is the one the cursor is in, so
only on the bottom row of a window that cannot move, and with the address a row behind the cursor. -/
theorem nextLine_iff (h : Window vga vc) (hx : vc.x < vc.cols) (hy : vc.y < vc.rows) :
    NextLine vga vc ↔ vc.y + 1 = vc.rows ∧ WindowStays vga vc ∧
      (vc.pos + vc.rowSize) % 2 ^ 32 = vc.cell vc.y vc.x := by
  have hb := h.bounds
  have hrow := row_le hy
  have hesc : (conSteps vga ⟨vc, Scanner.start⟩ [27, 69]).1.vc =
      { vc with x := 0, y := vc.y, pos := vc.cell vc.y 0 } := by
    rw [Scanner.start, conSteps_esc 0 (by decide)]
    change gotoxy { vc with y := (vc.y + 1) % 2 ^ 32 } 0 vc.y = _
    rw [gotoxy_setY vc h.cols_pos hy, gotoxy_cell h h.cols_pos hy]
  have hcrlf : (conSteps vga ⟨vc, Scanner.start⟩ [13, 10]).1.vc =
      (lineFeed vga (carriageReturn vc)).1 := rfl
  have hwin : Window vga (carriageReturn vc) := { h with }
  have hcr : (carriageReturn vc).pos = sub32 vc.pos (vc.x * 2 % 2 ^ 32) := rfl
  have hcolumn := (lineFeed_column vga (carriageReturn vc)).1
  rw [NextLine, SameCursor, hesc, hcrlf, hcolumn]
  rcases lineFeed_cases hwin hy with ⟨hlt, heq⟩ | ⟨hlast, heq⟩
  · rw [heq]
    refine iff_of_false (fun hnext => ?_) fun hbottom => ?_
    · exact absurd hnext.1.2.1 (Nat.ne_of_lt (Nat.lt_succ_self vc.y))
    · exact absurd hbottom.1 (Nat.ne_of_lt hlt)
  · obtain ⟨hrowY, hrowSize⟩ := scrdown_row vga (carriageReturn vc) 1
    have horigin := scrdown_origin_iff hwin
    rw [heq]
    dsimp only
    rw [hrowY, hrowSize]
    change (((0 : ℕ) = 0 ∧ vc.y = vc.y ∧ vc.cell vc.y 0 =
      ((scrdown vga (carriageReturn vc) 1).1.pos + vc.rowSize) % 2 ^ 32) ∧
      vc.visibleOrigin = (scrdown vga (carriageReturn vc) 1).1.visibleOrigin) ↔ _
    have hcell : ∀ x, vc.cell vc.y x = vc.visibleOrigin + 2 * (vc.cols * vc.y + x) := fun _ => rfl
    constructor
    · rintro ⟨⟨-, -, haddr⟩, hsame⟩
      have hstays : WindowStays vga vc := horigin.mp hsame.symm
      have hpos := scrdown_pos hwin hstays
      refine ⟨hlast, hstays, ?_⟩
      rw [hcr, sub32] at hpos
      rw [hcell] at haddr ⊢
      omega
    · rintro ⟨-, hstays, haddr⟩
      have hpos := scrdown_pos hwin hstays
      refine ⟨⟨rfl, rfl, ?_⟩, (horigin.mpr hstays).symm⟩
      rw [hcr, sub32] at hpos
      rw [hcell] at haddr ⊢
      omega

/-! ## The motions together -/

/-- The four motions move the cursor as they should, and each undoes its opposite. -/
def InverseMotions (vga : VgaVars) (vc : VcStruct) (n : ℕ) : Prop :=
  ∀ m : Motion, m.Moves vga n vc ∧ m.Undone vga n vc

/-- **The relative motions.**  In every cell of every screen and for every count: the motions are the
VT102's, and inverse to one another, exactly when the cursor has no room to move by `n` to either side,
and its address is that of its cell unless there is no room up or down either.  `ESC E` is a carriage
return and a line feed exactly on the bottom row of a window that cannot move, when the address is a
row behind the cursor. -/
theorem relativeMotions_iff (h : Window vga vc) (hx : vc.x < vc.cols) (hy : vc.y < vc.rows)
    (hn : 1 ≤ n) (hlt : n < 2 ^ 31) :
    (InverseMotions vga vc n ↔
      (vc.x < n ∧ vc.cols ≤ vc.x + n) ∧ (Synced vc ∨ vc.y < n ∧ vc.rows ≤ vc.y + n)) ∧
    (NextLine vga vc ↔ vc.y + 1 = vc.rows ∧ WindowStays vga vc ∧
      (vc.pos + vc.rowSize) % 2 ^ 32 = vc.cell vc.y vc.x) := by
  have hin : InCell vga vc n := ⟨h, hx, hy, hn, hlt⟩
  refine ⟨⟨fun hall => ⟨hin.left_moves_iff.mp (hall .left).1, ?_⟩, ?_⟩, nextLine_iff h hx hy⟩
  · have hup := hin.up_undone_iff.mp (hall .up).2
    have hdown := hin.down_undone_iff.mp (hall .down).2
    by_cases hs : Synced vc
    · exact Or.inl hs
    · exact Or.inr ⟨not_le.mp fun hle => hs (hup hle), not_lt.mp fun hlt => hs (hdown hlt)⟩
  · rintro ⟨⟨hleft, hright⟩, haddr⟩ m
    cases m with
    | up =>
      refine ⟨hin.moves (by decide), hin.up_undone_iff.mpr fun hle => ?_⟩
      exact haddr.resolve_right fun hno => absurd hle (by omega)
    | down =>
      refine ⟨hin.moves (by decide), hin.down_undone_iff.mpr fun hlt => ?_⟩
      exact haddr.resolve_right fun hno => absurd hlt (by omega)
    | right => exact ⟨hin.moves (by decide), hin.right_undone_iff.mpr hright⟩
    | left => exact ⟨hin.left_moves_iff.mpr ⟨hleft, hright⟩, hin.left_undone_iff.mpr fun _ => hright⟩

/-- At boot on an 80 by 25 screen, by 100 cells. -/
theorem relativeMotions_text :
    (bootVc vgaText).x < (bootVc vgaText).cols ∧ InverseMotions (bootVga vgaText) (bootVc vgaText) 100 := by
  have hon := vgaText_fits.onScreen (by decide) (by decide)
  refine ⟨by decide, (relativeMotions_iff hon.window (by decide) (by decide) (by decide)
    (by decide)).1.mpr ⟨by decide, Or.inl ?_⟩⟩
  exact vgaText_fits.synced

/-- Two to the right and two to the left end four columns over, and `ESC E` ends on the same row. -/
theorem relativeMotions_home :
    (bootVc vgaText).x < (bootVc vgaText).cols ∧
    ¬ InverseMotions (bootVga vgaText) (bootVc vgaText) 2 ∧
    ¬ NextLine (bootVga vgaText) (bootVc vgaText) := by
  refine ⟨by decide, fun hmotions => ?_, fun hnext => ?_⟩
  · have hback := ((hmotions .right).2 (by unfold Motion.Lands; decide)).1
    exact absurd hback (by decide)
  · exact absurd hnext.1.2.1 (by decide)

end Sandix
