import Sandix.Console.Motion

/-!
# Console/Erase — the cells an erase operation blanks

`Erase.Designates` says which cells of the screen each operation is for, by their coordinates; a cell is
blank when it holds `vc_erased_char`.  Every operation but two is one `scr_memsetw` over a run of cells
in reading order (`erases_of_block`).  In `csi_K`, the cases for the start of the line and for the whole
line run on into the `return` of the default case.

* `erases_iff` — an operation blanks exactly its cells, unless it is one of those two and some of its
  cells are not blank already.
-/

namespace Sandix

open Machinery Function

/-- The part of the display or of the line: the parameters 0, 1 and 2. -/
inductive Part
  | toEnd
  | toCursor
  | whole
deriving DecidableEq, Repr

def Part.par : Part → ℕ
  | toEnd => 0
  | toCursor => 1
  | whole => 2

/-- The erase operations: `CSI J`, `CSI K`, and `CSI n X`. -/
inductive Erase
  | display (part : Part)
  | line (part : Part)
  | chars (n : UInt32)
deriving DecidableEq, Repr

namespace Erase

/-- The parameter of the sequence. -/
def par : Erase → ℕ
  | display part => part.par
  | line part => part.par
  | chars n => n.toNat

/-- The final byte of the sequence: `J`, `K` or `X`. -/
def final : Erase → UInt8
  | display _ => 74
  | line _ => 75
  | chars _ => 88

/-- The sequence as it is typed. -/
def seq (e : Erase) : List UInt8 := csiSeq e.par e.final

/-- The handler of the final byte. -/
def handler (vc : VcStruct) : Erase → List ScrOp
  | display _ => csiJ vc
  | line _ => csiK vc
  | chars _ => csiX vc

/-- The cell in row `y`, column `x` is one the operation is for. -/
def Designates (vc : VcStruct) (y x : ℕ) : Erase → Prop
  | display .toEnd => vc.y < y ∨ y = vc.y ∧ vc.x ≤ x
  | display .toCursor => y < vc.y ∨ y = vc.y ∧ x ≤ vc.x
  | display .whole => True
  | line .toEnd => y = vc.y ∧ vc.x ≤ x
  | line .toCursor => y = vc.y ∧ x ≤ vc.x
  | line .whole => y = vc.y
  | chars n => y = vc.y ∧ vc.x ≤ x ∧ x < vc.x + min (max n.toNat 1) (vc.cols - vc.x)

/-- The operation is one of the two that `csi_K` leaves undone. -/
def Undone : Erase → Prop
  | line .toCursor => True
  | line .whole => True
  | _ => False

end Erase

variable {vga : VgaVars} {vc : VcStruct} {hw : Hw} {e : Erase}

/-- The cells of the screen that `e` is for. -/
def erasedCells (vc : VcStruct) (e : Erase) : Set ℕ :=
  {a | ∃ y < vc.rows, ∃ x < vc.cols, e.Designates vc y x ∧ a = vc.cell y x}

/-- The operation blanks exactly its cells, and leaves the cursor alone. -/
structure Erases (vga : VgaVars) (vc : VcStruct) (hw : Hw) (e : Erase) : Prop where
  erased : ∀ a ∈ erasedCells vc e,
    (hw.run (conSteps vga ⟨vc, Scanner.start⟩ e.seq).2).mem a = vc.erasedChar % 2 ^ 16
  kept : ∀ a ∉ erasedCells vc e,
    (hw.run (conSteps vga ⟨vc, Scanner.start⟩ e.seq).2).mem a = hw.mem a
  cursor : SameCursor vc (conSteps vga ⟨vc, Scanner.start⟩ e.seq).1.vc

/-! ## Runs of cells -/

/-- Reading order: the rows before the cursor's, its own, and the rows after it. -/
theorem reading_order (vc : VcStruct) (y : ℕ) :
    (y < vc.y ∧ vc.cols * y + vc.cols ≤ vc.cols * vc.y) ∨
    (y = vc.y ∧ vc.cols * y = vc.cols * vc.y) ∨
    (vc.y < y ∧ vc.cols * vc.y + vc.cols ≤ vc.cols * y) := by
  rcases lt_trichotomy y vc.y with hlt | heq | hgt
  · exact Or.inl ⟨hlt, Nat.mul_le_mul_left vc.cols hlt⟩
  · exact Or.inr (Or.inl ⟨heq, by rw [heq]⟩)
  · exact Or.inr (Or.inr ⟨hgt, Nat.mul_le_mul_left vc.cols hgt⟩)

/-- The cells `k … k + count - 1` of the screen in reading order, as `scr_memsetw` takes them. -/
theorem mem_block_iff (h : Window vga vc) {k count : ℕ} (hk : k + count ≤ vc.cols * vc.rows) (a : ℕ) :
    (∃ i < count, a = (vc.visibleOrigin + 2 * k + 2 * i) % 2 ^ 32) ↔
      ∃ y < vc.rows, ∃ x < vc.cols,
        (k ≤ vc.cols * y + x ∧ vc.cols * y + x < k + count) ∧ a = vc.cell y x := by
  have hb := h.bounds
  constructor
  · rintro ⟨i, hi, ha⟩
    have hrow : vc.cols * ((k + i) / vc.cols) + (k + i) % vc.cols = k + i := Nat.div_add_mod _ _
    refine ⟨(k + i) / vc.cols, ?_, (k + i) % vc.cols, Nat.mod_lt _ h.cols_pos, ?_, ?_⟩
    · rw [Nat.div_lt_iff_lt_mul h.cols_pos, Nat.mul_comm]
      omega
    · omega
    · rw [ha, VcStruct.cell, hrow]
      omega
  · rintro ⟨y, hy, x, hx, hin, ha⟩
    have hrow := row_le hy
    refine ⟨vc.cols * y + x - k, by omega, ?_⟩
    rw [ha, VcStruct.cell]
    omega

theorem par_lt (e : Erase) : e.par < 2 ^ 32 := by
  cases e with
  | display part => cases part <;> decide
  | line part => cases part <;> decide
  | chars n => exact n.toNat_lt

/-- What the whole sequence does: its accesses are those of its handler, and of the console only the
parameters change. -/
theorem conSteps_erase (e : Erase) :
    conSteps vga ⟨vc, Scanner.start⟩ e.seq = (⟨withParameter vc e.par, Scanner.start⟩,
      e.handler (withParameter vc e.par)) := by
  have hfinal : Final e.final := by
    cases e with
    | display part => exact (⟨by decide, by decide⟩ : Final 74)
    | line part => exact (⟨by decide, by decide⟩ : Final 75)
    | chars n => exact (⟨by decide, by decide⟩ : Final 88)
  rw [Erase.seq, Scanner.start, conSteps_csiSeq (par_lt e) hfinal]
  cases e <;> rfl

/-- **One `scr_memsetw` over the designated run of cells** is what the operation is for. -/
theorem erases_of_block (e : Erase) (h : Window vga vc) {k count : ℕ}
    (hops : e.handler (withParameter vc e.par) =
      [.memsetw (vc.visibleOrigin + 2 * k) vc.erasedChar count])
    (hk : k + count ≤ vc.cols * vc.rows)
    (hcells : ∀ y < vc.rows, ∀ x < vc.cols,
      (e.Designates vc y x ↔ k ≤ vc.cols * y + x ∧ vc.cols * y + x < k + count)) (hw : Hw) :
    Erases vga vc hw e := by
  have hmem : ∀ a, (∃ i < count, a = (vc.visibleOrigin + 2 * k + 2 * i) % 2 ^ 32) ↔
      a ∈ erasedCells vc e := by
    intro a
    rw [mem_block_iff h hk]
    refine exists_congr fun y => and_congr_right fun hy => exists_congr fun x =>
      and_congr_right fun hx => and_congr_left fun _ => (hcells y hy x hx).symm
  have hrun : ∀ a, (hw.run (conSteps vga ⟨vc, Scanner.start⟩ e.seq).2).mem a =
      (scrMemsetw hw (vc.visibleOrigin + 2 * k) vc.erasedChar count).mem a := by
    intro a
    rw [conSteps_erase, hops]
    rfl
  refine ⟨fun a ha => ?_, fun a ha => ?_, ?_⟩
  · rw [hrun, scrMemsetw_apply, if_pos ((hmem a).mpr ha)]
  · rw [hrun, scrMemsetw_apply, if_neg fun hin => ha ((hmem a).mp hin)]
  · rw [conSteps_erase]
    exact ⟨rfl, rfl, rfl⟩

/-- An operation without accesses is done when there was nothing to do. -/
theorem erases_of_nothing (hops : e.handler (withParameter vc e.par) = []) (hw : Hw) :
    Erases vga vc hw e ↔ ∀ a ∈ erasedCells vc e, hw.mem a = vc.erasedChar % 2 ^ 16 := by
  have hrun : ∀ a, (hw.run (conSteps vga ⟨vc, Scanner.start⟩ e.seq).2).mem a = hw.mem a := by
    intro a
    rw [conSteps_erase, hops]
    rfl
  constructor
  · intro he a ha
    rw [← hrun a]
    exact he.erased a ha
  · intro hblank
    refine ⟨fun a ha => (hrun a).trans (hblank a ha), fun a _ => hrun a, ?_⟩
    rw [conSteps_erase]
    exact ⟨rfl, rfl, rfl⟩

/-! ## The operations -/

/-- The linear facts of a cursor in a cell, with `cols * rows` and `cols * y` as atoms. -/
theorem CursorInv.bounds (h : Window vga vc) (hc : CursorInv vga vc) (hx : vc.x < vc.cols) :
    (vc.x < vc.cols ∧ vc.cols * vc.y + vc.cols ≤ vc.cols * vc.rows) ∧
    (vc.pos = vc.visibleOrigin + 2 * (vc.cols * vc.y + vc.x) ∧
      vc.scrEnd = vc.visibleOrigin + 2 * (vc.cols * vc.rows) ∧ vc.scrEnd < 2 ^ 32) := by
  have hb := h.bounds
  exact ⟨⟨hx, row_le hc.y_lt⟩, hc.pos_eq, by omega, by omega⟩

/-- The cells from the cursor to the end of its row. -/
theorem CursorInv.sub32_cols (h : Window vga vc) (hc : CursorInv vga vc) (hx : vc.x < vc.cols) :
    sub32 vc.cols vc.x = vc.cols - vc.x := by
  have hb := hc.bounds h hx
  exact sub32_of_le (by omega) hx.le

theorem display_erases (h : Window vga vc) (hc : CursorInv vga vc) (hx : vc.x < vc.cols)
    (part : Part) (hw : Hw) : Erases vga vc hw (.display part) := by
  have hb := hc.bounds h hx
  cases part with
  | toEnd =>
    have hcount : sub32 vc.scrEnd vc.pos >>> 1 = vc.cols * vc.rows - (vc.cols * vc.y + vc.x) := by
      rw [sub32_of_le (by omega) (by omega), Nat.shiftRight_eq_div_pow]
      omega
    have hops : csiJ (withParameter vc 0) = [.memsetw (vc.visibleOrigin + 2 * (vc.cols * vc.y + vc.x))
        vc.erasedChar (vc.cols * vc.rows - (vc.cols * vc.y + vc.x))] := by
      rw [← hcount, ← hc.pos_eq]
      rfl
    refine erases_of_block (.display .toEnd) h hops (by omega) (fun y hy x hx' => ?_) hw
    have horder := reading_order vc y
    have hrow := row_le hy
    simp only [Erase.Designates]
    omega
  | toCursor =>
    have hcount : (sub32 vc.pos vc.visibleOrigin >>> 1) + 1 = vc.cols * vc.y + vc.x + 1 := by
      rw [sub32_of_le (by omega) (by omega), Nat.shiftRight_eq_div_pow]
      omega
    have hops : csiJ (withParameter vc 1) = [.memsetw (vc.visibleOrigin + 2 * 0)
        vc.erasedChar (vc.cols * vc.y + vc.x + 1)] := by
      rw [← hcount]
      rfl
    refine erases_of_block (.display .toCursor) h hops (by omega) (fun y hy x hx' => ?_) hw
    have horder := reading_order vc y
    simp only [Erase.Designates]
    omega
  | whole =>
    have hops : csiJ (withParameter vc 2) = [.memsetw (vc.visibleOrigin + 2 * 0)
        vc.erasedChar (vc.cols * vc.rows)] := by
      have hcount : vc.cols * vc.rows % 2 ^ 32 = vc.cols * vc.rows := by omega
      rw [← hcount]
      rfl
    refine erases_of_block (.display .whole) h hops (by omega) (fun y hy x hx' => ?_) hw
    have hrow := row_le hy
    simp only [Erase.Designates, true_iff]
    omega

/-- `CSI 0 K` and `CSI n X` erase a run of cells from the cursor on, within its row. -/
theorem erases_from_cursor (e : Erase) (h : Window vga vc) (hc : CursorInv vga vc) (hx : vc.x < vc.cols)
    {count : ℕ} (hcount : count ≤ vc.cols - vc.x)
    (hops : e.handler (withParameter vc e.par) = [.memsetw vc.pos vc.erasedChar count])
    (hcells : ∀ y x, e.Designates vc y x ∧ x < vc.cols ↔
      y = vc.y ∧ vc.x ≤ x ∧ x < vc.x + count) (hw : Hw) : Erases vga vc hw e := by
  have hb := hc.bounds h hx
  rw [hc.pos_eq] at hops
  refine erases_of_block e h hops (by omega) (fun y hy x hx' => ?_) hw
  have hcell := hcells y x
  have horder := reading_order vc y
  rw [and_iff_left hx'] at hcell
  rw [hcell]
  omega

theorem line_erases (h : Window vga vc) (hc : CursorInv vga vc) (hx : vc.x < vc.cols) (hw : Hw) :
    Erases vga vc hw (.line .toEnd) := by
  have hops : csiK (withParameter vc 0) = [.memsetw vc.pos vc.erasedChar (vc.cols - vc.x)] := by
    rw [← hc.sub32_cols h hx]
    rfl
  refine erases_from_cursor (.line .toEnd) h hc hx le_rfl hops (fun y x => ?_) hw
  simp only [Erase.Designates]
  omega

theorem chars_erases (h : Window vga vc) (hc : CursorInv vga vc) (hx : vc.x < vc.cols) (n : UInt32)
    (hw : Hw) : Erases vga vc hw (.chars n) := by
  have hops : csiX (withParameter vc n.toNat) =
      [.memsetw vc.pos vc.erasedChar (min (max n.toNat 1) (vc.cols - vc.x))] := by
    have hcount : min (max n.toNat 1) (sub32 vc.cols vc.x) =
        if (if n.toNat = 0 then 1 else n.toNat) > sub32 vc.cols vc.x then sub32 vc.cols vc.x
        else if n.toNat = 0 then 1 else n.toNat := by
      split_ifs <;> omega
    rw [← hc.sub32_cols h hx, hcount, csiX, withParameter_par]
    rfl
  refine erases_from_cursor (.chars n) h hc hx (min_le_right _ _) hops (fun y x => ?_) hw
  simp only [Erase.Designates]
  omega

/-- **The erase operations.**  In every cell of every screen, over any contents: an operation blanks
exactly the cells it is for and leaves the rest and the cursor alone, unless it is `CSI 1 K` or
`CSI 2 K` — those do nothing, which is right exactly when their cells are blank already. -/
theorem erases_iff (h : Window vga vc) (hc : CursorInv vga vc) (hx : vc.x < vc.cols) (hw : Hw)
    (e : Erase) :
    Erases vga vc hw e ↔
      (e.Undone → ∀ a ∈ erasedCells vc e, hw.mem a = vc.erasedChar % 2 ^ 16) := by
  cases e with
  | display part => exact iff_of_true (display_erases h hc hx part hw) fun hu => hu.elim
  | line part =>
    cases part with
    | toEnd => exact iff_of_true (line_erases h hc hx hw) fun hu => hu.elim
    | toCursor => exact (erases_of_nothing rfl hw).trans (true_imp_iff.symm)
    | whole => exact (erases_of_nothing rfl hw).trans (true_imp_iff.symm)
  | chars n => exact iff_of_true (chars_erases h hc hx n hw) fun hu => hu.elim

/-- `CSI J` at boot on an 80 by 25 screen. -/
theorem erases_text :
    (bootVc vgaText).x < (bootVc vgaText).cols ∧
    Erases (bootVga vgaText) (bootVc vgaText) ⟨fun _ => 0, [], fun _ => 0⟩ (.display .toEnd) := by
  have hon := vgaText_fits.onScreen (by decide) (by decide)
  refine ⟨by decide, (erases_iff hon.window (hon.cursorInv_iff.mpr vgaText_fits.synced) (by decide) _
    (.display .toEnd)).mpr fun hu => hu.elim⟩

/-- `CSI 2 K` leaves a line full of zeros as it is. -/
theorem erases_wholeLine :
    (CursorInv (bootVga vgaText) (bootVc vgaText) ∧ (bootVc vgaText).x < (bootVc vgaText).cols) ∧
    ¬ Erases (bootVga vgaText) (bootVc vgaText) ⟨fun _ => 0, [], fun _ => 0⟩ (.line .whole) := by
  have hon := vgaText_fits.onScreen (by decide) (by decide)
  refine ⟨⟨hon.cursorInv_iff.mpr vgaText_fits.synced, by decide⟩, fun he => ?_⟩
  have hblank := (erases_of_nothing rfl _).mp he _ ⟨0, by decide, 0, by decide, rfl, rfl⟩
  exact absurd hblank (by decide)

end Sandix
