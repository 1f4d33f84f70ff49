import Sandix.Console.CursorRun
import Sandix.Console.Erase

/-!
# Console/Insert — moving cells that overlap

`scr_memmovew` is to copy a block of cells onto one that may overlap it, and `insert_char` to make room
at the cursor with it.  Upwards it starts from the wrong end: `d += count*2` steps a pointer to cells by
twice the count, so the block that is copied is the one behind the block that was asked for.  What is
copied is copied safely (`scrMemmovewDown_copied`), in either direction.

* `scrMemmovew_moves_iff` — a move upwards is right exactly when the cells of both blocks, and of the
  blocks behind them, hold already what they are to hold; and so is an insertion.
-/

namespace Sandix

open Machinery Function

/-! ## A copy of cells -/

/-- `new` is `old` with the `count` cells at `s` copied to `d`. -/
structure Copied (old new : ℕ → ℕ) (d s count : ℕ) : Prop where
  cell : ∀ i < count, new ((d + 2 * i) % 2 ^ 32) = old ((s + 2 * i) % 2 ^ 32)
  other : ∀ a, (∀ i < count, a ≠ (d + 2 * i) % 2 ^ 32) → new a = old a

section Copied

variable {hw : Hw} {d s count : ℕ}

theorem scrWritew_apply_self (hw : Hw) {value addr : ℕ} (hvalue : value < 2 ^ 16) :
    (scrWritew hw value addr).mem (addr % 2 ^ 32) = value := by
  rw [scrWritew, Nat.mod_eq_of_lt hvalue]
  exact update_self _ _ _

theorem scrWritew_apply_of_ne (hw : Hw) {value addr a : ℕ} (h : a ≠ addr % 2 ^ 32) :
    (scrWritew hw value addr).mem a = hw.mem a := update_of_ne h _ _

/-- A copied cell is a cell. -/
theorem scrWritew_cells (hcells : ∀ a, hw.mem a < 2 ^ 16) (value addr : ℕ) (a : ℕ) :
    (scrWritew hw value addr).mem a < 2 ^ 16 := by
  by_cases h : a = addr % 2 ^ 32
  · rw [h, scrWritew]
    dsimp only
    rw [update_self]
    exact Nat.mod_lt _ (by decide)
  · rw [scrWritew_apply_of_ne hw h]
    exact hcells a

/-- **Upwards from the first cell**: safe as long as no cell is stored to before it is read. -/
theorem scrMemcpyw_copied : ∀ {count : ℕ} {hw : Hw} {d s : ℕ}, (∀ a, hw.mem a < 2 ^ 16) →
    2 * count ≤ 2 ^ 32 → (∀ i j, i < j → j < count → (d + 2 * i) % 2 ^ 32 ≠ (s + 2 * j) % 2 ^ 32) →
    Copied hw.mem (scrMemcpyw hw d s count).mem d s count
  | 0, _, _, _, _, _, _ => ⟨fun _ h => absurd h (Nat.not_lt_zero _), fun _ _ => rfl⟩
  | count + 1, hw, d, s, hcells, hcount, hsafe => by
      have hrest : Copied (scrWritew hw (scrReadw hw s) d).mem
          (scrMemcpyw (scrWritew hw (scrReadw hw s) d) (d + 2) (s + 2) count).mem (d + 2) (s + 2)
            count := by
        refine scrMemcpyw_copied (scrWritew_cells hcells _ _) (by omega) fun i j hij hj => ?_
        have := hsafe (i + 1) (j + 1) (by omega) (by omega)
        omega
      rw [scrMemcpyw]
      refine ⟨fun i hi => ?_, fun a ha => ?_⟩
      · cases i with
        | zero =>
          rw [hrest.other _ fun i hi => by omega]
          exact scrWritew_apply_self hw (hcells _)
        | succ i =>
          have hcell := hrest.cell i (by omega)
          have hne := hsafe 0 (i + 1) (by omega) hi
          rw [show d + 2 * (i + 1) = d + 2 + 2 * i by ring, hcell,
            show s + 2 * (i + 1) = s + 2 + 2 * i by ring]
          exact scrWritew_apply_of_ne hw (by omega)
      · rw [hrest.other a fun i hi => ?_]
        · exact scrWritew_apply_of_ne hw (by simpa using ha 0 (by omega))
        · have := ha (i + 1) (by omega)
          omega

/-- **Downwards from the last cell**, likewise. -/
theorem scrMemmovewDown_copied : ∀ {count : ℕ} {hw : Hw} {d s d' s' : ℕ}, (∀ a, hw.mem a < 2 ^ 16) →
    2 * count ≤ 2 ^ 32 → (∀ i j, j < i → i < count → (d + 2 * i) % 2 ^ 32 ≠ (s + 2 * j) % 2 ^ 32) →
    d' = (d + 2 * count) % 2 ^ 32 → s' = (s + 2 * count) % 2 ^ 32 →
    Copied hw.mem (scrMemmovewDown hw d' s' count).mem d s count
  | 0, _, _, _, _, _, _, _, _, _, _ => ⟨fun _ h => absurd h (Nat.not_lt_zero _), fun _ _ => rfl⟩
  | count + 1, hw, d, s, d', s', hcells, hcount, hsafe, hd, hs => by
      have hd' : sub32 d' 2 = (d + 2 * count) % 2 ^ 32 := by
        rw [hd, sub32]
        omega
      have hs' : sub32 s' 2 = (s + 2 * count) % 2 ^ 32 := by
        rw [hs, sub32]
        omega
      have hrest := scrMemmovewDown_copied
        (scrWritew_cells hcells (scrReadw hw (sub32 s' 2)) (sub32 d' 2)) (by omega)
        (fun i j hji hi => hsafe i j hji (by omega)) hd' hs'
      have hlast : sub32 d' 2 % 2 ^ 32 = (d + 2 * count) % 2 ^ 32 := by
        rw [hd']
        omega
      rw [scrMemmovewDown]
      refine ⟨fun i hi => ?_, fun a ha => ?_⟩
      · rcases Nat.lt_succ_iff_lt_or_eq.mp hi with hi | rfl
        · rw [hrest.cell i hi]
          refine scrWritew_apply_of_ne hw ?_
          rw [hlast]
          exact Ne.symm (hsafe count i hi (Nat.lt_succ_self count))
        · have hread : scrReadw hw (sub32 s' 2) = hw.mem ((s + 2 * i) % 2 ^ 32) := by
            rw [scrReadw, hs', Nat.mod_mod]
          rw [hrest.other _ fun i hi => by omega, ← hlast, hread]
          exact scrWritew_apply_self hw (hcells _)
      · rw [hrest.other a fun i hi => ha i (by omega)]
        refine scrWritew_apply_of_ne hw ?_
        rw [hlast]
        exact ha count (Nat.lt_succ_self count)

/-- Where the block is to move up, the block behind it is copied onto the one behind its target. -/
theorem scrMemmovew_copied (hcells : ∀ a, hw.mem a < 2 ^ 16) (hd : d + 2 * count ≤ 2 ^ 32)
    (hle : s ≤ d) :
    Copied hw.mem (scrMemmovew hw d s count).mem (d + 2 * count) (s + 2 * count) count := by
  rw [scrMemmovew, if_neg (not_lt.mpr hle)]
  refine scrMemmovewDown_copied hcells (by omega) (fun i j hji hi => by omega) ?_ ?_
  · congr 1
    ring
  · congr 1
    ring

end Copied

/-! ## `scr_memmovew` -/

section Move

variable {hw : Hw} {d s count : ℕ}

/-- What `scr_memmovew` is for: the `count` cells at `s` copied to `d`, and no other cell changed. -/
def MovesCells (hw : Hw) (d s count : ℕ) : Prop :=
  (∀ i < count, (scrMemmovew hw d s count).mem (d + 2 * i) = hw.mem (s + 2 * i)) ∧
  ∀ a, (∀ i < count, a ≠ d + 2 * i) → (scrMemmovew hw d s count).mem a = hw.mem a

/-- The cells of both blocks, and of the blocks behind them, hold the same.  A cell that is reached
again past the end of the address space does not count: it is stored to after all. -/
def SameBehind (hw : Hw) (d s count : ℕ) : Prop :=
  ∀ k < 2 ^ 31, 2 * count ≤ k + 2 ^ 31 → k < 2 * count →
    hw.mem ((d + 2 * k) % 2 ^ 32) = hw.mem ((s + 2 * k) % 2 ^ 32)

theorem movesCells_of_lt (hcells : ∀ a, hw.mem a < 2 ^ 16) (hd : d + 2 * count ≤ 2 ^ 32)
    (hs : s + 2 * count ≤ 2 ^ 32) (hlt : d < s) : MovesCells hw d s count := by
  have hcopied : Copied hw.mem (scrMemmovew hw d s count).mem d s count := by
    rw [scrMemmovew, if_pos hlt]
    exact scrMemcpyw_copied hcells (by omega) fun i j hij hj => by omega
  have hdmod : ∀ i < count, (d + 2 * i) % 2 ^ 32 = d + 2 * i := fun i hi => by omega
  refine ⟨fun i hi => ?_, fun a ha => hcopied.other a fun i hi => ?_⟩
  · have hcell := hcopied.cell i hi
    rwa [hdmod i hi, Nat.mod_eq_of_lt (show s + 2 * i < 2 ^ 32 by omega)] at hcell
  · rw [hdmod i hi]
    exact ha i hi

theorem sameBehind_of_movesCells (hcells : ∀ a, hw.mem a < 2 ^ 16) (hd : d + 2 * count ≤ 2 ^ 32)
    (hs : s + 2 * count ≤ 2 ^ 32) (hle : s ≤ d) (h : MovesCells hw d s count) :
    SameBehind hw d s count := by
  have hcopied := scrMemmovew_copied hcells hd hle
  intro k hk hfar hlt
  by_cases hfirst : k < count
  · have hstored := h.1 k hfirst
    have hstays := hcopied.other (d + 2 * k) fun i hi => by omega
    rw [hstays] at hstored
    rw [Nat.mod_eq_of_lt (show d + 2 * k < 2 ^ 32 by omega), hstored,
      Nat.mod_eq_of_lt (show s + 2 * k < 2 ^ 32 by omega)]
  · have hcell := hcopied.cell (k - count) (by omega)
    rw [show d + 2 * count + 2 * (k - count) = d + 2 * k by omega,
      show s + 2 * count + 2 * (k - count) = s + 2 * k by omega] at hcell
    rw [← hcell]
    exact (h.2 _ fun i hi => by omega).symm

theorem SameBehind.movesCells (hcells : ∀ a, hw.mem a < 2 ^ 16) (hd : d + 2 * count ≤ 2 ^ 32)
    (hs : s + 2 * count ≤ 2 ^ 32) (hle : s ≤ d) (h : SameBehind hw d s count) :
    MovesCells hw d s count := by
  have hcopied := scrMemmovew_copied hcells hd hle
  refine ⟨fun i hi => ?_, fun a ha => ?_⟩
  · by_cases hagain : 2 * count ≤ i + 2 ^ 31
    · have hsame := h i (by omega) hagain (by omega)
      rw [Nat.mod_eq_of_lt (show d + 2 * i < 2 ^ 32 by omega),
        Nat.mod_eq_of_lt (show s + 2 * i < 2 ^ 32 by omega)] at hsame
      rw [hcopied.other _ fun j hj => by omega, hsame]
    · have hcell := hcopied.cell (i + 2 ^ 31 - count) (by omega)
      rwa [show (d + 2 * count + 2 * (i + 2 ^ 31 - count)) % 2 ^ 32 = d + 2 * i by omega,
        show (s + 2 * count + 2 * (i + 2 ^ 31 - count)) % 2 ^ 32 = s + 2 * i by omega] at hcell
  · by_cases hstored : ∃ i < count, a = (d + 2 * count + 2 * i) % 2 ^ 32
    · obtain ⟨i, hi, rfl⟩ := hstored
      by_cases hwraps : count + i < 2 ^ 31
      · have hsame := h (count + i) hwraps (by omega) (by omega)
        rw [show d + 2 * (count + i) = d + 2 * count + 2 * i by ring,
          show s + 2 * (count + i) = s + 2 * count + 2 * i by ring] at hsame
        rw [hcopied.cell i hi, hsame]
      · exact absurd (show (d + 2 * count + 2 * i) % 2 ^ 32 = d + 2 * (count + i - 2 ^ 31) by omega)
          (ha _ (by omega))
    · exact hcopied.other a fun i hi heq => hstored ⟨i, hi, heq⟩

end Move

/-! ## `insert_char` -/

section Insert

variable {vga : VgaVars} {vc : VcStruct} {hw : Hw} {nr : ℕ}

/-- What `insert_char` is for: the rest of the cursor's row moves right by `nr` cells, the `nr` cells
at the cursor are blank, and no other cell changes. -/
def InsertsCells (vc : VcStruct) (hw : Hw) (nr : ℕ) : Prop :=
  (∀ i < nr, (hw.run (insertChar vc nr)).mem (vc.pos + 2 * i) = vc.erasedChar % 2 ^ 16) ∧
  (∀ i < vc.cols - vc.x - nr,
    (hw.run (insertChar vc nr)).mem (vc.pos + 2 * (nr + i)) = hw.mem (vc.pos + 2 * i)) ∧
  ∀ a, (∀ i < vc.cols - vc.x, a ≠ vc.pos + 2 * i) → (hw.run (insertChar vc nr)).mem a = hw.mem a

/-- The linear facts of a row with the cursor in it, with `cols * y` as an atom. -/
theorem CursorInv.row_bounds (hc : CursorInv vga vc) (h : Window vga vc) :
    vc.x ≤ vc.cols ∧ vc.cols < 2 ^ 32 ∧ vc.pos + 4 * (vc.cols - vc.x) < 2 ^ 32 := by
  have hb := h.bounds
  have hrow := row_le hc.y_lt
  have hx := hc.x_le
  have hpos := hc.pos_eq
  omega

/-- `insert_char`, cell by cell: the block behind the row is copied, then the blanks are stored. -/
theorem insertChar_mem (hc : CursorInv vga vc) (h : Window vga vc) (hcells : ∀ a, hw.mem a < 2 ^ 16)
    (hnr : nr ≤ vc.cols - vc.x) :
    (∀ i < nr, (hw.run (insertChar vc nr)).mem (vc.pos + 2 * i) = vc.erasedChar % 2 ^ 16) ∧
    (∀ i < vc.cols - vc.x - nr, (hw.run (insertChar vc nr)).mem (vc.pos + 2 * (vc.cols - vc.x + i)) =
      hw.mem (vc.pos + 2 * (vc.cols - vc.x - nr + i))) ∧
    ∀ a, (∀ i < nr, a ≠ vc.pos + 2 * i) →
      (∀ i < vc.cols - vc.x - nr, a ≠ vc.pos + 2 * (vc.cols - vc.x + i)) →
      (hw.run (insertChar vc nr)).mem a = hw.mem a := by
  obtain ⟨hx, hcols, hend⟩ := hc.row_bounds h
  have hrest : sub32 (sub32 vc.cols vc.x) nr = vc.cols - vc.x - nr := by
    rw [sub32_sub32, sub32_of_le (by omega) (by omega), Nat.sub_sub]
  have hcopied := scrMemmovew_copied hcells
    (show vc.pos + 2 * nr + 2 * (vc.cols - vc.x - nr) ≤ 2 ^ 32 by omega)
    (Nat.le_add_right vc.pos (2 * nr))
  have hrun : hw.run (insertChar vc nr) =
      scrMemsetw (scrMemmovew hw (vc.pos + 2 * nr) vc.pos (vc.cols - vc.x - nr)) vc.pos vc.erasedChar
        nr := by
    rw [insertChar, hrest, Nat.mod_eq_of_lt (by omega)]
    rfl
  rw [hrun]
  refine ⟨fun i hi => ?_, fun i hi => ?_, fun a hblank hbehind => ?_⟩
  · rw [scrMemsetw_apply, if_pos ⟨i, hi, by omega⟩]
  · have hcell := hcopied.cell i hi
    rw [show (vc.pos + 2 * nr + 2 * (vc.cols - vc.x - nr) + 2 * i) % 2 ^ 32 =
        vc.pos + 2 * (vc.cols - vc.x + i) by omega,
      show (vc.pos + 2 * (vc.cols - vc.x - nr) + 2 * i) % 2 ^ 32 =
        vc.pos + 2 * (vc.cols - vc.x - nr + i) by omega] at hcell
    rw [scrMemsetw_apply, if_neg, hcell]
    rintro ⟨j, hj, heq⟩
    omega
  · rw [scrMemsetw_apply, if_neg]
    · refine hcopied.other a fun i hi => ?_
      have := hbehind i hi
      omega
    · rintro ⟨j, hj, heq⟩
      have := hblank j hj
      omega

theorem insertsCells_iff (hc : CursorInv vga vc) (h : Window vga vc)
    (hcells : ∀ a, hw.mem a < 2 ^ 16) (hnr : nr ≤ vc.cols - vc.x) :
    InsertsCells vc hw nr ↔ ∀ k < 2 * (vc.cols - vc.x - nr),
      hw.mem (vc.pos + 2 * (nr + k)) = hw.mem (vc.pos + 2 * k) := by
  obtain ⟨hblank, hbehind, hother⟩ := insertChar_mem hc h hcells hnr
  constructor
  · rintro ⟨-, hmoved, hsame⟩ k hk
    by_cases hfirst : k < vc.cols - vc.x - nr
    · have hstored := hmoved k hfirst
      rwa [hother _ (fun i hi => by omega) fun i hi => by omega] at hstored
    · have hcell := hbehind (k - (vc.cols - vc.x - nr)) (by omega)
      rw [show vc.cols - vc.x + (k - (vc.cols - vc.x - nr)) = nr + k by omega,
        show vc.cols - vc.x - nr + (k - (vc.cols - vc.x - nr)) = k by omega] at hcell
      rw [← hcell]
      exact (hsame _ fun i hi => by omega).symm
  · intro hall
    refine ⟨hblank, fun i hi => ?_, fun a ha => ?_⟩
    · rw [hother _ (fun j hj => by omega) fun j hj => by omega]
      exact hall i (by omega)
    · by_cases hstored : ∃ i < vc.cols - vc.x - nr, a = vc.pos + 2 * (vc.cols - vc.x + i)
      · obtain ⟨i, hi, rfl⟩ := hstored
        have hk := hall (vc.cols - vc.x - nr + i) (by omega)
        rw [show nr + (vc.cols - vc.x - nr + i) = vc.cols - vc.x + i by omega] at hk
        rw [hbehind i hi, hk]
      · exact hother a (fun i hi => ha i (by omega)) fun i hi heq => hstored ⟨i, hi, heq⟩

end Insert

/-- **When the move is an overlap-safe copy.**  Over any screen memory: a move to a lower address
always; a move upwards exactly when the cells of the two blocks, and of the two blocks behind them,
hold the same already.  An insertion is right under the same condition, for the rest of the row. -/
theorem scrMemmovew_moves_iff {hw : Hw} (hcells : ∀ a, hw.mem a < 2 ^ 16) :
    (∀ d s count, d + 2 * count ≤ 2 ^ 32 → s + 2 * count ≤ 2 ^ 32 →
      (MovesCells hw d s count ↔ d < s ∨ SameBehind hw d s count)) ∧
    ∀ vga vc nr, Window vga vc → CursorInv vga vc → nr ≤ vc.cols - vc.x →
      (InsertsCells vc hw nr ↔ ∀ k < 2 * (vc.cols - vc.x - nr),
        hw.mem (vc.pos + 2 * (nr + k)) = hw.mem (vc.pos + 2 * k)) := by
  refine ⟨fun d s count hd hs => ⟨fun h => ?_, ?_⟩, fun vga vc nr h hc hnr =>
    insertsCells_iff hc h hcells hnr⟩
  · rcases lt_or_ge d s with hlt | hle
    · exact Or.inl hlt
    · exact Or.inr (sameBehind_of_movesCells hcells hd hs hle h)
  · rintro (hlt | hsame)
    · exact movesCells_of_lt hcells hd hs hlt
    · rcases lt_or_ge d s with hlt | hle
      · exact movesCells_of_lt hcells hd hs hlt
      · exact hsame.movesCells hcells hd hs hle

/-- Ten cells down by one, where each cell holds the low half of its address, and three blanks inserted
at boot into two rows of spaces. -/
theorem scrMemmovew_moves_down :
    MovesCells ⟨fun a => a % 2 ^ 16, [], fun _ => 0⟩ 0xc00b8000 0xc00b8002 10 ∧
    InsertsCells (bootVc vgaText)
      ⟨fun a => if a < 0xc00b8140 then 0x0720 else a % 2 ^ 16, [], fun _ => 0⟩ 3 := by
  have hcells : ∀ a, (if a < 0xc00b8140 then 0x0720 else a % 2 ^ 16) < 2 ^ 16 := fun a => by
    split_ifs
    · decide
    · exact Nat.mod_lt a (by decide)
  have hon := vgaText_fits.onScreen (by decide) (by decide)
  refine ⟨((scrMemmovew_moves_iff fun a => Nat.mod_lt a (by decide)).1 0xc00b8000 0xc00b8002 10
      (by decide) (by decide)).mpr (Or.inl (by decide)),
    ((scrMemmovew_moves_iff hcells).2 (bootVga vgaText) (bootVc vgaText) 3 hon.window
      (hon.cursorInv_iff.mpr vgaText_fits.synced) (by decide)).mpr fun k hk => ?_⟩
  have hrow : k < 154 := hk
  rw [show (bootVc vgaText).pos = 0xc00b8000 by decide]
  dsimp only
  rw [if_pos (by omega), if_pos (by omega)]

/-- One cell up by one, and one blank inserted at boot on an 80 by 25 screen, where each cell holds the
low half of its address: the cell after the cursor keeps its character. -/
theorem scrMemmovew_moves_up :
    ¬MovesCells ⟨fun a => a % 2 ^ 16, [], fun _ => 0⟩ 0xb8002 0xb8000 1 ∧
    CursorInv (bootVga vgaText) (bootVc vgaText) ∧
    ¬InsertsCells (bootVc vgaText) ⟨fun a => a % 2 ^ 16, [], fun _ => 0⟩ 1 := by
  have hon := vgaText_fits.onScreen (by decide) (by decide)
  have hc := hon.cursorInv_iff.mpr vgaText_fits.synced
  refine ⟨fun h => absurd (h.1 0 (by decide)) (by decide), hc, fun h => ?_⟩
  have hcell := (insertsCells_iff hc hon.window (fun a => Nat.mod_lt a (by decide)) (by decide)).mp h 0
    (by decide)
  exact absurd hcell (by decide)

end Sandix
