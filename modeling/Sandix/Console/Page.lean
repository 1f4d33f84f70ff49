import Sandix.Console.Scroll
import Sandix.Console.Stream

/-!
# Console/Page — plain text on a page

What the console is for, when no escape sequence is written: a **page** of numbered lines, as wide as the
screen, that text is set on at a cursor, and a screen that shows a run of its lines.  `Shows` says how
video memory and the CRT controller hold a page: line `l` is row `l` of video memory, wherever the window
is.

* `Console.Shows.run` — however plain text is cut into writes, the console shows the page it sets, and the
  hardware cursor stands where it ends, as long as the screen stays inside video memory.
* `bootConsole_shows` — the page at boot.
-/

namespace Sandix

open Machinery

/-! ## Pages -/

/-- Lines of cells, a cursor, and the line at the top of the screen. -/
@[ext] structure Page where
  cols : ℕ
  rows : ℕ
  attr : ℕ
  text : ℕ → ℕ → ℕ
  line : ℕ
  col : ℕ
  top : ℕ

namespace Page

variable (p : Page)

/-- The cursor down by a line, and the screen with it when it was on the last. -/
def feed : Page :=
  { p with line := p.line + 1, top := if p.line + 1 = p.top + p.rows then p.top + 1 else p.top }

/-- A character at the cursor. -/
def put (c : ℕ) : Page :=
  { p with
    text := fun l k =>
      if l = p.line ∧ k = p.col then (p.attr * 2 ^ 8 ||| c % 2 ^ 8) % 2 ^ 16 else p.text l k
    col := p.col + 1 }

/-- The page a character is set on: a line that is full is left for the next. -/
def wrapped : Page := if p.col = p.cols then ({ p with col := 0 } : Page).feed else p

/-- The column of the next tab stop. -/
def tabStop : ℕ := p.col + (8 - p.col % 8)

/-- One byte of plain text. -/
def byte (c : ℕ) : Page :=
  if 31 < c ∧ c < 127 then p.wrapped.put c
  else if c = 8 then { p with col := p.col - 1 }
  else if c = 9 then
    if p.cols ≤ p.tabStop then ({ p with col := p.tabStop - p.cols } : Page).feed
    else { p with col := p.tabStop }
  else if c = 10 ∨ c = 11 ∨ c = 12 then p.feed
  else if c = 13 then { p with col := 0 }
  else p

/-- Plain text. -/
def write (bs : List UInt8) : Page := bs.foldl (fun p b => p.byte b.toNat) p

/-- The screen is inside video memory. -/
def Fits (vga : VgaVars) : Prop := vga.vramBase + 2 * (p.cols * (p.top + p.rows)) ≤ vga.vramEnd

theorem write_cons (b : UInt8) (bs : List UInt8) : p.write (b :: bs) = (p.byte b.toNat).write bs := rfl

theorem write_append (a b : List UInt8) : p.write (a ++ b) = (p.write a).write b := List.foldl_append

/-- The page keeps its shape, and the screen only moves down. -/
structure Onward (q : Page) : Prop where
  cols_eq : q.cols = p.cols
  rows_eq : q.rows = p.rows
  top_le : p.top ≤ q.top

variable {p} {q r : Page} {vga : VgaVars}

theorem Onward.refl (p : Page) : p.Onward p := ⟨rfl, rfl, le_rfl⟩

theorem Onward.trans (h : p.Onward q) (h' : q.Onward r) : p.Onward r :=
  ⟨h'.cols_eq.trans h.cols_eq, h'.rows_eq.trans h.rows_eq, h.top_le.trans h'.top_le⟩

theorem Onward.fits (h : p.Onward q) (hq : q.Fits vga) : p.Fits vga := by
  unfold Fits at *
  rw [h.cols_eq, h.rows_eq] at hq
  have hmul : p.cols * (p.top + p.rows) ≤ p.cols * (q.top + p.rows) :=
    Nat.mul_le_mul_left _ (Nat.add_le_add_right h.top_le _)
  omega

theorem onward_feed (p : Page) : p.Onward p.feed := by
  refine ⟨rfl, rfl, ?_⟩
  unfold feed
  dsimp only
  split_ifs <;> omega

theorem onward_wrapped (p : Page) : p.Onward p.wrapped := by
  unfold wrapped
  split_ifs
  · exact ⟨rfl, rfl, (onward_feed { p with col := 0 }).top_le⟩
  · exact .refl p

theorem onward_byte (p : Page) (c : ℕ) : p.Onward (p.byte c) := by
  unfold byte
  split_ifs
  · exact { onward_wrapped p with }
  · exact ⟨rfl, rfl, le_rfl⟩
  · exact ⟨rfl, rfl, (onward_feed { p with col := p.tabStop - p.cols }).top_le⟩
  · exact ⟨rfl, rfl, le_rfl⟩
  · exact onward_feed p
  · exact ⟨rfl, rfl, le_rfl⟩
  · exact .refl p

theorem onward_write (bs : List UInt8) (p : Page) : p.Onward (p.write bs) := by
  induction bs generalizing p with
  | nil => exact .refl p
  | cons b bs ih => exact (onward_byte p b.toNat).trans (ih _)

end Page

/-! ## A page in video memory -/

/-- A 16-bit register of the CRT controller, from its two halves. -/
def Hw.crtcWord (hw : Hw) (high low : ℕ) : ℕ := hw.crtc high * 2 ^ 8 + hw.crtc low

/-- Video memory holds the page, and the screen and the console's cursor are where the page has them. -/
structure Shows (vga : VgaVars) (vc : VcStruct) (hw : Hw) (p : Page) : Prop where
  onScreen : OnScreen vga vc
  synced : Synced vc
  small : vga.vramEnd < vga.vramBase + 2 ^ 17
  cols_eq : vc.cols = p.cols
  rows_eq : vc.rows = p.rows
  attr_eq : vc.attr = p.attr
  col_eq : vc.x = p.col
  line_eq : p.top + vc.y = p.line
  top_eq : vc.visibleOrigin = vga.vramBase + 2 * (p.cols * p.top)
  text : ∀ l k, k < p.cols → vga.vramBase + 2 * (p.cols * (l + 1)) ≤ vga.vramEnd →
    hw.mem (vga.vramBase + 2 * (p.cols * l + k)) = p.text l k
  start : hw.crtcWord 0x0C 0x0D = p.cols * p.top

variable {vga : VgaVars} {vc : VcStruct} {hw : Hw} {p : Page} {c : ℕ}

/-- The two stores of an offset to the CRT controller. -/
theorem crtcWord_writeVga (hw : Hw) {high low off : ℕ} (hhigh : high < 2 ^ 8) (hlow : low < 2 ^ 8)
    (hne : high ≠ low) (hoff : off < 2 ^ 17) :
    (hw.run [.writeVga high (0xff &&& off >>> 9), .writeVga low (0xff &&& off >>> 1)]).crtcWord
      high low = off / 2 := by
  have hand : ∀ n, 0xff &&& n = n % 2 ^ 8 := fun n => by
    rw [Nat.and_comm]
    exact Nat.and_two_pow_sub_one_eq_mod n 8
  simp only [Hw.run, List.foldl_cons, List.foldl_nil, Hw.access, Hw.crtcWord, Nat.mod_eq_of_lt hhigh,
    Nat.mod_eq_of_lt hlow, Function.update_self, Function.update_of_ne hne, hand,
    Nat.shiftRight_eq_div_pow]
  omega

/-- The start address, once programmed. -/
theorem start_vgaSetMemTop (hw : Hw) {n : ℕ} (hn : n < 2 ^ 16) (hlt : vc.visibleOrigin < 2 ^ 32)
    (horigin : vc.visibleOrigin = vga.vramBase + 2 * n) :
    (hw.run (vgaSetMemTop vga vc)).crtcWord 0x0C 0x0D = n := by
  have hoff : sub32 vc.visibleOrigin vga.vramBase = 2 * n := by
    rw [sub32_of_le hlt (by omega)]
    omega
  have hword := crtcWord_writeVga hw (by decide : 0x0C < 2 ^ 8) (by decide : 0x0D < 2 ^ 8) (by decide)
    (show 2 * n < 2 ^ 17 by omega)
  rw [vgaSetMemTop, hoff, hword]
  omega

namespace Shows

variable (h : Shows vga vc hw p)

include h

/-- The cells from the start address on. -/
theorem displayed {i j : ℕ} (hi : i < p.rows) (hj : j < p.cols) :
    hw.mem (vga.vramBase + 2 * (hw.crtcWord 0x0C 0x0D + p.cols * i + j)) = p.text (p.top + i) j := by
  have hwin := h.onScreen.window.bounds
  have hrow : p.cols * (i + 1) ≤ p.cols * p.rows := Nat.mul_le_mul_left _ hi
  have hsplit : p.cols * (p.top + i) = p.cols * p.top + p.cols * i := Nat.mul_add _ _ _
  have hsplit' : p.cols * (p.top + i + 1) = p.cols * p.top + p.cols * (i + 1) := by
    rw [Nat.add_assoc, Nat.mul_add]
  have hscr := hwin.2.1
  have hend := hwin.2.2
  have htop := h.top_eq
  rw [h.cols_eq, h.rows_eq] at hscr
  rw [← h.text (p.top + i) j hj (by omega), h.start, hsplit]

/-- Moving the console's cursor within the line. -/
theorem move {x pos : ℕ} (hx : x ≤ vc.cols) (hpos : pos = vc.visibleOrigin + 2 * (vc.cols * vc.y + x)) :
    Shows vga { vc with x := x, pos := pos } hw { p with col := x } where
  onScreen := { h.onScreen with
    x_le := hx
    pos_lt := by
      have hb := h.onScreen.bounds
      dsimp only
      omega }
  synced := hpos
  small := h.small
  cols_eq := h.cols_eq
  rows_eq := h.rows_eq
  attr_eq := h.attr_eq
  col_eq := rfl
  line_eq := h.line_eq
  top_eq := h.top_eq
  text := h.text
  start := h.start

/-- **A line feed.** -/
theorem feed (hfits : p.feed.Fits vga) :
    Shows vga (lineFeed vga vc).1 (hw.run (lineFeed vga vc).2) p.feed := by
  have hb := h.onScreen.bounds
  have hon := lineFeed_onScreen h.onScreen
  have hline := h.line_eq
  have hrows := h.rows_eq
  have hsync := lineFeed_synced_iff h.onScreen.window h.onScreen.driver h.onScreen.rows_ge h.onScreen.x_le
    h.onScreen.y_lt h.synced
  rcases lineFeed_cases h.onScreen.window h.onScreen.y_lt with ⟨hlt, heq⟩ | ⟨hlast, heq⟩
  · have htop : p.feed = { p with line := p.line + 1 } := by
      rw [Page.feed, if_neg (by omega)]
    have hs := hsync.mpr fun hy => absurd hy (by omega)
    rw [heq] at hon hs ⊢
    rw [htop]
    exact ⟨hon, hs, h.small, h.cols_eq, h.rows_eq, h.attr_eq, h.col_eq,
      by dsimp only; omega, h.top_eq, h.text, h.start⟩
  · have htop : p.feed = { p with line := p.line + 1, top := p.top + 1 } := by
      rw [Page.feed, if_pos (by omega)]
    rw [htop] at hfits ⊢
    have hnext : p.cols * (p.top + 1) = p.cols * p.top + p.cols := Nat.mul_succ _ _
    have hroom : RoomBelow vga vc := by
      have hsum : p.cols * (p.top + 1 + p.rows) = p.cols * p.top + p.cols + p.cols * p.rows := by ring
      have horigin := h.top_eq
      unfold Page.Fits at hfits
      dsimp only at hfits
      unfold RoomBelow
      rw [h.cols_eq, h.rows_eq] at hb
      omega
    have hs := hsync.mpr fun _ => hroom
    rw [heq, scrdown_room h.onScreen.window h.onScreen.driver h.onScreen.rows_ge hroom] at hon hs ⊢
    have horigin := h.top_eq
    have hcols := h.cols_eq
    refine ⟨hon, hs, h.small, h.cols_eq, h.rows_eq, h.attr_eq, h.col_eq, ?_, ?_, h.text, ?_⟩
    · dsimp only [windowDown]
      omega
    · dsimp only [windowDown]
      rw [hnext]
      omega
    · refine start_vgaSetMemTop hw ?_ ?_ ?_
      · have hsmall := h.small
        rw [hnext]
        omega
      · dsimp only [windowDown]
        omega
      · dsimp only [windowDown]
        rw [hnext]
        omega

/-- A cursor wrapped back into its row. -/
theorem beforeFeed {k : ℕ} (hc : LineFeeds vc c) (hk : (Sandix.beforeFeed vc c).x = k) :
    Shows vga (Sandix.beforeFeed vc c) hw { p with col := k } := by
  have hon := beforeFeed_onScreen h.onScreen c
  have hsync := beforeFeed_synced h.onScreen h.synced hc
  unfold Sandix.beforeFeed at *
  split_ifs at * with h₁ h₂
  · exact ⟨hon, hsync, h.small, h.cols_eq, h.rows_eq, h.attr_eq, hk, h.line_eq, h.top_eq, h.text, h.start⟩
  · exact ⟨hon, hsync, h.small, h.cols_eq, h.rows_eq, h.attr_eq, hk, h.line_eq, h.top_eq, h.text, h.start⟩
  · exact ⟨hon, hsync, h.small, h.cols_eq, h.rows_eq, h.attr_eq, hk, h.line_eq, h.top_eq, h.text, h.start⟩

/-- The address of the cell the cursor is in. -/
theorem vgaAddr_eq : vgaAddr vc vc.y vc.x = vga.vramBase + 2 * (p.cols * p.line + p.col) := by
  have haddr := h.onScreen.window.addr_eq h.onScreen.x_le h.onScreen.y_lt
  have hline : p.cols * p.line = p.cols * p.top + p.cols * vc.y := by
    rw [← h.line_eq, Nat.mul_add]
  rw [vgaAddr, haddr, h.top_eq, h.cols_eq, h.col_eq, hline]
  ring

/-- **A character at the cursor.** -/
theorem put (hcol : p.col < p.cols) :
    Shows vga (advance vc) (hw.run (conPutc vc c vc.y vc.x)) (p.put c) := by
  have hb := h.onScreen.bounds
  have hx : vc.x < vc.cols := by rwa [h.col_eq, h.cols_eq]
  have haddr := h.vgaAddr_eq
  have hsync : Synced (advance vc) := (advance_synced_iff h.onScreen hx).mpr h.synced
  have hpos : (vc.pos + 2) % 2 ^ 32 = vc.visibleOrigin + 2 * (vc.cols * vc.y + (vc.x + 1)) := hsync
  have hmove := h.move (show vc.x + 1 ≤ vc.cols from hx) hpos
  have hops : conPutc vc c vc.y vc.x = [.writew (vgaAttr vc c) (vgaAddr vc vc.y vc.x)] := by
    rw [conPutc, if_pos h.onScreen.driver, vgaconPutc]
  have hlt : vgaAddr vc vc.y vc.x % 2 ^ 32 = vgaAddr vc vc.y vc.x := by
    rw [vgaAddr, Nat.mod_mod]
  have hval : vgaAttr vc c % 2 ^ 16 = (p.attr * 2 ^ 8 ||| c % 2 ^ 8) % 2 ^ 16 := by
    rw [vgaAttr, Nat.mod_mod, h.attr_eq]
  refine ⟨hmove.onScreen, hsync, h.small, h.cols_eq, h.rows_eq, h.attr_eq, congrArg (· + 1) h.col_eq,
    h.line_eq, h.top_eq, fun l k hk hfit => ?_, ?_⟩
  · have hmem : (hw.run (conPutc vc c vc.y vc.x)).mem = Function.update hw.mem
        (vga.vramBase + 2 * (p.cols * p.line + p.col)) ((p.attr * 2 ^ 8 ||| c % 2 ^ 8) % 2 ^ 16) := by
      rw [hops, ← haddr, ← hval]
      simp only [Hw.run, List.foldl_cons, List.foldl_nil, Hw.access, scrWritew, hlt]
    rw [hmem, Page.put]
    dsimp only
    by_cases hcell : l = p.line ∧ k = p.col
    · rw [if_pos hcell, hcell.1, hcell.2, Function.update_self]
    · rw [if_neg hcell, Function.update_of_ne, h.text l k hk hfit]
      -- two cells of the page at one address are one cell
      intro hsame
      have hindex : p.cols * l + k = p.cols * p.line + p.col := by omega
      have hk' : k < p.cols := hk
      have hline : l = p.line := by
        have hdiv := congrArg (· / p.cols) hindex
        simpa only [Nat.mul_add_div (by omega : 0 < p.cols), Nat.div_eq_of_lt hk', Nat.div_eq_of_lt hcol,
          Nat.add_zero] using hdiv
      rw [hline] at hindex
      exact hcell ⟨hline, by omega⟩
  · rw [hops]
    exact h.start

/-- The page and the console before a character is drawn. -/
theorem wrapped (hc : 31 < c ∧ c < 127) (hfits : p.wrapped.Fits vga) :
    Shows vga (afterWrap vga vc c).1 (hw.run (afterWrap vga vc c).2) p.wrapped := by
  have hcol := h.col_eq
  have hcols := h.cols_eq
  unfold Page.wrapped at *
  unfold afterWrap
  by_cases hx : vc.x = vc.cols
  · rw [if_pos (by omega)] at hfits
    rw [if_pos hx, if_pos (by omega)]
    have hzero : (Sandix.beforeFeed vc c).x = 0 := by rw [Sandix.beforeFeed, if_pos hc.1]
    exact (h.beforeFeed (Or.inl ⟨hc.1, hc.2, hx⟩) hzero).feed hfits
  · rw [if_neg hx, if_neg (by omega)]
    exact h

/-- A control byte that feeds no line moves the cursor within its row. -/
theorem control (hc : ¬(31 < c ∧ c < 127)) (hno : ¬LineFeeds vc c) :
    ∃ x pos, vtNormal vga vc c = ({ vc with x := x, pos := pos }, []) ∧
      Shows vga { vc with x := x, pos := pos } hw { p with col := x } ∧
      x = if c = 8 then vc.x - 1 else if c = 9 then vc.x + (8 - vc.x % 8) else if c = 13 then 0 else vc.x := by
  rcases vtNormal_control h.onScreen hc with ⟨hl, -⟩ | ⟨-, x, pos, heq, hx, -, hpos⟩
  · exact absurd hl hno
  · refine ⟨x, pos, heq, h.move hx (hpos h.synced), ?_⟩
    have hcol : (vtNormal vga vc c).1.x = x := by rw [heq]
    have hb := h.onScreen.bounds
    rw [← hcol, vtNormal, if_neg hc]
    unfold LineFeeds at hno
    by_cases h8 : c = 8
    · rw [if_pos h8, if_pos h8]
      split_ifs with h0
      · rfl
      · dsimp only
        omega
    · by_cases h9 : c = 9
      · rw [if_neg h8, if_pos h9, if_neg h8, if_pos h9]
        simp only [and_seven]
        rw [if_neg (by omega)]
        dsimp only
        omega
      · rw [if_neg h8, if_neg h9, if_neg (by omega), if_neg h8, if_neg h9]
        split_ifs
        · rfl
        · rfl

/-- **One byte of plain text.** -/
theorem byte (hfits : (p.byte c).Fits vga) :
    Shows vga (vtNormal vga vc c).1 (hw.run (vtNormal vga vc c).2) (p.byte c) := by
  have hcol := h.col_eq
  have hcols := h.cols_eq
  have hb := h.onScreen.bounds
  by_cases hc : 31 < c ∧ c < 127
  · rw [Page.byte, if_pos hc] at hfits ⊢
    have hshow := h.wrapped hc hfits
    have hlt := afterWrap_x_lt h.onScreen hc.1
    rw [hshow.col_eq, hshow.cols_eq] at hlt
    rw [vtNormal_print h.onScreen hc, Hw.run_append]
    exact hshow.put hlt
  · by_cases hl : LineFeeds vc c
    · have heq : vtNormal vga vc c = lineFeed vga (Sandix.beforeFeed vc c) := by
        rcases vtNormal_control h.onScreen hc with ⟨-, heq⟩ | ⟨hno, -⟩
        · exact heq
        · exact absurd hl hno
      have hpage : p.byte c = ({ p with col := (Sandix.beforeFeed vc c).x } : Page).feed := by
        unfold LineFeeds at hl
        rw [Page.byte, if_neg hc, if_neg (show ¬c = 8 by omega), Sandix.beforeFeed,
          if_neg (show ¬31 < c by omega), Page.tabStop]
        by_cases h9 : c = 9
        · rw [if_pos h9, if_pos (by omega), if_pos h9, hcol, hcols]
        · rw [if_neg h9, if_pos (by omega), if_neg h9, hcol]
      rw [hpage] at hfits ⊢
      rw [heq]
      exact (h.beforeFeed hl rfl).feed hfits
    · obtain ⟨x, pos, heq, hshow, hx⟩ := h.control hc hl
      have hpage : p.byte c = { p with col := x } := by
        unfold LineFeeds at hl
        rw [Page.byte, if_neg hc, Page.tabStop]
        by_cases h8 : c = 8
        · rw [if_pos h8, hx, if_pos h8, hcol]
        · by_cases h9 : c = 9
          · rw [if_neg h8, if_pos h9, if_neg (by omega), hx, if_neg h8, if_pos h9, hcol]
          · rw [if_neg h8, if_neg h9, if_neg (by omega), hx, if_neg h8, if_neg h9]
            split_ifs
            · rfl
            · rw [hcol]
      rw [heq, hpage]
      exact hshow

/-- Drawing the cursor leaves the page. -/
theorem cursor (vc' : VcStruct) : Shows vga vc (hw.run (conCursor vga vc')) p := by
  unfold conCursor
  split_ifs
  · exact ⟨h.onScreen, h.synced, h.small, h.cols_eq, h.rows_eq, h.attr_eq, h.col_eq, h.line_eq, h.top_eq,
      h.text, h.start⟩
  · exact h

/-- The hardware cursor, once drawn. -/
theorem cursor_word :
    (hw.run (conCursor vga vc)).crtcWord 0x0E 0x0F = p.cols * p.line + p.col := by
  have hb := h.onScreen.bounds
  have hsync := h.synced
  have hline : p.cols * p.line = p.cols * p.top + p.cols * vc.y := by
    rw [← h.line_eq, Nat.mul_add]
  have hpos : vc.pos = vga.vramBase + 2 * (p.cols * p.line + p.col) := by
    unfold Synced at hsync
    rw [hsync, h.top_eq, h.cols_eq, h.col_eq, hline]
    ring
  have hoff : sub32 vc.pos vga.vramBase = 2 * (p.cols * p.line + p.col) := by
    rw [sub32_of_le h.onScreen.pos_lt (by omega)]
    omega
  have hsmall := h.small
  unfold Synced at hsync
  have hword := crtcWord_writeVga hw (by decide : 0x0E < 2 ^ 8) (by decide : 0x0F < 2 ^ 8) (by decide)
    (show 2 * (p.cols * p.line + p.col) < 2 ^ 17 by omega)
  rw [conCursor, if_pos h.onScreen.driver, vgaSetCursor, hoff, hword]
  omega

end Shows

/-! ## Writes -/

/-- Plain text: no escape. -/
def Plain (bs : List UInt8) : Prop := ∀ b ∈ bs, b.toNat ≠ 27

/-- **The loop of `con_write`** on plain text. -/
theorem Shows.steps : ∀ {bs : List UInt8} {t : Term} {hw : Hw} {p : Page}, Shows vga t.vc hw p →
    t.scan.state = .normal → Plain bs → (p.write bs).Fits vga →
    Shows vga (conSteps vga t bs).1.vc (hw.run (conSteps vga t bs).2) (p.write bs)
  | [], _, _, _, h, _, _, _ => h
  | b :: bs, ⟨vc, ⟨state, n⟩⟩, hw, p, h, hstate, hplain, hfits => by
      dsimp only at hstate
      subst hstate
      obtain ⟨hb, hbs⟩ := List.forall_mem_cons.mp hplain
      have hbyte := h.byte ((Page.onward_write bs _).fits hfits)
      have hstep : conStep vga ⟨vc, ⟨.normal, n⟩⟩ b.toNat =
          (⟨(vtNormal vga vc b.toNat).1, ⟨.normal, n⟩⟩, (vtNormal vga vc b.toNat).2) := by
        simp only [conStep, if_neg hb]
      rw [conSteps, hstep]
      dsimp only
      rw [Hw.run_append]
      exact Shows.steps hbyte rfl hbs hfits

/-- A console that shows a page. -/
def Console.Shows (con : Console) (p : Page) : Prop := Sandix.Shows con.vga con.vc con.hw p

/-- The hardware cursor stands where the page has it. -/
def Console.CursorAt (con : Console) (p : Page) : Prop :=
  con.hw.crtcWord 0x0E 0x0F = p.cols * p.line + p.col

/-- What the display shows: the cells from the start address on, and the hardware cursor. -/
structure Console.Displays (con : Console) (p : Page) : Prop where
  cell : ∀ i < p.rows, ∀ j < p.cols,
    con.hw.mem (con.vga.vramBase + 2 * (con.hw.crtcWord 0x0C 0x0D + p.cols * i + j)) = p.text (p.top + i) j
  cursor : con.CursorAt p

variable {con : Console}

theorem Console.Shows.displays (h : con.Shows p) (hcursor : con.CursorAt p) : con.Displays p :=
  ⟨fun _ hi _ hj => h.displayed hi hj, hcursor⟩

/-- **One write.** -/
theorem conWrite_shows (h : con.Shows p) {bs : List UInt8} (hplain : Plain bs)
    (hfits : (p.write bs).Fits con.vga) :
    (conWrite con bs).1 = bs.length ∧ (conWrite con bs).2.Shows (p.write bs) ∧
      (conWrite con bs).2.CursorAt (p.write bs) := by
  have hsteps := Sandix.Shows.steps (t := ⟨con.vc, Scanner.start⟩) (h.cursor con.vc) rfl hplain hfits
  rw [conWrite, if_neg h.onScreen.driver_ne_none]
  refine ⟨rfl, ?_, ?_⟩
  · unfold Console.Shows
    dsimp only
    rw [Hw.run_append, Hw.run_append]
    exact hsteps.cursor _
  · unfold Console.CursorAt
    dsimp only
    rw [Hw.run_append, Hw.run_append]
    exact hsteps.cursor_word

/-- **Every way of cutting plain text into writes sets the same page.** -/
theorem Console.Shows.run : ∀ {bufs : List (List UInt8)} {con : Console} {p : Page}, con.Shows p →
    Plain bufs.flatten → (p.write bufs.flatten).Fits con.vga →
    (conRun con bufs).Shows (p.write bufs.flatten) ∧
      ((bufs = [] → con.CursorAt p) → (conRun con bufs).CursorAt (p.write bufs.flatten))
  | [], _, _, h, _, _ => ⟨h, fun hcur => hcur rfl⟩
  | buf :: bufs, con, p, h, hplain, hfits => by
      rw [List.flatten_cons] at hplain hfits ⊢
      obtain ⟨hbuf, hbufs⟩ := List.forall_mem_append.mp hplain
      rw [Page.write_append] at hfits ⊢
      obtain ⟨-, hshow, hcur⟩ := conWrite_shows h hbuf ((Page.onward_write bufs.flatten _).fits hfits)
      have hvga := conWrite_vga con buf
      have hrest := hshow.run hbufs (hvga ▸ hfits)
      exact ⟨hrest.1, fun _ => hrest.2 fun _ => hcur⟩

/-! ## From boot -/

/-- The page the boot loader left: the contents of video memory, with the screen at their start. -/
def bootPage (si : ScreenInfo) (mem : ℕ → ℕ) : Page where
  cols := (bootVc si).cols
  rows := (bootVc si).rows
  attr := (bootVc si).attr
  text := fun l k => mem ((bootVga si).vramBase + 2 * ((bootVc si).cols * l + k))
  line := (bootVc si).y
  col := (bootVc si).x
  top := 0

theorem bootVga_small {si : ScreenInfo} (h : si.origVideoCols ≠ 0) :
    (bootVga si).vramEnd < (bootVga si).vramBase + 2 ^ 17 := by
  have hne : ¬(si.origVideoMode = 0 ∧ si.origVideoLines = 0 ∧ si.origVideoCols = 0) := fun hz => h hz.2.2
  have hstart : ¬(VgaVars.zero.hasCalledStartup = true) := by decide
  unfold bootVga vgaconStartup
  rw [if_neg hstart, if_neg hne]
  dsimp only
  split_ifs <;> omega

/-- **At boot** the console shows the page, if the CRT controller starts at the start of video memory. -/
theorem bootConsole_shows {si : ScreenInfo} (h : BootFits si) (hx : (bootVc si).x ≤ (bootVc si).cols)
    (hy : (bootVc si).y < (bootVc si).rows) (mem : ℕ → ℕ) {crtc : ℕ → ℕ}
    (hcrtc : crtc 0x0C = 0 ∧ crtc 0x0D = 0) : (bootConsole si mem crtc).Shows (bootPage si mem) where
  onScreen := h.onScreen hx hy
  synced := h.synced
  small := by
    refine bootVga_small fun hz => ?_
    have hcols := h.cols_ge
    rw [bootVc_cols, bootVga_cols, hz] at hcols
    exact absurd hcols (by decide)
  cols_eq := rfl
  rows_eq := rfl
  attr_eq := rfl
  col_eq := rfl
  line_eq := Nat.zero_add _
  top_eq := by
    have horigin : (bootVc si).visibleOrigin = (bootVga si).vramBase := by rw [h.started.bootVc_eq]
    exact horigin
  text _ _ _ _ := rfl
  start := by
    simp only [Hw.crtcWord, bootConsole, bootPage, hcrtc.1, hcrtc.2, Nat.mul_zero, Nat.zero_mul]

end Sandix
