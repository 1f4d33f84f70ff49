import Sandix.Kernel.Printk
import Sandix.Tty.VtConsole

/-!
# Kernel/PrintkScreen — from a message to the screen

The whole way of a message: `printk` formats it into `KMBUF`, `tty_write` hands it to the line discipline
of `tty_table[0]`, `n_tty_write` makes a newline a carriage return and a line feed, and `con_write` sets
the rest.

* `printkRun_page` — the screen shows the page of all the messages.
* `printkRun_lines` — messages that are lines of the screen's width appear under one another, the last of
  them above the cursor.
-/

namespace Sandix

open Machinery

/-! ## Lines on a page -/

namespace Page

variable (p : Page)

/-- The cell of a character in the current attribute. -/
def ink (b : UInt8) : ℕ := (p.attr * 2 ^ 8 ||| b.toNat % 2 ^ 8) % 2 ^ 16

/-- Characters set from the cursor on, within its line. -/
def type (l : List UInt8) : Page :=
  { p with
    text := fun n k =>
      (if n = p.line ∧ p.col ≤ k then l[k - p.col]? else none).elim (p.text n k) p.ink
    col := p.col + l.length }

/-- Lines set under one another, from the cursor's line on. -/
def lines (ls : List (List UInt8)) : Page :=
  { p with
    text := fun n k =>
      ((if p.line ≤ n then ls[n - p.line]? else none).bind (·[k]?)).elim (p.text n k) p.ink
    line := p.line + ls.length
    col := 0
    top := max p.top (p.line + ls.length + 1 - p.rows) }

end Page

/-- Text that the console draws as it is. -/
def Printable (l : List UInt8) : Prop := ∀ b ∈ l, 31 < b.toNat ∧ b.toNat < 127

/-- Printable text that the line holds is set within it. -/
theorem write_printable : ∀ {l : List UInt8} {p : Page}, Printable l → p.col + l.length ≤ p.cols →
    p.write l = p.type l
  | [], p, _, _ => by
      refine Page.ext rfl rfl rfl (funext₂ fun n k => ?_) rfl rfl rfl
      simp [Page.type, Page.write]
  | b :: l, p, hl, hfit => by
      obtain ⟨hb, hl⟩ := List.forall_mem_cons.mp hl
      rw [List.length_cons] at hfit
      have hput : p.byte b.toNat = p.put b.toNat := by
        rw [Page.byte, if_pos hb, Page.wrapped, if_neg (by omega)]
      have hrest : (p.put b.toNat).col + l.length ≤ (p.put b.toNat).cols := by
        dsimp only [Page.put]
        omega
      rw [Page.write_cons, hput, write_printable hl hrest]
      refine Page.ext rfl rfl rfl (funext₂ fun n k => ?_) rfl ?_ rfl
      · have hink : (p.put b.toNat).ink = p.ink := rfl
        have hcell : (p.attr * 2 ^ 8 ||| b.toNat % 2 ^ 8) % 2 ^ 16 = p.ink b := rfl
        dsimp only [Page.type]
        rw [hink]
        dsimp only [Page.put]
        rw [hcell]
        by_cases hn : n = p.line
        · rcases lt_trichotomy k p.col with hk | rfl | hk
          · simp [hn, hk.ne, hk.not_ge, show ¬p.col + 1 ≤ k by omega]
          · simp [hn]
          · have hnext : k - p.col = k - (p.col + 1) + 1 := by omega
            simp [hn, hk.ne', hk.le, Nat.succ_le_of_lt hk, hnext]
        · simp [hn]
      · dsimp only [Page.type, Page.put]
        rw [List.length_cons]
        omega

/-- A line and its newline. -/
theorem write_line {p : Page} (hcol : p.col = 0) (hline : p.line < p.top + p.rows) {l : List UInt8}
    (hl : Printable l) (hfit : l.length ≤ p.cols) : p.write (l ++ [13, 10]) = p.lines [l] := by
  have hreturn : p.write (l ++ [13, 10]) = ({ p.type l with col := 0 } : Page).feed := by
    rw [Page.write_append, write_printable hl (by omega)]
    rfl
  rw [hreturn]
  refine Page.ext rfl rfl rfl (funext₂ fun n k => ?_) rfl rfl ?_
  · dsimp only [Page.feed, Page.type, Page.lines, Page.ink]
    rcases lt_trichotomy n p.line with hn | rfl | hn
    · rw [if_neg (by omega), if_neg (by omega)]
      rfl
    · rw [if_pos ⟨rfl, by omega⟩, if_pos le_rfl, hcol, Nat.sub_self]
      rfl
    · rw [if_neg (by omega), if_pos hn.le, List.getElem?_eq_none (by rw [List.length_singleton]; omega)]
      rfl
  · have htop : ({ p.type l with col := 0 } : Page).feed.top =
        if p.line + 1 = p.top + p.rows then p.top + 1 else p.top := rfl
    have hlines : (p.lines [l]).top = max p.top (p.line + 1 + 1 - p.rows) := rfl
    rw [htop, hlines]
    by_cases hlast : p.line + 1 = p.top + p.rows
    · rw [if_pos hlast]
      omega
    · rw [if_neg hlast]
      omega

/-- Lines after a line. -/
theorem lines_cons (p : Page) (l : List UInt8) (ls : List (List UInt8)) :
    (p.lines [l]).lines ls = p.lines (l :: ls) := by
  refine Page.ext rfl rfl rfl (funext₂ fun n k => ?_) ?_ rfl ?_
  · dsimp only [Page.lines, Page.ink]
    rw [List.length_singleton]
    rcases lt_trichotomy n p.line with hn | rfl | hn
    · rw [if_neg (by omega), if_neg (by omega), if_neg (by omega)]
      rfl
    · rw [if_neg (by omega), if_pos le_rfl, if_pos le_rfl, Nat.sub_self]
      rfl
    · rw [if_pos (by omega), if_pos hn.le, if_pos hn.le,
        show n - p.line = n - (p.line + 1) + 1 by omega, List.getElem?_cons_succ, List.getElem?_cons_succ]
      rfl
  · dsimp only [Page.lines]
    rw [List.length_singleton, List.length_cons]
    omega
  · dsimp only [Page.lines]
    rw [List.length_singleton, List.length_cons]
    omega

/-- **Lines**, each of the screen's width at most. -/
theorem write_lines : ∀ {ls : List (List UInt8)} {p : Page}, p.col = 0 → p.line < p.top + p.rows →
    0 < p.rows → (∀ l ∈ ls, Printable l ∧ l.length ≤ p.cols) →
    p.write (ls.flatMap (· ++ [13, 10])) = p.lines ls
  | [], p, hcol, hline, _, _ => by
      refine Page.ext rfl rfl rfl (funext₂ fun n k => ?_) rfl hcol ?_
      · simp [Page.lines, Page.write]
      · have htop : p.write [] = p := rfl
        rw [List.flatMap_nil, htop]
        dsimp only [Page.lines]
        rw [List.length_nil]
        omega
  | l :: ls, p, hcol, hline, hrows, hls => by
      obtain ⟨⟨hl, hfit⟩, hls⟩ := List.forall_mem_cons.mp hls
      have hbelow : (p.lines [l]).line < (p.lines [l]).top + (p.lines [l]).rows := by
        dsimp only [Page.lines]
        rw [List.length_singleton]
        omega
      rw [List.flatMap_cons, Page.write_append, write_line hcol hline hl hfit,
        write_lines rfl hbelow hrows hls, lines_cons]

/-! ## Output processing on the console -/

/-- A newline becomes a carriage return and a line feed. -/
def onlcr (text : List UInt8) : List UInt8 := text.flatMap fun c => if c = 10 then [13, 10] else [c]

theorem onlcr_append (a b : List UInt8) : onlcr (a ++ b) = onlcr a ++ onlcr b := List.flatMap_append

theorem onlcr_eq_nil {text : List UInt8} : onlcr text = [] ↔ text = [] := by
  cases text with
  | nil => simp [onlcr]
  | cons c text => by_cases hc : c = 10 <;> simp [onlcr, hc]

theorem cookChar_std (k : Columns) (c : UInt8) :
    (cookChar stdOflag k c).1 = if c = 10 then [13, 10] else [c] := by
  have hnocr : oONOCR stdOflag = false := by decide
  have hocrnl : oOCRNL stdOflag = false := by decide
  have hxtabs : oXTABS stdOflag = false := by decide
  have holcuc : oOLCUC stdOflag = false := by decide
  have honlcr : oONLCR stdOflag = true := by decide
  by_cases hnl : c = 10
  · simp [cookChar, hnl, honlcr]
  by_cases hcr : c = 13
  · simp [cookChar, hcr, hnocr, hocrnl]
  by_cases hht : c = 9
  · simp [cookChar, hht, hxtabs]
  by_cases hbs : c = 8
  · simp [cookChar, hbs]
  · simp [cookChar, hnl, hcr, hht, hbs, holcuc]

/-- With the flags of `tty_std_termios`, output processing is this alone. -/
theorem cook_std : ∀ (l : List UInt8) (k : Columns), (cook stdOflag k l).1 = onlcr l
  | [], _ => rfl
  | c :: l, k => by
      rw [cook]
      dsimp only
      rw [cookChar_std, cook_std l]
      rfl

/-- Text without newlines, and one at its end. -/
theorem onlcr_line {l : List UInt8} (hl : Printable l) : onlcr (l ++ [10]) = l ++ [13, 10] := by
  have hne : ∀ c ∈ l, c ≠ 10 := by
    rintro c hc rfl
    exact absurd (hl 10 hc).1 (by decide)
  have hsame : onlcr l = l := by
    rw [onlcr, List.flatMap_congr fun c hc => if_neg (hne c hc), List.flatMap_singleton']
  rw [onlcr_append, hsame]
  rfl

/-! ## Messages -/

/-- The arguments of a `printk`: the format, the others, and the strings they point to. -/
structure Message where
  format : FormatString
  args : ℕ → UInt32
  strings : ArgMemory

/-- The message, formatted. -/
def Message.text (msg : Message) : List UInt8 := formatText msg.format msg.args msg.strings

section Messages

variable (site : PrintkSite) (depth : ℕ)

/-- One `printk`, on the console's terminal and memory. -/
def printkStep (s : Tty VtTty × (ℕ → UInt8)) (msg : Message) : Exec (Tty VtTty × (ℕ → UInt8)) := do
  let r ← printk site msg.strings depth msg.format msg.args s.2
  let tty ← nTtyRun consoleOps s.1 r.sent
  return (tty, r.mem)

/-- A sequence of `printk` calls. -/
def printkRun : Tty VtTty × (ℕ → UInt8) → List Message → Exec (Tty VtTty × (ℕ → UInt8)) :=
  execFrom (printkStep site depth)

variable {site depth} {s : Tty VtTty × (ℕ → UInt8)} {p : Page}

/-- The console's terminal, showing a page. -/
structure Printing (s : Tty VtTty × (ℕ → UInt8)) (p : Page) : Prop where
  shows : TtyShows s.1 p
  oflag : s.1.oflag = stdOflag

/-- **One message** that fits `KMBUF`. -/
theorem printkStep_page (h : Printing s p) {msg : Message} (hshort : msg.text.length < kmbufSize)
    (hplain : Plain msg.text) (hfits : (p.write (onlcr msg.text)).Fits s.1.drv.con.vga) :
    (printkStep site (depth + 1) s msg).Returns fun s' => Printing s' (p.write (onlcr msg.text)) ∧
      s'.1.drv.con.vga = s.1.drv.con.vga ∧
      ((msg.text = [] → s.1.drv.con.CursorAt p) → s'.1.drv.con.CursorAt (p.write (onlcr msg.text))) := by
  have hflat : [msg.text].flatten = msg.text := List.flatten_singleton
  have hcook : (cook s.1.oflag s.1.columns msg.text).1 = onlcr msg.text := by
    rw [h.oflag]
    exact cook_std msg.text s.1.columns
  have hrun := @nTtyRun_page s.1 p h.shows [msg.text] (by rw [hflat]; exact hplain)
    (by unfold Tty.page; rw [hflat, hcook]; exact hfits)
  unfold Tty.page at hrun
  rw [hflat, hcook] at hrun
  refine (printk_of_fits hshort).bind fun r hsent => ?_
  rw [hsent]
  refine hrun.bind fun tty' ⟨hshows, hoflag, _, hvga, hcursor⟩ =>
    .ok ⟨⟨hshows, hoflag.trans h.oflag⟩, hvga, ?_⟩
  exact fun hstart => hcursor fun hnil => hstart (onlcr_eq_nil.mp hnil)

/-- **Messages** that fit `KMBUF` and hold no escape: they return, and the screen shows their page. -/
theorem printkRun_page : ∀ {msgs : List Message} {s : Tty VtTty × (ℕ → UInt8)} {p : Page},
    Printing s p → (∀ msg ∈ msgs, msg.text.length < kmbufSize ∧ Plain msg.text) →
    (p.write (onlcr (msgs.flatMap Message.text))).Fits s.1.drv.con.vga →
    (printkRun site (depth + 1) s msgs).Returns fun s' =>
      Printing s' (p.write (onlcr (msgs.flatMap Message.text))) ∧
      ((msgs.flatMap Message.text = [] → s.1.drv.con.CursorAt p) →
        s'.1.drv.con.CursorAt (p.write (onlcr (msgs.flatMap Message.text))))
  | [], s, p, h, _, _ => ⟨s, rfl, h, fun hstart => hstart rfl⟩
  | msg :: msgs, s, p, h, hmsgs, hfits => by
      obtain ⟨⟨hshort, hplain⟩, hmsgs⟩ := List.forall_mem_cons.mp hmsgs
      rw [List.flatMap_cons, onlcr_append, Page.write_append] at hfits ⊢
      obtain ⟨s₁, hstep, hprint, hvga, hcursor⟩ :=
        printkStep_page h hshort hplain ((Page.onward_write _ _).fits hfits)
      obtain ⟨s₂, hrun, hprint₂, hcursor₂⟩ := printkRun_page hprint hmsgs (hvga ▸ hfits)
      refine ⟨s₂, ?_, hprint₂, fun hstart => hcursor₂ fun hnil => hcursor fun hnil' => hstart ?_⟩
      · rw [printkRun, execFrom, List.foldlM_cons, hstep]
        exact hrun
      · rw [hnil, hnil']
        rfl

/-- **Lines.**  Messages that are lines, printable and no longer than the screen is wide, appear under one
another from the cursor's line on, and the cursor stands below the last, with the screen moved down as
far as that takes. -/
theorem printkRun_lines (h : Printing s p) (hcol : p.col = 0) {msgs : List Message}
    {ls : List (List UInt8)} (htext : msgs.map Message.text = ls.map (· ++ [10]))
    (hls : ∀ l ∈ ls, Printable l ∧ l.length ≤ p.cols ∧ l.length + 1 < kmbufSize) (hne : ls ≠ [])
    (hfits : (p.lines ls).Fits s.1.drv.con.vga) :
    (printkRun site (depth + 1) s msgs).Returns fun s' => s'.1.drv.con.Displays (p.lines ls) := by
  have hspell : onlcr (msgs.flatMap Message.text) = ls.flatMap (· ++ [13, 10]) := by
    rw [List.flatMap_def, htext]
    clear htext hne hfits
    induction ls with
    | nil => rfl
    | cons l ls ih =>
      obtain ⟨hl, hls⟩ := List.forall_mem_cons.mp hls
      rw [List.map_cons, List.flatten_cons, onlcr_append, onlcr_line hl.1, ih hls, List.flatMap_cons]
  have hrows : 0 < p.rows := by
    have hge := h.shows.shows.onScreen.rows_ge
    have heq := h.shows.shows.rows_eq
    omega
  have hline : p.line < p.top + p.rows := by
    have hlt := h.shows.shows.onScreen.y_lt
    have heq := h.shows.shows.rows_eq
    have hat := h.shows.shows.line_eq
    omega
  have hpage : p.write (onlcr (msgs.flatMap Message.text)) = p.lines ls := by
    rw [hspell]
    exact write_lines hcol hline hrows fun l hl => ⟨(hls l hl).1, (hls l hl).2.1⟩
  have hmsgs : ∀ msg ∈ msgs, msg.text.length < kmbufSize ∧ Plain msg.text := by
    intro msg hmsg
    obtain ⟨l, hl, heq⟩ := List.mem_map.mp (htext ▸ List.mem_map_of_mem hmsg)
    obtain ⟨hprint, -, hshort⟩ := hls l hl
    rw [← heq]
    refine ⟨by rw [List.length_append]; exact hshort, List.forall_mem_append.mpr ⟨fun b hb => ?_, ?_⟩⟩
    · have hb := hprint b hb
      omega
    · exact List.forall_mem_singleton.mpr (by decide)
  have hnil : msgs.flatMap Message.text ≠ [] := by
    obtain ⟨l, ls, rfl⟩ := List.exists_cons_of_ne_nil hne
    rw [List.flatMap_def, htext, List.map_cons, List.flatten_cons]
    simp
  have hrun := @printkRun_page site depth msgs s p h hmsgs (hpage ▸ hfits)
  rw [hpage] at hrun
  exact hrun.mono fun s' hs' => hs'.1.shows.shows.displays (hs'.2 fun h0 => absurd h0 hnil)

end Messages

/-- `printk("cpu%d up\n", n)`. -/
def cpuMessage (n : UInt32) : Message :=
  ⟨⟨"cpu%d up\n".toList.map ascii, FormatString.nonzero_of_all (by decide), by decide⟩, fun _ => n,
    zeroMemory⟩

/-- Two processors, on the 80 by 25 screen the boot loader left with the cursor at the start. -/
theorem printkRun_lines_cpus :
    (printkRun sampleSite 1 (bootTty stdOflag vgaText (fun _ => 0) fun _ => 0, fun _ => 0)
      [cpuMessage 0, cpuMessage 1]).Returns fun s => s.1.drv.con.Displays
        ((bootPage vgaText fun _ => 0).lines
          [[99, 112, 117, 48, 32, 117, 112], [99, 112, 117, 49, 32, 117, 112]]) := by
  have hprint : Printing (bootTty stdOflag vgaText (fun _ => 0) fun _ => 0, fun _ => 0)
      (bootPage vgaText fun _ => 0) :=
    ⟨bootTty_ttyShows (by decide) vgaText_fits (by decide) (by decide) _ ⟨rfl, rfl⟩, rfl⟩
  refine printkRun_lines hprint (by decide) ?_ ?_ (List.cons_ne_nil _ _) ?_
  · decide +kernel
  · simp [Printable]
    decide
  · unfold Page.Fits
    decide +kernel

end Sandix
