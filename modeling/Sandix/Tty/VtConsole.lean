import Sandix.Console.Page
import Sandix.Tty.Traced

/-!
# Tty/VtConsole — from a terminal to the screen

The console as a tty driver: `console_ops` of `drivers/tty/vt/vt.c`, and the terminal `console_init` makes
of it.  `con_write_room` has room as long as the terminal is not stopped, and nothing of the tree stops
one, so the line discipline never waits: a sequence of writes is a sequence of `con_write` calls, and
those set a page.

* `nTtyRun_page` — the screen shows the page that output processing makes of the text.
* `bootTty_displays` — from boot.
-/

namespace Sandix

open Machinery

/-- A driver's view of the console's terminal: the console, and `tty->stopped`. -/
structure VtTty where
  con : Console
  stopped : Bool

/-- `con_write_room`. -/
def conWriteRoom (d : VtTty) : ℤ := if d.stopped then 0 else 32768

/-- `console_ops`. -/
def consoleOps : TtyOps VtTty where
  write d buf :=
    let r := conWrite d.con buf
    (r.1, { d with con := r.2 })
  putChar := some fun d ch =>
    let r := conPutChar d.con ch
    (r.1, { d with con := r.2 })
  writeRoom := some conWriteRoom

/-- `c_oflag` of `tty_std_termios`: `OPOST | ONLCR`. -/
abbrev stdOflag : ℕ := 0o1 ||| 0o4

/-- `tty_table[0]` at boot, with the termios flags `oflag`. -/
def bootTty (oflag : ℕ) (si : ScreenInfo) (mem crtc : ℕ → ℕ) : Tty VtTty :=
  ⟨oflag, 0, 0, ⟨bootConsole si mem crtc, false⟩⟩

/-! ## The driver -/

theorem after_consoleOps : ∀ (calls : List (List UInt8)) (d : VtTty),
    consoleOps.after d calls = { d with con := conRun d.con calls }
  | [], _ => rfl
  | buf :: calls, d => after_consoleOps calls { d with con := (conWrite d.con buf).2 }

theorem conRun_driver : ∀ (calls : List (List UInt8)) {con : Console}, con.vc.driver ≠ none →
    (conRun con calls).vc.driver ≠ none
  | [], _, h => h
  | buf :: calls, con, h => by
      refine conRun_driver calls ?_
      rw [conWrite_vc h, conSteps_driver]
      exact h

theorem conRun_vga : ∀ (calls : List (List UInt8)) (con : Console), (conRun con calls).vga = con.vga
  | [], _ => rfl
  | buf :: calls, con => (conRun_vga calls _).trans (conWrite_vga con buf)

/-- The console serves, from a terminal that is not stopped. -/
theorem serves_consoleOps {d : VtTty} (hdriver : d.con.vc.driver ≠ none) (hgo : d.stopped = false) :
    Serves consoleOps d where
  write_count calls buf := by
    rw [after_consoleOps]
    dsimp only [consoleOps]
    rw [conWrite, if_neg (conRun_driver calls hdriver)]
  put_eq put hput d c := by
    obtain rfl := Option.mem_some_iff.mp hput
    rfl
  room room hroom calls := by
    obtain rfl := Option.mem_some_iff.mp hroom
    rw [after_consoleOps, conWriteRoom, hgo]
    decide

/-! ## Plain text stays plain -/

theorem toupper_ne_esc {c : UInt8} (hc : c.toNat ≠ 27) : (toupper c).toNat ≠ 27 := by
  have hall : ∀ n < 256, n ≠ 27 → (toupper (UInt8.ofNat n)).toNat ≠ 27 := by decide +kernel
  have h := hall c.toNat c.toNat_lt hc
  rwa [UInt8.ofNat_toNat] at h

theorem plain_cookChar (oflag : ℕ) (k : Columns) {c : UInt8} (hc : c.toNat ≠ 27) :
    Plain (cookChar oflag k c).1 := by
  by_cases hnl : c = 10
  · cases honl : oONLCR oflag <;> simp [cookChar, Plain, hnl, honl]
  by_cases hcr : c = 13
  · by_cases hno : oONOCR oflag = true ∧ k.column = 0
    · simp [cookChar, Plain, hcr, hno]
    · cases hocr : oOCRNL oflag <;> simp [cookChar, Plain, hcr, hno, hocr]
  by_cases hht : c = 9
  · cases hx : oXTABS oflag <;> simp [cookChar, Plain, hht, hx]
  by_cases hbs : c = 8
  · simp [cookChar, Plain, hbs]
  · rw [cookChar, if_neg hnl, if_neg hcr, if_neg hht, if_neg hbs]
    refine List.forall_mem_singleton.mpr ?_
    split_ifs
    · exact toupper_ne_esc hc
    · exact hc

theorem plain_cook (oflag : ℕ) : ∀ {l : List UInt8} (k : Columns), Plain l → Plain (cook oflag k l).1
  | [], _, _ => List.forall_mem_nil _
  | c :: l, k, h => by
      obtain ⟨hc, hl⟩ := List.forall_mem_cons.mp h
      exact List.forall_mem_append.mpr ⟨plain_cookChar oflag k hc, plain_cook oflag _ hl⟩

/-! ## Writes to the terminal -/

/-- A terminal whose output processing is on and whose console shows a page. -/
structure TtyShows (tty : Tty VtTty) (p : Page) : Prop where
  opost : oOPOST tty.oflag = true
  going : tty.drv.stopped = false
  shows : tty.drv.con.Shows p

/-- What `n_tty_write` makes of a text, on a page. -/
def Tty.page (tty : Tty VtTty) (p : Page) (text : List UInt8) : Page :=
  p.write (cook tty.oflag tty.columns text).1

/-- **However plain text is cut into writes**, they return, and the screen shows the page that output
processing makes of it. -/
theorem nTtyRun_page {tty : Tty VtTty} {p : Page} (h : TtyShows tty p) {bufs : List (List UInt8)}
    (hplain : Plain bufs.flatten) (hfits : (tty.page p bufs.flatten).Fits tty.drv.con.vga) :
    (nTtyRun consoleOps tty bufs).Returns fun tty' => TtyShows tty' (tty.page p bufs.flatten) ∧
      tty'.oflag = tty.oflag ∧ tty'.columns = (cook tty.oflag tty.columns bufs.flatten).2 ∧
      tty'.drv.con.vga = tty.drv.con.vga ∧
      (((cook tty.oflag tty.columns bufs.flatten).1 = [] → tty.drv.con.CursorAt p) →
        tty'.drv.con.CursorAt (tty.page p bufs.flatten)) := by
  obtain ⟨calls, tty', hrun, hdrv, hoflag, hspell, hcolumns⟩ :=
    nTtyRun_calls (serves_consoleOps h.shows.onScreen.driver_ne_none h.going) h.opost bufs
  rw [after_consoleOps] at hdrv
  unfold Tty.page at *
  rw [← hspell] at hfits ⊢
  obtain ⟨hshow, hcursor⟩ := h.shows.run (hspell ▸ plain_cook tty.oflag tty.columns hplain) hfits
  refine ⟨tty', hrun, ⟨hoflag ▸ h.opost, ?_, ?_⟩, hoflag, ?_, ?_, fun hstart => ?_⟩
  · rw [hdrv]
    exact h.going
  · rw [hdrv]
    exact hshow
  · exact hcolumns
  · rw [hdrv]
    exact conRun_vga calls tty.drv.con
  · rw [hdrv]
    refine hcursor fun hnil => hstart ?_
    rw [hnil, List.flatten_nil]

/-! ## From boot -/

theorem bootTty_ttyShows {oflag : ℕ} (hopost : oOPOST oflag = true) {si : ScreenInfo} (h : BootFits si)
    (hx : (bootVc si).x ≤ (bootVc si).cols) (hy : (bootVc si).y < (bootVc si).rows) (mem : ℕ → ℕ)
    {crtc : ℕ → ℕ} (hcrtc : crtc 0x0C = 0 ∧ crtc 0x0D = 0) :
    TtyShows (bootTty oflag si mem crtc) (bootPage si mem) :=
  ⟨hopost, rfl, bootConsole_shows h hx hy mem hcrtc⟩

/-- **From boot**, with output processing on: however a text without escapes is cut into writes, the
display shows the page of the boot loader with the processed text set on it, as long as that page is
inside video memory. -/
theorem bootTty_displays {oflag : ℕ} (hopost : oOPOST oflag = true) {si : ScreenInfo} (h : BootFits si)
    (hx : (bootVc si).x ≤ (bootVc si).cols) (hy : (bootVc si).y < (bootVc si).rows) (mem : ℕ → ℕ)
    {crtc : ℕ → ℕ} (hcrtc : crtc 0x0C = 0 ∧ crtc 0x0D = 0) {bufs : List (List UInt8)}
    (hplain : Plain bufs.flatten) (hne : (cook oflag ⟨0, 0⟩ bufs.flatten).1 ≠ [])
    (hfits : ((bootPage si mem).write (cook oflag ⟨0, 0⟩ bufs.flatten).1).Fits (bootVga si)) :
    (nTtyRun consoleOps (bootTty oflag si mem crtc) bufs).Returns fun tty =>
      tty.drv.con.Displays ((bootPage si mem).write (cook oflag ⟨0, 0⟩ bufs.flatten).1) :=
  (nTtyRun_page (bootTty_ttyShows hopost h hx hy mem hcrtc) hplain hfits).mono
    fun _ hrun => hrun.1.shows.displays (hrun.2.2.2.2 fun hnil => absurd hnil hne)

/-- `"Hi"` and `"\n!"`, on a cleared 80 by 25 screen. -/
theorem bootTty_displays_greeting :
    (nTtyRun consoleOps (bootTty stdOflag vgaText (fun _ => 0) fun _ => 0) [[72, 105], [10, 33]]).Returns
      fun tty => tty.drv.con.Displays
        ((bootPage vgaText fun _ => 0).write (cook stdOflag ⟨0, 0⟩ [72, 105, 10, 33]).1) :=
  bootTty_displays (by decide) vgaText_fits (by decide) (by decide) _ ⟨rfl, rfl⟩ (by simp [Plain])
    (by decide) (by unfold Page.Fits; decide +kernel)

end Sandix
