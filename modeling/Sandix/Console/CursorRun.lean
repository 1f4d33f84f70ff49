import Sandix.Console.Cursor

/-!
# Console/CursorRun — the cursor along every run from boot

The step lemmas of `Console/Cursor` carried over the rounds of a loop, over the calls of a run, and
back to the console that `vgacon_startup` and `vgacon_init` leave.

* `runRounds_onScreen`, `runRounds_synced_iff` — over runs from any console on screen.
* `BootFits.onScreen`, `BootFits.synced` — the console at boot.
* `bootConsole_cursorInv` — the two put together.
-/

namespace Sandix

open Machinery

variable {vga : VgaVars} {vc : VcStruct}

/-! ## Rounds and calls -/

theorem rounds_onScreen : ∀ (bs : List UInt8) {t : Term}, OnScreen vga t.vc →
    (∀ p ∈ rounds vga t bs, OnScreen vga p.1.vc) ∧ OnScreen vga (conSteps vga t bs).1.vc
  | [], _, h => ⟨by simp [rounds], h⟩
  | b :: bs, t, h => by
      obtain ⟨hmem, hlast⟩ := rounds_onScreen bs (conStep_onScreen h b.toNat)
      refine ⟨fun p hp => ?_, hlast⟩
      rcases List.mem_cons.mp hp with rfl | hp
      · exact h
      · exact hmem p hp

/-- Every round of a loop leaves the cursor synchronised exactly when every round is `CursorKept`,
and then the loop does. -/
theorem rounds_synced_iff : ∀ (bs : List UInt8) {t : Term}, OnScreen vga t.vc → Synced t.vc →
    ((∀ p ∈ rounds vga t bs, Synced (conStep vga p.1 p.2).1.vc) ↔
      ∀ p ∈ rounds vga t bs, CursorKept vga p.1 p.2) ∧
    ((∀ p ∈ rounds vga t bs, CursorKept vga p.1 p.2) → Synced (conSteps vga t bs).1.vc)
  | [], _, _, hs => ⟨by simp [rounds], fun _ => hs⟩
  | b :: bs, t, h, hs => by
      have hstep := conStep_synced_iff h hs b.toNat
      simp only [rounds, List.forall_mem_cons, hstep, conSteps]
      constructor
      · refine and_congr_right fun hk => ?_
        exact (rounds_synced_iff bs (conStep_onScreen h _) (hstep.mpr hk)).1
      · rintro ⟨hk, hrest⟩
        exact (rounds_synced_iff bs (conStep_onScreen h _) (hstep.mpr hk)).2 hrest

theorem conWrite_vga (con : Console) (buf : List UInt8) : (conWrite con buf).2.vga = con.vga := by
  unfold conWrite
  split_ifs <;> rfl

/-- With a driver, a call leaves the console its loop leaves. -/
theorem conWrite_vc {con : Console} (h : con.vc.driver ≠ none) (buf : List UInt8) :
    (conWrite con buf).2.vc = (conSteps con.vga ⟨con.vc, Scanner.start⟩ buf).1.vc := by
  rw [conWrite, if_neg h]

theorem OnScreen.driver_ne_none (h : OnScreen vga vc) : vc.driver ≠ none := by simp [h.driver]

theorem OnScreen.writeRounds_eq {con : Console} (h : OnScreen con.vga con.vc) (buf : List UInt8) :
    writeRounds con buf = rounds con.vga ⟨con.vc, Scanner.start⟩ buf :=
  if_neg h.driver_ne_none

/-- A call keeps the console on screen. -/
theorem conWrite_onScreen {con : Console} (h : OnScreen con.vga con.vc) (buf : List UInt8) :
    OnScreen (conWrite con buf).2.vga (conWrite con buf).2.vc := by
  rw [conWrite_vga, conWrite_vc h.driver_ne_none]
  exact (rounds_onScreen buf h).2

/-- Every round of a run starts on screen. -/
theorem runRounds_onScreen : ∀ (bufs : List (List UInt8)) (con : Console),
    OnScreen con.vga con.vc → ∀ p ∈ runRounds con bufs, OnScreen con.vga p.1.vc
  | [], _, _ => by simp [runRounds]
  | buf :: bufs, con, h => by
      intro p hp
      rw [runRounds, h.writeRounds_eq, List.mem_append] at hp
      rcases hp with hp | hp
      · exact (rounds_onScreen buf h).1 p hp
      · have hrest := runRounds_onScreen bufs _ (conWrite_onScreen h buf) p hp
        rwa [conWrite_vga] at hrest

/-- **The run lemma**: every round of a run leaves the cursor synchronised exactly when every round
is `CursorKept`. -/
theorem runRounds_synced_iff : ∀ (bufs : List (List UInt8)) (con : Console),
    OnScreen con.vga con.vc → Synced con.vc →
    ((∀ p ∈ runRounds con bufs, Synced (conStep con.vga p.1 p.2).1.vc) ↔
      ∀ p ∈ runRounds con bufs, CursorKept con.vga p.1 p.2)
  | [], _, _, _ => by simp [runRounds]
  | buf :: bufs, con, h, hs => by
      obtain ⟨hiff, hlast⟩ := rounds_synced_iff buf (t := ⟨con.vc, Scanner.start⟩) h hs
      simp only [runRounds, h.writeRounds_eq, List.forall_mem_append, hiff]
      refine and_congr_right fun hk => ?_
      have hs' : Synced (conWrite con buf).2.vc := by
        rw [conWrite_vc h.driver_ne_none]
        exact hlast hk
      have hrest := runRounds_synced_iff bufs _ (conWrite_onScreen h buf) hs'
      rwa [conWrite_vga] at hrest

/-! ## From boot -/

/-- The screen the boot loader left: at least 8 columns and 4 rows, inside video memory. -/
structure BootFits (si : ScreenInfo) : Prop where
  cols_ge : 8 ≤ (bootVc si).cols
  rows_ge : 4 ≤ (bootVc si).rows
  fits : (bootVga si).vramBase + (bootVc si).scrSize ≤ (bootVga si).vramEnd

theorem bootVga_called (si : ScreenInfo) : (bootVga si).hasCalledStartup = true := by
  unfold bootVga vgaconStartup
  split
  · assumption
  · split <;> rfl

/-- Also when the screen information was never filled in. -/
theorem bootVga_cols (si : ScreenInfo) : (bootVga si).videoNumCols = si.origVideoCols.toNat := by
  have hstart : ¬ (VgaVars.zero.hasCalledStartup = true) := by decide
  unfold bootVga vgaconStartup
  rw [if_neg hstart]
  split
  · rename_i hz
    rw [hz.2.2]
    rfl
  · rfl

/-- The start-up of a screen that has columns. -/
structure Started (si : ScreenInfo) (vga : VgaVars) : Prop where
  rows_lt : vga.videoNumRows < 2 ^ 8
  origin_eq : vga.visibleOrigin = vga.vramBase
  vramEnd_le : vga.vramEnd ≤ 0xC00C0000
  pos_eq : vga.pos = vga.vramBase + 2 * (vga.videoNumCols * vga.y + vga.x)

theorem bootVga_started {si : ScreenInfo} (h : si.origVideoCols ≠ 0) : Started si (bootVga si) := by
  have hne : ¬ (si.origVideoMode = 0 ∧ si.origVideoLines = 0 ∧ si.origVideoCols = 0) :=
    fun hz => h hz.2.2
  have hstart : ¬ (VgaVars.zero.hasCalledStartup = true) := by decide
  unfold bootVga vgaconStartup
  rw [if_neg hstart, if_neg hne]
  refine ⟨si.origVideoLines.toNat_lt, rfl, ?_, ?_⟩
  · dsimp only [physToVirt, pageOffset]
    split_ifs <;> omega
  · dsimp only
    omega

theorem bootVc_cols (si : ScreenInfo) : (bootVc si).cols = (bootVga si).videoNumCols := by
  unfold bootVc vgaconInit
  rw [bootVga_called]
  rfl

/-- A boot screen of at least 8 columns was started. -/
theorem BootFits.started {si : ScreenInfo} (h : BootFits si) : Started si (bootVga si) := by
  refine bootVga_started fun hz => ?_
  have hcols := h.cols_ge
  rw [bootVc_cols, bootVga_cols, hz] at hcols
  exact absurd hcols (by decide)

theorem Started.bootVc_eq {si : ScreenInfo} (h : Started si (bootVga si)) :
    bootVc si = { VcStruct.zero with
      driver := some .vga
      x := (bootVga si).x
      y := (bootVga si).y
      pos := (bootVga si).pos
      cols := (bootVga si).videoNumCols
      rows := (bootVga si).videoNumRows
      rowSize := 2 * (bootVga si).videoNumCols
      scrSize := 2 * ((bootVga si).videoNumCols * (bootVga si).videoNumRows)
      attr := (bootVga si).vramAttr
      origin := (bootVga si).vramBase
      scrEnd := ((bootVga si).vramBase +
        2 * ((bootVga si).videoNumCols * (bootVga si).videoNumRows)) % 2 ^ 32
      bottom := (bootVga si).videoNumRows
      visibleOrigin := (bootVga si).vramBase
      erasedChar := (bootVga si).erasedChar } := by
  have hcols : (bootVga si).videoNumCols < 2 ^ 8 := bootVga_cols si ▸ si.origVideoCols.toNat_lt
  have hrows := h.rows_lt
  have hrow : (bootVga si).videoNumCols * 2 % 2 ^ 32 = 2 * (bootVga si).videoNumCols := by omega
  have hprod : (bootVga si).videoNumCols * (bootVga si).videoNumRows < 2 ^ 8 * 2 ^ 8 :=
    Nat.mul_lt_mul'' hcols hrows
  have hscr : 2 * (bootVga si).videoNumCols * (bootVga si).videoNumRows % 2 ^ 32 =
      2 * ((bootVga si).videoNumCols * (bootVga si).videoNumRows) := by
    rw [Nat.mul_assoc]
    omega
  simp only [bootVc, vgaconInit, bootVga_called, hrow, hscr, h.origin_eq]
  rfl

/-- A boot screen whose cursor is on it, or just past its last column. -/
theorem BootFits.onScreen {si : ScreenInfo} (h : BootFits si) (hx : (bootVc si).x ≤ (bootVc si).cols)
    (hy : (bootVc si).y < (bootVc si).rows) : OnScreen (bootVga si) (bootVc si) := by
  have hstart := h.started
  obtain ⟨hcols, hrows, hfits⟩ := h
  have hlt : (bootVga si).videoNumCols < 2 ^ 8 := bootVga_cols si ▸ si.origVideoCols.toNat_lt
  have hend := hstart.vramEnd_le
  have hpos := hstart.pos_eq
  rw [hstart.bootVc_eq] at *
  have hrow : (bootVga si).videoNumCols * (bootVga si).y + (bootVga si).videoNumCols ≤
      (bootVga si).videoNumCols * (bootVga si).videoNumRows := Nat.mul_le_mul_left _ hy
  exact
    { driver := rfl
      cols_ge := hcols
      cols_lt := hlt
      rows_ge := hrows
      rows_lt := hstart.rows_lt
      rowSize_eq := rfl
      scrSize_eq := rfl
      vramEnd_lt := by omega
      origin_eq := rfl
      scrEnd_eq := by dsimp only at *; omega
      base_le := le_rfl
      end_le := by dsimp only at *; omega
      x_le := hx
      y_lt := hy
      savedX_le := Nat.zero_le _
      savedY_lt := by dsimp only [VcStruct.zero] at *; omega
      pos_lt := by dsimp only at *; omega }

theorem BootFits.synced {si : ScreenInfo} (h : BootFits si) : Synced (bootVc si) := by
  rw [h.started.bootVc_eq]
  exact h.started.pos_eq

/-- **The cursor along every run.**  From a boot screen of at least 8 by 4 cells that fits in video
memory, with the cursor on it: every byte of every sequence of `con_write` calls leaves the
bookkeeping invariant in place exactly when every byte is `CursorKept`. -/
theorem bootConsole_cursorInv {si : ScreenInfo} (h : BootFits si)
    (hx : (bootVc si).x < (bootVc si).cols) (hy : (bootVc si).y < (bootVc si).rows)
    (mem crtc : ℕ → ℕ) (bufs : List (List UInt8)) :
    (∀ p ∈ runRounds (bootConsole si mem crtc) bufs,
      CursorInv (bootVga si) (conStep (bootVga si) p.1 p.2).1.vc) ↔
    ∀ p ∈ runRounds (bootConsole si mem crtc) bufs, CursorKept (bootVga si) p.1 p.2 := by
  have hon := h.onScreen hx.le hy
  refine Iff.trans ?_ (runRounds_synced_iff bufs (bootConsole si mem crtc) hon h.synced)
  refine forall₂_congr fun p hp => ?_
  have hp' := runRounds_onScreen bufs (bootConsole si mem crtc) hon p hp
  exact (conStep_onScreen hp' p.2).cursorInv_iff

/-- An 80 by 25 VGA text screen with the cursor in its corner. -/
def vgaText : ScreenInfo := ⟨0, 0, 3, 80, 0, 25⟩

theorem vgaText_fits : BootFits vgaText := ⟨by decide, by decide, by decide⟩

/-- On it, `"A"` and a line feed keep the invariant. -/
theorem bootConsole_cursorInv_text :
    BootFits vgaText ∧ ∀ p ∈ runRounds (bootConsole vgaText (fun _ => 0) fun _ => 0) [[65, 10]],
      CursorInv (bootVga vgaText) (conStep (bootVga vgaText) p.1 p.2).1.vc := by
  refine ⟨vgaText_fits, ?_⟩
  refine (bootConsole_cursorInv vgaText_fits (by decide) (by decide) _ _ [[65, 10]]).mpr ?_
  intro p hp
  rcases List.mem_pair.mp hp with rfl | rfl
  · exact fun _ hy => absurd hy (by decide)
  · exact fun _ hy => absurd hy (by decide)

/-- `"A"`, then `ESC 8` with no cursor saved: the coordinates go home and the address does not. -/
theorem bootConsole_cursor_astray :
    (BootFits vgaText ∧ (bootVc vgaText).x < (bootVc vgaText).cols ∧
      (bootVc vgaText).y < (bootVc vgaText).rows) ∧
    ¬ ∀ p ∈ runRounds (bootConsole vgaText (fun _ => 0) fun _ => 0) [[65, 27, 56]],
      CursorInv (bootVga vgaText) (conStep (bootVga vgaText) p.1 p.2).1.vc := by
  refine ⟨⟨vgaText_fits, by decide, by decide⟩, fun h => ?_⟩
  have hlast := List.forall_mem_cons.mp (List.forall_mem_cons.mp (List.forall_mem_cons.mp h).2).2
  exact absurd hlast.1.pos_eq (by decide)

end Sandix
