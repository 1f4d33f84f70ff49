import Sandix.Console.CursorRun

/-!
# Console/Bounds — what the console stores to

Characters and scrolling use the coordinates, so they stay in video memory from every console on
screen (`vtNormal_inside`, `vtEsc_inside`).  The operations that erase, insert and delete start at
`vc_pos`, and stay inside when it is the address of the coordinates and the counts are those of the
row (`csiHandle_inside`): `DrawSafe` is that condition on the console before the byte.

* `bootConsole_inside` — along every run whose bytes are `DrawSafe`, every store from boot on is
  inside video memory.
* `bootConsole_outside` — deleting a character in the pending-wrap column is not.
-/

namespace Sandix

open Machinery

/-- Every cell the accesses store to is in video memory. -/
def Inside (vga : VgaVars) (ops : List ScrOp) : Prop :=
  ∀ op ∈ ops, ∀ a, op.Writes a → vga.vramBase ≤ a ∧ a < vga.vramEnd

variable {vga : VgaVars} {vc : VcStruct}

theorem inside_nil (vga : VgaVars) : Inside vga [] := by simp [Inside]

theorem Inside.append {ops ops' : List ScrOp} (h : Inside vga ops) (h' : Inside vga ops') :
    Inside vga (ops ++ ops') := by
  intro op hop
  rcases List.mem_append.mp hop with hop | hop
  · exact h op hop
  · exact h' op hop

theorem Inside.cons {op : ScrOp} {ops : List ScrOp}
    (h : ∀ a, op.Writes a → vga.vramBase ≤ a ∧ a < vga.vramEnd) (h' : Inside vga ops) :
    Inside vga (op :: ops) :=
  List.forall_mem_cons.mpr ⟨h, h'⟩

/-- A block of `count` cells from `d` on. -/
theorem block_inside {d count : ℕ} (hend : vga.vramEnd < 2 ^ 32) (hd : vga.vramBase ≤ d)
    (hlen : 0 < count → d + 2 * count ≤ vga.vramEnd + 1) {a : ℕ}
    (ha : ∃ i < count, a = (d + 2 * i) % 2 ^ 32) : vga.vramBase ≤ a ∧ a < vga.vramEnd := by
  obtain ⟨i, hi, rfl⟩ := ha
  have := hlen (by omega)
  omega

/-! ## Characters and scrolling -/

theorem vgaSetCursor_inside (vga : VgaVars) (vc : VcStruct) : Inside vga (vgaSetCursor vga vc) := by
  simp [Inside, vgaSetCursor, ScrOp.Writes]

theorem vgaSetMemTop_inside (vga : VgaVars) (vc : VcStruct) : Inside vga (vgaSetMemTop vga vc) := by
  simp [Inside, vgaSetMemTop, ScrOp.Writes]

theorem conCursor_inside (vga : VgaVars) (vc : VcStruct) : Inside vga (conCursor vga vc) := by
  unfold conCursor
  split_ifs
  · exact vgaSetCursor_inside vga vc
  · exact inside_nil vga

theorem conPutc_inside (h : OnScreen vga vc) (ch : ℕ) (hx : vc.x < vc.cols) :
    Inside vga (conPutc vc ch vc.y vc.x) := by
  have hb := h.bounds
  have haddr := h.window.addr_eq hx.le h.y_lt
  rw [conPutc, if_pos h.driver]
  refine Inside.cons (fun a ha => ?_) (inside_nil vga)
  unfold ScrOp.Writes vgaAddr at ha
  omega

theorem lineFeed_inside (h : OnScreen vga vc) : Inside vga (lineFeed vga vc).2 := by
  have hb := h.bounds
  rcases lineFeed_cases h.window h.y_lt with ⟨-, heq⟩ | ⟨-, heq⟩
  · rw [heq]
    exact inside_nil vga
  · by_cases hroom : RoomBelow vga vc
    · rw [heq, scrdown_room h.window h.driver h.rows_ge hroom]
      exact vgaSetMemTop_inside vga _
    · rw [heq, scrdown_wrap h.window h.driver h.rows_ge hroom]
      refine Inside.cons (fun a ha => block_inside (by omega) le_rfl (fun _ => ?_) ha) ?_
      · omega
      · exact (vgaSetCursor_inside vga _).append (vgaSetMemTop_inside vga _)

theorem vtNormal_inside (h : OnScreen vga vc) (c : ℕ) : Inside vga (vtNormal vga vc c).2 := by
  by_cases hc : 31 < c ∧ c < 127
  · rw [vtNormal_print h hc]
    refine Inside.append ?_ (conPutc_inside (afterWrap_onScreen h c) c (afterWrap_x_lt h hc.1))
    unfold afterWrap
    split_ifs
    · exact lineFeed_inside (beforeFeed_onScreen h c)
    · exact inside_nil vga
  · rcases vtNormal_control h hc with ⟨-, heq⟩ | ⟨-, x, pos, heq, -⟩
    · rw [heq]
      exact lineFeed_inside (beforeFeed_onScreen h c)
    · rw [heq]
      exact inside_nil vga

theorem vtEsc_inside (h : OnScreen vga vc) (c : ℕ) : Inside vga (vtEsc vga vc c).2 := by
  unfold vtEsc
  split
  · exact lineFeed_inside h
  all_goals exact inside_nil vga

/-! ## Erasing, inserting and deleting -/

/-- The count of `csi_P` and `csi_at` is within the row, but for the default of one in the
pending-wrap column. -/
theorem charCount_le (h : OnScreen vga vc) (hp : ¬ (vc.x = vc.cols ∧ vc.par 0 = 0)) :
    charCount vc ≤ vc.cols - vc.x := by
  have hb := h.bounds
  unfold charCount
  rw [sub32_of_le (by omega) h.x_le]
  split_ifs <;> omega

theorem csiP_inside (h : OnScreen vga vc) (hs : Synced vc)
    (hp : ¬ (vc.x = vc.cols ∧ vc.par 0 = 0)) : Inside vga (csiP vc) := by
  have hb := h.bounds
  have hle := charCount_le h hp
  unfold Synced at hs
  unfold csiP deleteChar
  generalize charCount vc = nr at *
  rw [sub32_of_le (by omega) h.x_le, sub32_of_le (by omega) hle]
  have hd : sub32 (sub32 ((vc.pos + 2 * vc.cols) % 2 ^ 32) (2 * vc.x)) (2 * nr) =
      vc.pos + 2 * (vc.cols - vc.x - nr) := by
    unfold sub32
    omega
  rw [hd]
  refine Inside.cons (fun a ha => ?_) (Inside.cons (fun a ha => ?_) (inside_nil vga))
  · exact block_inside (by omega) (by omega) (by omega) ha
  · exact block_inside (by omega) (by omega) (by omega) ha

theorem csiAt_inside (h : OnScreen vga vc) (hs : Synced vc)
    (hp : ¬ (vc.x = vc.cols ∧ vc.par 0 = 0))
    (hroom : vc.visibleOrigin + 2 * (vc.cols * vc.y + vc.cols) +
      2 * (vc.cols - vc.x - charCount vc) ≤ vga.vramEnd) : Inside vga (csiAt vc) := by
  have hb := h.bounds
  have hle := charCount_le h hp
  unfold Synced at hs
  unfold csiAt insertChar
  generalize charCount vc = nr at *
  rw [sub32_of_le (by omega) h.x_le, sub32_of_le (by omega) hle]
  refine Inside.cons (fun a ha => ?_) (Inside.cons (fun a ha => ?_) (inside_nil vga))
  · -- the destination is not below the source, so the copy runs down from past the row
    simp only [ScrOp.Writes] at ha
    rw [if_neg (by omega)] at ha
    refine block_inside (d := (vc.pos + 2 * nr) % 2 ^ 32 + 2 * (vc.cols - vc.x - nr)) ?_ ?_ ?_ ha
    all_goals omega
  · exact block_inside (by omega) (by omega) (by omega) ha

theorem csiX_inside (h : OnScreen vga vc) (hs : Synced vc) : Inside vga (csiX vc) := by
  have hb := h.bounds
  unfold Synced at hs
  unfold csiX
  rw [sub32_of_le (by omega) h.x_le]
  refine Inside.cons (fun a ha => ?_) (inside_nil vga)
  refine block_inside (by omega) (by omega) (fun _ => ?_) ha
  split_ifs <;> omega

theorem csiK_inside (h : OnScreen vga vc) (hs : vc.par 0 = 0 → Synced vc) :
    Inside vga (csiK vc) := by
  have hb := h.bounds
  unfold csiK
  split
  · rename_i hp
    have hs := hs hp
    unfold Synced at hs
    rw [sub32_of_le (by omega) h.x_le]
    refine Inside.cons (fun a ha => ?_) (inside_nil vga)
    exact block_inside (by omega) (by omega) (by omega) ha
  · exact inside_nil vga

theorem csiJ_inside (h : OnScreen vga vc)
    (hs : vc.par 0 = 0 ∨ vc.par 0 = 1 ∨ vc.par 0 = 3 → Synced vc)
    (hp : vc.par 0 = 1 ∨ vc.par 0 = 3 → vc.pos < vga.vramEnd) : Inside vga (csiJ vc) := by
  have hb := h.bounds
  have horigin := h.origin_eq
  unfold Synced at hs
  unfold csiJ
  split
  · have hs := hs (by omega)
    rw [sub32_of_le (by omega) (by omega), Nat.shiftRight_eq_div_pow]
    refine Inside.cons (fun a ha => ?_) (inside_nil vga)
    exact block_inside (by omega) (by omega) (by omega) ha
  · have hs := hs (by omega)
    have hp := hp (by omega)
    rw [sub32_of_le (by omega) (by omega), Nat.shiftRight_eq_div_pow]
    refine Inside.cons (fun a ha => ?_) (inside_nil vga)
    exact block_inside (by omega) (by omega) (by omega) ha
  · rw [Nat.mod_eq_of_lt (by omega)]
    refine Inside.cons (fun a ha => ?_) (inside_nil vga)
    exact block_inside (by omega) (by omega) (by omega) ha
  · have hs := hs (by omega)
    have hp := hp (by omega)
    rw [sub32_of_le (by omega) (by omega), Nat.shiftRight_eq_div_pow]
    refine Inside.cons (fun a ha => ?_) (inside_nil vga)
    exact block_inside (by omega) (by omega) (by omega) ha
  · exact inside_nil vga

/-- The final byte `c` of a control sequence draws inside the row or the screen: `vc_pos` is the
address of the coordinates, a deletion or insertion does not take its default count in the
pending-wrap column, an erasure up to the cursor does not start past the end of video memory, and
an insertion has room after the row for the cells `scr_memmovew` stores too far up. -/
def CsiSafe (vga : VgaVars) (vc : VcStruct) (c : ℕ) : Prop :=
  match Char.ofNat c with
  | 'J' =>
    (vc.par 0 = 0 ∨ vc.par 0 = 1 ∨ vc.par 0 = 3 → Synced vc) ∧
    (vc.par 0 = 1 ∨ vc.par 0 = 3 → vc.pos < vga.vramEnd)
  | 'K' => vc.par 0 = 0 → Synced vc
  | 'X' => Synced vc
  | 'P' => Synced vc ∧ ¬ (vc.x = vc.cols ∧ vc.par 0 = 0)
  | '@' =>
    Synced vc ∧ ¬ (vc.x = vc.cols ∧ vc.par 0 = 0) ∧
    vc.visibleOrigin + 2 * (vc.cols * vc.y + vc.cols) + 2 * (vc.cols - vc.x - charCount vc) ≤
      vga.vramEnd
  | _ => True

/-- The bytes that draw. -/
theorem csiHandle_ops (vc : VcStruct) {c : ℕ} (hJ : Char.ofNat c ≠ 'J') (hK : Char.ofNat c ≠ 'K')
    (hP : Char.ofNat c ≠ 'P') (hX : Char.ofNat c ≠ 'X') (hat : Char.ofNat c ≠ '@') :
    (csiHandle vc c).2 = [] := by
  unfold csiHandle
  split
  all_goals first
    | rfl
    | contradiction

theorem csiHandle_inside (h : OnScreen vga vc) {c : ℕ} (hc : CsiSafe vga vc c) :
    Inside vga (csiHandle vc c).2 := by
  unfold CsiSafe at hc
  split at hc
  · rename_i hJ
    simp only [csiHandle, hJ]
    exact csiJ_inside h hc.1 hc.2
  · rename_i hK
    simp only [csiHandle, hK]
    exact csiK_inside h hc
  · rename_i hX
    simp only [csiHandle, hX]
    exact csiX_inside h hc
  · rename_i hP
    simp only [csiHandle, hP]
    exact csiP_inside h hc.1 hc.2
  · rename_i hat
    simp only [csiHandle, hat]
    exact csiAt_inside h hc.1 hc.2.1 hc.2.2
  · rename_i hJ hK hX hP hat
    rw [csiHandle_ops vc hJ hK hP hX hat]
    exact inside_nil vga

/-! ## One byte, and whole runs -/

/-- What keeps a byte inside video memory, on the console before it. -/
def DrawSafe (vga : VgaVars) (t : Term) (c : ℕ) : Prop :=
  match t.scan.state with
  | .normal | .esc => True
  | .csiQuestion => CsiSafe vga (clearPar t.vc) c
  | .csiParameter | .csiHandle => CsiSafe vga t.vc c

theorem vtCsiParameter_inside (h : OnScreen vga vc) (n : ℕ) {c : ℕ} (hc : CsiSafe vga vc c) :
    Inside vga (vtCsiParameter vc n c).2 := by
  unfold vtCsiParameter
  split_ifs
  · exact inside_nil vga
  · exact inside_nil vga
  · exact csiHandle_inside (h.setNpar n) hc

theorem conStep_inside {t : Term} (h : OnScreen vga t.vc) {c : ℕ} (hc : DrawSafe vga t c) :
    Inside vga (conStep vga t c).2 := by
  obtain ⟨vc, state, n⟩ := t
  cases state with
  | normal => exact vtNormal_inside h c
  | esc =>
    rw [conStep]
    dsimp only
    split_ifs
    · exact inside_nil vga
    · exact vtEsc_inside h c
  | csiQuestion =>
    rw [conStep]
    dsimp only
    split_ifs
    · exact inside_nil vga
    · exact vtCsiParameter_inside (clearPar_onScreen h) 0 hc
  | csiParameter => exact vtCsiParameter_inside h n hc
  | csiHandle => exact csiHandle_inside h hc

theorem conSteps_inside : ∀ (bs : List UInt8) {t : Term}, OnScreen vga t.vc →
    (∀ p ∈ rounds vga t bs, DrawSafe vga p.1 p.2) → Inside vga (conSteps vga t bs).2
  | [], _, _, _ => inside_nil vga
  | b :: bs, t, h, hsafe => by
      obtain ⟨hb, hbs⟩ := List.forall_mem_cons.mp hsafe
      exact (conStep_inside h hb).append (conSteps_inside bs (conStep_onScreen h _) hbs)

/-- A call adds to the log only what is inside video memory. -/
theorem conWrite_inside {con : Console} (h : OnScreen con.vga con.vc) {buf : List UInt8}
    (hsafe : ∀ p ∈ writeRounds con buf, DrawSafe con.vga p.1 p.2) {a : ℕ}
    (ha : a ∈ (conWrite con buf).2.hw.written) :
    a ∈ con.hw.written ∨ con.vga.vramBase ≤ a ∧ a < con.vga.vramEnd := by
  rw [h.writeRounds_eq] at hsafe
  rw [conWrite, if_neg h.driver_ne_none] at ha
  have hops := ((conCursor_inside con.vga con.vc).append (conSteps_inside buf h hsafe)).append
    (conCursor_inside con.vga (conSteps con.vga ⟨con.vc, Scanner.start⟩ buf).1.vc)
  rcases mem_written_run.mp ha with ha | ⟨op, hop, ha⟩
  · exact Or.inl ha
  · exact Or.inr (hops op hop a ha)

theorem conRun_inside : ∀ (bufs : List (List UInt8)) (con : Console), OnScreen con.vga con.vc →
    (∀ p ∈ runRounds con bufs, DrawSafe con.vga p.1 p.2) →
    (∀ a ∈ con.hw.written, con.vga.vramBase ≤ a ∧ a < con.vga.vramEnd) →
    ∀ a ∈ (conRun con bufs).hw.written, con.vga.vramBase ≤ a ∧ a < con.vga.vramEnd
  | [], _, _, _, hlog => hlog
  | buf :: bufs, con, h, hsafe, hlog => by
      obtain ⟨hbuf, hbufs⟩ := List.forall_mem_append.mp hsafe
      have hrest := conRun_inside bufs (conWrite con buf).2 (conWrite_onScreen h buf)
      rw [conWrite_vga] at hrest
      refine hrest hbufs fun a ha => ?_
      rcases conWrite_inside h hbuf ha with ha | ha
      · exact hlog a ha
      · exact ha

/-- **Every store is inside video memory**, from a boot screen of at least 8 by 4 cells that fits
there with the cursor on it, along every run whose bytes are `DrawSafe`. -/
theorem bootConsole_inside {si : ScreenInfo} (h : BootFits si)
    (hx : (bootVc si).x ≤ (bootVc si).cols) (hy : (bootVc si).y < (bootVc si).rows)
    (mem crtc : ℕ → ℕ) (bufs : List (List UInt8))
    (hsafe : ∀ p ∈ runRounds (bootConsole si mem crtc) bufs, DrawSafe (bootVga si) p.1 p.2) :
    ∀ a ∈ (conRun (bootConsole si mem crtc) bufs).hw.written,
      (bootVga si).vramBase ≤ a ∧ a < (bootVga si).vramEnd :=
  conRun_inside bufs _ (h.onScreen hx hy) hsafe (by simp [bootConsole])

/-- `"A"`, then `CSI X` in a cell that is on the screen. -/
theorem bootConsole_inside_text :
    BootFits vgaText ∧
    ∀ a ∈ (conRun (bootConsole vgaText (fun _ => 0) fun _ => 0) [[65, 27, 91, 88]]).hw.written,
      (bootVga vgaText).vramBase ≤ a ∧ a < (bootVga vgaText).vramEnd := by
  refine ⟨vgaText_fits, ?_⟩
  refine bootConsole_inside vgaText_fits (by decide) (by decide) _ _ _ ?_
  refine List.forall_mem_cons.mpr ⟨trivial, List.forall_mem_cons.mpr ⟨trivial, ?_⟩⟩
  refine List.forall_mem_cons.mpr ⟨trivial, List.forall_mem_singleton.mpr ?_⟩
  change Synced (clearPar _)
  unfold Synced
  decide

/-- A full row, then `CSI P`: the count of the copy is `0 - 1`, and it runs past video memory. -/
theorem bootConsole_outside :
    BootFits vgaText ∧
    ¬ ∀ a ∈ (conRun (bootConsole vgaText (fun _ => 0) fun _ => 0)
        [List.replicate 80 65 ++ [27, 91, 80]]).hw.written,
      (bootVga vgaText).vramBase ≤ a ∧ a < (bootVga vgaText).vramEnd := by
  refine ⟨vgaText_fits, fun h => ?_⟩
  have hpast := (h 0xc00c00a0 ?_).2
  · exact absurd hpast (by decide)
  · refine mem_written_run.mpr (Or.inr ⟨.memcpyw 0xc00b80a0 0xc00b80a2 (2 ^ 32 - 1), ?_, ?_⟩)
    · decide +kernel
    · exact ⟨2 ^ 14, by decide, by decide⟩

end Sandix
