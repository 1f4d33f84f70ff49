import Sandix.Console.Attributes

/-!
# Console/Stream — cutting the output into writes

`con_write` keeps the state of its scanner in local variables, so a call forgets it.  `Complete` is
the grammar of the byte strings that leave nothing to forget: plain bytes and whole escape
sequences.

* `complete_iff` — the scanner is back in `VT_NORMAL` after a string exactly when it is complete.
* `conWrite_append_iff` — a string can be written on its own, ahead of any other and on any console,
  with the same outcome, exactly when it is complete.
-/

namespace Sandix

open Machinery

/-! ## The scanner on its own -/

/-- The scanner after a byte in `VT_CSI_PARAMETER`. -/
def Scanner.nextPar (n c : ℕ) : Scanner :=
  if Char.ofNat c = ';' ∧ n < nPar - 1 then ⟨.csiParameter, n + 1⟩
  else if 48 ≤ c ∧ c ≤ 57 then ⟨.csiParameter, n⟩
  else ⟨.normal, n⟩

/-- The scanner after a byte. -/
def Scanner.next (s : Scanner) (c : ℕ) : Scanner :=
  match s.state with
  | .normal => { s with state := if c = 27 then .esc else .normal }
  | .esc => { s with state := if Char.ofNat c = '[' then .csiQuestion else .normal }
  | .csiQuestion => if Char.ofNat c = '?' then ⟨.csiParameter, 0⟩ else nextPar 0 c
  | .csiParameter => nextPar s.npar c
  | .csiHandle => { s with state := .normal }

/-- The scanner after a string. -/
def Scanner.scan (s : Scanner) (bs : List UInt8) : Scanner := bs.foldl (fun s b => s.next b.toNat) s

theorem Scanner.next_normal (n c : ℕ) :
    Scanner.next ⟨.normal, n⟩ c = ⟨if c = 27 then .esc else .normal, n⟩ := rfl

theorem Scanner.next_esc (n c : ℕ) :
    Scanner.next ⟨.esc, n⟩ c = ⟨if Char.ofNat c = '[' then .csiQuestion else .normal, n⟩ := rfl

theorem Scanner.next_csiQuestion (n c : ℕ) :
    Scanner.next ⟨.csiQuestion, n⟩ c =
      if Char.ofNat c = '?' then ⟨.csiParameter, 0⟩ else nextPar 0 c := rfl

theorem Scanner.next_csiParameter (n c : ℕ) :
    Scanner.next ⟨.csiParameter, n⟩ c = nextPar n c := rfl

theorem vtCsiParameter_scan (vc : VcStruct) (n c : ℕ) :
    (vtCsiParameter vc n c).1.scan = Scanner.nextPar n c := by
  unfold vtCsiParameter Scanner.nextPar
  split_ifs <;> rfl

/-- The scanner does not look at the console. -/
theorem conStep_scan (vga : VgaVars) (t : Term) (c : ℕ) :
    (conStep vga t c).1.scan = t.scan.next c := by
  obtain ⟨vc, state, n⟩ := t
  cases state with
  | normal => rfl
  | esc => simp only [conStep, Scanner.next]; split_ifs <;> rfl
  | csiQuestion =>
    simp only [conStep, Scanner.next]
    split_ifs
    · rfl
    · exact vtCsiParameter_scan _ 0 c
  | csiParameter => exact vtCsiParameter_scan vc n c
  | csiHandle => rfl

theorem conSteps_scan (vga : VgaVars) : ∀ (bs : List UInt8) (t : Term),
    (conSteps vga t bs).1.scan = t.scan.scan bs
  | [], _ => rfl
  | b :: bs, t => by
      rw [conSteps]
      dsimp only
      rw [conSteps_scan vga bs, conStep_scan]
      rfl

/-! ## Complete strings -/

/-- `CsiTail n l l'`: `l` is the rest of a control sequence that has used `n` separators, followed
by `l'`.  The sixteenth separator ends the sequence. -/
inductive CsiTail : ℕ → List UInt8 → List UInt8 → Prop
  | separator {n b l l'} : Char.ofNat b.toNat = ';' → n < nPar - 1 → CsiTail (n + 1) l l' →
      CsiTail n (b :: l) l'
  | digit {n b l l'} : 48 ≤ b.toNat ∧ b.toNat ≤ 57 → CsiTail n l l' → CsiTail n (b :: l) l'
  | final {n b l} : ¬ (Char.ofNat b.toNat = ';' ∧ n < nPar - 1) →
      ¬ (48 ≤ b.toNat ∧ b.toNat ≤ 57) → CsiTail n (b :: l) l

/-- A string of plain bytes and whole escape sequences. -/
inductive Complete : List UInt8 → Prop
  | nil : Complete []
  | plain {b l} : b.toNat ≠ 27 → Complete l → Complete (b :: l)
  | esc {e b l} : e.toNat = 27 → Char.ofNat b.toNat ≠ '[' → Complete l → Complete (e :: b :: l)
  | csi {e b l l'} : e.toNat = 27 → Char.ofNat b.toNat = '[' →
      (∀ q ∈ l.head?, Char.ofNat q.toNat ≠ '?') → CsiTail 0 l l' → Complete l' →
      Complete (e :: b :: l)
  | csiQuestion {e b q l l'} : e.toNat = 27 → Char.ofNat b.toNat = '[' →
      Char.ofNat q.toNat = '?' → CsiTail 0 l l' → Complete l' → Complete (e :: b :: q :: l)

theorem Scanner.scan_cons (s : Scanner) (b : UInt8) (bs : List UInt8) :
    s.scan (b :: bs) = (s.next b.toNat).scan bs := rfl

theorem CsiTail.length_lt {n : ℕ} {l l' : List UInt8} (h : CsiTail n l l') :
    l'.length < l.length := by
  induction h with
  | separator _ _ _ ih => rw [List.length_cons]; omega
  | digit _ _ ih => rw [List.length_cons]; omega
  | final _ _ => rw [List.length_cons]; omega

/-- A control sequence ends where its tail does, and then the scanner is back to plain bytes. -/
theorem CsiTail.scan {n : ℕ} {l l' : List UInt8} (h : CsiTail n l l') :
    ∃ m, Scanner.scan ⟨.csiParameter, n⟩ l = Scanner.scan ⟨.normal, m⟩ l' := by
  induction h with
  | @separator n b l l' hb hn _ ih =>
    obtain ⟨m, hm⟩ := ih
    refine ⟨m, ?_⟩
    rw [Scanner.scan_cons, Scanner.next_csiParameter, Scanner.nextPar, if_pos ⟨hb, hn⟩, hm]
  | @digit n b l l' hb _ ih =>
    obtain ⟨m, hm⟩ := ih
    have hsep : Char.ofNat b.toNat ≠ ';' := by
      obtain ⟨hlo, hhi⟩ := hb
      interval_cases b.toNat <;> decide
    refine ⟨m, ?_⟩
    rw [Scanner.scan_cons, Scanner.next_csiParameter, Scanner.nextPar,
      if_neg fun hc => hsep hc.1, if_pos hb, hm]
  | @final n b l hsep hdigit =>
    refine ⟨n, ?_⟩
    rw [Scanner.scan_cons, Scanner.next_csiParameter, Scanner.nextPar, if_neg hsep, if_neg hdigit]

/-- A control sequence that the scanner left has a tail. -/
theorem exists_csiTail : ∀ {l : List UInt8} {n : ℕ},
    (Scanner.scan ⟨.csiParameter, n⟩ l).state = .normal → ∃ l', CsiTail n l l'
  | [], _, h => by simp [Scanner.scan] at h
  | b :: l, n, h => by
      rw [Scanner.scan_cons, Scanner.next_csiParameter, Scanner.nextPar] at h
      split_ifs at h with hsep hdigit
      · obtain ⟨l', hl⟩ := exists_csiTail h
        exact ⟨l', .separator hsep.1 hsep.2 hl⟩
      · obtain ⟨l', hl⟩ := exists_csiTail h
        exact ⟨l', .digit hdigit hl⟩
      · exact ⟨l, .final hsep hdigit⟩

/-- The parameter count of a scanner in `VT_CSI_QUESTION` is about to be cleared. -/
theorem Scanner.scan_csiQuestion {n : ℕ} {l : List UInt8} (hl : l ≠ [])
    (h : ∀ q ∈ l.head?, Char.ofNat q.toNat ≠ '?') :
    Scanner.scan ⟨.csiQuestion, n⟩ l = Scanner.scan ⟨.csiParameter, 0⟩ l := by
  cases l with
  | nil => exact absurd rfl hl
  | cons q l =>
    rw [scan_cons, scan_cons, next_csiQuestion, next_csiParameter, if_neg (h q rfl)]

/-- After a complete string the scanner is back to plain bytes. -/
theorem Complete.scan {l : List UInt8} (h : Complete l) :
    ∀ n, (Scanner.scan ⟨.normal, n⟩ l).state = .normal := by
  induction h with
  | nil => exact fun _ => rfl
  | plain hb _ ih =>
    intro n
    rw [Scanner.scan_cons, Scanner.next_normal, if_neg hb]
    exact ih n
  | esc he hb _ ih =>
    intro n
    rw [Scanner.scan_cons, Scanner.next_normal, if_pos he, Scanner.scan_cons, Scanner.next_esc,
      if_neg hb]
    exact ih n
  | @csi e b l l' he hb hq htail _ ih =>
    intro n
    obtain ⟨m, hm⟩ := htail.scan
    have hne : l ≠ [] := List.ne_nil_of_length_pos (Nat.zero_lt_of_lt htail.length_lt)
    rw [Scanner.scan_cons, Scanner.next_normal, if_pos he, Scanner.scan_cons, Scanner.next_esc,
      if_pos hb, Scanner.scan_csiQuestion hne hq, hm]
    exact ih m
  | csiQuestion he hb hq htail _ ih =>
    intro n
    obtain ⟨m, hm⟩ := htail.scan
    rw [Scanner.scan_cons, Scanner.next_normal, if_pos he, Scanner.scan_cons, Scanner.next_esc,
      if_pos hb, Scanner.scan_cons, Scanner.next_csiQuestion, if_pos hq, hm]
    exact ih m

/-- A string that leaves the scanner in `VT_NORMAL` is complete. -/
theorem Complete.of_scan (l : List UInt8) {n : ℕ}
    (h : (Scanner.scan ⟨.normal, n⟩ l).state = .normal) : Complete l := by
  induction hk : l.length using Nat.strong_induction_on generalizing l n with
  | _ k ih =>
    subst hk
    rcases l with _ | ⟨e, l⟩
    · exact .nil
    rw [Scanner.scan_cons, Scanner.next_normal] at h
    by_cases he : e.toNat = 27
    · rw [if_pos he] at h
      rcases l with _ | ⟨b, l⟩
      · simp [Scanner.scan] at h
      rw [Scanner.scan_cons, Scanner.next_esc] at h
      by_cases hb : Char.ofNat b.toNat = '['
      · rw [if_pos hb] at h
        rcases l with _ | ⟨q, l⟩
        · simp [Scanner.scan] at h
        by_cases hq : Char.ofNat q.toNat = '?'
        · rw [Scanner.scan_cons, Scanner.next_csiQuestion, if_pos hq] at h
          obtain ⟨l', htail⟩ := exists_csiTail h
          obtain ⟨m, hm⟩ := htail.scan
          have hlt := htail.length_lt
          exact .csiQuestion he hb hq htail (ih _ (by simp; omega) l' (hm ▸ h) rfl)
        · have hq' : ∀ q' ∈ (q :: l).head?, Char.ofNat q'.toNat ≠ '?' := by simpa using hq
          rw [Scanner.scan_csiQuestion (List.cons_ne_nil q l) hq'] at h
          obtain ⟨l', htail⟩ := exists_csiTail h
          obtain ⟨m, hm⟩ := htail.scan
          have hlt := htail.length_lt
          exact .csi he hb hq' htail (ih _ (by simp at hlt ⊢; omega) l' (hm ▸ h) rfl)
      · rw [if_neg hb] at h
        exact .esc he hb (ih _ (by simp) l h rfl)
    · rw [if_neg he] at h
      exact .plain he (ih _ (by simp) l h rfl)

/-- **Complete strings** are those that leave the scanner where a call starts it. -/
theorem complete_iff (l : List UInt8) :
    Complete l ↔ (Scanner.start.scan l).state = .normal :=
  ⟨fun h => h.scan 0, fun h => .of_scan l h⟩

/-! ## A call, cut in two -/

theorem conSteps_append (vga : VgaVars) : ∀ (a b : List UInt8) (t : Term),
    conSteps vga t (a ++ b) = ((conSteps vga (conSteps vga t a).1 b).1,
      (conSteps vga t a).2 ++ (conSteps vga (conSteps vga t a).1 b).2)
  | [], _, _ => rfl
  | c :: a, b, t => by
      rw [List.cons_append, conSteps, conSteps]
      dsimp only
      rw [conSteps_append vga a b, List.append_assoc]

/-- Two scanners that will treat every string alike: the parameter count is read only in
`VT_CSI_PARAMETER`. -/
def Scanner.Agree (s s' : Scanner) : Prop :=
  s.state = s'.state ∧ (s.state = .csiParameter → s.npar = s'.npar)

theorem conStep_agree (vga : VgaVars) (vc : VcStruct) {s s' : Scanner} (h : s.Agree s') (c : ℕ) :
    (conStep vga ⟨vc, s⟩ c).1.vc = (conStep vga ⟨vc, s'⟩ c).1.vc ∧
    (conStep vga ⟨vc, s⟩ c).2 = (conStep vga ⟨vc, s'⟩ c).2 ∧
    (s.next c).Agree (s'.next c) := by
  obtain ⟨state, n⟩ := s
  obtain ⟨state', n'⟩ := s'
  obtain ⟨hstate, hn⟩ := h
  dsimp only at hstate hn
  subst hstate
  cases state with
  | normal =>
    refine ⟨rfl, rfl, rfl, fun hp => ?_⟩
    rw [Scanner.next_normal] at hp
    split_ifs at hp
  | esc =>
    refine ⟨?_, ?_, rfl, fun hp => ?_⟩
    · simp only [conStep]
      split_ifs <;> rfl
    · simp only [conStep]
      split_ifs <;> rfl
    · rw [Scanner.next_esc] at hp
      split_ifs at hp
  | csiQuestion => exact ⟨rfl, rfl, rfl, fun _ => rfl⟩
  | csiParameter =>
    rw [hn rfl]
    exact ⟨rfl, rfl, rfl, fun _ => rfl⟩
  | csiHandle =>
    refine ⟨rfl, rfl, rfl, fun hp => ?_⟩
    cases hp

theorem conSteps_agree (vga : VgaVars) : ∀ (bs : List UInt8) (vc : VcStruct) {s s' : Scanner},
    s.Agree s' → (conSteps vga ⟨vc, s⟩ bs).1.vc = (conSteps vga ⟨vc, s'⟩ bs).1.vc ∧
      (conSteps vga ⟨vc, s⟩ bs).2 = (conSteps vga ⟨vc, s'⟩ bs).2
  | [], _, _, _, _ => ⟨rfl, rfl⟩
  | b :: bs, vc, s, s', h => by
      obtain ⟨hvc, hops, hagree⟩ := conStep_agree vga vc h b.toNat
      have hnext : ∀ r : Scanner, (conStep vga ⟨vc, r⟩ b.toNat).1 =
          ⟨(conStep vga ⟨vc, r⟩ b.toNat).1.vc, r.next b.toNat⟩ :=
        fun r => Term.ext rfl (conStep_scan vga _ _)
      obtain ⟨hvc', hops'⟩ := conSteps_agree vga bs (conStep vga ⟨vc, s'⟩ b.toNat).1.vc hagree
      rw [conSteps, conSteps]
      dsimp only
      rw [hnext s, hnext s', hvc, hops, hvc', hops']
      exact ⟨rfl, rfl⟩

/-! ## The driver stays -/

theorem csiHandle_driver (vc : VcStruct) (c : ℕ) : (csiHandle vc c).1.driver = vc.driver := by
  by_cases hc : Char.ofNat c = 'm'
  · have hsgr : (csiHandle vc c).1 = csiM vc := by simp only [csiHandle, hc]
    rw [hsgr]
    exact congrArg Prod.fst (csiM_pen vc)
  · exact congrArg Prod.fst (csiHandle_pen vc hc)

theorem vtCsiParameter_driver (vc : VcStruct) (n c : ℕ) :
    (vtCsiParameter vc n c).1.vc.driver = vc.driver := by
  unfold vtCsiParameter
  split_ifs
  · rfl
  · rfl
  · exact csiHandle_driver _ c

theorem conStep_driver (vga : VgaVars) (t : Term) (c : ℕ) :
    (conStep vga t c).1.vc.driver = t.vc.driver := by
  unfold conStep
  split
  · exact congrArg Prod.fst (vtNormal_pen vga t.vc c)
  · split_ifs
    · rfl
    · exact congrArg Prod.fst (vtEsc_pen vga t.vc c)
  · split_ifs
    · rfl
    · exact vtCsiParameter_driver (clearPar t.vc) 0 c
  · exact vtCsiParameter_driver t.vc _ c
  · exact csiHandle_driver t.vc c

theorem conSteps_driver (vga : VgaVars) : ∀ (bs : List UInt8) (t : Term),
    (conSteps vga t bs).1.vc.driver = t.vc.driver
  | [], _ => rfl
  | _ :: bs, t => (conSteps_driver vga bs _).trans (conStep_driver vga t _)

/-! ## The outcome of a call -/

/-- The same console and the same screen contents. -/
def SameScreen (con con' : Console) : Prop := con.vc = con'.vc ∧ con.hw.mem = con'.hw.mem

/-- Drawing the cursor does not show on the screen. -/
theorem run_conCursor_mem (hw : Hw) (vga : VgaVars) (vc : VcStruct) :
    (hw.run (conCursor vga vc)).mem = hw.mem := by
  unfold conCursor
  split_ifs <;> rfl

/-- The screen a call leaves is the one its loop draws. -/
theorem conWrite_mem {con : Console} (h : con.vc.driver ≠ none) (buf : List UInt8) :
    (conWrite con buf).2.hw.mem =
      (con.hw.run (conSteps con.vga ⟨con.vc, Scanner.start⟩ buf).2).mem := by
  rw [conWrite, if_neg h]
  dsimp only
  rw [Hw.run_append, run_conCursor_mem, Hw.run_append]
  exact run_mem _ (run_conCursor_mem con.hw con.vga con.vc)

/-- A complete string can be written on its own. -/
theorem conWrite_append_of_complete {a : List UInt8} (ha : Complete a) (con : Console)
    (b : List UInt8) :
    SameScreen (conWrite con (a ++ b)).2 (conWrite (conWrite con a).2 b).2 := by
  by_cases hd : con.vc.driver = none
  · simp only [conWrite, hd, if_true]
    exact ⟨rfl, rfl⟩
  have hagree : (conSteps con.vga ⟨con.vc, Scanner.start⟩ a).1.scan.Agree Scanner.start := by
    have hnormal := (complete_iff a).mp ha
    rw [conSteps_scan]
    exact ⟨hnormal, fun hp => by simp [hnormal] at hp⟩
  have hd' : (conWrite con a).2.vc.driver ≠ none := by
    rw [conWrite_vc hd, conSteps_driver]
    exact hd
  obtain ⟨hvc, hops⟩ :=
    conSteps_agree con.vga b (conSteps con.vga ⟨con.vc, Scanner.start⟩ a).1.vc hagree
  constructor
  · rw [conWrite_vc hd, conWrite_vc hd', conWrite_vga, conWrite_vc hd, conSteps_append]
    exact hvc
  · rw [conWrite_mem hd, conWrite_mem hd', conWrite_vga, conWrite_vc hd, conSteps_append]
    dsimp only
    rw [Hw.run_append, hops]
    exact run_mem _ (conWrite_mem hd a).symm

/-- In an escape sequence, the byte `'c'` leaves the cursor where it is. -/
theorem conStep_c_x (vga : VgaVars) (t : Term) (h : t.scan.state ≠ .normal) :
    (conStep vga t 99).1.vc.x = t.vc.x := by
  obtain ⟨vc, state, n⟩ := t
  cases state with
  | normal => exact absurd rfl h
  | esc => rfl
  | csiQuestion => rfl
  | csiParameter => rfl
  | csiHandle => rfl

/-- At the start of a call it is printed, and the cursor moves. -/
theorem conStep_start_c_x {vga : VgaVars} {vc : VcStruct} (h : OnScreen vga vc) :
    (conStep vga ⟨vc, Scanner.start⟩ 99).1.vc.x ≠ vc.x := by
  have hcols := h.cols_ge
  have hx : (conStep vga ⟨vc, Scanner.start⟩ 99).1.vc.x = (afterWrap vga vc 99).1.x + 1 := by
    change (vtNormal vga vc 99).1.x = _
    rw [vtNormal_print h (by decide), advance]
  rw [hx, afterWrap]
  split_ifs with hwrap
  · rw [(lineFeed_column _ _).1]
    change 0 + 1 ≠ vc.x
    omega
  · exact Nat.succ_ne_self vc.x

/-- A string that ends within an escape sequence cannot: the byte after it is printed. -/
theorem conWrite_append_incomplete {a : List UInt8} (ha : ¬ Complete a) (mem crtc : ℕ → ℕ) :
    ¬ SameScreen (conWrite (bootConsole vgaText mem crtc) (a ++ [99])).2
      (conWrite (conWrite (bootConsole vgaText mem crtc) a).2 [99]).2 := by
  rintro ⟨hvc, -⟩
  have hboot : OnScreen (bootVga vgaText) (bootVc vgaText) :=
    vgaText_fits.onScreen (by decide) (by decide)
  have hon := (rounds_onScreen a (t := ⟨bootVc vgaText, Scanner.start⟩) hboot).2
  have hd : (bootConsole vgaText mem crtc).vc.driver ≠ none := hboot.driver_ne_none
  have hd' : (conWrite (bootConsole vgaText mem crtc) a).2.vc.driver ≠ none := by
    rw [conWrite_vc hd, conSteps_driver]
    exact hd
  have hstate : (conSteps (bootVga vgaText) ⟨bootVc vgaText, Scanner.start⟩ a).1.scan.state ≠
      .normal := by
    rw [conSteps_scan]
    exact fun hn => ha ((complete_iff a).mpr hn)
  have hx := congrArg VcStruct.x hvc
  rw [conWrite_vc hd, conWrite_vc hd', conWrite_vga, conWrite_vc hd, conSteps_append] at hx
  exact conStep_start_c_x hon (hx.symm.trans (conStep_c_x (bootVga vgaText) _ hstate))

/-- **Where a stream can be cut**: a string can be written on its own, ahead of every other and on
every console, exactly when it is complete. -/
theorem conWrite_append_iff (a : List UInt8) :
    (∀ con b, SameScreen (conWrite con (a ++ b)).2 (conWrite (conWrite con a).2 b).2) ↔
      Complete a := by
  constructor
  · intro h
    by_contra ha
    exact conWrite_append_incomplete ha (fun _ => 0) (fun _ => 0) (h _ [99])
  · exact fun ha con b => conWrite_append_of_complete ha con b

/-- `ESC [` and `H` in one call move the cursor; in two, the `H` is printed. -/
theorem conWrite_cut :
    ¬ SameScreen (conWrite (bootConsole vgaText (fun _ => 0) fun _ => 0) ([27, 91] ++ [72])).2
      (conWrite (conWrite (bootConsole vgaText (fun _ => 0) fun _ => 0) [27, 91]).2 [72]).2 :=
  fun h => absurd (congrArg VcStruct.x h.1) (by decide)

end Sandix
