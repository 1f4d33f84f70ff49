import Sandix.Machinery.Run
import Sandix.Tty.Output

/-!
# Tty/Column — the column of N_TTY against the terminal's

The line discipline keeps `column` to expand tabs and to drop carriage returns at the left margin.  A
terminal moves right on every printable byte; neither path of N_TTY does, so the two part at the first
printable byte (`cookChar_tracks_iff`), and at the tab that carries the column past 32 bits.

* `nTtyRun_tracks_iff` — the column follows the terminal throughout a stream exactly when no byte of it
  is printable and its tabs stay below column `2 ^ 32`.
-/

namespace Sandix

open Machinery

/-! ## The terminal -/

/-- The column a terminal reaches on a byte. -/
def termColumn (oflag column : ℕ) (b : UInt8) : ℕ :=
  if b = 10 then if oONLRET oflag then 0 else column
  else if b = 13 then 0
  else if b = 9 then (column / 8 + 1) * 8
  else if b = 8 then column - 1
  else if isprint b then column + 1
  else column

/-- The column a terminal reaches on a stream of bytes. -/
def termColumns (oflag column : ℕ) (out : List UInt8) : ℕ := out.foldl (termColumn oflag) column

theorem termColumns_append (oflag column : ℕ) (a b : List UInt8) :
    termColumns oflag column (a ++ b) = termColumns oflag (termColumns oflag column a) b :=
  List.foldl_append

theorem termColumns_spaces (oflag : ℕ) : ∀ n column,
    termColumns oflag column (List.replicate n 32) = column + n
  | 0, _ => rfl
  | n + 1, column => by
      have hstep : termColumn oflag column 32 = column + 1 := rfl
      rw [List.replicate_succ, termColumns, List.foldl_cons, hstep, ← termColumns,
        termColumns_spaces oflag n]
      omega

/-- The column unprintable input leaves, translations made: what a terminal would show of it. -/
def inputColumn (oflag column : ℕ) (c : UInt8) : ℕ :=
  if c = 10 then if oONLCR oflag ∨ oONLRET oflag then 0 else column
  else if c = 13 then if oOCRNL oflag ∧ ¬ oONLRET oflag then column else 0
  else if c = 9 then (column / 8 + 1) * 8
  else if c = 8 then column - 1
  else column

/-- The column unprintable input leaves, byte by byte. -/
def inputColumns (oflag column : ℕ) (cs : List UInt8) : ℕ := cs.foldl (inputColumn oflag) column

/-! ## One character -/

/-- Upper case changes neither what is printable nor what is a control character. -/
theorem toupper_class (c : UInt8) :
    isprint (toupper c) = isprint c ∧ iscntrl (toupper c) = iscntrl c := by
  have hall : ∀ n < 256, isprint (toupper (UInt8.ofNat n)) = isprint (UInt8.ofNat n) ∧
      iscntrl (toupper (UInt8.ofNat n)) = iscntrl (UInt8.ofNat n) := by decide +kernel
  have hc := hall c.toNat c.toNat_lt
  rwa [UInt8.ofNat_toNat] at hc

theorem tabStop_eq (n : ℕ) : n + (8 - (n &&& 7)) = (n / 8 + 1) * 8 := by
  rw [and_seven]
  omega

/-- A character none of the translations touches, printed as it is or in upper case. -/
theorem cookChar_plain (oflag : ℕ) (k : Columns) {c : UInt8} (hnl : c ≠ 10) (hcr : c ≠ 13)
    (hht : c ≠ 9) (hbs : c ≠ 8) :
    (cookChar oflag k c).2 = k ∧ ∃ b, (cookChar oflag k c).1 = [b] ∧
      termColumn oflag k.column b = if isprint c then k.column + 1 else k.column := by
  simp only [cookChar, if_neg hnl, if_neg hcr, if_neg hht, if_neg hbs]
  refine ⟨trivial, _, rfl, ?_⟩
  by_cases hup : (!iscntrl c) = true ∧ oOLCUC oflag = true
  · obtain ⟨hprint, hcntrl⟩ := toupper_class c
    have hne : ∀ b, iscntrl b = true → toupper c ≠ b := by
      rintro b hb rfl
      rw [hcntrl] at hb
      simp [hb] at hup
    rw [if_pos hup, ← hprint]
    simp only [termColumn, if_neg (hne 10 (by decide)), if_neg (hne 13 (by decide)),
      if_neg (hne 9 (by decide)), if_neg (hne 8 (by decide))]
  · rw [if_neg hup]
    simp only [termColumn, if_neg hnl, if_neg hcr, if_neg hht, if_neg hbs]

/-- On unprintable characters the terminal follows the input. -/
theorem termColumns_cookChar (oflag : ℕ) (k : Columns) {c : UInt8} (hp : isprint c = false) :
    termColumns oflag k.column (cookChar oflag k c).1 = inputColumn oflag k.column c := by
  by_cases hnl : c = 10
  · cases honl : oONLCR oflag <;> cases hret : oONLRET oflag <;>
      simp [cookChar, inputColumn, termColumns, termColumn, hnl, honl, hret]
  by_cases hcr : c = 13
  · by_cases hno : oONOCR oflag = true ∧ k.column = 0
    · simp [cookChar, inputColumn, termColumns, hcr, hno]
    · cases hocr : oOCRNL oflag <;> cases hret : oONLRET oflag <;>
        simp [cookChar, inputColumn, termColumns, termColumn, hcr, hno, hocr, hret]
  by_cases hht : c = 9
  · cases hx : oXTABS oflag
    · simp [cookChar, inputColumn, termColumns, termColumn, hht, hx]
    · simp [cookChar, inputColumn, hht, hx, termColumns_spaces, tabStop_eq]
  by_cases hbs : c = 8
  · simp [cookChar, inputColumn, termColumns, termColumn, hbs]
  · obtain ⟨-, b, hout, hb⟩ := cookChar_plain oflag k hnl hcr hht hbs
    simp [hout, termColumns, hb, hp, inputColumn, hnl, hcr, hht, hbs]

/-- …and so does the line discipline, in 32 bits. -/
theorem cookChar_column (oflag : ℕ) (k : Columns) (c : UInt8) (hk : k.column < 2 ^ 32) :
    (cookChar oflag k c).2.column = inputColumn oflag k.column c % 2 ^ 32 := by
  by_cases hnl : c = 10
  · cases honl : oONLCR oflag <;> cases hret : oONLRET oflag <;>
      simp [cookChar, inputColumn, hnl, honl, hret]
    omega
  by_cases hcr : c = 13
  · by_cases hno : oONOCR oflag = true ∧ k.column = 0
    · simp [cookChar, inputColumn, hcr, hno]
    · cases hocr : oOCRNL oflag <;> cases hret : oONLRET oflag <;>
        simp [cookChar, inputColumn, hcr, hno, hocr, hret]
      omega
  by_cases hht : c = 9
  · simp [cookChar, inputColumn, hht, tabStop_eq]
  by_cases hbs : c = 8
  · simp [cookChar, inputColumn, hbs]
    omega
  · rw [(cookChar_plain oflag k hnl hcr hht hbs).1]
    simp [inputColumn, hnl, hcr, hht, hbs]
    omega

/-- On a printable character the terminal moves right, and the line discipline does not. -/
theorem cookChar_isprint (oflag : ℕ) (k : Columns) {c : UInt8} (hp : isprint c = true) :
    (cookChar oflag k c).2.column = k.column ∧
      termColumns oflag k.column (cookChar oflag k c).1 = k.column + 1 := by
  have hne : ∀ b, isprint b = false → c ≠ b := by
    rintro b hb rfl
    rw [hp] at hb
    exact absurd hb (by decide)
  obtain ⟨hk, b, hout, hb⟩ := cookChar_plain oflag k (hne 10 (by decide)) (hne 13 (by decide))
    (hne 9 (by decide)) (hne 8 (by decide))
  rw [hk, hout]
  rw [if_pos hp] at hb
  exact ⟨rfl, hb⟩

/-- **One character**: from the terminal's column, the line discipline reaches the terminal's column
exactly when the character is not printable and the column fits 32 bits. -/
theorem cookChar_tracks_iff (oflag : ℕ) (k : Columns) (c : UInt8) (hk : k.column < 2 ^ 32) :
    (cookChar oflag k c).2.column = termColumns oflag k.column (cookChar oflag k c).1 ↔
      isprint c = false ∧ inputColumn oflag k.column c < 2 ^ 32 := by
  cases hp : isprint c with
  | true =>
    obtain ⟨hcol, hterm⟩ := cookChar_isprint oflag k hp
    rw [hcol, hterm]
    simp
  | false =>
    rw [termColumns_cookChar oflag k hp, cookChar_column oflag k c hk]
    constructor
    · intro h
      exact ⟨rfl, h ▸ Nat.mod_lt _ (by decide)⟩
    · exact fun h => Nat.mod_eq_of_lt h.2

/-! ## A stream -/

/-- **A stream**: the columns agree after every prefix exactly when no byte is printable and no prefix
carries the column past 32 bits. -/
theorem cook_tracks_iff (oflag : ℕ) : ∀ (l : List UInt8) (k : Columns), k.column < 2 ^ 32 →
    ((∀ p, p <+: l → (cook oflag k p).2.column = termColumns oflag k.column (cook oflag k p).1) ↔
      (∀ c ∈ l, isprint c = false) ∧ ∀ p, p <+: l → inputColumns oflag k.column p < 2 ^ 32)
  | [], k, hk => by
      simp [cook, termColumns, inputColumns]
      exact hk
  | c :: l, k, hk => by
      have hcons : ∀ p, cook oflag k (c :: p) = ((cookChar oflag k c).1 ++
          (cook oflag (cookChar oflag k c).2 p).1, (cook oflag (cookChar oflag k c).2 p).2) :=
        fun _ => rfl
      have hinput : ∀ p, inputColumns oflag k.column (c :: p) =
          inputColumns oflag (inputColumn oflag k.column c) p := fun _ => rfl
      have htracks := cookChar_tracks_iff oflag k c hk
      have hcolumn := cookChar_column oflag k c hk
      rw [forall_prefix_cons, forall_prefix_cons, List.forall_mem_cons]
      simp only [hcons, hinput, termColumns_append]
      by_cases hstep : isprint c = false ∧ inputColumn oflag k.column c < 2 ^ 32
      · -- the columns still agree, and the rest of the stream decides
        have hagree := htracks.mpr hstep
        rw [Nat.mod_eq_of_lt hstep.2] at hcolumn
        have ih := cook_tracks_iff oflag l (cookChar oflag k c).2 (by rw [hcolumn]; exact hstep.2)
        rw [← hagree, ← hcolumn]
        constructor
        · rintro ⟨-, hall⟩
          obtain ⟨hplain, hfits⟩ := ih.mp hall
          exact ⟨⟨hstep.1, hplain⟩, hk, hfits⟩
        · rintro ⟨⟨-, hplain⟩, -, hfits⟩
          exact ⟨rfl, ih.mpr ⟨hplain, hfits⟩⟩
      · -- the columns part here
        refine iff_of_false ?_ ?_
        · rintro ⟨-, hall⟩
          exact hstep (htracks.mp (hall [] List.nil_prefix))
        · rintro ⟨⟨hplain, -⟩, -, hfits⟩
          exact hstep ⟨hplain, hfits [] List.nil_prefix⟩

/-! ## Runs -/

variable {σ : Type} {ops : TtyOps σ} {log : σ → List UInt8}

/-- A sequence of writes through `n_tty_write`. -/
def nTtyRun (ops : TtyOps σ) (tty : Tty σ) (bufs : List (List UInt8)) : Exec (Tty σ) :=
  execFrom (fun tty buf => do
    let res ← nTtyWrite ops (buf.length + 1) tty buf
    return res.2) tty bufs

/-- However a stream is cut into writes, the writes return, having sent what the stream becomes. -/
theorem nTtyRun_cooks (h : Receives ops log) : ∀ (bufs : List (List UInt8)) (tty : Tty σ),
    oOPOST tty.oflag = true → ∃ tty', nTtyRun ops tty bufs = .ok tty' ∧
      Sent log tty tty' (cook tty.oflag tty.columns bufs.flatten).1
        (cook tty.oflag tty.columns bufs.flatten).2
  | [], tty, _ => ⟨tty, rfl, rfl, (List.append_nil _).symm, rfl⟩
  | buf :: bufs, tty, hopost => by
      obtain ⟨tty₁, hwrite, hsent₁⟩ := nTtyWrite_cooks h hopost (Nat.lt_succ_self buf.length)
      obtain ⟨tty₂, hrun, hsent₂⟩ := nTtyRun_cooks h bufs tty₁ (by rw [hsent₁.oflag]; exact hopost)
      refine ⟨tty₂, ?_, ?_⟩
      · rw [nTtyRun, execFrom, List.foldlM_cons, hwrite]
        exact hrun
      · rw [hsent₁.oflag, hsent₁.columns] at hsent₂
        rw [List.flatten_cons, cook_append]
        refine ⟨hsent₂.oflag.trans hsent₁.oflag, ?_, hsent₂.columns⟩
        rw [hsent₂.log_eq, hsent₁.log_eq, List.append_assoc]

/-- The line discipline follows the terminal: having sent `out` since `tty`, it is at the terminal's
column, a tab would be expanded to the spaces up to the next tab stop, and a carriage return dropped
exactly at the left margin. -/
structure Tracks (ops : TtyOps σ) (log : σ → List UInt8) (tty tty' : Tty σ) (out : List UInt8) :
    Prop where
  log_eq : log tty'.drv = log tty.drv ++ out
  column : tty'.column = termColumns tty.oflag 0 out
  tab : oXTABS tty.oflag = true → ∃ t, nTtyWrite ops 2 tty' [9] = .ok (1, t) ∧
    log t.drv = log tty'.drv ++ List.replicate (8 - termColumns tty.oflag 0 out % 8) 32
  ret : oONOCR tty.oflag = true → ∃ t, nTtyWrite ops 2 tty' [13] = .ok (1, t) ∧
    (log t.drv = log tty'.drv ↔ termColumns tty.oflag 0 out = 0)

/-- With the column right, the translations that depend on it are. -/
theorem Sent.tracks {tty tty' : Tty σ} {out : List UInt8} {k : Columns} (h : Receives ops log)
    (hopost : oOPOST tty.oflag = true) (hsent : Sent log tty tty' out k)
    (hcol : k.column = termColumns tty.oflag 0 out) : Tracks ops log tty tty' out := by
  have hopost' : oOPOST tty'.oflag = true := by rw [hsent.oflag]; exact hopost
  refine ⟨hsent.log_eq, ?_, fun hx => ?_, fun hno => ?_⟩
  · rw [← hcol, ← hsent.columns]
    rfl
  · obtain ⟨t, hwrite, ht⟩ := nTtyWrite_cooks h hopost' (show ([9] : List UInt8).length < 2 by decide)
    refine ⟨t, hwrite, ?_⟩
    rw [ht.log_eq, cook_singleton, hsent.oflag, hsent.columns]
    simp [cookChar, hx, and_seven, hcol]
  · obtain ⟨t, hwrite, ht⟩ := nTtyWrite_cooks h hopost' (show ([13] : List UInt8).length < 2 by decide)
    refine ⟨t, hwrite, ?_⟩
    rw [ht.log_eq, cook_singleton, hsent.oflag, hsent.columns, ← hcol]
    by_cases h0 : k.column = 0
    · simp [cookChar, hno, h0]
    · cases hocr : oOCRNL tty.oflag <;> simp [cookChar, h0, hocr]

/-- **When the column is the terminal's.**  From column 0, on a driver that takes every byte: the line
discipline follows the terminal at every byte of a stream, however it is cut into writes, exactly when
no byte of the stream is printable and its tabs never carry the column past 32 bits. -/
theorem nTtyRun_tracks_iff (h : Receives ops log) (tty : Tty σ) (hopost : oOPOST tty.oflag = true)
    (hcol : tty.column = 0) (l : List UInt8) :
    (∀ bufs : List (List UInt8), bufs.flatten <+: l →
      ∃ tty' out, nTtyRun ops tty bufs = .ok tty' ∧ Tracks ops log tty tty' out) ↔
    (∀ c ∈ l, isprint c = false) ∧ ∀ p, p <+: l → inputColumns tty.oflag 0 p < 2 ^ 32 := by
  have hk : tty.columns.column = 0 := hcol
  have hiff := cook_tracks_iff tty.oflag l tty.columns (by rw [hk]; decide)
  rw [hk] at hiff
  rw [← hiff]
  constructor
  · intro hall p hp
    obtain ⟨tty', out, hrun, htracks⟩ := hall [p] (by simpa using hp)
    obtain ⟨tty₁, hrun₁, hsent⟩ := nTtyRun_cooks h [p] tty hopost
    obtain rfl := Except.ok.inj (hrun.symm.trans hrun₁)
    rw [List.flatten_singleton] at hsent
    have hout : out = (cook tty.oflag tty.columns p).1 :=
      List.append_cancel_left (htracks.log_eq.symm.trans hsent.log_eq)
    rw [← hout, ← htracks.column, ← hsent.columns]
    rfl
  · intro hall bufs hpre
    obtain ⟨tty', hrun, hsent⟩ := nTtyRun_cooks h bufs tty hopost
    exact ⟨tty', _, hrun, hsent.tracks h hopost (hall _ hpre)⟩

/-- Two tabs and a backspace with `XTABS`. -/
theorem nTtyRun_tracks_tabs : oOPOST 0o14001 = true ∧
    ∀ bufs : List (List UInt8), bufs.flatten <+: [9, 9, 8] →
      ∃ tty' out, nTtyRun logOps ⟨0o14001, 0, 0, []⟩ bufs = .ok tty' ∧
        Tracks logOps id ⟨0o14001, 0, 0, []⟩ tty' out := by
  have hcontrol : ∀ c ∈ ([9, 9, 8] : List UInt8), isprint c = false := by
    simp only [List.forall_mem_cons, List.not_mem_nil, false_imp_iff, implies_true, and_true]
    decide
  refine ⟨by decide, (nTtyRun_tracks_iff (logOps_accepts.receives le_rfl) ⟨0o14001, 0, 0, []⟩
    (by decide) rfl [9, 9, 8]).mpr ⟨hcontrol, ?_⟩⟩
  simp only [forall_prefix_cons, List.prefix_nil, forall_eq]
  decide

/-- A letter with `XTABS`: the terminal is at column 1, the line discipline at column 0, from where it
would expand a tab to eight spaces. -/
theorem nTtyRun_tracks_letter : ¬ ∀ bufs : List (List UInt8), bufs.flatten <+: [97] →
    ∃ tty' out, nTtyRun logOps ⟨0o14001, 0, 0, []⟩ bufs = .ok tty' ∧
      Tracks logOps id ⟨0o14001, 0, 0, []⟩ tty' out := by
  intro hall
  obtain ⟨tty', out, hrun, htracks⟩ := hall [[97]] List.prefix_rfl
  have hrun' : nTtyRun logOps ⟨0o14001, 0, 0, []⟩ [[97]] = .ok ⟨0o14001, 0, 0, [97]⟩ := rfl
  obtain rfl := Except.ok.inj (hrun.symm.trans hrun')
  have hout : [97] = out := htracks.log_eq
  have hcol := htracks.column
  rw [← hout] at hcol
  exact absurd hcol (by decide)

end Sandix
