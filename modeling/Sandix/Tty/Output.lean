import Sandix.Tty.NTty

/-!
# Tty/Output — the block path of N_TTY agrees with the character path

`cookChar` is what output processing means: the bytes one character becomes and the columns it
leaves.  `do_output_char` performs it (`doOutputChar_cooks`); a round of `process_output_block`
either performs it on a character that stays itself, or leaves columns from which the character
still becomes the same (`blockChar_cooks`).

* `nTtyWrite_eq_doOutputChar` — on a driver that takes every byte and always has room for eight,
  `n_tty_write` returns, having sent what the character path sends.
-/

namespace Sandix

open Machinery

/-! ## What output processing means -/

/-- The columns the line discipline tracks. -/
@[ext] structure Columns where
  column : ℕ
  canonColumn : ℕ
deriving DecidableEq, Repr

/-- The bytes a character becomes, and the columns it leaves. -/
def cookChar (oflag : ℕ) (k : Columns) (c : UInt8) : List UInt8 × Columns :=
  if c = 10 then
    let column := if oONLRET oflag then 0 else k.column
    if oONLCR oflag then ([13, 10], ⟨0, 0⟩) else ([10], ⟨column, column⟩)
  else if c = 13 then
    if oONOCR oflag ∧ k.column = 0 then ([], k)
    else if oOCRNL oflag then ([10], if oONLRET oflag then ⟨0, 0⟩ else k)
    else ([13], ⟨0, 0⟩)
  else if c = 9 then
    let spaces := 8 - (k.column &&& 7)
    (if oXTABS oflag then List.replicate spaces 32 else [9],
      { k with column := (k.column + spaces) % 2 ^ 32 })
  else if c = 8 then ([8], { k with column := k.column - 1 })
  else ([if !iscntrl c ∧ oOLCUC oflag then toupper c else c], k)

/-- The bytes a string becomes, and the columns it leaves. -/
def cook (oflag : ℕ) (k : Columns) : List UInt8 → List UInt8 × Columns
  | [] => ([], k)
  | c :: cs =>
    let r := cookChar oflag k c
    let r' := cook oflag r.2 cs
    (r.1 ++ r'.1, r'.2)

theorem cook_append (oflag : ℕ) : ∀ (a b : List UInt8) (k : Columns),
    cook oflag k (a ++ b) = ((cook oflag k a).1 ++ (cook oflag (cook oflag k a).2 b).1,
      (cook oflag (cook oflag k a).2 b).2)
  | [], _, _ => rfl
  | c :: a, b, k => by
      rw [List.cons_append, cook, cook, cook_append oflag a b]
      dsimp only
      rw [List.append_assoc]

theorem cook_singleton (oflag : ℕ) (k : Columns) (c : UInt8) :
    cook oflag k [c] = cookChar oflag k c := by
  simp [cook]

/-- The room `do_output_char` asks the driver for. -/
def spaceNeeded (oflag column : ℕ) (c : UInt8) : ℕ :=
  if c = 10 ∧ oONLCR oflag then 2
  else if c = 9 ∧ oXTABS oflag then 8 - (column &&& 7)
  else 1

theorem spaceNeeded_bounds (oflag column : ℕ) (c : UInt8) :
    1 ≤ spaceNeeded oflag column c ∧ spaceNeeded oflag column c ≤ 8 := by
  have hand : column &&& 7 ≤ 7 := Nat.and_le_right
  unfold spaceNeeded
  split_ifs <;> omega

theorem spaceNeeded_newline (oflag column : ℕ) :
    spaceNeeded oflag column 10 = if oONLCR oflag then 2 else 1 := by simp [spaceNeeded]

theorem spaceNeeded_tab (oflag column : ℕ) :
    spaceNeeded oflag column 9 = if oXTABS oflag then 8 - (column &&& 7) else 1 := by
  simp [spaceNeeded]

theorem spaceNeeded_other (oflag column : ℕ) {c : UInt8} (hnl : c ≠ 10) (hht : c ≠ 9) :
    spaceNeeded oflag column c = 1 := by simp [spaceNeeded, hnl, hht]

/-- The room follows from what the character becomes. -/
theorem spaceNeeded_eq (oflag : ℕ) (k : Columns) (c : UInt8) :
    spaceNeeded oflag k.column c = max 1 (cookChar oflag k c).1.length := by
  have hand : k.column &&& 7 ≤ 7 := Nat.and_le_right
  unfold spaceNeeded cookChar
  by_cases hnl : c = 10
  · cases honl : oONLCR oflag <;> simp [hnl]
  by_cases hcr : c = 13
  · simp only [hcr]
    split_ifs <;> simp_all
  by_cases hht : c = 9
  · cases hx : oXTABS oflag <;> simp [hht]
    omega
  simp only [hnl, hcr, hht, false_and, if_false]
  split_ifs <;> rfl

/-- Every character of a string finds the room it needs, where the column has got to. -/
def HasRoom (oflag : ℕ) (r : ℤ) : Columns → List UInt8 → Prop
  | _, [] => True
  | k, c :: cs => spaceNeeded oflag k.column c ≤ r ∧ HasRoom oflag r (cookChar oflag k c).2 cs

theorem hasRoom_append (oflag : ℕ) (r : ℤ) : ∀ (a b : List UInt8) (k : Columns),
    HasRoom oflag r k (a ++ b) ↔ HasRoom oflag r k a ∧ HasRoom oflag r (cook oflag k a).2 b
  | [], _, _ => by simp [HasRoom, cook]
  | c :: a, b, k => by
      rw [List.cons_append, HasRoom, HasRoom, hasRoom_append oflag r a b, cook, and_assoc]

theorem HasRoom.mono {oflag : ℕ} {r r' : ℤ} (hr : r ≤ r') : ∀ {l : List UInt8} {k : Columns},
    HasRoom oflag r k l → HasRoom oflag r' k l
  | [], _, _ => trivial
  | _ :: _, _, h => ⟨h.1.trans hr, HasRoom.mono hr h.2⟩

/-! ## The driver -/

variable {σ : Type} {ops : TtyOps σ} {log : σ → List UInt8} {r : ℤ}

/-- A driver that takes every byte, with `r` bytes of room at all times; `log` is what it has been
sent. -/
structure Accepts (ops : TtyOps σ) (log : σ → List UInt8) (r : ℤ) : Prop where
  write_count : ∀ s buf, (ops.write s buf).1 = buf.length
  write_log : ∀ s buf, log (ops.write s buf).2 = log s ++ buf
  put_log : ∀ put ∈ ops.putChar, ∀ s c, log (put s c).2 = log s ++ [c]
  room : ∀ tty : Tty σ, ttyWriteRoom ops tty = r

/-- A driver that takes every byte, with room for any character at all times. -/
structure Receives (ops : TtyOps σ) (log : σ → List UInt8) : Prop where
  write_count : ∀ s buf, (ops.write s buf).1 = buf.length
  write_log : ∀ s buf, log (ops.write s buf).2 = log s ++ buf
  put_log : ∀ put ∈ ops.putChar, ∀ s c, log (put s c).2 = log s ++ [c]
  room : ∀ tty : Tty σ, 8 ≤ ttyWriteRoom ops tty

theorem Accepts.receives (h : Accepts ops log r) (hr : 8 ≤ r) : Receives ops log :=
  ⟨h.write_count, h.write_log, h.put_log, fun tty => by rw [h.room]; exact hr⟩

/-- The columns of a terminal. -/
def Tty.columns (tty : Tty σ) : Columns := ⟨tty.column, tty.canonColumn⟩

/-- The terminal with other columns. -/
def Tty.withColumns (tty : Tty σ) (k : Columns) : Tty σ :=
  { tty with column := k.column, canonColumn := k.canonColumn }

/-- The terminal has sent `out` since `tty`, and its columns are `k`. -/
structure Sent (log : σ → List UInt8) (tty tty' : Tty σ) (out : List UInt8) (k : Columns) : Prop where
  oflag : tty'.oflag = tty.oflag
  log_eq : log tty'.drv = log tty.drv ++ out
  columns : tty'.columns = k

theorem Receives.write_sent (h : Receives ops log) (tty : Tty σ) (buf : List UInt8) :
    Sent log tty (ttyOpsWrite ops tty buf).2 buf tty.columns :=
  ⟨rfl, h.write_log tty.drv buf, rfl⟩

theorem Receives.put_sent (h : Receives ops log) (tty : Tty σ) (c : UInt8) :
    Sent log tty (ttyPutChar ops tty c).2 [c] tty.columns := by
  unfold ttyPutChar
  split
  · rename_i put hput
    exact ⟨rfl, h.put_log put hput tty.drv c, rfl⟩
  · exact h.write_sent tty [c]

/-- What was sent does not depend on the columns it was sent from. -/
theorem Sent.of_columns {tty tty' : Tty σ} {out : List UInt8} {k k' : Columns}
    (h : Sent log (tty.withColumns k') tty' out k) : Sent log tty tty' out k :=
  ⟨h.oflag, h.log_eq, h.columns⟩

/-- What reaches the driver through one call, or none. -/
inductive Emits (ops : TtyOps σ) (tty : Tty σ) : List UInt8 → Tty σ → Prop
  | nothing : Emits ops tty [] tty
  | write (buf : List UInt8) : Emits ops tty buf (ttyOpsWrite ops tty buf).2
  | put (c : UInt8) : Emits ops tty [c] (ttyPutChar ops tty c).2

theorem Emits.sent {tty tty' : Tty σ} {out : List UInt8} (he : Emits ops tty out tty')
    (h : Receives ops log) : Sent log tty tty' out tty.columns := by
  cases he with
  | nothing => exact ⟨rfl, (List.append_nil _).symm, rfl⟩
  | write => exact h.write_sent tty out
  | put c => exact h.put_sent tty c

/-- The driver does not touch the line discipline's data. -/
theorem Emits.frame {tty tty' : Tty σ} {out : List UInt8} (he : Emits ops tty out tty') :
    tty'.oflag = tty.oflag ∧ tty'.columns = tty.columns := by
  cases he with
  | nothing => exact ⟨rfl, rfl⟩
  | write => exact ⟨rfl, rfl⟩
  | put c =>
    unfold ttyPutChar
    split <;> exact ⟨rfl, rfl⟩

/-- What `do_output_char` does with a character: without the room it needs, it is refused, and the
column it leaves still makes the same of the character; with it, the processing is performed. -/
def OutputSpec (ops : TtyOps σ) (tty : Tty σ) (c : UInt8) (space : ℤ) : Prop :=
  (space < spaceNeeded tty.oflag tty.column c ∧
    ∃ column, doOutputChar ops c tty space = (-1, { tty with column := column }) ∧
      cookChar tty.oflag ⟨column, tty.canonColumn⟩ c = cookChar tty.oflag tty.columns c) ∨
  (spaceNeeded tty.oflag tty.column c ≤ space ∧ 0 ≤ (doOutputChar ops c tty space).1 ∧
    Emits ops (tty.withColumns (cookChar tty.oflag tty.columns c).2)
      (cookChar tty.oflag tty.columns c).1 (doOutputChar ops c tty space).2)

section Characters

variable (ops) (tty : Tty σ) {space : ℤ}

theorem doOutputChar_newline (h : 0 < space) : OutputSpec ops tty 10 space := by
  have h0 : space ≠ 0 := by omega
  simp only [OutputSpec, spaceNeeded_newline, doOutputChar, cookChar, if_neg h0, if_true]
  cases honl : oONLCR tty.oflag with
  | false =>
    refine Or.inr ⟨by exact_mod_cast h, ?_⟩
    cases hret : oONLRET tty.oflag <;> simp only [honl, Bool.false_eq_true, if_true, if_false]
    · exact ⟨zero_le_one, .put 10⟩
    · exact ⟨zero_le_one, .put 10⟩
  | true =>
    by_cases hfit : space < 2
    · refine Or.inl ⟨by exact_mod_cast hfit, if oONLRET tty.oflag then 0 else tty.column, ?_, rfl⟩
      cases hret : oONLRET tty.oflag <;> simp [honl, hfit]
    · refine Or.inr ⟨by exact_mod_cast not_lt.mp hfit, ?_⟩
      cases hret : oONLRET tty.oflag <;>
        simp only [honl, hfit, Bool.false_eq_true, if_true, if_false]
      · exact ⟨zero_le_two, .write [13, 10]⟩
      · exact ⟨zero_le_two, .write [13, 10]⟩

theorem doOutputChar_return (h : 0 < space) : OutputSpec ops tty 13 space := by
  have h0 : space ≠ 0 := by omega
  have hneed := spaceNeeded_other tty.oflag tty.column (show (13 : UInt8) ≠ 10 by decide) (by decide)
  refine Or.inr ⟨by rw [hneed]; exact_mod_cast h, ?_⟩
  simp only [doOutputChar, cookChar, if_neg h0, show ¬ (13 : UInt8) = 10 by decide, if_true, if_false]
  by_cases hno : oONOCR tty.oflag ∧ tty.column = 0
  · rw [if_pos hno, if_pos (show oONOCR tty.oflag ∧ tty.columns.column = 0 from hno)]
    exact ⟨le_rfl, .nothing⟩
  rw [if_neg hno, if_neg (show ¬ (oONOCR tty.oflag ∧ tty.columns.column = 0) from hno)]
  cases hret : oONLRET tty.oflag <;> cases hocr : oOCRNL tty.oflag <;>
    simp only [Bool.false_eq_true, if_true, if_false]
  · exact ⟨zero_le_one, .put 13⟩
  · exact ⟨zero_le_one, .put 10⟩
  · exact ⟨zero_le_one, .put 13⟩
  · exact ⟨zero_le_one, .put 10⟩

theorem doOutputChar_tab (h : 0 < space) : OutputSpec ops tty 9 space := by
  have h0 : space ≠ 0 := by omega
  simp only [OutputSpec, spaceNeeded_tab, doOutputChar, cookChar, if_neg h0,
    show ¬ (9 : UInt8) = 10 by decide, show ¬ (9 : UInt8) = 13 by decide, if_true, if_false]
  cases hx : oXTABS tty.oflag with
  | false => exact Or.inr ⟨by exact_mod_cast h, zero_le_one, .put 9⟩
  | true =>
    simp only [if_true]
    by_cases hfit : space < ((8 - (tty.column &&& 7) : ℕ) : ℤ)
    · rw [if_pos hfit]
      exact Or.inl ⟨hfit, tty.column, rfl, rfl⟩
    · rw [if_neg hfit]
      exact Or.inr ⟨not_lt.mp hfit, Int.natCast_nonneg _, .write _⟩

theorem doOutputChar_plain (h : 0 < space) {c : UInt8} (hnl : c ≠ 10) (hcr : c ≠ 13) (hht : c ≠ 9) :
    OutputSpec ops tty c space := by
  have h0 : space ≠ 0 := by omega
  refine Or.inr ⟨by rw [spaceNeeded_other _ _ hnl hht]; exact_mod_cast h, ?_⟩
  simp only [doOutputChar, cookChar, if_neg h0, if_neg hnl, if_neg hcr, if_neg hht]
  by_cases hbs : c = 8
  · simp only [if_pos hbs]
    by_cases hpos : tty.column > 0
    · rw [if_pos hpos]
      exact ⟨zero_le_one, .put 8⟩
    · have hk : ({ tty.columns with column := tty.columns.column - 1 } : Columns) = tty.columns :=
        Columns.ext (by simp only [Tty.columns]; omega) rfl
      rw [if_neg hpos, hk]
      exact ⟨zero_le_one, .put 8⟩
  · simp only [if_neg hbs]
    exact ⟨zero_le_one, .put _⟩

/-- **One character**, whatever it is and whatever the room. -/
theorem doOutputChar_spec (c : UInt8) (h : 0 ≤ space) : OutputSpec ops tty c space := by
  rcases h.eq_or_lt with h0 | hpos
  · have hneed := (spaceNeeded_bounds tty.oflag tty.column c).1
    refine Or.inl ⟨by omega, tty.column, ?_, rfl⟩
    rw [doOutputChar, if_pos h0.symm]
  · by_cases hnl : c = 10
    · rw [hnl]
      exact doOutputChar_newline ops tty hpos
    by_cases hcr : c = 13
    · rw [hcr]
      exact doOutputChar_return ops tty hpos
    by_cases hht : c = 9
    · rw [hht]
      exact doOutputChar_tab ops tty hpos
    exact doOutputChar_plain ops tty hpos hnl hcr hht

end Characters

/-- With the room it needs, `do_output_char` performs the processing. -/
theorem doOutputChar_cooks (h : Receives ops log) (tty : Tty σ) (c : UInt8) :
    0 ≤ (doOutputChar ops c tty (ttyWriteRoom ops tty)).1 ∧
    Sent log tty (doOutputChar ops c tty (ttyWriteRoom ops tty)).2
      (cookChar tty.oflag tty.columns c).1 (cookChar tty.oflag tty.columns c).2 := by
  have hneed := (spaceNeeded_bounds tty.oflag tty.column c).2
  have hroom := h.room tty
  have hroom0 : 0 ≤ ttyWriteRoom ops tty := by omega
  rcases doOutputChar_spec ops tty c hroom0 with ⟨hlt, -⟩ | ⟨-, hpos, hemits⟩
  · omega
  · exact ⟨hpos, (hemits.sent h).of_columns⟩

/-! ## The block path -/

/-- A round of the block loop touches the columns alone. -/
theorem blockChar_frame (tty : Tty σ) (ch : UInt8) :
    (blockChar tty ch).2 = tty.withColumns (blockChar tty ch).2.columns := by
  simp only [blockChar]
  split_ifs <;> rfl

/-- A character the block loop passes stays itself; where the loop stops, the columns it leaves
still make the same of the character. -/
theorem blockChar_cooks (tty : Tty σ) (ch : UInt8) :
    ((blockChar tty ch).1 = true →
      cookChar tty.oflag tty.columns ch = ([ch], (blockChar tty ch).2.columns)) ∧
    ((blockChar tty ch).1 = false →
      cookChar tty.oflag (blockChar tty ch).2.columns ch = cookChar tty.oflag tty.columns ch) := by
  unfold blockChar cookChar
  by_cases hnl : ch = 10
  · simp only [if_pos hnl]
    cases hret : oONLRET tty.oflag <;> cases honl : oONLCR tty.oflag <;>
      simp [honl, hnl, Tty.columns]
  simp only [if_neg hnl]
  by_cases hcr : ch = 13
  · simp only [if_pos hcr]
    by_cases hno : oONOCR tty.oflag ∧ tty.column = 0
    · simp [hno, Tty.columns]
    rw [if_neg hno]
    cases hocr : oOCRNL tty.oflag <;> simp [hno, hcr, Tty.columns]
  simp only [if_neg hcr]
  by_cases hht : ch = 9
  · simp [hht]
  simp only [if_neg hht]
  by_cases hbs : ch = 8
  · by_cases h0 : tty.column > 0
    · simp [hbs, h0, Tty.columns]
    · have hcol : tty.column = 0 := by omega
      simp [hbs, hcol, Tty.columns]
  simp only [if_neg hbs]
  split_ifs <;> simp

/-- The characters the block loop passes stay themselves and need one byte of room each, and the next
one, if there is one, becomes what it should. -/
theorem blockScan_cooks : ∀ (buf rest : List UInt8) (tty : Tty σ),
    (blockScan tty buf).1 ≤ buf.length ∧
    (blockScan tty buf).2 = tty.withColumns (blockScan tty buf).2.columns ∧
    (cook tty.oflag tty.columns (buf.take (blockScan tty buf).1)).1 =
      buf.take (blockScan tty buf).1 ∧
    HasRoom tty.oflag 1 tty.columns (buf.take (blockScan tty buf).1) ∧
    cook tty.oflag (blockScan tty buf).2.columns
        (((buf ++ rest).drop (blockScan tty buf).1).take 1) =
      cook tty.oflag (cook tty.oflag tty.columns (buf.take (blockScan tty buf).1)).2
        (((buf ++ rest).drop (blockScan tty buf).1).take 1)
  | [], _, _ => ⟨le_rfl, rfl, rfl, trivial, rfl⟩
  | ch :: buf, rest, tty => by
      have hframe := blockChar_frame tty ch
      have hflag : (blockChar tty ch).2.oflag = tty.oflag := by rw [hframe]; rfl
      obtain ⟨hpass, hstop⟩ := blockChar_cooks tty ch
      rw [blockScan]
      by_cases hgo : (blockChar tty ch).1 = true
      · obtain ⟨hle, hframe', hsame, hroom, hnext⟩ := blockScan_cooks buf rest (blockChar tty ch).2
        rw [hflag] at hsame hroom hnext
        simp only [hgo, if_true, List.take_succ_cons, cook, hpass hgo, hsame]
        refine ⟨by simpa using hle, ?_, by simp, ⟨?_, ?_⟩, ?_⟩
        · rw [hframe']
          rw [hframe]
          rfl
        · rw [spaceNeeded_eq, hpass hgo]
          exact le_rfl
        · rw [hpass hgo]
          exact hroom
        · simpa using hnext
      · have hno : (blockChar tty ch).1 = false := by simpa using hgo
        simp only [hno, Bool.false_eq_true, if_false, List.take_zero, List.drop_zero, cook]
        refine ⟨by simp, hframe, trivial, trivial, ?_⟩
        rw [List.cons_append, List.take_succ_cons, cook, cook, hstop hno]

/-- **What `process_output_block` does**: it sends the characters it passes, and counts them. -/
theorem processOutputBlock_spec (hcount : ∀ s buf, (ops.write s buf).1 = buf.length) (tty : Tty σ)
    (buf : List UInt8) :
    ∃ i ≤ buf.length, ∃ k, (processOutputBlock ops tty buf).1 = i ∧
      Emits ops (tty.withColumns k) (buf.take i) (processOutputBlock ops tty buf).2 ∧
      (cook tty.oflag tty.columns (buf.take i)).1 = buf.take i ∧
      (HasRoom tty.oflag 1 tty.columns (buf.take i) ∧ (ttyWriteRoom ops tty = 0 → i = 0)) ∧
      cook tty.oflag k ((buf.drop i).take 1) =
        cook tty.oflag (cook tty.oflag tty.columns (buf.take i)).2 ((buf.drop i).take 1) := by
  unfold processOutputBlock
  generalize ttyWriteRoom ops tty = r
  by_cases hr : r = 0
  · rw [if_pos hr]
    exact ⟨0, Nat.zero_le _, tty.columns, rfl, .nothing, rfl, ⟨trivial, fun _ => rfl⟩, rfl⟩
  rw [if_neg hr]
  obtain ⟨hle, hframe, hsame, hroom, hnext⟩ :=
    blockScan_cooks (buf.take (u32 r)) (buf.drop (u32 r)) tty
  rw [List.take_append_drop] at hnext
  have htake : (buf.take (u32 r)).take (blockScan tty (buf.take (u32 r))).1 =
      buf.take (blockScan tty (buf.take (u32 r))).1 := by
    rw [List.take_take, min_eq_left]
    rw [List.length_take] at hle
    omega
  have hlen : (blockScan tty (buf.take (u32 r))).1 ≤ buf.length :=
    hle.trans (by simp)
  rw [htake] at hsame hroom hnext
  generalize blockScan tty (buf.take (u32 r)) = res at *
  refine ⟨res.1, hlen, res.2.columns, ?_, ?_, hsame, ⟨hroom, fun h0 => absurd h0 hr⟩, hnext⟩
  · simp only [ttyOpsWrite, hcount, List.length_take]
    omega
  · rw [← hframe]
    exact .write _

/-! ## The whole write -/

/-- The loop of `n_tty_write` has done `done` and has `s.rest` left of `buf`. -/
structure Progress (log : σ → List UInt8) (tty : Tty σ) (buf : List UInt8) (s : WriteLoop σ)
    (done : List UInt8) : Prop where
  split : done ++ s.rest = buf
  count : s.done = done.length
  sent : Sent log tty s.tty (cook tty.oflag tty.columns done).1
    (cook tty.oflag tty.columns done).2

theorem WriteLoop.result_of_done {s : WriteLoop σ} {buf : List UInt8} (h : s.done = buf.length) :
    s.result 0 = ((buf.length : ℤ), s.tty) := by
  unfold WriteLoop.result
  split_ifs with h0
  · rw [h]
  · rw [← h, not_not.mp h0]
    rfl

/-- **One round**: it leaves with the buffer done, or has done at least one more character. -/
theorem opostRound_progress (h : Receives ops log) {tty : Tty σ} {buf : List UInt8}
    {s : WriteLoop σ} {done : List UInt8} (hs : Progress log tty buf s done) :
    (∃ s' done', opostRound ops s = .ok (.inl s') ∧ s'.rest.length < s.rest.length ∧
      Progress log tty buf s' done') ∨
    ∃ tty', opostRound ops s = .ok (.inr ((buf.length : ℤ), tty')) ∧
      Sent log tty tty' (cook tty.oflag tty.columns buf).1 (cook tty.oflag tty.columns buf).2 := by
  obtain ⟨hsplit, hcount, hsent⟩ := hs
  unfold opostRound
  by_cases hnil : s.rest = []
  · rw [hnil, List.append_nil] at hsplit
    subst hsplit
    rw [if_pos hnil, WriteLoop.result_of_done hcount]
    exact Or.inr ⟨s.tty, rfl, hsent⟩
  rw [if_neg hnil]
  obtain ⟨i, hi, k, hnum, hemits, hsame, -, hnext⟩ :=
    processOutputBlock_spec h.write_count s.tty s.rest
  have hblock := (hemits.sent h).of_columns
  generalize processOutputBlock ops s.tty s.rest = p at *
  obtain ⟨num, t⟩ := p
  dsimp only at hnum hblock hnext ⊢
  subst hnum
  rw [if_neg (by omega)]
  have hflag := hsent.oflag
  have hk : t.columns = k := hblock.columns
  rw [hflag, hsent.columns] at hsame hnext
  -- what has been sent is what the first `i` characters of the rest become
  have hlog : log t.drv = log tty.drv ++
      (cook tty.oflag tty.columns (done ++ s.rest.take i)).1 := by
    rw [cook_append, hblock.log_eq, hsent.log_eq, hsame, List.append_assoc]
  have hlen : (done ++ s.rest.take i).length = s.done + i := by
    rw [List.length_append, List.length_take, min_eq_left hi, hcount]
  have hwhole : (done ++ s.rest.take i) ++ s.rest.drop i = buf := by
    rw [List.append_assoc, List.take_append_drop, hsplit]
  simp only [Int.toNat_natCast]
  have hend : cook tty.oflag t.columns ((s.rest.drop i).take 1) =
      cook tty.oflag (cook tty.oflag tty.columns (done ++ s.rest.take i)).2
        ((s.rest.drop i).take 1) := by
    rw [hk, hnext, cook_append]
  have hshort : (s.rest.drop i).length ≤ s.rest.length := by simp
  generalize done ++ s.rest.take i = done' at *
  cases hrest : s.rest.drop i with
  | nil =>
    rw [hrest, List.append_nil] at hwhole
    rw [hrest] at hend
    subst hwhole
    refine Or.inr ⟨t, ?_, hblock.oflag.trans hflag, hlog, congrArg Prod.snd hend⟩
    exact congrArg (fun x => Except.ok (Sum.inr x)) (WriteLoop.result_of_done hlen.symm)
  | cons ch rest =>
    rw [hrest, List.take_succ_cons, List.take_zero, cook_singleton, cook_singleton] at hend
    rw [hrest] at hwhole hshort
    obtain ⟨hret, hchar⟩ := doOutputChar_cooks h t ch
    rw [hblock.oflag.trans hflag, hend] at hchar
    rw [show (doOutputChar ops ch t (ttyWriteRoom ops t)).2 = (processOutput ops ch t).2 from rfl]
      at hchar
    refine Or.inl ⟨⟨(processOutput ops ch t).2, rest, s.done + i + 1⟩, done' ++ [ch], ?_, ?_, ?_⟩
    · have hgo : ¬ (processOutput ops ch t).1 < 0 := by simp [processOutput, not_lt.mpr hret]
      exact if_neg hgo
    · simpa using hshort
    · refine ⟨by simpa using hwhole, by simpa using hlen.symm, ?_, ?_, ?_⟩
      · exact hchar.oflag.trans (hblock.oflag.trans hflag)
      · rw [cook_append, cook_singleton, hchar.log_eq, hlog, List.append_assoc]
      · rw [cook_append, cook_singleton, hchar.columns]

/-- `n_tty_write` with output processing returns the length of the buffer, having sent what the
buffer becomes. -/
theorem nTtyWrite_cooks (h : Receives ops log) {tty : Tty σ}
    (hopost : oOPOST tty.oflag = true) {buf : List UInt8} {fuel : ℕ} (hfuel : buf.length < fuel) :
    ∃ tty', nTtyWrite ops fuel tty buf = .ok ((buf.length : ℤ), tty') ∧
      Sent log tty tty' (cook tty.oflag tty.columns buf).1 (cook tty.oflag tty.columns buf).2 := by
  have hstart : Progress log tty buf ⟨tty, buf, 0⟩ [] :=
    ⟨rfl, rfl, rfl, (List.append_nil _).symm, rfl⟩
  have hloop : ∃ b, Exec.loop (opostRound ops) fuel ⟨tty, buf, 0⟩ = .ok b ∧
      ∃ tty', b = ((buf.length : ℤ), tty') ∧
        Sent log tty tty' (cook tty.oflag tty.columns buf).1
          (cook tty.oflag tty.columns buf).2 := by
    refine Exec.loop_spec (opostRound ops)
      (fun k s => s.rest.length = k ∧ ∃ done, Progress log tty buf s done) _ ?_ ⟨rfl, [], hstart⟩ hfuel
    rintro k s ⟨rfl, done, hs⟩
    rcases opostRound_progress h hs with ⟨s', done', heq, hlt, hs'⟩ | ⟨tty', heq, hsent⟩
    · exact Or.inl ⟨_, s', heq, hlt, rfl, done', hs'⟩
    · exact Or.inr ⟨_, heq, tty', rfl, hsent⟩
  obtain ⟨b, hb, tty', rfl, hsent⟩ := hloop
  exact ⟨tty', by rw [nTtyWrite, if_pos hopost, hb], hsent⟩

/-- The character path: `do_output_char` on each byte in order. -/
def outputChars (ops : TtyOps σ) (tty : Tty σ) (buf : List UInt8) : Tty σ :=
  buf.foldl (fun tty c => (doOutputChar ops c tty (ttyWriteRoom ops tty)).2) tty

theorem outputChars_cooks (h : Receives ops log) : ∀ (buf : List UInt8) (tty : Tty σ),
    Sent log tty (outputChars ops tty buf) (cook tty.oflag tty.columns buf).1
      (cook tty.oflag tty.columns buf).2
  | [], tty => ⟨rfl, (List.append_nil _).symm, rfl⟩
  | c :: buf, tty => by
      obtain ⟨-, hchar⟩ := doOutputChar_cooks h tty c
      have hrest := outputChars_cooks h buf (doOutputChar ops c tty (ttyWriteRoom ops tty)).2
      rw [hchar.oflag, hchar.columns] at hrest
      rw [show outputChars ops tty (c :: buf) =
        outputChars ops (doOutputChar ops c tty (ttyWriteRoom ops tty)).2 buf from rfl, cook]
      refine ⟨hrest.oflag.trans hchar.oflag, ?_, hrest.columns⟩
      rw [hrest.log_eq, hchar.log_eq, List.append_assoc]

/-- **The block path agrees with the character path.**  On a driver that takes every byte and always
has the same room, of at least eight bytes, `n_tty_write` under `OPOST` returns the length of the
buffer, and has sent the same bytes and reached the same columns as `do_output_char` on each byte. -/
theorem nTtyWrite_eq_doOutputChar (h : Accepts ops log r) (hr : 8 ≤ r) (tty : Tty σ)
    (hopost : oOPOST tty.oflag = true) (buf : List UInt8) {fuel : ℕ} (hfuel : buf.length < fuel) :
    ∃ tty', nTtyWrite ops fuel tty buf = .ok ((buf.length : ℤ), tty') ∧
      log tty'.drv = log (outputChars ops tty buf).drv ∧
      tty'.column = (outputChars ops tty buf).column ∧
      tty'.canonColumn = (outputChars ops tty buf).canonColumn := by
  obtain ⟨tty', heq, hsent⟩ := nTtyWrite_cooks (h.receives hr) hopost hfuel
  have hchars := outputChars_cooks (h.receives hr) buf tty
  have hcols : tty'.columns = (outputChars ops tty buf).columns := by
    rw [hsent.columns, hchars.columns]
  refine ⟨tty', heq, ?_, congrArg Columns.column hcols, congrArg Columns.canonColumn hcols⟩
  rw [hsent.log_eq, hchars.log_eq]

/-- A driver that keeps what it is sent, with room for eight bytes. -/
def logOps : TtyOps (List UInt8) where
  write s buf := (buf.length, s ++ buf)
  putChar := none
  writeRoom := some fun _ => 8

theorem logOps_accepts : Accepts logOps id 8 :=
  ⟨fun _ _ => rfl, fun _ _ => rfl, fun _ hput => (nomatch hput), fun _ => rfl⟩

/-- `"a\tb\n"` with `ONLCR` and `XTABS`. -/
theorem nTtyWrite_eq_doOutputChar_tab :
    ∃ tty', nTtyWrite logOps 5 ⟨0o14005, 0, 0, []⟩ [97, 9, 98, 10] = .ok (4, tty') ∧
      tty'.drv = (outputChars logOps ⟨0o14005, 0, 0, []⟩ [97, 9, 98, 10]).drv ∧
      tty'.column = (outputChars logOps ⟨0o14005, 0, 0, []⟩ [97, 9, 98, 10]).column ∧
      tty'.canonColumn = (outputChars logOps ⟨0o14005, 0, 0, []⟩ [97, 9, 98, 10]).canonColumn :=
  nTtyWrite_eq_doOutputChar logOps_accepts le_rfl ⟨0o14005, 0, 0, []⟩ (by decide) [97, 9, 98, 10]
    (by decide)

end Sandix
