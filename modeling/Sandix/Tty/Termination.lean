import Sandix.Tty.Output

/-!
# Tty/Termination — when `n_tty_write` returns

A character `do_output_char` has no room for is retried, and a driver whose room stays as it is will
never have the room: the `OPOST` loop goes round for ever.  Whether every character of what is left
finds its room (`HasRoom`) is the same before and after every round (`opostRound_room`), so it is
decided by the buffer, the flags and the column the write starts with.

* `nTtyWrite_returns_iff` — on a driver of constant room, `n_tty_write` returns exactly when `OPOST` is
  off or every character of the buffer finds the room it needs.
-/

namespace Sandix

open Machinery

variable {σ : Type} {ops : TtyOps σ} {r : ℤ}

/-- A driver that takes every byte it is given, with `r` bytes of room at all times. -/
structure Takes (ops : TtyOps σ) (r : ℤ) : Prop where
  write_count : ∀ s buf, (ops.write s buf).1 = buf.length
  room : ∀ tty : Tty σ, ttyWriteRoom ops tty = r

/-- The room is a matter of what the next character becomes. -/
theorem hasRoom_cons_congr {oflag : ℕ} {k k' : Columns} {c : UInt8} (cs : List UInt8)
    (h : cookChar oflag k c = cookChar oflag k' c) :
    HasRoom oflag r k (c :: cs) ↔ HasRoom oflag r k' (c :: cs) := by
  rw [HasRoom, HasRoom, spaceNeeded_eq, spaceNeeded_eq, h]

/-- What is left for the `OPOST` loop finds its room. -/
def WriteLoop.HasRoom (r : ℤ) (s : WriteLoop σ) : Prop :=
  Sandix.HasRoom s.tty.oflag r s.tty.columns s.rest

/-- `process_output` on the next character: refused, it leaves the characters the room they had;
accepted, it leaves that of the characters after it. -/
theorem processOutput_room (h : Takes ops r) (hr : 0 ≤ r) (tty : Tty σ) (ch : UInt8)
    (rest : List UInt8) :
    ((processOutput ops ch tty).1 < 0 ∧ ¬ HasRoom tty.oflag r tty.columns (ch :: rest) ∧
      (processOutput ops ch tty).2.oflag = tty.oflag ∧
      ¬ HasRoom tty.oflag r (processOutput ops ch tty).2.columns (ch :: rest)) ∨
    (¬ (processOutput ops ch tty).1 < 0 ∧ (processOutput ops ch tty).2.oflag = tty.oflag ∧
      (HasRoom tty.oflag r (processOutput ops ch tty).2.columns rest ↔
        HasRoom tty.oflag r tty.columns (ch :: rest))) := by
  simp only [processOutput, h.room]
  rcases doOutputChar_spec ops tty ch hr with ⟨hlt, column, heq, hsame⟩ | ⟨hle, hpos, hemits⟩
  · have hno : ¬ HasRoom tty.oflag r tty.columns (ch :: rest) := fun hroom =>
      absurd hroom.1 (not_le.mpr hlt)
    rw [heq]
    exact Or.inl ⟨by simp, hno, rfl, fun hroom => hno ((hasRoom_cons_congr rest hsame).mp hroom)⟩
  · obtain ⟨hflag, hcols⟩ := hemits.frame
    refine Or.inr ⟨by rw [if_neg (not_lt.mpr hpos)]; decide, hflag, ?_⟩
    rw [hcols]
    exact ⟨fun hrest => ⟨hle, hrest⟩, And.right⟩

/-- **One round**: it leaves the loop with room for every character, or goes round with the room as it
was — and then, if there was room, with fewer characters left. -/
theorem opostRound_room (h : Takes ops r) (hr : 0 ≤ r) (s : WriteLoop σ) :
    (s.HasRoom r ∧ ∃ res, opostRound ops s = .ok (.inr res)) ∨
    ∃ s', opostRound ops s = .ok (.inl s') ∧ (s'.HasRoom r ↔ s.HasRoom r) ∧
      (s.HasRoom r → s'.rest.length < s.rest.length) := by
  unfold opostRound
  by_cases hnil : s.rest = []
  · refine Or.inl ⟨?_, _, if_pos hnil⟩
    rw [WriteLoop.HasRoom, hnil]
    exact trivial
  rw [if_neg hnil]
  obtain ⟨i, hi, k, hnum, hemits, -, ⟨hone, hzero⟩, hnext⟩ :=
    processOutputBlock_spec h.write_count s.tty s.rest
  rw [h.room] at hzero
  obtain ⟨hflag, hk⟩ := hemits.frame
  generalize processOutputBlock ops s.tty s.rest = p at *
  obtain ⟨num, t⟩ := p
  dsimp only at hnum hflag hk ⊢
  subst hnum
  rw [if_neg (by omega), Int.toNat_natCast]
  -- the characters of the block had their room, one byte each
  have hblock : HasRoom s.tty.oflag r s.tty.columns (s.rest.take i) := by
    rcases hr.eq_or_lt with h0 | hpos
    · rw [hzero h0.symm]
      exact trivial
    · exact hone.mono hpos
  have hsplit : s.HasRoom r ↔ HasRoom s.tty.oflag r
      (cook s.tty.oflag s.tty.columns (s.rest.take i)).2 (s.rest.drop i) := by
    have happ := hasRoom_append s.tty.oflag r (s.rest.take i) (s.rest.drop i) s.tty.columns
    rw [List.take_append_drop] at happ
    exact happ.trans (and_iff_right hblock)
  have hshort : (s.rest.drop i).length ≤ s.rest.length := by simp
  rw [hsplit]
  cases hrest : s.rest.drop i with
  | nil => exact Or.inl ⟨trivial, _, rfl⟩
  | cons ch rest =>
    rw [hrest, List.take_succ_cons, List.take_zero, cook_singleton, cook_singleton] at hnext
    rw [hrest] at hshort
    rw [← hasRoom_cons_congr rest hnext, ← show t.columns = k from hk,
      ← show t.oflag = s.tty.oflag from hflag]
    right
    rcases processOutput_room h hr t ch rest with ⟨hneg, hno, hflag', hno'⟩ | ⟨hneg, hflag', hiff⟩
    · refine ⟨_, if_pos hneg, ?_, fun hroom => absurd hroom hno⟩
      rw [WriteLoop.HasRoom, hflag']
      exact iff_of_false hno' hno
    · refine ⟨_, if_neg hneg, ?_, fun _ => hshort⟩
      rw [WriteLoop.HasRoom, hflag']
      exact hiff

/-- With room for every character the loop leaves, within a round a character. -/
theorem opostLoop_returns (h : Takes ops r) (hr : 0 ≤ r) {s : WriteLoop σ} (hroom : s.HasRoom r) :
    ∃ res, Exec.loop (opostRound ops) (s.rest.length + 1) s = .ok res := by
  have hstep : ∀ (n : ℕ) (s : WriteLoop σ), s.rest.length = n ∧ s.HasRoom r →
      (∃ n' s', opostRound ops s = .ok (.inl s') ∧ n' < n ∧ s'.rest.length = n' ∧ s'.HasRoom r) ∨
      ∃ res, opostRound ops s = .ok (.inr res) ∧ True := by
    rintro n s ⟨rfl, hs⟩
    rcases opostRound_room h hr s with ⟨-, res, heq⟩ | ⟨s', heq, hiff, hlt⟩
    · exact Or.inr ⟨res, heq, trivial⟩
    · exact Or.inl ⟨_, s', heq, hlt hs, rfl, hiff.mpr hs⟩
  obtain ⟨res, hloop, -⟩ :=
    Exec.loop_spec (opostRound ops) _ (fun _ => True) hstep ⟨rfl, hroom⟩ (Nat.lt_succ_self _)
  exact ⟨res, hloop⟩

/-- Without it the loop goes round for ever. -/
theorem opostLoop_diverges (h : Takes ops r) (hr : 0 ≤ r) {s : WriteLoop σ} (hroom : ¬ s.HasRoom r)
    (fuel : ℕ) (res : ℤ × Tty σ) : Exec.loop (opostRound ops) fuel s ≠ .ok res := by
  refine fun hloop => Exec.loop_inv (fun s => ¬ s.HasRoom r) (fun _ => False) ?_ ?_ hroom hloop
  · intro s s' hs hstep
    rcases opostRound_room h hr s with ⟨hs', -⟩ | ⟨s'', heq, hiff, -⟩
    · exact absurd hs' hs
    · obtain rfl := Sum.inl.inj (Except.ok.inj (hstep.symm.trans heq))
      exact fun hs' => hs (hiff.mp hs')
  · intro s b hs hstep
    rcases opostRound_room h hr s with ⟨hs', -⟩ | ⟨s', heq, -, -⟩
    · exact hs hs'
    · exact nomatch Except.ok.inj (hstep.symm.trans heq)

/-- The raw loop leaves in its second round at the latest. -/
theorem rawLoop_returns (h : Takes ops r) (s : WriteLoop σ) :
    ∃ res, Exec.loop (rawRound ops) 2 s = .ok res := by
  by_cases hnil : s.rest = []
  · exact ⟨_, Exec.loop_done (by rw [rawRound, if_pos hnil])⟩
  have hlen : s.rest.length ≠ 0 := by simpa using hnil
  have hround : rawRound ops s = .ok (.inl ⟨(ttyOpsWrite ops s.tty s.rest).2, [],
      s.done + s.rest.length⟩) := by
    have hcount : (ttyOpsWrite ops s.tty s.rest).1 = s.rest.length := h.write_count _ _
    rw [rawRound, if_neg hnil]
    simp only [hcount]
    rw [if_neg (by omega), if_neg (by omega), Int.toNat_natCast, List.drop_length]
  rw [Exec.loop_next hround]
  exact ⟨_, Exec.loop_done (by rw [rawRound, if_pos rfl])⟩

/-- **When `n_tty_write` returns.**  On a driver that takes every byte it is given and whose room is
always `r`, the write ends exactly when output processing is off or every character finds the room it
needs where the column has got to: two bytes for a newline under `ONLCR`, the spaces up to the next tab
stop for a tab under `XTABS`, one for any other. -/
theorem nTtyWrite_returns_iff (h : Takes ops r) (hr : 0 ≤ r) (tty : Tty σ) (buf : List UInt8) :
    (∃ fuel res, nTtyWrite ops fuel tty buf = .ok res) ↔
      (oOPOST tty.oflag = true → HasRoom tty.oflag r tty.columns buf) := by
  by_cases hopost : oOPOST tty.oflag = true
  · simp only [nTtyWrite, hopost, if_true, true_imp_iff]
    constructor
    · rintro ⟨fuel, res, hloop⟩
      by_contra hroom
      exact opostLoop_diverges h hr (s := ⟨tty, buf, 0⟩) hroom fuel res hloop
    · intro hroom
      obtain ⟨res, hloop⟩ := opostLoop_returns h hr (s := ⟨tty, buf, 0⟩) hroom
      exact ⟨_, res, hloop⟩
  · obtain ⟨res, hloop⟩ := rawLoop_returns h ⟨tty, buf, 0⟩
    exact iff_of_true ⟨2, res, by rw [nTtyWrite, if_neg hopost, hloop]⟩ fun hon => absurd hon hopost

/-- A driver that keeps what it is sent, with a room that never changes. -/
def roomOps (r : ℤ) : TtyOps (List UInt8) where
  write s buf := (buf.length, s ++ buf)
  putChar := none
  writeRoom := some fun _ => r

theorem roomOps_takes (r : ℤ) : Takes (roomOps r) r := ⟨fun _ _ => rfl, fun _ => rfl⟩

/-- A newline with `OPOST | ONLCR` and room for two bytes. -/
theorem nTtyWrite_returns_newline :
    ∃ fuel res, nTtyWrite (roomOps 2) fuel ⟨0o5, 0, 0, []⟩ [10] = .ok res :=
  (nTtyWrite_returns_iff (roomOps_takes 2) (by decide) ⟨0o5, 0, 0, []⟩ [10]).mpr
    fun _ => ⟨by decide, trivial⟩

/-- A stopped console has no room: one letter is written for ever. -/
theorem nTtyWrite_stopped_diverges :
    ¬ ∃ fuel res, nTtyWrite (roomOps 0) fuel ⟨0o5, 0, 0, []⟩ [97] = .ok res := by
  rintro ⟨fuel, res, hloop⟩
  rw [nTtyWrite, if_pos (by decide)] at hloop
  have hno : ¬ (⟨⟨0o5, 0, 0, []⟩, [97], 0⟩ : WriteLoop (List UInt8)).HasRoom 0 :=
    fun hroom => absurd hroom.1 (by decide)
  exact opostLoop_diverges (roomOps_takes 0) le_rfl hno fuel res hloop

end Sandix
