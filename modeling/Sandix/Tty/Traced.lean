import Sandix.Tty.Column

/-!
# Tty/Traced — what a driver is given

`n_tty_write` does nothing to a driver but call its operations, so it commutes with every map of driver
states that they commute with (`nTtyWrite_map`).  One such map forgets a trace: on a driver that keeps
every buffer it is given, with the state they lead to, the trace is there to be read; on the driver
itself, it happened all the same.

* `nTtyRun_calls` — a sequence of writes is a sequence of `write` calls of the driver, and what they
  spell is what output processing makes of the stream.
-/

namespace Sandix

open Machinery

variable {σ τ : Type} {ops : TtyOps σ} {ops' : TtyOps τ} {φ : τ → σ}

/-! ## Maps of drivers -/

/-- The terminal with its driver's state mapped. -/
def Tty.map (φ : τ → σ) (tty : Tty τ) : Tty σ := ⟨tty.oflag, tty.column, tty.canonColumn, φ tty.drv⟩

/-- The operations of one driver are those of another, seen through `φ`. -/
structure Through (φ : τ → σ) (ops' : TtyOps τ) (ops : TtyOps σ) : Prop where
  write : ∀ tty : Tty τ, ∀ buf, ttyOpsWrite ops (tty.map φ) buf =
    Prod.map id (Tty.map φ) (ttyOpsWrite ops' tty buf)
  put : ∀ tty : Tty τ, ∀ c, ttyPutChar ops (tty.map φ) c = Prod.map id (Tty.map φ) (ttyPutChar ops' tty c)
  room : ∀ tty : Tty τ, ttyWriteRoom ops (tty.map φ) = ttyWriteRoom ops' tty

/-- The loop of `n_tty_write`, with the driver's state mapped. -/
def WriteLoop.map (φ : τ → σ) (s : WriteLoop τ) : WriteLoop σ := ⟨s.tty.map φ, s.rest, s.done⟩

theorem ite_map_pair {α : Type} {P : Prop} [Decidable P] {a b : α × Tty σ} {a' b' : α × Tty τ}
    (ha : a = Prod.map id (Tty.map φ) a') (hb : b = Prod.map id (Tty.map φ) b') :
    (if P then a else b) = Prod.map id (Tty.map φ) (if P then a' else b') := by
  split_ifs
  · exact ha
  · exact hb

theorem ite_map_tty {P : Prop} [Decidable P] (a b : Tty τ) :
    (if P then a.map φ else b.map φ) = (if P then a else b).map φ := (apply_ite (Tty.map φ) P a b).symm

/-- The loop of `process_output_block` does not touch the driver. -/
theorem blockChar_map (tty : Tty τ) (ch : UInt8) :
    blockChar (tty.map φ) ch = Prod.map id (Tty.map φ) (blockChar tty ch) := by
  unfold blockChar
  refine ite_map_pair ?_ (ite_map_pair ?_ (ite_map_pair rfl (ite_map_pair ?_ (ite_map_pair rfl rfl))))
  · have hret : (if oONLRET (tty.map φ).oflag then { tty.map φ with column := 0 } else tty.map φ) =
        (if oONLRET tty.oflag then { tty with column := 0 } else tty).map φ :=
      ite_map_tty { tty with column := 0 } tty
    dsimp only
    rw [hret]
    generalize (if oONLRET tty.oflag then { tty with column := 0 } else tty) = t
    exact ite_map_pair rfl rfl
  · exact ite_map_pair rfl (ite_map_pair rfl rfl)
  · exact congrArg (Prod.mk true) (ite_map_tty { tty with column := tty.column - 1 } tty)

theorem blockScan_map : ∀ (buf : List UInt8) (tty : Tty τ),
    blockScan (tty.map φ) buf = Prod.map id (Tty.map φ) (blockScan tty buf)
  | [], _ => rfl
  | ch :: rest, tty => by
      simp only [blockScan, blockChar_map, Prod.map]
      split_ifs with hgo hgo'
      · rw [blockScan_map rest]
        rfl
      · exact absurd hgo hgo'
      · rename_i hgo'
        exact absurd hgo' hgo
      · rfl

section Through

variable (h : Through φ ops' ops)

include h

theorem Through.write_snd (tty : Tty τ) (buf : List UInt8) :
    (ttyOpsWrite ops (tty.map φ) buf).2 = (ttyOpsWrite ops' tty buf).2.map φ := by rw [h.write]; rfl

theorem Through.put_snd (tty : Tty τ) (c : UInt8) :
    (ttyPutChar ops (tty.map φ) c).2 = (ttyPutChar ops' tty c).2.map φ := by rw [h.put]; rfl

theorem doOutputChar_map (c : UInt8) (tty : Tty τ) (space : ℤ) :
    doOutputChar ops c (tty.map φ) space = Prod.map id (Tty.map φ) (doOutputChar ops' c tty space) := by
  have hw : ∀ (n : ℤ) (t : Tty τ) buf, (n, (ttyOpsWrite ops (t.map φ) buf).2) =
      Prod.map id (Tty.map φ) (n, (ttyOpsWrite ops' t buf).2) := fun n t buf =>
    congrArg (Prod.mk n) (h.write_snd t buf)
  have hp : ∀ (n : ℤ) (t : Tty τ) c, (n, (ttyPutChar ops (t.map φ) c).2) =
      Prod.map id (Tty.map φ) (n, (ttyPutChar ops' t c).2) := fun n t c =>
    congrArg (Prod.mk n) (h.put_snd t c)
  unfold doOutputChar
  refine ite_map_pair rfl (ite_map_pair ?_ (ite_map_pair ?_ (ite_map_pair ?_ (ite_map_pair ?_ ?_))))
  · have hret : (if oONLRET (tty.map φ).oflag then { tty.map φ with column := 0 } else tty.map φ) =
        (if oONLRET tty.oflag then { tty with column := 0 } else tty).map φ :=
      ite_map_tty { tty with column := 0 } tty
    dsimp only
    rw [hret]
    generalize (if oONLRET tty.oflag then { tty with column := 0 } else tty) = t
    exact ite_map_pair (ite_map_pair rfl (hw 2 { t with canonColumn := 0, column := 0 } [13, 10]))
      (hp 1 { t with canonColumn := t.column } 10)
  · have hret : (if oONLRET (tty.map φ).oflag then { tty.map φ with canonColumn := 0, column := 0 }
        else tty.map φ) =
        (if oONLRET tty.oflag then { tty with canonColumn := 0, column := 0 } else tty).map φ :=
      ite_map_tty { tty with canonColumn := 0, column := 0 } tty
    refine ite_map_pair rfl (ite_map_pair ?_ (hp 1 { tty with canonColumn := 0, column := 0 } 13))
    dsimp only
    rw [hret]
    exact hp 1 _ 10
  · exact ite_map_pair (ite_map_pair rfl (hw _ { tty with column := _ } _)) (hp 1 { tty with column := _ } 9)
  · have hback : (if (tty.map φ).column > 0 then { tty.map φ with column := (tty.map φ).column - 1 }
        else tty.map φ) = (if tty.column > 0 then { tty with column := tty.column - 1 } else tty).map φ :=
      ite_map_tty { tty with column := tty.column - 1 } tty
    dsimp only
    rw [hback]
    exact hp 1 _ 8
  · exact hp 1 tty _

theorem processOutput_map (ch : UInt8) (tty : Tty τ) :
    processOutput ops ch (tty.map φ) = Prod.map id (Tty.map φ) (processOutput ops' ch tty) := by
  simp only [processOutput, h.room, doOutputChar_map h]
  rfl

theorem processOutputBlock_map (tty : Tty τ) (buf : List UInt8) :
    processOutputBlock ops (tty.map φ) buf = Prod.map id (Tty.map φ) (processOutputBlock ops' tty buf) := by
  simp only [processOutputBlock, h.room, blockScan_map]
  refine ite_map_pair rfl ?_
  exact h.write _ _

/-- One round of either loop. -/
theorem opostRound_map (s : WriteLoop τ) : opostRound ops (s.map φ) =
    (opostRound ops' s).map (Sum.map (WriteLoop.map φ) (Prod.map id (Tty.map φ))) := by
  unfold opostRound
  by_cases hnil : s.rest = []
  · rw [if_pos hnil, if_pos (show (s.map φ).rest = [] from hnil)]
    rfl
  rw [if_neg hnil, if_neg (show ¬(s.map φ).rest = [] from hnil),
    show processOutputBlock ops (s.map φ).tty (s.map φ).rest = _ from processOutputBlock_map h s.tty s.rest]
  generalize processOutputBlock ops' s.tty s.rest = r
  obtain ⟨num, t⟩ := r
  dsimp only [Prod.map]
  by_cases hneg : num < 0
  · rw [if_pos (show id num < 0 from hneg), if_pos hneg]
    by_cases hagain : num = -eagain
    · rw [if_pos (show id num = -eagain from hagain), if_pos hagain]
      rfl
    · rw [if_neg (show ¬id num = -eagain from hagain), if_neg hagain]
      rfl
  · rw [if_neg (show ¬id num < 0 from hneg), if_neg hneg,
      show (s.map φ).rest.drop (id num).toNat = s.rest.drop num.toNat from rfl]
    cases s.rest.drop num.toNat with
    | nil => rfl
    | cons ch rest =>
      dsimp only
      rw [processOutput_map h]
      generalize processOutput ops' ch t = q
      obtain ⟨ret, t'⟩ := q
      dsimp only [Prod.map]
      by_cases hret : ret < 0
      · rw [if_pos (show id ret < 0 from hret), if_pos hret]
        rfl
      · rw [if_neg (show ¬id ret < 0 from hret), if_neg hret]
        rfl

theorem rawRound_map (s : WriteLoop τ) : rawRound ops (s.map φ) =
    (rawRound ops' s).map (Sum.map (WriteLoop.map φ) (Prod.map id (Tty.map φ))) := by
  unfold rawRound
  by_cases hnil : s.rest = []
  · rw [if_pos hnil, if_pos (show (s.map φ).rest = [] from hnil)]
    rfl
  rw [if_neg hnil, if_neg (show ¬(s.map φ).rest = [] from hnil),
    show ttyOpsWrite ops (s.map φ).tty (s.map φ).rest = _ from h.write s.tty s.rest]
  generalize ttyOpsWrite ops' s.tty s.rest = r
  obtain ⟨num, t⟩ := r
  dsimp only [Prod.map]
  by_cases hneg : num < 0
  · rw [if_pos (show id num < 0 from hneg), if_pos hneg]
    rfl
  · rw [if_neg (show ¬id num < 0 from hneg), if_neg hneg]
    by_cases hzero : num = 0
    · rw [if_pos (show id num = 0 from hzero), if_pos hzero]
      rfl
    · rw [if_neg (show ¬id num = 0 from hzero), if_neg hzero]
      rfl

/-- **`n_tty_write` commutes with a map of drivers.** -/
theorem nTtyWrite_map (fuel : ℕ) (tty : Tty τ) (buf : List UInt8) : nTtyWrite ops fuel (tty.map φ) buf =
    (nTtyWrite ops' fuel tty buf).map (Prod.map id (Tty.map φ)) := by
  unfold nTtyWrite
  by_cases hopost : oOPOST tty.oflag
  · rw [if_pos hopost, if_pos (show oOPOST (tty.map φ).oflag from hopost)]
    exact Exec.loop_map (opostRound_map h) fuel ⟨tty, buf, 0⟩
  · rw [if_neg hopost, if_neg (show ¬oOPOST (tty.map φ).oflag from hopost)]
    exact Exec.loop_map (rawRound_map h) fuel ⟨tty, buf, 0⟩

end Through

/-! ## The trace -/

/-- The state calls of `write` lead to. -/
def TtyOps.after (ops : TtyOps σ) (s₀ : σ) (calls : List (List UInt8)) : σ :=
  calls.foldl (fun s buf => (ops.write s buf).2) s₀

theorem TtyOps.after_concat (ops : TtyOps σ) (s₀ : σ) (calls : List (List UInt8)) (buf : List UInt8) :
    ops.after s₀ (calls ++ [buf]) = (ops.write (ops.after s₀ calls) buf).2 := by
  rw [after, List.foldl_append]
  rfl

/-- From `s₀` on, the driver takes every byte and has room for any character; its `put_char` is a `write`
of one byte. -/
structure Serves (ops : TtyOps σ) (s₀ : σ) : Prop where
  write_count : ∀ calls buf, (ops.write (ops.after s₀ calls) buf).1 = buf.length
  put_eq : ∀ put ∈ ops.putChar, ∀ s c, put s c = ops.write s [c]
  room : ∀ room ∈ ops.writeRoom, ∀ calls, 8 ≤ room (ops.after s₀ calls)

/-- A state of the driver, with the calls of `write` that led to it. -/
structure Traced (ops : TtyOps σ) (s₀ : σ) where
  state : σ
  calls : List (List UInt8)
  state_eq : state = ops.after s₀ calls

section Trace

variable {s₀ : σ}

/-- One more call. -/
def Traced.push (t : Traced ops s₀) (buf : List UInt8) : Traced ops s₀ where
  state := (ops.write t.state buf).2
  calls := t.calls ++ [buf]
  state_eq := by rw [ops.after_concat, ← t.state_eq]

/-- The driver that keeps its trace. -/
def traced (ops : TtyOps σ) (s₀ : σ) : TtyOps (Traced ops s₀) where
  write t buf := ((ops.write t.state buf).1, t.push buf)
  putChar := ops.putChar.map fun _ t c => ((ops.write t.state [c]).1, t.push [c])
  writeRoom := ops.writeRoom.map fun room t => room t.state

/-- Without its trace, it is the driver. -/
theorem Serves.through (h : Serves ops s₀) : Through Traced.state (traced ops s₀) ops where
  write _ _ := rfl
  put tty c := by
    have hput := h.put_eq
    unfold ttyPutChar traced
    cases hp : ops.putChar with
    | none => rfl
    | some put =>
      rw [hp] at hput
      simp only [Option.map_some, Tty.map, hput put rfl]
      rfl
  room tty := by
    unfold ttyWriteRoom traced
    cases ops.writeRoom <;> rfl

/-- With its trace, it receives what the calls spell. -/
theorem Serves.receives (h : Serves ops s₀) : Receives (traced ops s₀) fun t => t.calls.flatten where
  write_count t buf := by
    dsimp only [traced]
    rw [t.state_eq]
    exact h.write_count t.calls buf
  write_log t buf := by
    dsimp only [traced, Traced.push]
    rw [List.flatten_append, List.flatten_singleton]
  put_log put hput t c := by
    obtain ⟨_, -, rfl⟩ := Option.map_eq_some_iff.mp hput
    dsimp only [Traced.push]
    rw [List.flatten_append, List.flatten_singleton]
  room tty := by
    have hroom := h.room
    unfold ttyWriteRoom traced
    cases hr : ops.writeRoom with
    | none => exact (by decide : (8 : ℤ) ≤ 2048)
    | some room =>
      dsimp only [Option.map_some]
      rw [tty.drv.state_eq]
      exact hroom room hr tty.drv.calls

end Trace

/-! ## Runs -/

theorem nTtyRun_map (h : Through φ ops' ops) : ∀ (bufs : List (List UInt8)) (tty : Tty τ),
    nTtyRun ops (tty.map φ) bufs = (nTtyRun ops' tty bufs).map (Tty.map φ)
  | [], _ => rfl
  | buf :: bufs, tty => by
      have hwrite := nTtyWrite_map h (buf.length + 1) tty buf
      simp only [nTtyRun, execFrom, List.foldlM_cons, hwrite]
      cases nTtyWrite ops' (buf.length + 1) tty buf with
      | error e => rfl
      | ok r => exact nTtyRun_map h bufs r.2

/-- **What the driver is given.**  However a stream is cut into writes, the driver is called with buffers
that spell what output processing makes of the stream. -/
theorem nTtyRun_calls {tty : Tty σ} (h : Serves ops tty.drv) (hopost : oOPOST tty.oflag = true)
    (bufs : List (List UInt8)) : ∃ calls tty', nTtyRun ops tty bufs = .ok tty' ∧
      tty'.drv = ops.after tty.drv calls ∧ tty'.oflag = tty.oflag ∧
      calls.flatten = (cook tty.oflag tty.columns bufs.flatten).1 ∧
      tty'.columns = (cook tty.oflag tty.columns bufs.flatten).2 := by
  obtain ⟨oflag, column, canonColumn, s₀⟩ := tty
  -- the same terminal, on the driver that keeps its trace
  obtain ⟨tty', hrun, hsent⟩ := nTtyRun_cooks h.receives bufs
    ⟨oflag, column, canonColumn, (⟨s₀, [], rfl⟩ : Traced ops s₀)⟩ hopost
  have hmap := nTtyRun_map h.through bufs ⟨oflag, column, canonColumn, (⟨s₀, [], rfl⟩ : Traced ops s₀)⟩
  rw [hrun] at hmap
  exact ⟨tty'.drv.calls, tty'.map Traced.state, hmap, tty'.drv.state_eq, hsent.oflag, hsent.log_eq,
    hsent.columns⟩

end Sandix
