import Sandix.Lib.FormatText

/-!
# Lib/FormatRun — the main loop of `vsnprintf`

A round of the loop reads one token of the format, and a token has a text (`token`).  The text of the
format is that of its tokens, one after the other (`formatText`), and no buffer appears in it.

* `mainLoop_returns` — the loop ends: a round moves on in the format, or gives up a pending `*`, and
  never looks past the NUL.
* `vsnprintf_truncates` — what `vsnprintf` leaves in memory is a prefix of `formatText` and a NUL, and
  what it returns is the length of `formatText`.
-/

namespace Sandix

open Machinery

/-! ## Tokens -/

/-- What `%c` leaves of the width after its leading spaces. -/
def charWidth (spec : PrintfSpec) : Int16 :=
  if spec.flags.left then spec.fieldWidth else downLeft 1 spec.fieldWidth

/-- The text of `%c`. -/
def charText (c : UInt8) (spec : PrintfSpec) : List UInt8 :=
  List.replicate (if spec.flags.left then 0 else downCount 1 spec.fieldWidth) (ascii ' ') ++ [c] ++
    List.replicate (downCount 1 (charWidth spec)) (ascii ' ')

/-- **`%c` writes `charText`.** -/
theorem putChar_eq (stop : ℕ) (k : Out) (c : UInt8) (spec : PrintfSpec) :
    putChar stop k c spec
      = .ok (downLeft 1 (charWidth spec), Out.puts stop k (charText c spec)) := by
  unfold putChar charText charWidth
  cases hleft : spec.flags.left with
  | true =>
    simp only [Bool.not_true, Bool.false_eq_true, if_false, if_true, Exec.pure_eq_ok, Exec.ok_bind,
      padDown_eq, List.replicate_zero, List.nil_append]
    rfl
  | false =>
    simp only [Bool.not_false, Bool.false_eq_true, if_false, if_true, Exec.ok_bind, padDown_eq]
    simp only [Out.puts, Sink.puts_append]
    rfl

/-- A round of the main loop, but for the buffer: the position after it, the specification, the next
argument and the text.  A verbatim text is a part of the format itself. -/
structure Token where
  pos : ℕ
  spec : PrintfSpec
  arg : ℕ
  text : List UInt8
  verbatim : Bool := false

section Main

variable (f : FormatString) (args : ℕ → UInt32) (m : ArgMemory)

/-- The token at `pos`. -/
def token (pos : ℕ) (spec : PrintfSpec) (arg : ℕ) : Exec Token := do
  let (read, spec) ← formatDecode f pos spec
  let next := pos + read
  let word := args arg
  match spec.type with
  | .none => pure ⟨next, spec, arg, (f.bytes.drop pos).take read, true⟩
  | .width =>
    pure { pos := next, spec := { spec with fieldWidth := Int16.ofInt (int32 word.toNat) },
           arg := arg + 1, text := [] }
  | .precision =>
    pure { pos := next, spec := { spec with precision := Int16.ofInt (int32 word.toNat) },
           arg := arg + 1, text := [] }
  | .char =>
    pure { pos := next, spec := { spec with fieldWidth := downLeft 1 (charWidth spec) },
           arg := arg + 1, text := charText word.toUInt8 spec }
  | .str =>
    pure { pos := next, spec, arg := arg + 1, text := stringText (argString m word.toNat) spec }
  | .ptr =>
    let after ← Exec.loop (alnumStep f) (f.length + 1) next
    pure { pos := after, spec, arg := arg + 1, text := pointerText f m next word.toNat spec }
  | .percentChar => pure { pos := next, spec, arg, text := [ascii '%'] }
  | .invalid => pure { pos := next, spec, arg, text := [ascii '%'] }
  | _ =>
    let (num, words) := vaNumber args arg spec
    pure { pos := next, spec, arg := arg + words, text := numberText num spec }

/-- A token into the buffer. -/
def Token.write (t : Token) (stop : ℕ) (k : Out) : Out :=
  if t.verbatim then putText stop k t.text else Out.puts stop k t.text

variable {f args m} {pos arg stop : ℕ} {spec : PrintfSpec}

theorem alnum_returns (hp : pos ≤ f.length) :
    (Exec.loop (alnumStep f) (f.length + 1) pos).Returns fun q => pos ≤ q ∧ q ≤ f.length := by
  refine Exec.loop_spec (alnumStep f) (fun k q => pos ≤ q ∧ q ≤ f.length ∧ f.length - q = k)
    (fun q => pos ≤ q ∧ q ≤ f.length) ?_ (k := f.length - pos) ⟨le_rfl, hp, rfl⟩ (by omega)
  rintro k q ⟨hpq, hq, rfl⟩
  obtain ⟨c, hc, hc'⟩ := FormatString.read_returns hq
  rw [alnumStep, hc, Exec.ok_bind]
  by_cases halnum : isalnum c = true
  · have hne : c ≠ 0 := by
      rintro rfl
      exact absurd halnum (by decide)
    have hlt := hc'.mp hne
    rw [if_pos halnum]
    exact Or.inl ⟨_, _, rfl, by omega, by omega, hlt, rfl⟩
  · rw [if_neg halnum]
    exact Or.inr ⟨q, rfl, hpq, hq⟩

/-- What is left of the format, twice over, and one more while a `*` is pending. -/
def leftToRead (f : FormatString) (pos : ℕ) (spec : PrintfSpec) : ℕ :=
  2 * (f.length - pos) + if spec.type.resumes then 1 else 0

theorem leftToRead_lt {next : ℕ} {spec' : PrintfSpec} (hlt : pos < next) (hnext : next ≤ f.length) :
    leftToRead f next spec' < leftToRead f pos spec := by
  unfold leftToRead
  split_ifs <;> omega

/-- **A token** ends at or before the NUL, and leaves less to read. -/
theorem token_returns (args : ℕ → UInt32) (m : ArgMemory) (hp : pos < f.length) (spec : PrintfSpec)
    (arg : ℕ) : (token f args m pos spec arg).Returns fun t =>
      t.pos ≤ f.length ∧ leftToRead f t.pos t.spec < leftToRead f pos spec := by
  refine (formatDecode_returns hp spec).bind ?_
  rintro ⟨read, spec'⟩ ⟨hle, hstay, -⟩
  dsimp only at hle hstay ⊢
  -- a token of some other type than `invalid` has moved on
  have hmoved : ∀ {spec'' : PrintfSpec} {q : ℕ}, spec'.type ≠ .invalid → pos + read ≤ q →
      q ≤ f.length → leftToRead f q spec'' < leftToRead f pos spec := by
    intro spec'' q hvalid hq hq'
    have hne : read ≠ 0 := fun h₀ => hvalid (hstay h₀).2
    exact leftToRead_lt (by omega) hq'
  cases htype : spec'.type with
  | ptr =>
    refine (alnum_returns hle).bind fun q hq => .ok ⟨hq.2, ?_⟩
    exact hmoved (by rw [htype]; decide) hq.1 hq.2
  | invalid =>
    refine .ok ⟨hle, ?_⟩
    have hdone : spec'.type.resumes = false := by
      rw [htype]
      rfl
    by_cases h₀ : read = 0
    · have hpending := (hstay h₀).1
      unfold leftToRead
      rw [hdone, hpending, h₀]
      simp
    · exact leftToRead_lt (Nat.lt_add_of_pos_right (Nat.pos_of_ne_zero h₀)) hle
  | _ => exact .ok ⟨hle, hmoved (by rw [htype]; decide) le_rfl hle⟩

theorem vaNumber_lt (args : ℕ → UInt32) (i : ℕ) (spec : PrintfSpec) :
    (vaNumber args i spec).1 < 2 ^ 64 := by
  have hw := (args i).toNat_lt
  have hw' := (args (i + 1)).toNat_lt
  unfold vaNumber
  split <;> dsimp only
  · omega
  · omega
  · exact u64_lt _
  · split_ifs
    · exact u64_lt _
    · omega
  · exact u64_lt _
  · omega
  · exact u64_lt _
  · omega
  · exact u64_lt _
  · exact u64_lt _
  · omega

/-- **A round of the main loop** writes the token it reads. -/
theorem vsnprintfStep_eq {s : FormatState} (hp : s.pos < f.length) :
    vsnprintfStep f args m stop s = token f args m s.pos s.spec s.arg >>= fun t =>
      .ok (.inl ⟨t.pos, t.spec, t.arg, t.write stop s.str⟩) := by
  obtain ⟨c, hc, hc'⟩ := FormatString.read_returns hp.le
  obtain ⟨⟨read, spec⟩, hdecode, hle, -, hbase⟩ := formatDecode_returns hp s.spec
  have hword := (args s.arg).toNat_lt
  unfold vsnprintfStep token
  rw [hc, Exec.ok_bind, if_neg (hc'.mpr hp), hdecode, Exec.ok_bind, Exec.ok_bind]
  dsimp only at hle hbase ⊢
  cases htype : spec.type with
  | char =>
    dsimp only
    rw [putChar_eq, Exec.ok_bind]
    rfl
  | str =>
    dsimp only
    rw [string_eq, Exec.ok_bind]
    rfl
  | ptr =>
    dsimp only
    rw [pointer_eq hle m stop s.str hword, Exec.ok_bind, bind_assoc]
    rfl
  | none => rfl
  | width => rfl
  | precision => rfl
  | percentChar => rfl
  | invalid => rfl
  | _ =>
    dsimp only
    rw [number_eq stop s.str (vaNumber_lt args s.arg spec) (hbase (by rw [htype]; rfl)), Exec.ok_bind]
    rfl

/-! ## The loop -/

theorem vsnprintfStep_done {s : FormatState} (hp : s.pos = f.length) :
    vsnprintfStep f args m stop s = .ok (.inr s) := by
  obtain ⟨c, hc, hc'⟩ := FormatString.read_returns hp.le
  have h₀ : c = 0 := by
    by_contra hne
    exact absurd (hc'.mp hne) (by omega)
  rw [vsnprintfStep, hc, Exec.ok_bind, if_pos h₀]
  rfl

/-- **The main loop ends**: it returns within `2 * length + 1` calls of `format_decode`, with all of the
format read; a read past the NUL would have stopped it. -/
theorem mainLoop_returns (f : FormatString) (args : ℕ → UInt32) (m : ArgMemory) (stop : ℕ) (k : Out) :
    (Exec.loop (vsnprintfStep f args m stop) (2 * f.length + 2) ⟨0, zeroSpec, 0, k⟩).Returns
      fun s => s.pos = f.length := by
  refine Exec.loop_spec (vsnprintfStep f args m stop)
    (fun n s => s.pos ≤ f.length ∧ leftToRead f s.pos s.spec = n) (fun s => s.pos = f.length) ?_
    (k := 2 * f.length) ⟨Nat.zero_le _, ?_⟩ (by omega)
  · rintro n s ⟨hle, rfl⟩
    rcases Nat.lt_or_eq_of_le hle with hlt | heq
    · obtain ⟨t, ht, hle', hless⟩ := token_returns args m hlt s.spec s.arg
      rw [vsnprintfStep_eq hlt, ht]
      exact Or.inl ⟨_, _, rfl, hless, hle', rfl⟩
    · exact Or.inr ⟨s, vsnprintfStep_done heq, heq⟩
  · rfl

variable (f args m)

/-- The state of `renderStep`: that of the main loop, with the text so far in place of the buffer. -/
structure RenderState where
  pos : ℕ
  spec : PrintfSpec
  arg : ℕ
  out : List UInt8

/-- The text of one more token. -/
def renderStep (s : RenderState) : Exec (RenderState ⊕ List UInt8) := do
  if s.pos < f.length then
    let t ← token f args m s.pos s.spec s.arg
    pure (.inl ⟨t.pos, t.spec, t.arg, s.out ++ t.text⟩)
  else pure (.inr s.out)

/-- The text of all tokens. -/
def render : Exec (List UInt8) :=
  Exec.loop (renderStep f args m) (2 * f.length + 2) ⟨0, zeroSpec, 0, []⟩

/-- **The text of a format** and its arguments. -/
def formatText : List UInt8 :=
  match render f args m with
  | .ok out => out
  | .error _ => []

theorem render_eq : render f args m = .ok (formatText f args m) := by
  have hret : (render f args m).Returns fun _ => True := by
    refine Exec.loop_spec (renderStep f args m)
      (fun n s => s.pos ≤ f.length ∧ leftToRead f s.pos s.spec = n) (fun _ => True) ?_
      (k := 2 * f.length) ⟨Nat.zero_le _, rfl⟩ (by omega)
    rintro n s ⟨hle, rfl⟩
    unfold renderStep
    by_cases hlt : s.pos < f.length
    · obtain ⟨t, ht, hle', hless⟩ := token_returns args m hlt s.spec s.arg
      rw [if_pos hlt, ht]
      exact Or.inl ⟨_, _, rfl, hless, hle', rfl⟩
    · rw [if_neg hlt]
      exact Or.inr ⟨_, rfl, trivial⟩
  obtain ⟨out, hout, -⟩ := hret
  rw [formatText, hout]

/-! ## The buffer -/

variable {f args m} {buf size : ℕ} {mem : ℕ → UInt8}

/-- A run of text is written as if by `putc`, as long as no address wraps around. -/
theorem putText_eq {k : Out} {text : List UInt8} (hfit : k.pos + text.length < 2 ^ 32)
    (hroom : stop - k.pos < 2 ^ 31) : putText stop k text = Out.puts stop k text := by
  refine Sink.ext ?_ ?_
  · rw [Sink.puts_pos hfit]
    exact Nat.mod_eq_of_lt hfit
  · rw [Sink.puts_mem hfit]
    unfold putText
    dsimp only
    split_ifs with hlt hlong
    · rw [int32_of_lt hroom, u32_natCast (by omega)]
    · rw [u32_natCast (by omega), List.take_of_length_le le_rfl,
        List.take_of_length_le (by rw [int32_of_lt hroom] at hlong; omega)]
    · rw [Nat.sub_eq_zero_of_le (by omega), List.take_zero, blit_nil]

theorem Token.write_eq {t : Token} {k : Out} (hfit : k.pos + t.text.length < 2 ^ 32)
    (hroom : stop - k.pos < 2 ^ 31) : t.write stop k = Out.puts stop k t.text := by
  unfold Token.write
  split_ifs
  · exact putText_eq hfit hroom
  · rfl

theorem Token.write_pos (t : Token) (stop : ℕ) (k : Out) :
    (t.write stop k).pos % 2 ^ 32 = (k.pos + t.text.length) % 2 ^ 32 := by
  unfold Token.write
  split_ifs
  · exact Nat.mod_mod _ _
  · exact Sink.puts_pos_mod _ _

/-- **The main loop writes `formatText`**, as much of it as lies below `stop`, and counts all of it. -/
theorem mainLoop_eq (args : ℕ → UInt32) (m : ArgMemory) (mem : ℕ → UInt8) (hroom : stop - buf < 2 ^ 31) :
    ∃ s, Exec.loop (vsnprintfStep f args m stop) (2 * f.length + 2) ⟨0, zeroSpec, 0, ⟨buf, mem⟩⟩ = .ok s ∧
      s.str.pos % 2 ^ 32 = (buf + (formatText f args m).length) % 2 ^ 32 ∧
      (buf + (formatText f args m).length < 2 ^ 32 →
        s.str = Out.puts stop ⟨buf, mem⟩ (formatText f args m)) := by
  refine Exec.loop_sim (vsnprintfStep f args m stop)
    -- the buffer holds the text so far, unless that has wrapped around
    (fun (r : RenderState) (s : FormatState) => r.pos ≤ f.length ∧ s.pos = r.pos ∧ s.spec = r.spec ∧
      s.arg = r.arg ∧ s.str.pos % 2 ^ 32 = (buf + r.out.length) % 2 ^ 32 ∧
      (buf + r.out.length < 2 ^ 32 → s.str = Out.puts stop ⟨buf, mem⟩ r.out))
    (fun out s => s.str.pos % 2 ^ 32 = (buf + out.length) % 2 ^ 32 ∧
      (buf + out.length < 2 ^ 32 → s.str = Out.puts stop ⟨buf, mem⟩ out))
    ?_ ?_ (t := ⟨0, zeroSpec, 0, ⟨buf, mem⟩⟩) ⟨Nat.zero_le _, rfl, rfl, rfl, rfl, fun _ => rfl⟩
    (render_eq f args m)
  · rintro ⟨pos, spec, arg, out⟩ r' ⟨pos', spec', arg', str⟩ ⟨hle, rfl, rfl, rfl, hpos, hstr⟩ hstep
    unfold renderStep at hstep
    dsimp only at hle hpos hstr hstep
    have hlt : pos' < f.length := by
      by_contra hge
      rw [if_neg hge] at hstep
      cases hstep
    obtain ⟨t, ht, hle', -⟩ := token_returns args m hlt spec' arg'
    rw [if_pos hlt, ht] at hstep
    cases hstep
    refine ⟨_, by rw [vsnprintfStep_eq hlt, ht, Exec.ok_bind], hle', rfl, rfl, rfl, ?_, fun hwrap => ?_⟩
    · dsimp only
      rw [Token.write_pos, Nat.add_mod, hpos, ← Nat.add_mod, List.length_append, Nat.add_assoc]
    · dsimp only at hwrap ⊢
      rw [List.length_append] at hwrap
      have hcursor : (Out.puts stop ⟨buf, mem⟩ out).pos = buf + out.length :=
        Sink.puts_pos (by dsimp only; omega)
      rw [hstr (by omega), Token.write_eq (by omega) (by omega)]
      exact (Sink.puts_append _ _).symm
  · rintro ⟨pos, spec, arg, out⟩ b ⟨pos', spec', arg', str⟩ ⟨hle, rfl, rfl, rfl, hstr⟩ hstep
    unfold renderStep at hstep
    dsimp only at hle hstr hstep
    have hge : ¬pos' < f.length := by
      intro hlt
      obtain ⟨t, ht, -⟩ := token_returns args m hlt spec' arg'
      rw [if_pos hlt, ht] at hstep
      cases hstep
    rw [if_neg hge] at hstep
    cases hstep
    exact ⟨_, vsnprintfStep_done (le_antisymm hle (not_lt.mp hge)), hstr⟩

/-- The bytes of the buffer `vsnprintf` uses: up to the last address but one when the buffer ends
beyond it. -/
def bufferRoom (buf size : ℕ) : ℕ := if buf + size < 2 ^ 32 then size else 2 ^ 32 - 1 - buf

/-- What fits of `out` into `room` bytes, with a NUL after it. -/
def truncated (out : List UInt8) : ℕ → List UInt8
  | 0 => []
  | n + 1 => out.take n ++ [0]

/-- The NUL after the text, or over the last of it. -/
theorem terminate_eq (out : List UInt8) (room : ℕ) :
    (if room > 0 then
      if buf + out.length < buf + room then
        Function.update (blit mem buf (out.take room)) (buf + out.length) 0
      else Function.update (blit mem buf (out.take room)) (buf + room - 1) 0
    else blit mem buf (out.take room)) = blit mem buf (truncated out room) := by
  cases room with
  | zero => rfl
  | succ n =>
    rw [if_pos (Nat.succ_pos n), truncated]
    split_ifs with hlt
    · rw [List.take_of_length_le (by omega), List.take_of_length_le (by omega), blit_concat]
    · obtain ⟨b, hb⟩ : ∃ b, out.take (n + 1) = out.take n ++ [b] :=
        ⟨out.get ⟨n, by omega⟩, List.take_succ_eq_append_getElem (by omega)⟩
      have hlast : buf + (n + 1) - 1 = buf + (out.take n).length := by
        rw [List.length_take, Nat.min_eq_left (by omega)]
        omega
      rw [hb, hlast, blit_update_last]

/-- `end` and `size`, once `end` has been kept from wrapping around. -/
theorem bufferEnd_eq (hbuf : buf < 2 ^ 32) (hsize : size < 2 ^ 31) :
    (if (buf + size) % 2 ^ 32 < buf then (2 ^ 32 - 1, 2 ^ 32 - 1 - buf)
      else ((buf + size) % 2 ^ 32, size))
      = (buf + bufferRoom buf size, bufferRoom buf size) ∧ bufferRoom buf size < 2 ^ 31 := by
  unfold bufferRoom
  by_cases hlt : buf + size < 2 ^ 32
  · rw [if_pos hlt, Nat.mod_eq_of_lt hlt, if_neg (by omega)]
    exact ⟨rfl, hsize⟩
  · have hwrap : (buf + size) % 2 ^ 32 < buf := by omega
    rw [if_neg hlt, if_pos hwrap, show buf + (2 ^ 32 - 1 - buf) = 2 ^ 32 - 1 by omega]
    exact ⟨rfl, by omega⟩

/-- What is counted modulo `2 ^ 32` is returned as an `int`. -/
theorem int32_sub32 {pos len : ℕ} (hpos : pos % 2 ^ 32 = (buf + len) % 2 ^ 32) :
    int32 (sub32 pos buf) = int32 len := by
  have hmod : ((sub32 pos buf : ℕ) : ℤ) % 2 ^ 32 = (len : ℤ) % 2 ^ 32 := by
    unfold sub32
    omega
  unfold int32
  rw [hmod]

/-- **The contract of `vsnprintf`**: it returns the length of the text, and where the text does not wrap
around the address space, stores what fits. -/
theorem vsnprintf_returns (f : FormatString) (args : ℕ → UInt32) (m : ArgMemory) (mem : ℕ → UInt8)
    (hbuf : buf < 2 ^ 32) (hsize : size ≤ 2 ^ 31 - 1) :
    (vsnprintf f args m mem buf size).Returns fun r => r.1 = int32 (formatText f args m).length ∧
      (buf + (formatText f args m).length < 2 ^ 32 →
        r.2 = blit mem buf (truncated (formatText f args m) (bufferRoom buf size))) := by
  obtain ⟨hend, hroom⟩ : _ ∧ bufferRoom buf size < 2 ^ 31 := bufferEnd_eq hbuf (by omega)
  unfold vsnprintf
  rw [if_neg (by omega)]
  dsimp only
  rw [hend]
  dsimp only
  generalize bufferRoom buf size = room at hroom ⊢
  obtain ⟨s, hs, hpos, hstr⟩ := mainLoop_eq args m mem (show buf + room - buf < 2 ^ 31 by omega)
  have hlen := int32_sub32 hpos
  rw [hs, Exec.ok_bind, hlen]
  refine ⟨_, rfl, ?_, fun hfit => ?_⟩
  · dsimp only
  have hcursor : s.str.pos = buf + (formatText f args m).length := by
    rw [hstr hfit]
    exact Sink.puts_pos hfit
  have hmem : s.str.mem = blit mem buf ((formatText f args m).take room) := by
    rw [hstr hfit, Sink.puts_mem hfit]
    dsimp only
    rw [Nat.add_sub_cancel_left]
  dsimp only
  rw [hmem, hcursor, terminate_eq]

theorem vsnprintf_eq (mem : ℕ → UInt8) (hsize : size ≤ 2 ^ 31 - 1)
    (hfit : buf + (formatText f args m).length < 2 ^ 32) :
    vsnprintf f args m mem buf size
      = .ok (int32 (formatText f args m).length,
          blit mem buf (truncated (formatText f args m) (bufferRoom buf size))) := by
  have hbuf : buf < 2 ^ 32 := by omega
  obtain ⟨r, hr, hlen, hmem⟩ := vsnprintf_returns f args m mem hbuf hsize
  rw [hr, ← hlen, ← hmem hfit]

/-- **`vsnprintf` truncates.**  Into a buffer with room it stores a prefix of the text and a NUL, into one
without room nothing; it returns the length of the text either way. -/
theorem vsnprintf_truncates (f : FormatString) (args : ℕ → UInt32) (m : ArgMemory) (mem : ℕ → UInt8)
    {buf size : ℕ} (hsize : size ≤ 2 ^ 31 - 1)
    (hfit : buf + (formatText f args m).length < 2 ^ 32) :
    (0 < bufferRoom buf size → vsnprintf f args m mem buf size
      = .ok (int32 (formatText f args m).length,
          blit mem buf ((formatText f args m).take
            (min (formatText f args m).length (bufferRoom buf size - 1)) ++ [0]))) ∧
    (bufferRoom buf size = 0 → vsnprintf f args m mem buf size
      = .ok (int32 (formatText f args m).length, mem)) := by
  rw [vsnprintf_eq mem hsize hfit]
  constructor
  · intro hpos
    obtain ⟨n, hn⟩ := Nat.exists_eq_succ_of_ne_zero hpos.ne'
    rw [hn, Nat.succ_sub_one, truncated, List.take_eq_take_min, Nat.min_comm]
  · intro h₀
    rw [h₀, truncated, blit_nil]

end Main

/-- The format `"a"`. -/
def letterFormat : FormatString :=
  ⟨[ascii 'a'], FormatString.nonzero_of_all (by decide), by decide⟩

/-- Memory of zeros. -/
def zeroMemory : ArgMemory := ⟨fun _ => 0, fun _ => ⟨0, by decide, rfl⟩⟩

theorem formatText_letter : formatText letterFormat (fun _ => 0) zeroMemory = [ascii 'a'] := by
  decide

/-- The format `"cpu %d at %#x"`. -/
def cpuFormat : FormatString :=
  ⟨"cpu %d at %#x".toList.map ascii, FormatString.nonzero_of_all (by decide), by decide⟩

theorem formatText_cpu : formatText cpuFormat (fun i => if i = 0 then 3 else 0xb8000) zeroMemory
    = "cpu 3 at 0xb8000".toList.map ascii := by
  decide +kernel

/-- A buffer of eight bytes takes seven characters and the NUL, and the count says what was lost; one
without room is left alone. -/
theorem vsnprintf_truncates_cpu :
    vsnprintf cpuFormat (fun i => if i = 0 then 3 else 0xb8000) zeroMemory (fun _ => 255) 0x1000 8
      = .ok (16, blit (fun _ => 255) 0x1000 ("cpu 3 a".toList.map ascii ++ [0])) ∧
    vsnprintf cpuFormat (fun i => if i = 0 then 3 else 0xb8000) zeroMemory (fun _ => 255) 0x1000 0
      = .ok (16, fun _ => 255) := by
  have hfit : 0x1000 + (formatText cpuFormat (fun i => if i = 0 then 3 else 0xb8000) zeroMemory).length
      < 2 ^ 32 := by
    rw [formatText_cpu]
    decide
  have hroom := (vsnprintf_truncates cpuFormat (fun i => if i = 0 then 3 else 0xb8000) zeroMemory
    (fun _ => 255) (show 8 ≤ 2 ^ 31 - 1 by decide) hfit).1 (by decide)
  have hnone := (vsnprintf_truncates cpuFormat (fun i => if i = 0 then 3 else 0xb8000) zeroMemory
    (fun _ => 255) (show 0 ≤ 2 ^ 31 - 1 by decide) hfit).2 rfl
  have htake : ("cpu 3 at 0xb8000".toList.map ascii).take
      (min ("cpu 3 at 0xb8000".toList.map ascii).length (bufferRoom 0x1000 8 - 1))
      = "cpu 3 a".toList.map ascii := by decide
  have hlen : int32 ("cpu 3 at 0xb8000".toList.map ascii).length = 16 := by decide
  rw [formatText_cpu, hlen] at hroom hnone
  rw [htake] at hroom
  exact ⟨hroom, hnone⟩

/-- A buffer of two bytes at the end of the address space: its last byte is never used, and the NUL goes
over the only character. -/
theorem vsnprintf_last_byte : 0xfffffffe + (formatText letterFormat (fun _ => 0) zeroMemory).length < 2 ^ 32 ∧
    vsnprintf letterFormat (fun _ => 0) zeroMemory (fun _ => 255) 0xfffffffe 2
      ≠ .ok (1, blit (fun _ => 255) 0xfffffffe ([ascii 'a'].take (min 1 (2 - 1)) ++ [0])) := by
  have hfit : 0xfffffffe + (formatText letterFormat (fun _ => 0) zeroMemory).length < 2 ^ 32 := by
    rw [formatText_letter]
    decide
  refine ⟨hfit, fun h => ?_⟩
  rw [vsnprintf_eq _ (by decide) hfit, formatText_letter] at h
  have hmem := congrFun (Prod.ext_iff.mp (Except.ok.inj h)).2 0xfffffffe
  exact absurd hmem (by decide)

end Sandix
