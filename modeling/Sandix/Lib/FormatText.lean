import Sandix.Lib.NumberLayout

/-!
# Lib/FormatText — what the conversions write

Every conversion of `lib/vsprintf.c` writes its text through `putc` and nothing else, whatever fits.
For numbers this is `number_eq`; here it is proved for strings (`stringAt_eq`), for pointers
(`pointer_eq`) and for the resource text, which is composed in an array on the stack and never leaves it
(`resourceSym_returns`).
-/

namespace Sandix

open Machinery

/-! ## Strings -/

/-- The rounds of `padTo`. -/
def toCount (len : ℕ) (w : Int16) : ℕ := (w.toInt - len).toNat

/-- What `padTo` leaves in its counter. -/
def toLeft (len : ℕ) (w : Int16) : Int16 := if len < w.toInt then Int16.ofInt (len - 1) else w - 1

theorem padToLoop_eq (stop len : ℕ) : ∀ {n fuel : ℕ} {w : Int16} {k : Out}, w.toInt = len + n →
    n < fuel → Exec.loop (padToStep stop len) fuel (w, k)
      = .ok (Int16.ofInt (len - 1), Out.puts stop k (List.replicate n (ascii ' ')))
  | 0, fuel + 1, w, k, hw, _ => by
      have hstep : padToStep stop len (w, k) = .ok (.inr (w - 1, k)) :=
        if_neg (by dsimp only; omega)
      have hsub : (w - 1).toInt = len - 1 := by
        rw [toInt_sub_one (by omega), hw]
        omega
      rw [Exec.loop_done hstep, ← hsub, Int16.ofInt_toInt]
      rfl
  | n + 1, fuel + 1, w, k, hw, hfuel => by
      have hstep : padToStep stop len (w, k) = .ok (.inl (w - 1, putc stop k (ascii ' '))) :=
        if_pos (by dsimp only; omega)
      have hsub : (w - 1).toInt = len + n := by
        rw [toInt_sub_one (by omega), hw]
        omega
      rw [Exec.loop_next hstep, padToLoop_eq stop len hsub (Nat.lt_of_succ_lt_succ hfuel)]
      rfl

/-- **`while (len < w--)`** puts `toCount len w` spaces. -/
theorem padTo_eq (stop len : ℕ) (w : Int16) (k : Out) :
    padTo stop len w k
      = .ok (toLeft len w, Out.puts stop k (List.replicate (toCount len w) (ascii ' '))) := by
  have hlt := w.toInt_lt
  rw [padTo, toLeft, toCount]
  by_cases hgo : len < w.toInt
  · obtain ⟨n, hn⟩ : ∃ n : ℕ, w.toInt = len + n := ⟨(w.toInt - len).toNat, by omega⟩
    rw [padToLoop_eq stop len hn (by omega), if_pos hgo, show (w.toInt - len).toNat = n by omega]
  · have hstep : padToStep stop len (w, k) = .ok (.inr (w - 1, k)) := if_neg hgo
    rw [Exec.loop_done hstep, if_neg hgo, show (w.toInt - len).toNat = 0 by omega]
    rfl

/-- A string ends within `INT_MAX` bytes. -/
def Ends (s : ℕ → UInt8) : Prop := ∃ n < 2 ^ 31 - 1, s n = 0

theorem strnlen_le {s : ℕ → UInt8} {n : ℕ} (hs : s n = 0) : ∀ (c i : ℕ), i ≤ n → strnlen s c i ≤ n
  | 0, _, hi => hi
  | c + 1, i, hi => by
      rw [strnlen]
      split_ifs with h₀
      · exact hi
      · have hne : i ≠ n := by
          rintro rfl
          exact h₀ hs
        exact strnlen_le hs c (i + 1) (by omega)

/-- The text of a string. -/
def stringText (s : ℕ → UInt8) (spec : PrintfSpec) : List UInt8 :=
  let len := strnlen s (u32 spec.precision.toInt) 0
  let lead := if spec.flags.left then 0 else toCount len spec.fieldWidth
  let width := if spec.flags.left then spec.fieldWidth else toLeft len spec.fieldWidth
  List.replicate lead (ascii ' ') ++ (List.range len).map s ++
    List.replicate (toCount len width) (ascii ' ')

theorem foldl_putc (stop : ℕ) {α : Type} (g : α → UInt8) (xs : List α) (k : Out) :
    xs.foldl (fun k x => putc stop k (g x)) k = Out.puts stop k (xs.map g) :=
  List.foldl_map.symm

/-- **`string` writes `stringText`.** -/
theorem stringAt_eq {s : ℕ → UInt8} (hs : Ends s) (stop : ℕ) (k : Out) (spec : PrintfSpec) :
    stringAt stop k s spec = .ok (Out.puts stop k (stringText s spec)) := by
  obtain ⟨n, hn, hzero⟩ := hs
  have hlen := strnlen_le hzero (u32 spec.precision.toInt) 0 (Nat.zero_le n)
  unfold stringAt stringText
  generalize strnlen s (u32 spec.precision.toInt) 0 = len at hlen ⊢
  dsimp only
  rw [int32_of_lt (by omega), Int.toNat_natCast]
  cases hleft : spec.flags.left with
  | true =>
    simp only [Bool.not_true, Bool.false_eq_true, if_false, if_true, Exec.pure_eq_ok, Exec.ok_bind,
      padTo_eq, foldl_putc]
    simp only [Out.puts, Sink.puts_append, List.replicate_zero, Sink.puts_nil]
  | false =>
    simp only [Bool.not_false, Bool.false_eq_true, if_false, if_true, Exec.pure_eq_ok, Exec.ok_bind,
      padTo_eq, foldl_putc]
    simp only [Out.puts, Sink.puts_append]

theorem ends_nullString : Ends nullString := ⟨6, by decide, by decide⟩

theorem ArgMemory.ends_from (m : ArgMemory) (a : ℕ) : Ends (m.from a) := m.ends a

/-- The string an argument points to. -/
def argString (m : ArgMemory) (s : ℕ) : ℕ → UInt8 := if s < pageSize then nullString else m.from s

theorem string_eq (m : ArgMemory) (stop : ℕ) (k : Out) (s : ℕ) (spec : PrintfSpec) :
    string m stop k s spec = .ok (Out.puts stop k (stringText (argString m s) spec)) := by
  refine stringAt_eq ?_ stop k spec
  split_ifs
  · exact ends_nullString
  · exact m.ends_from s

/-! ## Resources -/

section Resource

variable {p : Out} {n : ℕ}

theorem load_lt (m : ArgMemory) (a : ℕ) : m.load a < 2 ^ 32 := by
  have h₀ := (m.from a 0).toNat_lt
  have h₁ := (m.from a 1).toNat_lt
  have h₂ := (m.from a 2).toNat_lt
  have h₃ := (m.from a 3).toNat_lt
  rw [ArgMemory.load]
  omega

/-- A character fits below the size of `sym`. -/
theorem poke_returns (hp : p.pos ≤ n) (hn : n < symSize) (c : UInt8) :
    (poke p c).Returns fun p' => p'.pos ≤ n + 1 := by
  rw [poke, if_pos (hp.trans_lt hn)]
  exact .ok (Nat.succ_le_succ hp)

/-- Text into `sym`. -/
theorem puts_pos_le {text : List UInt8} {l : ℕ} (hp : p.pos ≤ n) (hn : n < symSize)
    (hl : text.length ≤ l) (hl' : l < symSize) : (Out.puts symSize p text).pos ≤ n + l := by
  unfold symSize at hn hl'
  rw [Sink.puts_pos (by omega)]
  omega

/-- A string literal into `sym`. -/
theorem symString_returns {s : String} {l : ℕ} (hs : Ends (literal s.toList))
    (hl : (stringText (literal s.toList) strSpec).length ≤ l) (hl' : l < symSize) (hp : p.pos ≤ n)
    (hn : n < symSize) : (symString p s).Returns fun p' => p'.pos ≤ n + l := by
  rw [symString, stringAt_eq hs]
  exact .ok (puts_pos_le hp hn hl hl')

/-- A flag of a resource into `sym`. -/
theorem symFlag_returns {s : String} {l : ℕ} (hs : Ends (literal s.toList))
    (hl : (stringText (literal s.toList) strSpec).length ≤ l) (hl' : l < symSize) (hp : p.pos ≤ n)
    (hn : n < symSize) (flags mask : ℕ) :
    (symFlag flags mask s p).Returns fun p' => p'.pos ≤ n + l :=
  .ite (fun _ => symString_returns hs hl hl' hp hn) fun _ => .ok (by omega)

/-- The specifications of the numbers of a resource. -/
def IsSymSpec (spec : PrintfSpec) : Prop :=
  spec = ioSpec ∨ spec = memSpec ∨ spec = decSpec ∨ spec = busSpec ∨ spec = flagSpec

/-- A 32-bit number in one of these takes at most ten characters. -/
theorem length_symNumber {spec : PrintfSpec} (hspec : IsSymSpec spec) {num : ℕ} (hnum : num < 2 ^ 32) :
    IsBase spec.base ∧ (numberText num spec).length ≤ 10 := by
  have hfacts : spec.flags.sign = false ∧ spec.precision = -1 ∧ 0 ≤ spec.fieldWidth.toInt ∧
      spec.fieldWidth.toInt ≤ 10 ∧ (spec.base = 16 ∨ spec.base = 10) := by
    rcases hspec with rfl | rfl | rfl | rfl | rfl <;> decide
  obtain ⟨hsign, hprec, hw, hw', hbase⟩ := hfacts
  have hb : IsBase spec.base := hbase.elim (fun h => Or.inr (Or.inr h)) fun h => Or.inr (Or.inl h)
  have hmag : magnitude num spec = num := by simp [magnitude, hsign]
  have hhead : (headText num spec).length + (numeral spec.base num).length ≤ 10 := by
    have hnone : signText num spec = [] := by simp [signText, hsign]
    rw [headText, hnone, hmag, List.nil_append]
    rcases hbase with h16 | h10
    · have hlen : (numeral 16 num).length ≤ 8 :=
        numeral_length_le (by decide) (by decide) (by omega)
      obtain ⟨-, hpfx⟩ := prefixWidth_toInt spec num 0 (by decide)
      rw [h16]
      omega
    · have hlen : (numeral 10 num).length ≤ 10 :=
        numeral_length_le (by decide) (by decide) (by omega)
      have hpfx : prefixText spec num = [] := by simp [prefixText, PrintfSpec.needPfx, h10]
      rw [h10, hpfx, List.length_nil, Nat.zero_add]
      exact hlen
  have hbody := length_bodyText num spec
  rw [hprec, hmag, show (-1 : Int16).toInt.toNat = 0 from rfl, Nat.zero_max] at hbody
  have hfits : WidthFits num spec := by
    have hloops : padLoops spec.flags ≤ 3 := by
      unfold padLoops
      split_ifs <;> omega
    unfold WidthFits
    omega
  refine ⟨hb, ?_⟩
  rw [numberText_of_widthFits (by omega) hb (by omega) hfits, length_fieldText, ← length_bodyText]
  omega

/-- A number into `sym`. -/
theorem symNumber_returns {spec : PrintfSpec} (hspec : IsSymSpec spec) {num : ℕ} (hnum : num < 2 ^ 32)
    (hp : p.pos ≤ n) (hn : n < symSize) :
    (number symSize p num spec).Returns fun p' => p'.pos ≤ n + 10 := by
  obtain ⟨hb, hlen⟩ := length_symNumber hspec hnum
  rw [number_eq symSize p (by omega) hb]
  exact .ok (puts_pos_le hp hn hlen (by decide))

/-- The kind of a resource: a name of four characters, and one of the specifications. -/
theorem resourceKind_cases (flags : ℕ) : ∃ name spec known, resourceKind flags = (name, spec, known) ∧
    Ends (literal name.toList) ∧ (stringText (literal name.toList) strSpec).length ≤ 4 ∧
    IsSymSpec spec := by
  unfold resourceKind IsSymSpec
  split_ifs
  · exact ⟨_, _, _, rfl, ⟨4, by decide, by decide⟩, by decide, by simp⟩
  · exact ⟨_, _, _, rfl, ⟨4, by decide, by decide⟩, by decide, by simp⟩
  · exact ⟨_, _, _, rfl, ⟨4, by decide, by decide⟩, by decide, by simp⟩
  · exact ⟨_, _, _, rfl, ⟨4, by decide, by decide⟩, by decide, by simp⟩
  · exact ⟨_, _, _, rfl, ⟨4, by decide, by decide⟩, by decide, by simp⟩
  · exact ⟨_, _, _, rfl, ⟨4, by decide, by decide⟩, by decide, by simp⟩

theorem resourceRange_returns {start stop flags : ℕ} (hstart : start < 2 ^ 32) (hstop : stop < 2 ^ 32)
    {spec : PrintfSpec} (hspec : IsSymSpec spec) (decode : Bool) (hp : p.pos ≤ 5) :
    (resourceRange p start stop flags spec decode).Returns fun p' => p'.pos ≤ 26 := by
  refine .ite (fun _ => ?_) fun _ => ?_
  · refine (symString_returns (l := 5) ⟨5, by decide, by decide⟩ (by decide) (by decide) hp
      (by decide)).bind fun p₁ hp₁ => ?_
    refine (symNumber_returns hspec (Nat.mod_lt _ (by decide)) hp₁ (by decide)).mono fun p₂ hp₂ => ?_
    omega
  · refine (symNumber_returns hspec hstart hp (by decide)).bind fun p₁ hp₁ => ?_
    refine .ite (fun _ => ?_) fun _ => .ok (by omega)
    refine (poke_returns hp₁ (by decide) _).bind fun p₂ hp₂ => ?_
    exact symNumber_returns hspec hstop hp₂ (by decide)

theorem resourceFlags_returns {flags : ℕ} (hflags : flags < 2 ^ 32) (decode : Bool) (hp : p.pos ≤ 26) :
    (resourceFlags p flags decode).Returns fun p' => p'.pos ≤ 53 := by
  refine .ite (fun _ => ?_) fun _ => ?_
  · refine (symFlag_returns (l := 6) ⟨6, by decide, by decide⟩ (by decide) (by decide) hp (by decide)
      _ _).bind fun p₁ hp₁ => ?_
    refine (symFlag_returns (l := 5) ⟨5, by decide, by decide⟩ (by decide) (by decide) hp₁ (by decide)
      _ _).bind fun p₂ hp₂ => ?_
    refine (symFlag_returns (l := 7) ⟨7, by decide, by decide⟩ (by decide) (by decide) hp₂ (by decide)
      _ _).bind fun p₃ hp₃ => ?_
    exact symFlag_returns (l := 9) ⟨9, by decide, by decide⟩ (by decide) (by decide) hp₃ (by decide) _ _
  · refine (symString_returns (l := 7) ⟨7, by decide, by decide⟩ (by decide) (by decide) hp
      (by decide)).bind fun p₁ hp₁ => ?_
    refine (symNumber_returns (by simp [IsSymSpec]) hflags hp₁ (by decide)).mono fun p₂ hp₂ => ?_
    omega

/-- **The text of a resource stays inside `sym`**, and ends there. -/
theorem resourceSym_returns {start stop flags : ℕ} (hstart : start < 2 ^ 32) (hstop : stop < 2 ^ 32)
    (hflags : flags < 2 ^ 32) (decode : Bool) :
    (resourceSym start stop flags decode).Returns fun sym => Ends sym.mem := by
  obtain ⟨name, spec, known, hkind, hends, hname, hspec⟩ := resourceKind_cases flags
  unfold resourceSym
  rw [hkind]
  refine (poke_returns (p := ⟨0, fun _ => 0⟩) (n := 0) le_rfl (by decide) _).bind fun p₁ hp₁ => ?_
  refine (symString_returns hends hname (by decide) hp₁ (by decide)).bind fun p₂ hp₂ => ?_
  refine (resourceRange_returns hstart hstop hspec _ hp₂).bind fun p₃ hp₃ => ?_
  refine (resourceFlags_returns hflags _ hp₃).bind fun p₄ hp₄ => ?_
  refine (poke_returns hp₄ (by decide) _).bind fun p₅ hp₅ => ?_
  have hlt : p₅.pos < symSize := hp₅.trans_lt (by decide)
  rw [poke, if_pos hlt]
  refine .ok ⟨p₅.pos, ?_, Function.update_self _ _ _⟩
  unfold symSize at hlt
  omega

end Resource

/-! ## Pointers -/

/-- `fmt[p]`, with the NUL from the end on. -/
def FormatString.char (f : FormatString) (p : ℕ) : UInt8 := (f.bytes[p]?).getD 0

theorem FormatString.read_eq {f : FormatString} {p : ℕ} (hp : p ≤ f.length) :
    f.read p = .ok (f.char p) := by
  unfold length at hp
  unfold read char
  split_ifs with h₁ h₂
  · rw [List.getElem?_eq_getElem h₁]
    rfl
  · rw [List.getElem?_eq_none (by omega)]
    rfl
  · omega

/-- The text of `%ph`. -/
def hexText (addr : ℕ → UInt8) (spec : PrintfSpec) (c : UInt8) : List UInt8 :=
  if spec.fieldWidth = 0 then []
  else
    let separator := hexSeparator c
    let len := if spec.fieldWidth > 0 then (min spec.fieldWidth.toInt 64).toNat else 1
    (List.range len).flatMap fun i =>
      [hexAsc (((addr i).toNat &&& 0xf0) >>> 4), hexAsc ((addr i).toNat &&& 0x0f)] ++
        if separator ≠ 0 ∧ i ≠ len - 1 then [separator] else []

theorem foldl_puts (stop : ℕ) {α : Type} (g : α → List UInt8) :
    ∀ (xs : List α) (k : Out), xs.foldl (fun k x => Out.puts stop k (g x)) k
      = Out.puts stop k (xs.flatMap g)
  | [], _ => rfl
  | x :: xs, k => by
      rw [List.foldl_cons, foldl_puts stop g xs, List.flatMap_cons]
      exact (Sink.puts_append _ _).symm

theorem hexString_eq {f : FormatString} {p : ℕ} (hp : p + 1 ≤ f.length) (stop : ℕ) (k : Out)
    (addr : ℕ → UInt8) (spec : PrintfSpec) :
    hexString f stop k addr spec p
      = .ok (Out.puts stop k (hexText addr spec (f.char (p + 1)))) := by
  unfold hexString hexText
  split_ifs with h₀ hpos
  · rfl
  all_goals
    rw [FormatString.read_eq hp, Exec.ok_bind, ← foldl_puts]
    refine congrArg Except.ok (congrFun (congrArg (fun g => List.foldl g k) ?_) _)
    funext k i
    dsimp only
    split_ifs
    · rfl
    · rfl

/-- The specification of `%pa`. -/
def PrintfSpec.address (spec : PrintfSpec) : PrintfSpec :=
  { spec with
    flags := { spec.flags with special := true, small := true, zeropad := true }
    base := 16
    fieldWidth := 10 }

/-- The text left in `sym`. -/
def symText (ret : Exec Out) (spec : PrintfSpec) : List UInt8 :=
  match ret with
  | .ok sym => stringText sym.mem spec
  | .error _ => []

/-- The text of a resource. -/
def resourceText (m : ArgMemory) (res : ℕ) (spec : PrintfSpec) (c : UInt8) : List UInt8 :=
  symText (resourceSym (m.load res) (m.load (res + 4)) (m.load (res + 12)) (c = ascii 'R')) spec

/-- Composing a text and writing it. -/
theorem stringAt_bind_eq {ret : Exec Out} (hret : ret.Returns fun sym => Ends sym.mem) (stop : ℕ)
    (k : Out) (spec : PrintfSpec) :
    (ret >>= fun sym => stringAt stop k sym.mem spec) = .ok (Out.puts stop k (symText ret spec)) := by
  obtain ⟨sym, rfl, hends⟩ := hret
  exact stringAt_eq hends stop k spec

theorem resourceString_eq (m : ArgMemory) (stop : ℕ) (k : Out) (res : ℕ) (spec : PrintfSpec)
    (c : UInt8) :
    resourceString m stop k res spec c = .ok (Out.puts stop k (resourceText m res spec c)) :=
  stringAt_bind_eq (resourceSym_returns (load_lt m res) (load_lt m (res + 4)) (load_lt m (res + 12)) _)
    stop k spec

/-- The text of `%p`; `fmt`, at `p`, is after the `p`. -/
def pointerText (f : FormatString) (m : ArgMemory) (p ptr : ℕ) (spec : PrintfSpec) : List UInt8 :=
  let c := f.char p
  if ptr = 0 ∧ c ≠ ascii 'K' then
    stringText nullString (if spec.fieldWidth = -1 then { spec with fieldWidth := 8 } else spec)
  else if c = ascii 'R' ∨ c = ascii 'r' then resourceText m ptr spec c
  else if c = ascii 'h' then hexText (m.from ptr) spec (f.char (p + 1))
  else if c = ascii 'a' then numberText (m.load ptr) spec.address
  else numberText ptr spec.plainPointer

theorem plainPointer_base (spec : PrintfSpec) : spec.plainPointer.base = 16 := by
  unfold PrintfSpec.plainPointer
  split_ifs
  · rfl
  · rfl

/-- **`pointer` writes `pointerText`**, and looks no further than the NUL. -/
theorem pointer_eq {f : FormatString} {p : ℕ} (hp : p ≤ f.length) (m : ArgMemory) (stop : ℕ) (k : Out)
    {ptr : ℕ} (hptr : ptr < 2 ^ 32) (spec : PrintfSpec) :
    pointer f m p stop k ptr spec = .ok (Out.puts stop k (pointerText f m p ptr spec)) := by
  have hnext : ∀ x : Char, ascii x ≠ 0 → f.char p = ascii x → p + 1 ≤ f.length := by
    intro x hx hc
    obtain ⟨c, hread, hlt⟩ := FormatString.read_returns hp
    rw [FormatString.read_eq hp] at hread
    exact hlt.mp (Except.ok.inj hread ▸ hc ▸ hx)
  unfold pointer pointerText
  rw [FormatString.read_eq hp, Exec.ok_bind]
  dsimp only
  split_ifs with h₁ h₂ h₃ h₄ h₅
  · exact stringAt_eq ends_nullString stop k _
  · exact stringAt_eq ends_nullString stop k _
  · exact resourceString_eq m stop k ptr spec _
  · exact hexString_eq (hnext _ (by decide) h₄) stop k _ spec
  · rw [addressVal, FormatString.read_eq (hnext _ (by decide) h₅), Exec.ok_bind]
    have hlt := load_lt m ptr
    exact number_eq stop k (by omega) (Or.inr (Or.inr rfl))
  · exact number_eq stop k (by omega) (Or.inr (Or.inr (plainPointer_base spec)))

end Sandix
