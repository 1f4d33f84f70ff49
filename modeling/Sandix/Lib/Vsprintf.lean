import Sandix.Arch.Page
import Sandix.Lib.Format
import Sandix.Lib.Hexdump
import Sandix.Lib.PutDec
import Sandix.Lib.String
import Sandix.Machinery.Sink

/-!
# Lib/Vsprintf — formatting into a buffer

`lib/vsprintf.c`.  Every conversion writes through `putc`: a character is stored when the cursor is
below `end`, and the cursor moves on in either case.  The output is a `Sink` of 32-bit addresses, and
what the functions write to on their own stack — the digits of a number, the text of a resource — is an
array that faults outside its bounds.

The arguments are the words of a `va_list`; pointers among them are followed in `ArgMemory`, which the
call does not write to.  The loops that pad decrement a `signed short`, and so run on a budget.
-/

namespace Sandix

open Machinery

/-- Where the output stands. -/
abbrev Out := Sink UInt8

/-- The memory the arguments point to.  No object has more than `INT_MAX` bytes, so every string ends. -/
structure ArgMemory where
  byte : ℕ → UInt8
  ends : ∀ a, ∃ n < 2 ^ 31 - 1, byte ((a + n) % 2 ^ 32) = 0

/-- The bytes from `a` on. -/
def ArgMemory.from (m : ArgMemory) (a : ℕ) : ℕ → UInt8 := fun i => m.byte ((a + i) % 2 ^ 32)

/-- The 32-bit word at `a`. -/
def ArgMemory.load (m : ArgMemory) (a : ℕ) : ℕ :=
  (m.from a 0).toNat + 2 ^ 8 * (m.from a 1).toNat + 2 ^ 16 * (m.from a 2).toNat
    + 2 ^ 24 * (m.from a 3).toNat

/-! ## Characters and padding -/

/-- `if (buf < end) *buf = c; ++buf`. -/
def putc (stop : ℕ) (k : Out) (c : UInt8) : Out := k.put (2 ^ 32) stop c

/-- One round of `padDown`. -/
def padDownStep (stop : ℕ) (c : UInt8) (lo : ℕ) (s : Int16 × Out) :
    Exec ((Int16 × Out) ⊕ (Int16 × Out)) :=
  let w := s.1 - 1
  if lo ≤ w.toInt then .ok (.inl (w, putc stop s.2 c)) else .ok (.inr (w, s.2))

/-- `while (--w >= lo)` put `c`: the value left in `w`, and the output. -/
def padDown (stop : ℕ) (c : UInt8) (lo : ℕ) (w : Int16) (k : Out) : Exec (Int16 × Out) :=
  Exec.loop (padDownStep stop c lo) (2 ^ 16 + 1) (w, k)

/-- One round of `padTo`. -/
def padToStep (stop : ℕ) (len : ℤ) (s : Int16 × Out) :
    Exec ((Int16 × Out) ⊕ (Int16 × Out)) :=
  let w := s.1 - 1
  if len < s.1.toInt then .ok (.inl (w, putc stop s.2 (ascii ' '))) else .ok (.inr (w, s.2))

/-- `while (len < w--)` put a space. -/
def padTo (stop : ℕ) (len : ℤ) (w : Int16) (k : Out) : Exec (Int16 × Out) :=
  Exec.loop (padToStep stop len) (2 ^ 16 + 1) (w, k)

/-! ## Numbers -/

/-- One round of the loop over the digits in base 8 or 16. -/
def digitsStep (base : ℕ) (locase : UInt8) (s : ℕ × List UInt8 × ℕ) :
    Exec ((ℕ × List UInt8 × ℕ) ⊕ (List UInt8 × ℕ)) := do
  let (i, tmp, num) := s
  let tmp ← storeByte tmp i (hexAscUpper (num % 2 ^ 8 &&& (base - 1)) ||| locase)
  let num := num >>> if base = 16 then 4 else 3
  if num ≠ 0 then pure (.inl (i + 1, tmp, num)) else pure (.inr (tmp, i + 1))

/-- The digits of `num` in `tmp`, least significant first, and their count. -/
def numberDigits (num base : ℕ) (locase : UInt8) : Exec (List UInt8 × ℕ) := do
  let tmp := List.replicate 24 0
  if num < base then
    let tmp ← storeByte tmp 0 (hexAscUpper num ||| locase)
    pure (tmp, 1)
  else if base = 10 then putDec Arith.machine tmp num
  else Exec.loop (digitsStep base locase) 65 (0, tmp, num)

/-- `while (--i >= 0)` put `tmp[i]`. -/
def putDigits (stop : ℕ) (tmp : List UInt8) : ℕ → Out → Exec Out
  | 0, k => .ok k
  | i + 1, k =>
    match tmp[i]? with
    | some c => putDigits stop tmp i (putc stop k c)
    | none => .error .fault

/-- The sign of a number, its absolute value, and the width that is left; `0` is no sign. -/
def numberSign (num : ℕ) (spec : PrintfSpec) : UInt8 × ℕ × Int16 :=
  if spec.flags.sign then
    if 2 ^ 63 ≤ num then (ascii '-', sub64 0 num, spec.fieldWidth - 1)
    else if spec.flags.plus then (ascii '+', num, spec.fieldWidth - 1)
    else if spec.flags.space then (ascii ' ', num, spec.fieldWidth - 1)
    else (0, num, spec.fieldWidth)
  else (0, num, spec.fieldWidth)

/-- `need_pfx`. -/
def PrintfSpec.needPfx (spec : PrintfSpec) : Bool := spec.flags.special && spec.base ≠ 10

/-- The width that is left for the rest after `0x` or `0`. -/
def prefixWidth (spec : PrintfSpec) (num : ℕ) (width : Int16) : Int16 :=
  if spec.needPfx then
    if spec.base = 16 then width - 2
    else if num ≠ 0 then width - 1
    else width
  else width

/-- `0x` or `0`. -/
def putPrefix (stop : ℕ) (spec : PrintfSpec) (num : ℕ) (locase : UInt8) (k : Out) : Out :=
  if spec.needPfx then
    let k := if spec.base = 16 ∨ num ≠ 0 then putc stop k (ascii '0') else k
    if spec.base = 16 then putc stop k (ascii 'X' ||| locase) else k
  else k

/-- `number`. -/
def number (stop : ℕ) (k : Out) (num : ℕ) (spec : PrintfSpec) : Exec Out := do
  let locase : UInt8 := if spec.flags.small then 0x20 else 0
  let left := spec.flags.left
  let zeropad := spec.flags.zeropad && !left
  let (sign, num, width) := numberSign num spec
  let width := prefixWidth spec num width
  let (tmp, i) ← numberDigits num spec.base locase
  let precision := if (i : ℤ) > spec.precision.toInt then Int16.ofNat i else spec.precision
  let width := width - precision
  let (width, k) ←
    if !(zeropad || left) then padDown stop (ascii ' ') 0 width k else pure (width, k)
  let k := if sign ≠ 0 then putc stop k sign else k
  let k := putPrefix stop spec num locase k
  let (width, k) ←
    if !left then padDown stop (ascii ' ' + if zeropad then 16 else 0) 0 width k
    else pure (width, k)
  let (_, k) ← padDown stop (ascii '0') i precision k
  let k ← putDigits stop tmp i k
  let (_, k) ← padDown stop (ascii ' ') 0 width k
  pure k

/-! ## Strings -/

/-- `string`, on a string that is not null. -/
def stringAt (stop : ℕ) (k : Out) (s : ℕ → UInt8) (spec : PrintfSpec) : Exec Out := do
  let len := int32 (strnlen s (u32 spec.precision.toInt) 0)
  let (width, k) ←
    if !spec.flags.left then padTo stop len spec.fieldWidth k else pure (spec.fieldWidth, k)
  let k := (List.range len.toNat).foldl (fun k i => putc stop k (s i)) k
  let (_, k) ← padTo stop len width k
  pure k

/-- `"(null)"`. -/
def nullString : ℕ → UInt8 := literal "(null)".toList

/-- `string`. -/
def string (m : ArgMemory) (stop : ℕ) (k : Out) (s : ℕ) (spec : PrintfSpec) : Exec Out :=
  stringAt stop k (if s < pageSize then nullString else m.from s) spec

/-! ## Pointers -/

section Resource

/-- The size of `sym`. -/
abbrev symSize : ℕ := 59

/-- `*p++ = c`, inside `sym`. -/
def poke (k : Out) (c : UInt8) : Exec Out :=
  if k.pos < symSize then .ok ⟨k.pos + 1, Function.update k.mem k.pos c⟩ else .error .fault

def ioSpec : PrintfSpec :=
  ⟨.none, { special := true, small := true, zeropad := true }, 16, 0, 6, -1⟩

def memSpec : PrintfSpec :=
  ⟨.none, { special := true, small := true, zeropad := true }, 16, 0, 10, -1⟩

def busSpec : PrintfSpec := ⟨.none, { small := true, zeropad := true }, 16, 0, 2, -1⟩

def decSpec : PrintfSpec := ⟨.none, {}, 10, 0, 0, -1⟩

def strSpec : PrintfSpec := ⟨.none, { left := true }, 0, 0, -1, 10⟩

def flagSpec : PrintfSpec := ⟨.none, { special := true, small := true }, 16, 0, 0, -1⟩

/-- A string literal, into `sym`. -/
def symString (p : Out) (s : String) : Exec Out := stringAt symSize p (literal s.toList) strSpec

/-- A string literal, into `sym`, for a flag that is set. -/
def symFlag (flags mask : ℕ) (s : String) (p : Out) : Exec Out :=
  if flags &&& mask ≠ 0 then symString p s else pure p

/-- The kind of a resource: its name, the specification of its numbers, and whether its flags are
decoded. -/
def resourceKind (flags : ℕ) : String × PrintfSpec × Bool :=
  if flags &&& 0x100 ≠ 0 then ("io  ", ioSpec, true)
  else if flags &&& 0x200 ≠ 0 then ("mem ", memSpec, true)
  else if flags &&& 0x400 ≠ 0 then ("irq ", decSpec, true)
  else if flags &&& 0x800 ≠ 0 then ("dma ", decSpec, true)
  else if flags &&& 0x1000 ≠ 0 then ("bus ", busSpec, true)
  else ("??? ", memSpec, false)

/-- The range of a resource, or its size when no address is assigned. -/
def resourceRange (p : Out) (start stop flags : ℕ) (spec : PrintfSpec) (decode : Bool) :
    Exec Out := do
  if decode && flags &&& 0x20000000 ≠ 0 then
    let p ← symString p "size "
    number symSize p ((sub32 stop start + 1) % 2 ^ 32) spec
  else
    let p ← number symSize p start spec
    if start ≠ stop then
      let p ← poke p (ascii '-')
      number symSize p stop spec
    else pure p

/-- The flags of a resource, decoded or raw. -/
def resourceFlags (p : Out) (flags : ℕ) (decode : Bool) : Exec Out := do
  if decode then
    let p ← symFlag flags 0x100000 " 64bit" p
    let p ← symFlag flags 0x2000 " pref" p
    let p ← symFlag flags 0x200000 " window" p
    symFlag flags 0x10000000 " disabled" p
  else
    let p ← symString p " flags "
    number symSize p flags flagSpec

/-- The text of a resource in `sym`; `decode` is `fmt[0] == 'R'`. -/
def resourceSym (start stop flags : ℕ) (decode : Bool) : Exec Out := do
  let p ← poke ⟨0, fun _ => 0⟩ (ascii '[')
  let (name, spec, known) := resourceKind flags
  let decode := decode && known
  let p ← symString p name
  let p ← resourceRange p start stop flags spec decode
  let p ← resourceFlags p flags decode
  let p ← poke p (ascii ']')
  poke p 0

/-- `resource_string`. -/
def resourceString (m : ArgMemory) (stop : ℕ) (k : Out) (res : ℕ) (spec : PrintfSpec) (c : UInt8) :
    Exec Out := do
  let sym ← resourceSym (m.load res) (m.load (res + 4)) (m.load (res + 12)) (c = ascii 'R')
  stringAt stop k sym.mem spec

end Resource

/-- The separator of `hex_string`, after `fmt[1]`. -/
def hexSeparator (c : UInt8) : UInt8 :=
  if c = ascii 'C' then ascii ':'
  else if c = ascii 'D' then ascii '-'
  else if c = ascii 'N' then 0
  else ascii ' '

/-- `hex_string`; `fmt` is at `p`. -/
def hexString (f : FormatString) (stop : ℕ) (k : Out) (addr : ℕ → UInt8) (spec : PrintfSpec)
    (p : ℕ) : Exec Out := do
  if spec.fieldWidth = 0 then pure k
  else
    let separator := hexSeparator (← f.read (p + 1))
    let len := if spec.fieldWidth > 0 then (min spec.fieldWidth.toInt 64).toNat else 1
    pure <| (List.range len).foldl (fun k i =>
      let k := putc stop k (hexAsc (((addr i).toNat &&& 0xf0) >>> 4))
      let k := putc stop k (hexAsc ((addr i).toNat &&& 0x0f))
      if separator ≠ 0 ∧ i ≠ len - 1 then putc stop k separator else k) k

/-- `address_val`: `dma_addr_t` and `phys_addr_t` are both 32 bits wide. -/
def addressVal (f : FormatString) (m : ArgMemory) (stop : ℕ) (k : Out) (addr : ℕ)
    (spec : PrintfSpec) (p : ℕ) : Exec Out := do
  let _ ← f.read (p + 1)
  number stop k (m.load addr)
    { spec with
      flags := { spec.flags with special := true, small := true, zeropad := true }
      base := 16
      fieldWidth := 10 }

/-- The specification of a plain pointer. -/
def PrintfSpec.plainPointer (spec : PrintfSpec) : PrintfSpec :=
  if spec.fieldWidth = -1 then
    { spec with
      flags := { spec.flags with small := true, zeropad := true }
      base := 16
      fieldWidth := 8 }
  else { spec with flags := { spec.flags with small := true }, base := 16 }

/-- `pointer`; `fmt`, at `p`, is after the `p` of the conversion. -/
def pointer (f : FormatString) (m : ArgMemory) (p stop : ℕ) (k : Out) (ptr : ℕ)
    (spec : PrintfSpec) : Exec Out := do
  let c ← f.read p
  if ptr = 0 ∧ c ≠ ascii 'K' then
    stringAt stop k nullString
      (if spec.fieldWidth = -1 then { spec with fieldWidth := 8 } else spec)
  else if c = ascii 'R' ∨ c = ascii 'r' then resourceString m stop k ptr spec c
  else if c = ascii 'h' then hexString f stop k (m.from ptr) spec p
  else if c = ascii 'a' then addressVal f m stop k ptr spec p
  else number stop k ptr spec.plainPointer

/-! ## The main loop -/

/-- `va_arg` of an integer conversion: the number, as 64 bits, and the words taken. -/
def vaNumber (args : ℕ → UInt32) (i : ℕ) (spec : PrintfSpec) : ℕ × ℕ :=
  let w := (args i).toNat
  match spec.type with
  | .longLong => (w + 2 ^ 32 * (args (i + 1)).toNat, 2)
  | .ulong => (w, 1)
  | .long => (u64 (int32 w), 1)
  | .sizeT => (if spec.flags.sign then u64 (int32 w) else w, 1)
  | .ptrdiff => (u64 (int32 w), 1)
  | .ubyte => (w % 2 ^ 8, 1)
  | .byte => (u64 (Int8.ofNat w).toInt, 1)
  | .ushort => (w % 2 ^ 16, 1)
  | .short => (u64 (Int16.ofNat w).toInt, 1)
  | .int => (u64 (int32 w), 1)
  | _ => (w, 1)

/-- A run of text: `memcpy` of what fits, and the cursor after the whole of it. -/
def putText (stop : ℕ) (k : Out) (text : List UInt8) : Out where
  pos := (k.pos + text.length) % 2 ^ 32
  mem :=
    if k.pos < stop then
      let room := int32 (stop - k.pos)
      let copy := if (text.length : ℤ) > room then room else text.length
      blit k.mem k.pos (text.take (u32 copy))
    else k.mem

/-- `%c`. -/
def putChar (stop : ℕ) (k : Out) (c : UInt8) (spec : PrintfSpec) : Exec (Int16 × Out) := do
  let (width, k) ←
    if !spec.flags.left then padDown stop (ascii ' ') 1 spec.fieldWidth k
    else pure (spec.fieldWidth, k)
  padDown stop (ascii ' ') 1 width (putc stop k c)

/-- One round of the loop over the letters and digits after `%p`. -/
def alnumStep (f : FormatString) (p : ℕ) : Exec (ℕ ⊕ ℕ) := do
  if isalnum (← f.read p) then pure (.inl (p + 1)) else pure (.inr p)

/-- The variables of `vsnprintf`: `fmt`, `spec`, the next argument and `str`. -/
structure FormatState where
  pos : ℕ
  spec : PrintfSpec
  arg : ℕ
  str : Out

section Main

variable (f : FormatString) (args : ℕ → UInt32) (m : ArgMemory)

/-- One round of the main loop. -/
def vsnprintfStep (stop : ℕ) (s : FormatState) : Exec (FormatState ⊕ FormatState) := do
  if (← f.read s.pos) = 0 then pure (.inr s)
  else
    let (read, spec) ← formatDecode f s.pos s.spec
    let pos := s.pos + read
    let word := args s.arg
    match spec.type with
    | .none =>
      let str := putText stop s.str ((f.bytes.drop s.pos).take read)
      pure (.inl { s with pos, spec, str })
    | .width =>
      let spec := { spec with fieldWidth := Int16.ofInt (int32 word.toNat) }
      pure (.inl { s with pos, spec, arg := s.arg + 1 })
    | .precision =>
      let spec := { spec with precision := Int16.ofInt (int32 word.toNat) }
      pure (.inl { s with pos, spec, arg := s.arg + 1 })
    | .char =>
      let (fieldWidth, str) ← putChar stop s.str word.toUInt8 spec
      pure (.inl { pos, spec := { spec with fieldWidth }, arg := s.arg + 1, str })
    | .str =>
      let str ← string m stop s.str word.toNat spec
      pure (.inl { pos, spec, arg := s.arg + 1, str })
    | .ptr =>
      let str ← pointer f m pos stop s.str word.toNat spec
      let pos ← Exec.loop (alnumStep f) (f.length + 1) pos
      pure (.inl { pos, spec, arg := s.arg + 1, str })
    | .percentChar => pure (.inl { s with pos, spec, str := putc stop s.str (ascii '%') })
    | .invalid => pure (.inl { s with pos, spec, str := putc stop s.str (ascii '%') })
    | _ =>
      let (num, words) := vaNumber args s.arg spec
      let str ← number stop s.str num spec
      pure (.inl { pos, spec, arg := s.arg + words, str })

/-- A specification of zeros. -/
def zeroSpec : PrintfSpec := ⟨.none, {}, 0, 0, 0, 0⟩

/-- `vsnprintf`: what it returns, and memory after it. -/
def vsnprintf (mem : ℕ → UInt8) (buf size : ℕ) : Exec (ℤ × (ℕ → UInt8)) := do
  if size > 2 ^ 31 - 1 then pure (0, mem)
  else
    let stop := (buf + size) % 2 ^ 32
    let (stop, size) := if stop < buf then (2 ^ 32 - 1, 2 ^ 32 - 1 - buf) else (stop, size)
    let s ← Exec.loop (vsnprintfStep f args m stop) (2 * f.length + 2) ⟨0, zeroSpec, 0, ⟨buf, mem⟩⟩
    let mem :=
      if size > 0 then
        if s.str.pos < stop then Function.update s.str.mem s.str.pos 0
        else Function.update s.str.mem (stop - 1) 0
      else s.str.mem
    pure (int32 (sub32 s.str.pos buf), mem)

end Main

end Sandix
