import Sandix.Machinery.Bytes
import Sandix.Machinery.Exec
import Sandix.Machinery.Word

/-!
# Machinery/I386 — inline assembly for the i386

A program is the text of an `asm` statement: labels, instructions and jumps, where `nf` and `nb` lead to
the next and to the last label `n`, and a label may occur twice.  It runs from its first line until it
falls off its end.  The processor has the registers an operand can be in, the flags the jumps look at,
and byte memory; it keeps a list of the addresses it has read through a register.

`Halts prog pc c Q` says that the program, at line `pc`, comes to its end in a state meeting `Q`.  A
stretch of instructions is run at once (`Halts.block`), and a jump is followed or passed.
-/

namespace Machinery

namespace I386

open Function

inductive Reg
  | eax | ebx | ecx | edx | esi | edi | ebp
deriving DecidableEq, Repr

/-- The processor, with its memory and the addresses it has read through a register. -/
structure Cpu where
  reg : Reg → ℕ
  cf : Bool
  zf : Bool
  sf : Bool
  df : Bool
  mem : ℕ → UInt8
  reads : List ℕ

/-- `disp(base, index)`. -/
structure Addr where
  base : Reg
  index : Option Reg
  disp : ℤ

/-- An immediate, a register, or a word at a fixed place in memory. -/
inductive Src
  | imm (v : ℕ)
  | reg (r : Reg)
  | word (a : ℕ)

inductive Alu
  | add | sub | cmp | and | xor | sbb

/-- The instructions, in the order of their AT&T operands: `alu a s d` is `a s, d`.  The forms of `mov`
to and from memory are `load` and `store`, with the width in bytes for the narrow ones. -/
inductive Op
  | alu (a : Alu) (src : Src) (dst : Reg)
  | inc (r : Reg)
  | dec (r : Reg)
  | not (r : Reg)
  | shr (k : ℕ) (r : Reg)
  | mov (src : Src) (dst : Reg)
  | xchg (r r' : Reg)
  | lea (a : Addr) (dst : Reg)
  | load (a : Addr) (dst : Reg)
  | loadLow (n : ℕ) (a : Addr) (dst : Reg)
  | store (n : ℕ) (src : Reg) (a : Addr)
  | cmpb (v : ℕ) (a : Addr)
  | testAl
  | orAl (v : ℕ)
  | std
  | cld
  | lodsb
  | stosb
  | scasb
  | repMovsl
  | repStosb
  | repneScasb
  | repeCmpsb

/-! ## The processor -/

namespace Cpu

variable (c : Cpu)

/-- A register is written. -/
def set (r : Reg) (v : ℕ) : Cpu := { c with reg := update c.reg r v }

/-- The flags of a 32-bit result. -/
def flags (r : ℕ) (cf : Bool) : Cpu := { c with cf := cf, zf := r = 0, sf := 2 ^ 31 ≤ r }

/-- The flags of the comparison of two bytes. -/
def byteFlags (d s : ℕ) : Cpu := { c with cf := d < s, zf := d = s, sf := 128 ≤ (d + 256 - s) % 256 }

/-- `n` bytes are read at `a`. -/
def see (a n : ℕ) : Cpu :=
  { c with reads := c.reads ++ (List.range n).map fun i => (a + i) % 2 ^ 32 }

def ea (a : Addr) : ℕ := u32 (c.reg a.base + (a.index.elim 0 fun r => (c.reg r : ℤ)) + a.disp)

def val : Src → ℕ
  | .imm v => v
  | .reg r => c.reg r
  | .word a => load c.mem a 4

def al : ℕ := c.reg .eax % 256

/-- The byte at `a`. -/
def byte (a : ℕ) : ℕ := (c.mem (a % 2 ^ 32)).toNat

/-- A pointer moved on by a string instruction. -/
def advance (k x : ℕ) : ℕ := if c.df then sub32 x k else (x + k) % 2 ^ 32

/-- `lodsb`. -/
def lodsb : Cpu :=
  let c' := c.see (c.reg .esi) 1
  (c'.set .eax (c.reg .eax / 256 * 256 + c.byte (c.reg .esi))).set .esi (c.advance 1 (c.reg .esi))

/-- `stosb`. -/
def stosb : Cpu :=
  { c with mem := store c.mem (c.reg .edi) c.al 1 }.set .edi (c.advance 1 (c.reg .edi))

/-- `scasb`. -/
def scasb : Cpu :=
  ((c.see (c.reg .edi) 1).byteFlags c.al (c.byte (c.reg .edi))).set .edi (c.advance 1 (c.reg .edi))

/-- `cmpsb`. -/
def cmpsb : Cpu :=
  let c' := ((c.see (c.reg .esi) 1).see (c.reg .edi) 1).byteFlags (c.byte (c.reg .esi))
    (c.byte (c.reg .edi))
  (c'.set .esi (c.advance 1 (c.reg .esi))).set .edi (c.advance 1 (c.reg .edi))

/-- `movsl`. -/
def movsl : Cpu :=
  let c' := c.see (c.reg .esi) 4
  let c' := { c' with mem := store c.mem (c.reg .edi) (load c.mem (c.reg .esi) 4) 4 }
  (c'.set .esi (c.advance 4 (c.reg .esi))).set .edi (c.advance 4 (c.reg .edi))

/-- A repeated instruction, for `n` rounds: `ecx` counts down, and `stop` ends it early. -/
def rep (f : Cpu → Cpu) (stop : Cpu → Bool) : ℕ → Cpu → Cpu
  | 0, c => c
  | n + 1, c =>
    let c' := (f c).set .ecx n
    if stop c' then c' else rep f stop n c'

end Cpu

namespace Alu

def result (d s : ℕ) (cf : Bool) : Alu → ℕ
  | add => (d + s) % 2 ^ 32
  | sub => sub32 d s
  | cmp => sub32 d s
  | and => d &&& s
  | xor => d ^^^ s
  | sbb => sub32 d (s + cf.toNat)

def carry (d s : ℕ) (cf : Bool) : Alu → Bool
  | add => 2 ^ 32 ≤ d + s
  | sub => d < s
  | cmp => d < s
  | and => false
  | xor => false
  | sbb => d < s + cf.toNat

end Alu

/-- An instruction. -/
def Op.exec (c : Cpu) : Op → Cpu
  | alu a src dst =>
    let r := a.result (c.reg dst) (c.val src) c.cf
    let c' := c.flags r (a.carry (c.reg dst) (c.val src) c.cf)
    match a with
    | .cmp => c'
    | _ => c'.set dst r
  | inc r => (c.flags ((c.reg r + 1) % 2 ^ 32) c.cf).set r ((c.reg r + 1) % 2 ^ 32)
  | dec r => (c.flags (sub32 (c.reg r) 1) c.cf).set r (sub32 (c.reg r) 1)
  | not r => c.set r (2 ^ 32 - 1 - c.reg r)
  | shr k r => (c.flags (c.reg r >>> k) ((c.reg r).testBit (k - 1))).set r (c.reg r >>> k)
  | mov src dst => c.set dst (c.val src)
  | xchg r r' => (c.set r (c.reg r')).set r' (c.reg r)
  | lea a dst => c.set dst (c.ea a)
  | load a dst => (c.see (c.ea a) 4).set dst (Machinery.load c.mem (c.ea a) 4)
  | loadLow n a dst =>
    (c.see (c.ea a) n).set dst (c.reg dst / 256 ^ n * 256 ^ n + Machinery.load c.mem (c.ea a) n)
  | store n src a => { c with mem := Machinery.store c.mem (c.ea a) (c.reg src) n }
  | cmpb v a => (c.see (c.ea a) 1).byteFlags (c.byte (c.ea a)) v
  | testAl => { c with cf := false, zf := c.al = 0, sf := 128 ≤ c.al }
  | orAl v =>
    let r := c.al ||| v
    { c with cf := false, zf := r = 0, sf := 128 ≤ r }.set .eax (c.reg .eax / 256 * 256 + r)
  | std => { c with df := true }
  | cld => { c with df := false }
  | lodsb => c.lodsb
  | stosb => c.stosb
  | scasb => c.scasb
  | repMovsl => Cpu.rep Cpu.movsl (fun _ => false) (c.reg .ecx) c
  | repStosb => Cpu.rep Cpu.stosb (fun _ => false) (c.reg .ecx) c
  | repneScasb => Cpu.rep Cpu.scasb (fun c => c.zf) (c.reg .ecx) c
  | repeCmpsb => Cpu.rep Cpu.cmpsb (fun c => !c.zf) (c.reg .ecx) c

/-- The count and the two pointers in their registers, and memory; the string instructions go up. -/
structure Moving (c : Cpu) (m : ℕ → UInt8) (n s d : ℕ) : Prop where
  ecx : c.reg .ecx = n
  esi : c.reg .esi = s
  edi : c.reg .edi = d
  mem : c.mem = m
  df : c.df = false

namespace Moving

variable {c : Cpu} {m : ℕ → UInt8} {n s d : ℕ}

theorem sub (h : Moving c m n s d) (k : ℕ) :
    Moving (Op.exec c (.alu .sub (.imm k) .ecx)) m (sub32 n k) s d ∧
    (Op.exec c (.alu .sub (.imm k) .ecx)).cf = decide (n < k) := by
  refine ⟨⟨?_, h.esi, h.edi, h.mem, h.df⟩, ?_⟩
  · rw [← h.ecx]
    rfl
  · rw [← h.ecx]
    rfl

theorem add (h : Moving c m n s d) (k : ℕ) :
    Moving (Op.exec c (.alu .add (.imm k) .ecx)) m ((n + k) % 2 ^ 32) s d := by
  refine ⟨?_, h.esi, h.edi, h.mem, h.df⟩
  rw [← h.ecx]
  rfl

theorem lea (h : Moving c m n s d) {k : ℤ} {s' d' : ℕ} (hs : u32 (s + k) = s') (hd : u32 (d + k) = d') :
    Moving ([.lea ⟨.esi, none, k⟩ .esi, .lea ⟨.edi, none, k⟩ .edi].foldl Op.exec c) m n s' d' ∧
    ([.lea ⟨.esi, none, k⟩ .esi, .lea ⟨.edi, none, k⟩ .edi].foldl Op.exec c).cf = c.cf := by
  rw [← hs, ← hd]
  refine ⟨⟨h.ecx, ?_, ?_, h.mem, h.df⟩, rfl⟩
  · rw [← h.esi]
    simp [Op.exec, Cpu.set, Cpu.ea]
  · rw [← h.edi]
    simp [Op.exec, Cpu.set, Cpu.ea]

theorem cmp (h : Moving c m n s d) (src : Src) (dst : Reg) :
    Moving (Op.exec c (.alu .cmp src dst)) m n s d := ⟨h.ecx, h.esi, h.edi, h.mem, h.df⟩

/-- Pointers that are used are in range. -/
theorem reduce (h : Moving c m n (s % 2 ^ 32) (d % 2 ^ 32)) (hs : s < 2 ^ 32) (hd : d < 2 ^ 32) :
    Moving c m n s d := by rwa [Nat.mod_eq_of_lt hs, Nat.mod_eq_of_lt hd] at h

theorem mod (h : Moving c m n s d) (hs : s < 2 ^ 32) (hd : d < 2 ^ 32) :
    Moving c m n (s % 2 ^ 32) (d % 2 ^ 32) := by rwa [Nat.mod_eq_of_lt hs, Nat.mod_eq_of_lt hd]

end Moving

/-- The operand is `v`, and not in one of the registers `used`. -/
def Src.Holds (c : Cpu) (used : List Reg) (v : ℕ) : Src → Prop
  | imm n => n = v
  | reg r => r ∉ used ∧ c.reg r = v
  | word a => load c.mem a 4 = v

namespace Src.Holds

variable {c c' : Cpu} {used : List Reg} {v : ℕ} {g : Src}

theorem val_eq (h : g.Holds c used v) : c.val g = v := by
  cases g with
  | imm n => exact h
  | reg r => exact h.2
  | word a => exact h

/-- …which it still is while only these change. -/
theorem frame (h : g.Holds c used v) (hreg : ∀ r ∉ used, c'.reg r = c.reg r) (hmem : c'.mem = c.mem) :
    g.Holds c' used v := by
  cases g with
  | imm n => exact h
  | reg r => exact ⟨h.1, (hreg r h.1).trans h.2⟩
  | word a =>
    rw [Holds, hmem]
    exact h

end Src.Holds

/-! ## String instructions

`rep movsl` copies a block of words, upwards in memory or downwards as the direction flag says; `rep
stosb` fills one with a byte; `repne scasb` goes to the first byte that is `al`, and `repe cmpsb` to the
first pair that differs. -/

namespace Cpu

variable {c : Cpu} {d s : ℕ}

theorem rep_movsl_frame {r : Reg} (hcx : r ≠ .ecx) (hsi : r ≠ .esi) (hdi : r ≠ .edi) :
    ∀ (q : ℕ) (c : Cpu), (rep movsl (fun _ => false) q c).reg r = c.reg r
  | 0, _ => rfl
  | q + 1, c => by
      rw [rep, if_neg Bool.false_ne_true, rep_movsl_frame hcx hsi hdi q]
      simp only [movsl, set, see, update_of_ne hcx, update_of_ne hdi, update_of_ne hsi]

theorem rep_movsl_df : ∀ (q : ℕ) (c : Cpu), (rep movsl (fun _ => false) q c).df = c.df
  | 0, _ => rfl
  | q + 1, c => by
      rw [rep, if_neg Bool.false_ne_true, rep_movsl_df q]
      rfl

theorem movsl_mem (hsi : c.reg .esi = s) (hdi : c.reg .edi = d) (hs : s + 4 ≤ 2 ^ 32)
    (hd : d + 4 ≤ 2 ^ 32) (n : ℕ) : (c.movsl.set .ecx n).mem = overwrite c.mem d c.mem s 4 := by
  rw [← store_load c.mem 4 hd hs, ← hsi, ← hdi]
  rfl

theorem movsl_esi (n : ℕ) : (c.movsl.set .ecx n).reg .esi = c.advance 4 (c.reg .esi) := by
  simp [movsl, set, see]

theorem movsl_edi (n : ℕ) : (c.movsl.set .ecx n).reg .edi = c.advance 4 (c.reg .edi) := by
  simp [movsl, set, see]

/-- **`rep movsl` forward**, to a block that does not lie above. -/
theorem rep_movsl_forward : ∀ {q : ℕ} {c : Cpu} {d s : ℕ}, c.df = false → d ≤ s →
    c.reg .esi = s % 2 ^ 32 → c.reg .edi = d % 2 ^ 32 → s + 4 * q ≤ 2 ^ 32 → d + 4 * q ≤ 2 ^ 32 →
    (rep movsl (fun _ => false) q c).mem = overwrite c.mem d c.mem s (4 * q)
  | 0, c, d, s, _, _, _, _, _, _ => by rw [rep, Nat.mul_zero, overwrite_zero]
  | q + 1, c, d, s, hdf, hds, hsi, hdi, hs, hd => by
      rw [Nat.mod_eq_of_lt (by omega)] at hsi hdi
      have hrest := rep_movsl_forward (q := q) (c := c.movsl.set .ecx q) (d := d + 4) (s := s + 4) hdf
        (by omega) (by rw [movsl_esi, hsi, advance, hdf]; rfl)
        (by rw [movsl_edi, hdi, advance, hdf]; rfl) (by omega) (by omega)
      rw [rep, if_neg Bool.false_ne_true, hrest, movsl_mem hsi hdi (by omega) (by omega),
        overwrite_forward hds]
      congr 1
      omega

/-- **`rep movsl` backward**, to a block that does not lie below: the pointers start at the last word. -/
theorem rep_movsl_backward (hsd : s ≤ d) : ∀ {q : ℕ} {c : Cpu}, c.df = true →
    c.reg .esi = sub32 (s + 4 * q) 4 → c.reg .edi = sub32 (d + 4 * q) 4 → s + 4 * q ≤ 2 ^ 32 →
    d + 4 * q ≤ 2 ^ 32 → (rep movsl (fun _ => false) q c).mem = overwrite c.mem d c.mem s (4 * q)
  | 0, c, _, _, _, _, _ => by rw [rep, Nat.mul_zero, overwrite_zero]
  | q + 1, c, hdf, hsi, hdi, hs, hd => by
      have hlast : ∀ {a : ℕ}, a + 4 * (q + 1) ≤ 2 ^ 32 → sub32 (a + 4 * (q + 1)) 4 = a + 4 * q := by
        intro a ha
        rw [sub32]
        omega
      rw [hlast hs] at hsi
      rw [hlast hd] at hdi
      have hrest := rep_movsl_backward hsd (q := q) (c := c.movsl.set .ecx q) hdf
        (by rw [movsl_esi, hsi, advance, hdf]; rfl) (by rw [movsl_edi, hdi, advance, hdf]; rfl)
        (by omega) (by omega)
      rw [rep, if_neg Bool.false_ne_true, hrest, movsl_mem hsi hdi (by omega) (by omega),
        overwrite_backward hsd]
      congr 1

/-- **`rep stosb`.** -/
theorem rep_stosb : ∀ {q : ℕ} {c : Cpu} {d : ℕ}, c.df = false → c.reg .edi = d % 2 ^ 32 →
    d + q ≤ 2 ^ 32 → (rep stosb (fun _ => false) q c).mem =
      overwrite c.mem d (fun _ => UInt8.ofNat c.al) 0 q
  | 0, c, d, _, _, _ => by rw [rep, overwrite_zero]
  | q + 1, c, d, hdf, hdi, hd => by
      have hrest := rep_stosb (q := q) (c := c.stosb.set .ecx q) (d := d + 1) hdf
        (by simp [stosb, set, advance, hdf, hdi]) (by omega)
      have hal : (c.stosb.set .ecx q).al = c.al := by simp [stosb, set, al]
      have hmem : (c.stosb.set .ecx q).mem = overwrite c.mem d (fun _ => UInt8.ofNat c.al) 0 1 := by
        have hone := overwrite_succ c.mem d (fun _ => UInt8.ofNat c.al) 0 0
        rw [overwrite_zero, Nat.add_zero] at hone
        rw [← hone, ← Nat.mod_eq_of_lt (show d < 2 ^ 32 by omega), ← Nat.mod_mod d, ← hdi]
        rfl
      have hshift : ∀ m : ℕ → UInt8, overwrite m (d + 1) (fun _ => UInt8.ofNat c.al) 0 q =
          overwrite m (d + 1) (fun _ => UInt8.ofNat c.al) (0 + 1) q :=
        fun m => overwrite_congr fun _ _ => rfl
      rw [rep, if_neg Bool.false_ne_true, hrest, hal, hmem, hshift,
        overwrite_glue c.mem d _ 0 le_rfl (by omega), Nat.add_comm]

end Cpu

/-- `repne scasb` has found `al` at `a + l`, with `n` rounds to go before it began. -/
structure Scanned (c : Cpu) (a l n : ℕ) (c' : Cpu) : Prop where
  edi : c'.reg .edi = (a + l + 1) % 2 ^ 32
  ecx : c'.reg .ecx = n - (l + 1)
  reg : ∀ r, r ≠ .ecx → r ≠ .edi → c'.reg r = c.reg r
  mem : c'.mem = c.mem
  df : c'.df = false
  reads : ∀ x ∈ c'.reads, x ∈ c.reads ∨ a ≤ x ∧ x ≤ a + l

namespace Cpu

/-- A round of `repne scasb`. -/
theorem scasb_round {c : Cpu} {a : ℕ} (hdf : c.df = false) (hdi : c.reg .edi = a) (ha : a < 2 ^ 32)
    (n : ℕ) : Scanned c a 0 (n + 1) (c.scasb.set .ecx n) ∧
      (c.scasb.set .ecx n).zf = decide (c.al = (c.mem a).toNat) ∧ (c.scasb.set .ecx n).al = c.al := by
  refine ⟨⟨?_, ?_, fun r hcx hdi => ?_, rfl, hdf, fun x hx => ?_⟩, ?_, ?_⟩
  · simp [scasb, set, advance, hdf, hdi]
  · simp [set]
  · simp [scasb, set, byteFlags, see, hcx, hdi]
  · have hlog : (c.scasb.set .ecx n).reads = c.reads ++ [(a + 0) % 2 ^ 32] := by
      rw [← hdi]
      rfl
    rw [hlog, List.mem_append, List.mem_singleton] at hx
    exact hx.imp_right fun hx => by omega
  · have hzf : (c.scasb.set .ecx n).zf = decide (c.al = (c.mem (a % 2 ^ 32)).toNat) := by
      rw [← hdi]
      rfl
    rw [hzf, Nat.mod_eq_of_lt ha]
  · simp [scasb, set, byteFlags, see, al]

/-- **`repne scasb`.** -/
theorem rep_scasb : ∀ {l n : ℕ} {c : Cpu} {a : ℕ}, c.df = false → c.reg .edi = a → a + l < 2 ^ 32 →
    l < n → (∀ i < l, (c.mem (a + i)).toNat ≠ c.al) → (c.mem (a + l)).toNat = c.al →
    Scanned c a l n (rep scasb (fun c => c.zf) n c)
  | _, 0, _, _, _, _, _, hn, _, _ => absurd hn (Nat.not_lt_zero _)
  | 0, n + 1, c, a, hdf, hdi, ha, _, _, hfound => by
      obtain ⟨hround, hzf, -⟩ := scasb_round hdf hdi (by omega) n
      rw [rep, if_pos (hzf.trans (decide_eq_true hfound.symm))]
      exact hround
  | l + 1, n + 1, c, a, hdf, hdi, ha, hn, hno, hfound => by
      obtain ⟨hround, hzf, hal⟩ := scasb_round hdf hdi (by omega) n
      have hne : c.al ≠ (c.mem a).toNat := (hno 0 (Nat.zero_lt_succ l)).symm
      have hgo : ¬(c.scasb.set .ecx n).zf = true := by
        rw [hzf, decide_eq_true_iff]
        exact hne
      have hrest := rep_scasb (l := l) (n := n) (c := c.scasb.set .ecx n) (a := a + 1) hdf
        (by rw [hround.edi, Nat.mod_eq_of_lt (by omega), Nat.add_zero]) (by omega) (by omega)
        (fun i hi => by
          rw [hal, Nat.add_assoc, Nat.add_comm 1]
          exact hno (i + 1) (by omega))
        (by
          rw [hal, Nat.add_assoc, Nat.add_comm 1]
          exact hfound)
      rw [rep, if_neg hgo]
      refine ⟨?_, ?_, fun r hcx hdi => ?_, hrest.mem, hrest.df, fun x hx => ?_⟩
      · rw [hrest.edi, Nat.add_assoc a, Nat.add_comm 1]
      · rw [hrest.ecx]
        omega
      · rw [hrest.reg r hcx hdi, hround.reg r hcx hdi]
      · rcases hrest.reads x hx with hx | hx
        · rcases hround.reads x hx with hx | hx
          · exact Or.inl hx
          · exact Or.inr (by omega)
        · exact Or.inr (by omega)

end Cpu

/-- `repe cmpsb` has compared `k` bytes at `s` and `d`. -/
structure Compared (c : Cpu) (s d k : ℕ) (c' : Cpu) : Prop where
  esi : c'.reg .esi = (s + k) % 2 ^ 32
  edi : c'.reg .edi = (d + k) % 2 ^ 32
  reg : ∀ r, r ≠ .ecx → r ≠ .esi → r ≠ .edi → c'.reg r = c.reg r
  mem : c'.mem = c.mem
  df : c'.df = false
  reads : ∀ x ∈ c'.reads, x ∈ c.reads ∨ (s ≤ x ∧ x < s + k) ∨ d ≤ x ∧ x < d + k

theorem Compared.trans {c c₁ c₂ : Cpu} {s d k l : ℕ} (h : Compared c s d k c₁)
    (h' : Compared c₁ (s + k) (d + k) l c₂) : Compared c s d (k + l) c₂ := by
  refine ⟨?_, ?_, fun r hcx hsi hdi => ?_, h'.mem.trans h.mem, h'.df, fun x hx => ?_⟩
  · rw [h'.esi, Nat.add_assoc]
  · rw [h'.edi, Nat.add_assoc]
  · rw [h'.reg r hcx hsi hdi, h.reg r hcx hsi hdi]
  · rcases h'.reads x hx with hx | hx
    · exact (h.reads x hx).imp_right fun hx => by omega
    · exact Or.inr (by omega)

namespace Cpu

/-- A round of `repe cmpsb`. -/
theorem cmpsb_round {c : Cpu} {s d : ℕ} (hdf : c.df = false) (hsi : c.reg .esi = s % 2 ^ 32)
    (hdi : c.reg .edi = d % 2 ^ 32) (hs : s < 2 ^ 32) (hd : d < 2 ^ 32) (n : ℕ) :
    Compared c s d 1 (c.cmpsb.set .ecx n) ∧
      (c.cmpsb.set .ecx n).zf = decide (c.mem s = c.mem d) := by
  rw [Nat.mod_eq_of_lt hs] at hsi
  rw [Nat.mod_eq_of_lt hd] at hdi
  refine ⟨⟨?_, ?_, fun r hcx hsi hdi => ?_, rfl, hdf, fun x hx => ?_⟩, ?_⟩
  · simp [cmpsb, set, advance, hdf, hsi]
  · simp [cmpsb, set, advance, hdf, hdi]
  · simp [cmpsb, set, byteFlags, see, hcx, hsi, hdi]
  · have hlog : (c.cmpsb.set .ecx n).reads =
        c.reads ++ [(s + 0) % 2 ^ 32] ++ [(d + 0) % 2 ^ 32] := by
      rw [← hsi, ← hdi]
      rfl
    rw [hlog, List.mem_append, List.mem_append, List.mem_singleton, List.mem_singleton, or_assoc] at hx
    exact hx.imp_right fun hx => by omega
  · have hzf : (c.cmpsb.set .ecx n).zf =
        decide ((c.mem (s % 2 ^ 32)).toNat = (c.mem (d % 2 ^ 32)).toNat) := by
      rw [← hsi, ← hdi]
      rfl
    rw [hzf, Nat.mod_eq_of_lt hs, Nat.mod_eq_of_lt hd]
    exact decide_eq_decide.mpr UInt8.toNat_inj

/-- **`repe cmpsb`** over bytes that agree; with none to compare it leaves the flags. -/
theorem rep_cmpsb_same : ∀ {n : ℕ} {c : Cpu} {s d : ℕ}, c.df = false → c.reg .esi = s % 2 ^ 32 →
    c.reg .edi = d % 2 ^ 32 → s + n ≤ 2 ^ 32 → d + n ≤ 2 ^ 32 →
    (∀ i < n, c.mem (s + i) = c.mem (d + i)) → (n = 0 → c.zf = true) →
    Compared c s d n (rep cmpsb (fun c => !c.zf) n c) ∧ (rep cmpsb (fun c => !c.zf) n c).zf = true
  | 0, c, s, d, hdf, hsi, hdi, _, _, _, hzf => by
      refine ⟨⟨hsi, hdi, fun _ _ _ _ => rfl, rfl, hdf, fun x hx => Or.inl hx⟩, hzf rfl⟩
  | n + 1, c, s, d, hdf, hsi, hdi, hs, hd, hsame, _ => by
      obtain ⟨hround, hzf⟩ := cmpsb_round hdf hsi hdi (by omega) (by omega) n
      replace hzf := hzf.trans (decide_eq_true (hsame 0 (Nat.zero_lt_succ n)))
      obtain ⟨hrest, hzf'⟩ := rep_cmpsb_same (n := n) (c := c.cmpsb.set .ecx n) (s := s + 1) (d := d + 1)
        hdf hround.esi hround.edi (by omega) (by omega)
        (fun i hi => by
          rw [Nat.add_assoc, Nat.add_assoc, Nat.add_comm 1]
          exact hsame (i + 1) (by omega)) fun _ => hzf
      rw [rep, if_neg (by rw [hzf]; decide), Nat.add_comm n]
      exact ⟨hround.trans hrest, hzf'⟩

/-- **`repe cmpsb`** stops behind the first bytes that differ. -/
theorem rep_cmpsb_differ : ∀ {j n : ℕ} {c : Cpu} {s d : ℕ}, c.df = false → c.reg .esi = s % 2 ^ 32 →
    c.reg .edi = d % 2 ^ 32 → s + j < 2 ^ 32 → d + j < 2 ^ 32 → j < n →
    (∀ i < j, c.mem (s + i) = c.mem (d + i)) → c.mem (s + j) ≠ c.mem (d + j) →
    Compared c s d (j + 1) (rep cmpsb (fun c => !c.zf) n c) ∧
      (rep cmpsb (fun c => !c.zf) n c).zf = false
  | _, 0, _, _, _, _, _, _, _, _, hn, _, _ => absurd hn (Nat.not_lt_zero _)
  | 0, n + 1, c, s, d, hdf, hsi, hdi, hs, hd, _, _, hne => by
      obtain ⟨hround, hzf⟩ := cmpsb_round hdf hsi hdi (by omega) (by omega) n
      replace hzf := hzf.trans (decide_eq_false hne)
      rw [rep, if_pos (by rw [hzf]; rfl)]
      exact ⟨hround, hzf⟩
  | j + 1, n + 1, c, s, d, hdf, hsi, hdi, hs, hd, hn, hsame, hne => by
      obtain ⟨hround, hzf⟩ := cmpsb_round hdf hsi hdi (by omega) (by omega) n
      replace hzf := hzf.trans (decide_eq_true (hsame 0 (Nat.zero_lt_succ j)))
      obtain ⟨hrest, hzf'⟩ := rep_cmpsb_differ (j := j) (n := n) (c := c.cmpsb.set .ecx n) (s := s + 1)
        (d := d + 1) hdf hround.esi hround.edi (by omega) (by omega) (by omega)
        (fun i hi => by
          rw [Nat.add_assoc, Nat.add_assoc, Nat.add_comm 1]
          exact hsame (i + 1) (by omega))
        (by
          rw [Nat.add_assoc, Nat.add_assoc, Nat.add_comm 1]
          exact hne)
      rw [rep, if_neg (by rw [hzf]; decide), Nat.add_comm (j + 1)]
      exact ⟨hround.trans hrest, hzf'⟩

end Cpu

/-! ## Programs -/

inductive Cond
  | always | b | ae | e | ne | s

def Cond.holds (c : Cpu) : Cond → Bool
  | always => true
  | b => c.cf
  | ae => !c.cf
  | e => c.zf
  | ne => !c.zf
  | s => c.sf

/-- `nf` and `nb`. -/
inductive Target
  | fwd (n : ℕ)
  | back (n : ℕ)

inductive Line
  | label (n : ℕ)
  | op (o : Op)
  | jump (cond : Cond) (t : Target)

/-- Instructions, as lines. -/
def ops (l : List Op) : List Line := l.map .op

def Line.isLabel (n : ℕ) : Line → Bool
  | label m => m == n
  | _ => false

/-- The line a jump at `pc` leads to. -/
def target (prog : List Line) (pc : ℕ) : Target → Option ℕ
  | .fwd n => ((prog.drop (pc + 1)).findIdx? (Line.isLabel n)).map fun i => pc + 1 + i
  | .back n => ((prog.take pc).reverse.findIdx? (Line.isLabel n)).map fun i => pc - 1 - i

/-- One line. -/
def step (prog : List Line) : ℕ × Cpu → Exec (ℕ × Cpu ⊕ Cpu)
  | (pc, c) =>
    match prog[pc]? with
    | none => .ok (.inr c)
    | some (.label _) => .ok (.inl (pc + 1, c))
    | some (.op o) => .ok (.inl (pc + 1, o.exec c))
    | some (.jump cond t) =>
      if cond.holds c then
        match target prog pc t with
        | some pc' => .ok (.inl (pc', c))
        | none => .error .fault
      else .ok (.inl (pc + 1, c))

/-- The program, from line `pc` on, on a budget of lines. -/
def run (prog : List Line) (fuel pc : ℕ) (c : Cpu) : Exec Cpu := Exec.loop (step prog) fuel (pc, c)

/-- From line `pc` on the program comes to its end, in a state meeting `Q`. -/
def Halts (prog : List Line) (pc : ℕ) (c : Cpu) (Q : Cpu → Prop) : Prop :=
  ∃ fuel c', run prog fuel pc c = .ok c' ∧ Q c'

namespace Halts

variable {prog : List Line} {pc pc' n : ℕ} {c c' : Cpu} {Q Q' : Cpu → Prop} {cond : Cond} {t : Target}

theorem mono (h : Halts prog pc c Q) (hQ : ∀ c, Q c → Q' c) : Halts prog pc c Q' := by
  obtain ⟨fuel, c', hrun, hq⟩ := h
  exact ⟨fuel, c', hrun, hQ c' hq⟩

/-- The end of the text. -/
theorem done (hpc : prog[pc]? = none) (h : Q c) : Halts prog pc c Q :=
  ⟨1, c, Exec.loop_done (by rw [step, hpc]), h⟩

theorem next (hstep : step prog (pc, c) = .ok (.inl (pc', c'))) (h : Halts prog pc' c' Q) :
    Halts prog pc c Q := by
  obtain ⟨fuel, c'', hrun, hq⟩ := h
  exact ⟨fuel + 1, c'', (Exec.loop_next hstep).trans hrun, hq⟩

theorem label (hpc : prog[pc]? = some (.label n)) (h : Halts prog (pc + 1) c Q) : Halts prog pc c Q :=
  next (by rw [step, hpc]) h

theorem taken (hpc : prog[pc]? = some (.jump cond t)) (hcond : cond.holds c = true)
    (ht : target prog pc t = some pc') (h : Halts prog pc' c Q) : Halts prog pc c Q :=
  next (by rw [step, hpc]; simp only [hcond, if_true, ht]) h

theorem passed (hpc : prog[pc]? = some (.jump cond t)) (hcond : cond.holds c = false)
    (h : Halts prog (pc + 1) c Q) : Halts prog pc c Q :=
  next (by rw [step, hpc]; simp only [hcond, if_false, Bool.false_eq_true]) h

theorem op {o : Op} (hpc : prog[pc]? = some (.op o)) (h : Halts prog (pc + 1) (o.exec c) Q) :
    Halts prog pc c Q := next (by rw [step, hpc]) h

/-- **A stretch of instructions.** -/
theorem block : ∀ (l : List Op) {pc : ℕ} {c : Cpu}, (prog.drop pc).take l.length = ops l →
    Halts prog (pc + l.length) (l.foldl Op.exec c) Q → Halts prog pc c Q
  | [], _, _, _, h => h
  | o :: l, pc, c, hpc, h => by
      have hdrop : prog.drop pc = .op o :: (prog.drop pc).tail := by
        cases hd : prog.drop pc with
        | nil =>
          rw [hd] at hpc
          cases hpc
        | cons line rest =>
          rw [hd, List.length_cons, List.take_succ_cons, ops, List.map_cons] at hpc
          rw [List.tail_cons, (List.cons.inj hpc).1]
      have hget : prog[pc]? = some (.op o) := by
        rw [← List.head?_drop, hdrop, List.head?_cons]
      refine op hget (block l ?_ ?_)
      · rw [hdrop, List.length_cons, List.take_succ_cons, ops, List.map_cons] at hpc
        rw [← List.tail_drop]
        exact (List.cons.inj hpc).2
      · rw [List.length_cons, List.foldl_cons] at h
        rwa [Nat.add_assoc, Nat.add_comm 1]

/-- The end is the same, whatever the budget. -/
theorem unique (h : Halts prog pc c Q) {fuel : ℕ} (hrun : run prog fuel pc c = .ok c') : Q c' := by
  obtain ⟨fuel', c₂, hrun', hq⟩ := h
  rwa [Exec.loop_unique hrun hrun']

/-- What a function returns that reads its value off the end state. -/
theorem returns_iff {α : Type} {f : Cpu → α} {v w : α} (h : Halts prog pc c fun c' => f c' = v) :
    (∃ fuel, (run prog fuel pc c >>= fun c' => pure (f c')) = .ok w) ↔ v = w := by
  refine ⟨fun hrun => ?_, fun hvw => ?_⟩
  · obtain ⟨fuel, hrun⟩ := hrun
    obtain ⟨c', hc', hret⟩ := Exec.bind_eq_ok.mp hrun
    exact (h.unique hc').symm.trans (Except.ok.inj hret)
  · obtain ⟨fuel, c', hc', hq⟩ := h
    exact ⟨fuel, by rw [hc', Exec.ok_bind, Exec.pure_eq_ok, hq, hvw]⟩

end Halts

end I386

end Machinery
