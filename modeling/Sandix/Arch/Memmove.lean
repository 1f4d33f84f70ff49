import Sandix.Lib.String
import Sandix.Machinery.I386

/-!
# Arch/Memmove — the `memmove` of the i386

The text of `memmove` in `string_32.c`: loops of 16 bytes and `rep movsl`, each in both directions, and
tails that load all their bytes before they store any.  `.p2align` adds no instruction that does
anything.

Each block of the text, between two labels or jumps, has a lemma that says what it does to the registers
`Moving` speaks of; then each label, by its line, has one that says how the text ends from there — always
with the block moved.

* `string32_memmove_eq` — the text comes to its end, with the memory and the value of the generic
  `memmove`, whatever the registers the compiler picks.
-/

namespace Sandix

open Machinery Machinery.I386 Function

/-- The registers the compiler picks for `%3`, `%4` and `%5`; `%0`, `%1` and `%2` are `ecx`, `esi` and
`edi`. -/
structure MemmoveRegs where
  r3 : Reg
  r4 : Reg
  r5 : Reg
  distinct : [Reg.ecx, .esi, .edi, r3, r4, r5].Nodup

namespace MemmoveRegs

variable (r : MemmoveRegs)

/-- 16 bytes forward. -/
def gobbleForward : List Op :=
  [.alu .sub (.imm 0x10) .ecx,
   .load ⟨.esi, none, 0 * 4⟩ r.r3, .load ⟨.esi, none, 1 * 4⟩ r.r4,
   .store 4 r.r3 ⟨.edi, none, 0 * 4⟩, .store 4 r.r4 ⟨.edi, none, 1 * 4⟩,
   .load ⟨.esi, none, 2 * 4⟩ r.r3, .load ⟨.esi, none, 3 * 4⟩ r.r4,
   .store 4 r.r3 ⟨.edi, none, 2 * 4⟩, .store 4 r.r4 ⟨.edi, none, 3 * 4⟩,
   .lea ⟨.esi, none, 0x10⟩ .esi, .lea ⟨.edi, none, 0x10⟩ .edi]

/-- Data forward by `movs`. -/
def movsForward : List Op :=
  [.load ⟨.esi, some .ecx, -4⟩ r.r3, .lea ⟨.edi, some .ecx, -4⟩ r.r4, .shr 2 .ecx, .repMovsl,
   .store 4 r.r3 ⟨r.r4, none, 0⟩]

/-- Data backward by `movs`. -/
def movsBackward : List Op :=
  [.load ⟨.esi, none, 0⟩ r.r3, .mov (.reg .edi) r.r4, .lea ⟨.esi, some .ecx, -4⟩ .esi,
   .lea ⟨.edi, some .ecx, -4⟩ .edi, .shr 2 .ecx, .std, .repMovsl, .store 4 r.r3 ⟨r.r4, none, 0⟩, .cld]

/-- The low byte in which the two pointers differ. -/
def differ : List Op :=
  [.mov (.reg .esi) r.r3, .alu .xor (.reg .edi) r.r3, .alu .and (.imm 0xff) r.r3]

/-- 16 bytes backward. -/
def gobbleBackward : List Op :=
  [.alu .sub (.imm 0x10) .ecx,
   .load ⟨.esi, none, -1 * 4⟩ r.r3, .load ⟨.esi, none, -2 * 4⟩ r.r4,
   .store 4 r.r3 ⟨.edi, none, -1 * 4⟩, .store 4 r.r4 ⟨.edi, none, -2 * 4⟩,
   .load ⟨.esi, none, -3 * 4⟩ r.r3, .load ⟨.esi, none, -4 * 4⟩ r.r4,
   .store 4 r.r3 ⟨.edi, none, -3 * 4⟩, .store 4 r.r4 ⟨.edi, none, -4 * 4⟩,
   .lea ⟨.esi, none, -0x10⟩ .esi, .lea ⟨.edi, none, -0x10⟩ .edi]

/-- 8 bytes to 15 bytes. -/
def move8 : List Op :=
  [.load ⟨.esi, none, 0 * 4⟩ r.r3, .load ⟨.esi, none, 1 * 4⟩ r.r4,
   .load ⟨.esi, some .ecx, -2 * 4⟩ r.r5, .load ⟨.esi, some .ecx, -1 * 4⟩ .esi,
   .store 4 r.r3 ⟨.edi, none, 0 * 4⟩, .store 4 r.r4 ⟨.edi, none, 1 * 4⟩,
   .store 4 r.r5 ⟨.edi, some .ecx, -2 * 4⟩, .store 4 .esi ⟨.edi, some .ecx, -1 * 4⟩]

/-- 4 bytes to 7 bytes. -/
def move4 : List Op :=
  [.load ⟨.esi, none, 0 * 4⟩ r.r3, .load ⟨.esi, some .ecx, -1 * 4⟩ r.r4,
   .store 4 r.r3 ⟨.edi, none, 0 * 4⟩, .store 4 r.r4 ⟨.edi, some .ecx, -1 * 4⟩]

end MemmoveRegs

/-- Copy position to tail. -/
def toTail : List Op :=
  [.alu .add (.reg .ecx) .esi, .alu .add (.reg .ecx) .edi, .alu .sub (.imm 0x10) .ecx]

/-- Copy position to head. -/
def toHead : List Op :=
  [.alu .add (.imm 0x10) .ecx, .alu .sub (.reg .ecx) .esi, .alu .sub (.reg .ecx) .edi]

/-- 2 bytes to 3 bytes, through `dx` and `bx`. -/
def move2 : List Op :=
  [.loadLow 2 ⟨.esi, none, 0 * 2⟩ .edx, .loadLow 2 ⟨.esi, some .ecx, -1 * 2⟩ .ebx,
   .store 2 .edx ⟨.edi, none, 0 * 2⟩, .store 2 .ebx ⟨.edi, some .ecx, -1 * 2⟩]

/-- 1 byte, through `cl`. -/
def move1 : List Op := [.loadLow 1 ⟨.esi, none, 0⟩ .ecx, .store 1 .ecx ⟨.edi, none, 0⟩]

/-- The text of `memmove`; label 3 occurs twice. -/
def memmoveText (r : MemmoveRegs) : List Line := List.flatten
  [[.op (.alu .cmp (.imm 0x10) .ecx), .jump .b (.fwd 1),
    .op (.alu .cmp (.reg .edi) .esi), .jump .b (.fwd 2),
    .op (.alu .cmp (.imm 680) .ecx), .jump .b (.fwd 3)],
   ops r.differ,
   [.jump .e (.fwd 4),
    .label 3, .op (.alu .sub (.imm 0x10) .ecx),
    .label 3],
   ops r.gobbleForward,
   [.jump .ae (.back 3),
    .op (.alu .add (.imm 0x10) .ecx), .jump .always (.fwd 1),
    .label 4],
   ops r.movsForward,
   [.jump .always (.fwd 11),
    .label 6],
   ops r.movsBackward,
   [.jump .always (.fwd 11),
    .label 2, .op (.alu .cmp (.imm 680) .ecx), .jump .b (.fwd 5)],
   ops r.differ,
   [.jump .e (.back 6),
    .label 5],
   ops toTail,
   [.label 7],
   ops r.gobbleBackward,
   [.jump .ae (.back 7)],
   ops toHead,
   [.label 1, .op (.alu .cmp (.imm 8) .ecx), .jump .b (.fwd 8)],
   ops r.move8,
   [.jump .always (.fwd 11),
    .label 8, .op (.alu .cmp (.imm 4) .ecx), .jump .b (.fwd 9)],
   ops r.move4,
   [.jump .always (.fwd 11),
    .label 9, .op (.alu .cmp (.imm 2) .ecx), .jump .b (.fwd 10)],
   ops move2,
   [.jump .always (.fwd 11),
    .label 10, .op (.alu .cmp (.imm 1) .ecx), .jump .b (.fwd 11)],
   ops move1,
   [.label 11]]

/-- `memmove` of `string_32.c`. -/
def String32.memmove (r : MemmoveRegs) (c : Cpu) (fuel dest src n : ℕ) : Exec (ℕ × (ℕ → UInt8)) := do
  let ret := dest
  let c ← run (memmoveText r) fuel 0 (((c.set .ecx n).set .esi src).set .edi dest)
  return (ret, c.mem)

/-! ## The blocks -/

namespace MemmoveRegs

variable (r : MemmoveRegs)

/-- No two operands share a register. -/
theorem apart : (.ecx ≠ r.r3 ∧ .ecx ≠ r.r4 ∧ .ecx ≠ r.r5) ∧ (.esi ≠ r.r3 ∧ .esi ≠ r.r4 ∧ .esi ≠ r.r5) ∧
    (.edi ≠ r.r3 ∧ .edi ≠ r.r4 ∧ .edi ≠ r.r5) ∧ r.r3 ≠ r.r4 ∧ r.r3 ≠ r.r5 ∧ r.r4 ≠ r.r5 := by
  have h := r.distinct
  simp only [List.nodup_cons, List.mem_cons, List.not_mem_nil, or_false, not_or] at h
  exact ⟨h.1.2.2, h.2.1.2, h.2.2.1, h.2.2.2.1.1, h.2.2.2.1.2, h.2.2.2.2.1⟩

variable {c : Cpu} {m : ℕ → UInt8} {n s d : ℕ}

/-- Two words are loaded, and then stored. -/
def pair (i j : ℤ) : List Op :=
  [.load ⟨.esi, none, i⟩ r.r3, .load ⟨.esi, none, j⟩ r.r4,
   .store 4 r.r3 ⟨.edi, none, i⟩, .store 4 r.r4 ⟨.edi, none, j⟩]

theorem pair_exec (h : Moving c m n s d) {i j : ℤ} {si sj di dj : ℕ} (hsi : u32 (s + i) = si)
    (hsj : u32 (s + j) = sj) (hdi : u32 (d + i) = di) (hdj : u32 (d + j) = dj) :
    Moving ((r.pair i j).foldl Op.exec c)
      (store (store m di (load m si 4) 4) dj (load m sj 4) 4) n s d ∧
    ((r.pair i j).foldl Op.exec c).cf = c.cf := by
  have hne := r.apart
  refine ⟨⟨?_, ?_, ?_, ?_, h.df⟩, rfl⟩ <;>
    simp [pair, Op.exec, Cpu.set, Cpu.see, Cpu.ea, update_apply, h.ecx, h.esi, h.edi, h.mem, hne,
      hsi, hsj, hdi, hdj]

/-- 16 bytes forward are copied, to a place that does not lie above. -/
theorem gobbleForward_exec (h : Moving c m n s d) (hds : d ≤ s) (hs : s + 16 ≤ 2 ^ 32)
    (hd : d + 16 ≤ 2 ^ 32) :
    Moving (r.gobbleForward.foldl Op.exec c) (overwrite m d m s 16) (sub32 n 16) ((s + 16) % 2 ^ 32)
      ((d + 16) % 2 ^ 32) ∧
    (r.gobbleForward.foldl Op.exec c).cf = decide (n < 16) := by
  have hsplit : r.gobbleForward = ([.alu .sub (.imm 0x10) .ecx] : List Op) ++ r.pair 0 4 ++
      r.pair 8 12 ++ ([.lea ⟨.esi, none, 0x10⟩ .esi, .lea ⟨.edi, none, 0x10⟩ .edi] : List Op) := rfl
  have ea0 : ∀ {x : ℕ}, x + 16 ≤ 2 ^ 32 → u32 ((x : ℤ) + 0) = x := fun hx => by rw [u32]; omega
  have ea4 : ∀ {x : ℕ}, x + 16 ≤ 2 ^ 32 → u32 ((x : ℤ) + 4) = x + 4 := fun hx => by rw [u32]; omega
  have ea8 : ∀ {x : ℕ}, x + 16 ≤ 2 ^ 32 → u32 ((x : ℤ) + 8) = x + 8 := fun hx => by rw [u32]; omega
  have ea12 : ∀ {x : ℕ}, x + 16 ≤ 2 ^ 32 → u32 ((x : ℤ) + 12) = x + 8 + 4 := fun hx => by
    rw [u32]
    omega
  obtain ⟨h₁, hcf₁⟩ := h.sub 0x10
  obtain ⟨h₂, hcf₂⟩ := r.pair_exec h₁ (ea0 hs) (ea4 hs) (ea0 hd) (ea4 hd)
  rw [store_load_pair m (by omega) (by omega)] at h₂
  obtain ⟨h₃, hcf₃⟩ := r.pair_exec h₂ (ea8 hs) (ea12 hs) (ea8 hd) (ea12 hd)
  rw [store_load_pair _ (by omega) (by omega), overwrite_forward hds] at h₃
  have ea16 : ∀ {x : ℕ}, x + 16 ≤ 2 ^ 32 → u32 ((x : ℤ) + 16) = (x + 16) % 2 ^ 32 := fun hx => by
    rw [u32]
    omega
  obtain ⟨h₄, hcf₄⟩ := h₃.lea (ea16 hs) (ea16 hd)
  rw [hsplit, List.foldl_append, List.foldl_append, List.foldl_append]
  exact ⟨h₄, hcf₄.trans (hcf₃.trans (hcf₂.trans hcf₁))⟩

/-- …and backward, to a place that does not lie below. -/
theorem gobbleBackward_exec (h : Moving c m n ((s + 16) % 2 ^ 32) ((d + 16) % 2 ^ 32)) (hsd : s ≤ d)
    (hs : s + 16 ≤ 2 ^ 32) (hd : d + 16 ≤ 2 ^ 32) :
    Moving (r.gobbleBackward.foldl Op.exec c) (overwrite m d m s 16) (sub32 n 16) s d ∧
    (r.gobbleBackward.foldl Op.exec c).cf = decide (n < 16) := by
  have hsplit : r.gobbleBackward = ([.alu .sub (.imm 0x10) .ecx] : List Op) ++ r.pair (-4) (-8) ++
      r.pair (-12) (-16) ++
      ([.lea ⟨.esi, none, -0x10⟩ .esi, .lea ⟨.edi, none, -0x10⟩ .edi] : List Op) := rfl
  have ea4 : ∀ {x : ℕ}, x + 16 ≤ 2 ^ 32 → u32 (((x + 16) % 2 ^ 32 : ℕ) + -4) = x + 8 + 4 :=
    fun hx => by rw [u32]; omega
  have ea8 : ∀ {x : ℕ}, x + 16 ≤ 2 ^ 32 → u32 (((x + 16) % 2 ^ 32 : ℕ) + -8) = x + 8 :=
    fun hx => by rw [u32]; omega
  have ea12 : ∀ {x : ℕ}, x + 16 ≤ 2 ^ 32 → u32 (((x + 16) % 2 ^ 32 : ℕ) + -12) = x + 4 :=
    fun hx => by rw [u32]; omega
  have ea16 : ∀ {x : ℕ}, x + 16 ≤ 2 ^ 32 → u32 (((x + 16) % 2 ^ 32 : ℕ) + -16) = x :=
    fun hx => by rw [u32]; omega
  obtain ⟨h₁, hcf₁⟩ := h.sub 0x10
  obtain ⟨h₂, hcf₂⟩ := r.pair_exec h₁ (ea4 hs) (ea8 hs) (ea4 hd) (ea8 hd)
  rw [store_load_pair_front m (by omega) (by omega)] at h₂
  obtain ⟨h₃, hcf₃⟩ := r.pair_exec h₂ (ea12 hs) (ea16 hs) (ea12 hd) (ea16 hd)
  rw [store_load_pair_front _ (by omega) (by omega), overwrite_backward hsd] at h₃
  obtain ⟨h₄, hcf₄⟩ := h₃.lea (ea16 hs) (ea16 hd)
  rw [hsplit, List.foldl_append, List.foldl_append, List.foldl_append]
  exact ⟨h₄, hcf₄.trans (hcf₃.trans (hcf₂.trans hcf₁))⟩

/-- 8 to 15 bytes: two words at each end. -/
theorem move8_exec (h : Moving c m n s d) (h8 : 8 ≤ n) (h16 : n < 16) (hs : s + n ≤ 2 ^ 32)
    (hd : d + n ≤ 2 ^ 32) : (r.move8.foldl Op.exec c).mem = overwrite m d m s n := by
  have hne := r.apart
  have ea0 : ∀ {x : ℕ}, x + n ≤ 2 ^ 32 → u32 (x : ℤ) = x := fun hx => by rw [u32]; omega
  have ea4 : ∀ {x : ℕ}, x + n ≤ 2 ^ 32 → u32 ((x : ℤ) + 4) = x + 4 := fun hx => by rw [u32]; omega
  have eaL : ∀ {x : ℕ}, x + n ≤ 2 ^ 32 → u32 ((x : ℤ) + n + -8) = x + (n - 8) :=
    fun hx => by rw [u32]; omega
  have eaM : ∀ {x : ℕ}, x + n ≤ 2 ^ 32 → u32 ((x : ℤ) + n + -4) = x + (n - 8) + 4 :=
    fun hx => by rw [u32]; omega
  have hmem : (r.move8.foldl Op.exec c).mem = store (store (store (store m d (load m s 4) 4) (d + 4)
      (load m (s + 4) 4) 4) (d + (n - 8)) (load m (s + (n - 8)) 4) 4) (d + (n - 8) + 4)
      (load m (s + (n - 8) + 4) 4) 4 := by
    simp [move8, Op.exec, Cpu.set, Cpu.see, Cpu.ea, update_apply, h.ecx, h.esi, h.edi, h.mem, hne,
      hne.2.1.1.symm, hne.2.1.2.1.symm, hne.2.1.2.2.symm, ea0 hs, ea0 hd, ea4 hs, ea4 hd, eaL hs, eaL hd,
      eaM hs, eaM hd]
  rw [hmem, store_load_pair m (by omega) (by omega), store_load_pair m (by omega) (by omega),
    overwrite_glue m d m s (by omega) (by omega)]
  congr 1
  omega

/-- 4 to 7 bytes: a word at each end. -/
theorem move4_exec (h : Moving c m n s d) (h4 : 4 ≤ n) (h8 : n < 8) (hs : s + n ≤ 2 ^ 32)
    (hd : d + n ≤ 2 ^ 32) : (r.move4.foldl Op.exec c).mem = overwrite m d m s n := by
  have hne := r.apart
  have ea0 : ∀ {x : ℕ}, x + n ≤ 2 ^ 32 → u32 (x : ℤ) = x := fun hx => by rw [u32]; omega
  have eaL : ∀ {x : ℕ}, x + n ≤ 2 ^ 32 → u32 ((x : ℤ) + n + -4) = x + (n - 4) :=
    fun hx => by rw [u32]; omega
  have hmem : (r.move4.foldl Op.exec c).mem = store (store m d (load m s 4) 4) (d + (n - 4))
      (load m (s + (n - 4)) 4) 4 := by
    simp [move4, Op.exec, Cpu.set, Cpu.see, Cpu.ea, update_apply, h.ecx, h.esi, h.edi, h.mem, hne,
      ea0 hs, ea0 hd, eaL hs, eaL hd]
  rw [hmem, store_load m 4 (by omega) (by omega), store_load m 4 (by omega) (by omega),
    overwrite_glue m d m s (by omega) (by omega)]
  congr 1
  omega

/-- The comparison of the low bytes changes none of the three fixed registers. -/
theorem differ_exec (h : Moving c m n s d) : Moving (r.differ.foldl Op.exec c) m n s d := by
  have hne := r.apart
  refine ⟨?_, ?_, ?_, h.mem, h.df⟩ <;>
    simp [differ, Op.exec, Cpu.set, Cpu.flags, hne, h.ecx, h.esi, h.edi]

end MemmoveRegs

section Tail

variable {c : Cpu} {m : ℕ → UInt8} {n s d : ℕ}

/-- 2 or 3 bytes: a half word at each end. -/
theorem move2_exec (h : Moving c m n s d) (h2 : 2 ≤ n) (h4 : n < 4) (hs : s + n ≤ 2 ^ 32)
    (hd : d + n ≤ 2 ^ 32) : (move2.foldl Op.exec c).mem = overwrite m d m s n := by
  have ea0 : ∀ {x : ℕ}, x + n ≤ 2 ^ 32 → u32 (x : ℤ) = x := fun hx => by rw [u32]; omega
  have eaL : ∀ {x : ℕ}, x + n ≤ 2 ^ 32 → u32 ((x : ℤ) + n + -2) = x + (n - 2) :=
    fun hx => by rw [u32]; omega
  have hmem : (move2.foldl Op.exec c).mem = store (store m d
      (c.reg .edx / 256 ^ 2 * 256 ^ 2 + load m s 2) 2) (d + (n - 2))
      (c.reg .ebx / 256 ^ 2 * 256 ^ 2 + load m (s + (n - 2)) 2) 2 := by
    simp [move2, Op.exec, Cpu.set, Cpu.see, Cpu.ea, update_apply, h.ecx, h.esi, h.edi, h.mem,
      ea0 hs, ea0 hd, eaL hs, eaL hd]
  rw [hmem, store_add_mul, store_add_mul, store_load m 2 (by omega) (by omega),
    store_load m 2 (by omega) (by omega), overwrite_glue m d m s (by omega) (by omega)]
  congr 1
  omega

theorem move1_exec (h : Moving c m 1 s d) (hs : s + 1 ≤ 2 ^ 32) (hd : d + 1 ≤ 2 ^ 32) :
    (move1.foldl Op.exec c).mem = overwrite m d m s 1 := by
  have ea0 : ∀ {x : ℕ}, x + 1 ≤ 2 ^ 32 → u32 (x : ℤ) = x := fun hx => by rw [u32]; omega
  have hmem : (move1.foldl Op.exec c).mem =
      store m d (c.reg .ecx / 256 ^ 1 * 256 ^ 1 + load m s 1) 1 := by
    simp [move1, Op.exec, Cpu.set, Cpu.see, Cpu.ea, h.ecx, h.esi, h.edi, h.mem, ea0 hs, ea0 hd]
  rw [hmem, store_add_mul, store_load m 1 hd hs]

theorem toTail_exec (h : Moving c m n s d) :
    Moving (toTail.foldl Op.exec c) m (sub32 n 16) ((s + n) % 2 ^ 32) ((d + n) % 2 ^ 32) := by
  refine ⟨?_, ?_, ?_, h.mem, h.df⟩ <;>
    simp [toTail, Op.exec, Cpu.set, Cpu.flags, Cpu.val, Alu.result, h.ecx, h.esi, h.edi]

theorem toHead_exec {k : ℕ} (h : Moving c m n (s + k) (d + k)) (hk : (n + 16) % 2 ^ 32 = k)
    (hs : s < 2 ^ 32) (hd : d < 2 ^ 32) : Moving (toHead.foldl Op.exec c) m k s d := by
  have hback : ∀ {x : ℕ}, x < 2 ^ 32 → sub32 (x + k) k = x := by
    intro x hx
    rw [sub32]
    omega
  refine ⟨?_, ?_, ?_, h.mem, h.df⟩
  · rw [← hk, ← h.ecx]
    rfl
  · have hesi : (toHead.foldl Op.exec c).reg .esi = sub32 (s + k) ((n + 16) % 2 ^ 32) := by
      rw [← h.ecx, ← h.esi]
      rfl
    rw [hesi, hk, hback hs]
  · have hedi : (toHead.foldl Op.exec c).reg .edi = sub32 (d + k) ((n + 16) % 2 ^ 32) := by
      rw [← h.ecx, ← h.edi]
      rfl
    rw [hedi, hk, hback hd]

end Tail

namespace MemmoveRegs

variable (r : MemmoveRegs) {c : Cpu} {m : ℕ → UInt8} {n s d : ℕ}

/-- The repeated move, and the word that is stored last: `%3` and `%4` outlast the move. -/
theorem movsl_store (c : Cpu) :
    (([.repMovsl, .store 4 r.r3 ⟨r.r4, none, 0⟩] : List Op).foldl Op.exec c).mem =
      store (Cpu.rep Cpu.movsl (fun _ => false) (c.reg .ecx) c).mem (u32 (c.reg r.r4)) (c.reg r.r3)
        4 := by
  have hne := r.apart
  simp [Op.exec, Cpu.ea, Cpu.rep_movsl_frame hne.1.1.symm hne.2.1.1.symm hne.2.2.1.1.symm,
    Cpu.rep_movsl_frame hne.1.2.1.symm hne.2.1.2.1.symm hne.2.2.1.2.1.symm]

/-- Whole words forward, and the last word of the block. -/
theorem movsForward_exec (h : Moving c m n s d) (hds : d ≤ s) (hn : 4 ≤ n) (hs : s + n ≤ 2 ^ 32)
    (hd : d + n ≤ 2 ^ 32) : (r.movsForward.foldl Op.exec c).mem = overwrite m d m s n := by
  have hne := r.apart
  have eaL : ∀ {x : ℕ}, x + n ≤ 2 ^ 32 → u32 ((x : ℤ) + n + -4) = x + (n - 4) :=
    fun hx => by rw [u32]; omega
  have hsplit : r.movsForward = ([.load ⟨.esi, some .ecx, -4⟩ r.r3, .lea ⟨.edi, some .ecx, -4⟩ r.r4,
    .shr 2 .ecx] : List Op) ++ ([.repMovsl, .store 4 r.r3 ⟨r.r4, none, 0⟩] : List Op) := rfl
  rw [hsplit, List.foldl_append, movsl_store]
  set c₁ := ([.load ⟨.esi, some .ecx, -4⟩ r.r3, .lea ⟨.edi, some .ecx, -4⟩ r.r4,
    .shr 2 .ecx] : List Op).foldl Op.exec c with hc₁
  have hecx : c₁.reg .ecx = n / 4 := by
    simp [hc₁, Op.exec, Cpu.set, Cpu.flags, Cpu.see, hne, h.ecx, Nat.shiftRight_eq_div_pow]
  have hesi : c₁.reg .esi = s % 2 ^ 32 := by
    rw [Nat.mod_eq_of_lt (by omega)]
    simp [hc₁, Op.exec, Cpu.set, Cpu.flags, Cpu.see, hne, h.esi]
  have hedi : c₁.reg .edi = d % 2 ^ 32 := by
    rw [Nat.mod_eq_of_lt (by omega)]
    simp [hc₁, Op.exec, Cpu.set, Cpu.flags, Cpu.see, hne, h.edi]
  have hr3 : c₁.reg r.r3 = load m (s + (n - 4)) 4 := by
    simp [hc₁, Op.exec, Cpu.set, Cpu.flags, Cpu.see, Cpu.ea, hne, hne.1.1.symm, h.ecx, h.esi, h.mem,
      eaL hs]
  have hr4 : c₁.reg r.r4 = d + (n - 4) := by
    simp [hc₁, Op.exec, Cpu.set, Cpu.flags, Cpu.see, Cpu.ea, hne, hne.1.2.1.symm, h.ecx, h.edi, eaL hd]
  have hdf : c₁.df = false := h.df
  have hmem : c₁.mem = m := h.mem
  rw [hr3, hr4, u32_natCast (by omega), Cpu.rep_movsl_forward hdf hds hesi hedi (by omega) (by omega),
    hecx, hmem, store_load m 4 (by omega) (by omega), overwrite_glue m d m s (by omega) (by omega)]
  congr 1
  omega

/-- Whole words backward, and the first word of the block. -/
theorem movsBackward_exec (h : Moving c m n s d) (hsd : s ≤ d) (hn : 4 ≤ n) (hs : s + n ≤ 2 ^ 32)
    (hd : d + n ≤ 2 ^ 32) : (r.movsBackward.foldl Op.exec c).mem = overwrite m d m s n := by
  have hne := r.apart
  have eaL : ∀ {x : ℕ}, x + n ≤ 2 ^ 32 →
      u32 ((x : ℤ) + n + -4) = sub32 (x + (n - 4 * (n / 4)) + 4 * (n / 4)) 4 :=
    fun hx => by rw [u32, sub32]; omega
  have hsplit : r.movsBackward = ([.load ⟨.esi, none, 0⟩ r.r3, .mov (.reg .edi) r.r4,
    .lea ⟨.esi, some .ecx, -4⟩ .esi, .lea ⟨.edi, some .ecx, -4⟩ .edi, .shr 2 .ecx, .std] : List Op) ++
    ([.repMovsl, .store 4 r.r3 ⟨r.r4, none, 0⟩] : List Op) ++ ([.cld] : List Op) := rfl
  rw [hsplit, List.foldl_append, List.foldl_append]
  change (([.repMovsl, .store 4 r.r3 ⟨r.r4, none, 0⟩] : List Op).foldl Op.exec _).mem = _
  rw [movsl_store]
  set c₁ := ([.load ⟨.esi, none, 0⟩ r.r3, .mov (.reg .edi) r.r4, .lea ⟨.esi, some .ecx, -4⟩ .esi,
    .lea ⟨.edi, some .ecx, -4⟩ .edi, .shr 2 .ecx, .std] : List Op).foldl Op.exec c with hc₁
  have hecx : c₁.reg .ecx = n / 4 := by
    simp [hc₁, Op.exec, Cpu.set, Cpu.flags, Cpu.see, hne, h.ecx, Nat.shiftRight_eq_div_pow]
  have hesi : c₁.reg .esi = sub32 (s + (n - 4 * (n / 4)) + 4 * (n / 4)) 4 := by
    simp [hc₁, Op.exec, Cpu.set, Cpu.flags, Cpu.see, Cpu.ea, hne, h.ecx, h.esi, eaL hs]
  have hedi : c₁.reg .edi = sub32 (d + (n - 4 * (n / 4)) + 4 * (n / 4)) 4 := by
    simp [hc₁, Op.exec, Cpu.set, Cpu.flags, Cpu.see, Cpu.ea, hne, h.ecx, h.edi, eaL hd]
  have hr3 : c₁.reg r.r3 = load m s 4 := by
    simp [hc₁, Op.exec, Cpu.set, Cpu.flags, Cpu.see, Cpu.ea, hne, hne.1.1.symm, hne.2.1.1.symm,
      hne.2.2.1.1.symm, h.esi, h.mem, u32_natCast (show s < 2 ^ 32 by omega)]
  have hr4 : c₁.reg r.r4 = d := by
    simp [hc₁, Op.exec, Cpu.set, Cpu.flags, Cpu.see, Cpu.val, hne, hne.1.2.1.symm, hne.2.1.2.1.symm,
      hne.2.2.1.2.1.symm, h.edi]
  have hmem : c₁.mem = m := h.mem
  rw [hr3, hr4, u32_natCast (by omega), hecx,
    Cpu.rep_movsl_backward (by omega) rfl hesi hedi (by omega) (by omega), hmem,
    store_load m 4 (by omega) (by omega), overwrite_glue_front m d m s (by omega) (by omega)]
  congr 1
  omega

end MemmoveRegs

/-! ## The text -/

section Text

variable {r : MemmoveRegs} {c : Cpu} {m : ℕ → UInt8} {n s d : ℕ} {Q : Cpu → Prop}

/-- A comparison of the count, and the jump if it is below. -/
theorem cmp_ecx (h : Moving c m n s d) (k : ℕ) :
    Cond.b.holds (Op.exec c (.alu .cmp (.imm k) .ecx)) = decide (n < k) := by
  rw [← h.ecx]
  rfl

/-- Label 11. -/
theorem memmove_end (h : Q c) : Halts (memmoveText r) 105 c Q := .label rfl (.done rfl h)

/-- Label 10. -/
theorem memmove_tail1 (h : Moving c m n (s % 2 ^ 32) (d % 2 ^ 32)) (hn : n < 2) (hs : s + n ≤ 2 ^ 32)
    (hd : d + n ≤ 2 ^ 32) : Halts (memmoveText r) 100 c fun c' => c'.mem = overwrite m d m s n := by
  have hcond := cmp_ecx h 1
  refine .label rfl (.op rfl ?_)
  by_cases h1 : n < 1
  · refine .taken rfl (hcond.trans (decide_eq_true h1)) rfl (memmove_end ?_)
    obtain rfl : n = 0 := by omega
    rw [overwrite_zero]
    exact h.mem
  · obtain rfl : n = 1 := by omega
    refine .passed rfl (hcond.trans (decide_eq_false h1)) (.block move1 rfl (memmove_end ?_))
    exact move1_exec ((h.reduce (by omega) (by omega)).cmp _ _) hs hd

/-- Label 9. -/
theorem memmove_tail2 (h : Moving c m n (s % 2 ^ 32) (d % 2 ^ 32)) (hn : n < 4) (hs : s + n ≤ 2 ^ 32)
    (hd : d + n ≤ 2 ^ 32) : Halts (memmoveText r) 92 c fun c' => c'.mem = overwrite m d m s n := by
  have hcond := cmp_ecx h 2
  refine .label rfl (.op rfl ?_)
  by_cases h2 : n < 2
  · exact .taken rfl (hcond.trans (decide_eq_true h2)) rfl (memmove_tail1 (h.cmp _ _) h2 hs hd)
  · refine .passed rfl (hcond.trans (decide_eq_false h2))
      (.block move2 rfl (.taken rfl rfl rfl (memmove_end ?_)))
    exact move2_exec ((h.reduce (by omega) (by omega)).cmp _ _) (not_lt.mp h2) hn hs hd

/-- Label 8. -/
theorem memmove_tail4 (h : Moving c m n (s % 2 ^ 32) (d % 2 ^ 32)) (hn : n < 8) (hs : s + n ≤ 2 ^ 32)
    (hd : d + n ≤ 2 ^ 32) : Halts (memmoveText r) 84 c fun c' => c'.mem = overwrite m d m s n := by
  have hcond := cmp_ecx h 4
  refine .label rfl (.op rfl ?_)
  by_cases h4 : n < 4
  · exact .taken rfl (hcond.trans (decide_eq_true h4)) rfl (memmove_tail2 (h.cmp _ _) h4 hs hd)
  · refine .passed rfl (hcond.trans (decide_eq_false h4))
      (.block r.move4 rfl (.taken rfl rfl rfl (memmove_end ?_)))
    exact r.move4_exec ((h.reduce (by omega) (by omega)).cmp _ _) (not_lt.mp h4) hn hs hd

/-- Label 1. -/
theorem memmove_tail (h : Moving c m n (s % 2 ^ 32) (d % 2 ^ 32)) (hn : n < 16) (hs : s + n ≤ 2 ^ 32)
    (hd : d + n ≤ 2 ^ 32) : Halts (memmoveText r) 72 c fun c' => c'.mem = overwrite m d m s n := by
  have hcond := cmp_ecx h 8
  refine .label rfl (.op rfl ?_)
  by_cases h8 : n < 8
  · exact .taken rfl (hcond.trans (decide_eq_true h8)) rfl (memmove_tail4 (h.cmp _ _) h8 hs hd)
  · refine .passed rfl (hcond.trans (decide_eq_false h8))
      (.block r.move8 rfl (.taken rfl rfl rfl (memmove_end ?_)))
    exact r.move8_exec ((h.reduce (by omega) (by omega)).cmp _ _) (not_lt.mp h8) hn hs hd

/-- The loop at the second label 3. -/
theorem memmove_forward (n : ℕ) : ∀ {c : Cpu} {m : ℕ → UInt8} {s d : ℕ}, Moving c m (n - 16) s d →
    16 ≤ n → n < 2 ^ 32 → d ≤ s → s + n ≤ 2 ^ 32 → d + n ≤ 2 ^ 32 →
    Halts (memmoveText r) 12 c fun c' => c'.mem = overwrite m d m s n := by
  induction n using Nat.strong_induction_on with
  | _ n ih =>
    intro c m s d h hn hlt hds hs hd
    obtain ⟨h₁, hcf⟩ := r.gobbleForward_exec h hds (by omega) (by omega)
    have hpost : overwrite (overwrite m d m s 16) (d + 16) (overwrite m d m s 16) (s + 16) (n - 16) =
        overwrite m d m s n := by
      rw [overwrite_forward hds, Nat.add_sub_cancel' hn]
    refine .label rfl (.block r.gobbleForward rfl ?_)
    by_cases hmore : 32 ≤ n
    · rw [sub32_of_le (by omega) (by omega)] at h₁
      refine .taken rfl (by simp [Cond.holds, hcf]; omega) rfl ?_
      exact (ih (n - 16) (by omega) (h₁.reduce (by omega) (by omega)) (by omega) (by omega)
        (by omega) (by omega) (by omega)).mono fun c' h => h.trans hpost
    · have hleft : (sub32 (n - 16) 16 + 16) % 2 ^ 32 = n - 16 := by
        rw [sub32]
        omega
      have h₂ := h₁.add 0x10
      rw [hleft] at h₂
      refine .passed rfl (by simp [Cond.holds, hcf]; omega) (.op rfl (.taken rfl rfl rfl ?_))
      exact (memmove_tail h₂ (by omega) (by omega) (by omega)).mono fun c' h => h.trans hpost

/-- The loop at label 7. -/
theorem memmove_backward (n : ℕ) : ∀ {c : Cpu} {m : ℕ → UInt8} {s d : ℕ},
    Moving c m (n - 16) ((s + n) % 2 ^ 32) ((d + n) % 2 ^ 32) → 16 ≤ n → n < 2 ^ 32 → s ≤ d →
    s + n ≤ 2 ^ 32 → d + n ≤ 2 ^ 32 →
    Halts (memmoveText r) 56 c fun c' => c'.mem = overwrite m d m s n := by
  induction n using Nat.strong_induction_on with
  | _ n ih =>
    intro c m s d h hn hlt hsd hs hd
    obtain ⟨k, rfl⟩ : ∃ k, n = k + 16 := ⟨n - 16, by omega⟩
    rw [Nat.add_sub_cancel, ← Nat.add_assoc, ← Nat.add_assoc] at h
    obtain ⟨h₁, hcf⟩ := r.gobbleBackward_exec h (by omega) (by omega) (by omega)
    have hpost : overwrite (overwrite m (d + k) m (s + k) 16) d (overwrite m (d + k) m (s + k) 16) s k =
        overwrite m d m s (k + 16) := overwrite_backward hsd k 16
    refine .label rfl (.block r.gobbleBackward rfl ?_)
    by_cases hmore : 16 ≤ k
    · rw [sub32_of_le (by omega) hmore] at h₁
      refine .taken rfl (by simp [Cond.holds, hcf]; omega) rfl ?_
      exact (ih k (by omega) (h₁.mod (by omega) (by omega)) hmore (by omega) hsd (by omega)
        (by omega)).mono fun c' h => h.trans hpost
    · have hleft : (sub32 k 16 + 16) % 2 ^ 32 = k := by
        rw [sub32]
        omega
      have h₂ := (toHead_exec h₁ hleft (by omega) (by omega)).mod (by omega) (by omega)
      refine .passed rfl (by simp [Cond.holds, hcf]; omega) (.block toHead rfl ?_)
      exact (memmove_tail h₂ (by omega) (by omega) (by omega)).mono fun c' h => h.trans hpost

/-- Label 4. -/
theorem memmove_movsForward (h : Moving c m n s d) (hds : d ≤ s) (hn : 680 ≤ n) (hs : s + n ≤ 2 ^ 32)
    (hd : d + n ≤ 2 ^ 32) : Halts (memmoveText r) 27 c fun c' => c'.mem = overwrite m d m s n :=
  .label rfl (.block r.movsForward rfl (.taken rfl rfl rfl
    (memmove_end (r.movsForward_exec h hds (by omega) hs hd))))

/-- Label 6. -/
theorem memmove_movsBackward (h : Moving c m n s d) (hsd : s ≤ d) (hn : 680 ≤ n) (hs : s + n ≤ 2 ^ 32)
    (hd : d + n ≤ 2 ^ 32) : Halts (memmoveText r) 34 c fun c' => c'.mem = overwrite m d m s n :=
  .label rfl (.block r.movsBackward rfl (.taken rfl rfl rfl
    (memmove_end (r.movsBackward_exec h hsd (by omega) hs hd))))

/-- The first label 3. -/
theorem memmove_toForward (h : Moving c m n s d) (hn : 16 ≤ n) (hlt : n < 2 ^ 32) (hds : d ≤ s)
    (hs : s + n ≤ 2 ^ 32) (hd : d + n ≤ 2 ^ 32) :
    Halts (memmoveText r) 10 c fun c' => c'.mem = overwrite m d m s n := by
  have h₁ := (h.sub 0x10).1
  rw [sub32_of_le hlt hn] at h₁
  exact .label rfl (.op rfl (memmove_forward n h₁ hn hlt hds hs hd))

/-- Label 5. -/
theorem memmove_toBackward (h : Moving c m n s d) (hn : 16 ≤ n) (hlt : n < 2 ^ 32) (hsd : s ≤ d)
    (hs : s + n ≤ 2 ^ 32) (hd : d + n ≤ 2 ^ 32) :
    Halts (memmoveText r) 52 c fun c' => c'.mem = overwrite m d m s n := by
  have h₁ := toTail_exec h
  rw [sub32_of_le hlt hn] at h₁
  exact .label rfl (.block toTail rfl (memmove_backward n h₁ hn hlt hsd hs hd))

/-- Label 2. -/
theorem memmove_prepareBackward (h : Moving c m n s d) (hn : 16 ≤ n) (hlt : n < 2 ^ 32) (hsd : s ≤ d)
    (hs : s + n ≤ 2 ^ 32) (hd : d + n ≤ 2 ^ 32) :
    Halts (memmoveText r) 45 c fun c' => c'.mem = overwrite m d m s n := by
  have hcond := cmp_ecx h 680
  refine .label rfl (.op rfl ?_)
  by_cases h680 : n < 680
  · exact .taken rfl (hcond.trans (decide_eq_true h680)) rfl
      (memmove_toBackward (h.cmp _ _) hn hlt hsd hs hd)
  · refine .passed rfl (hcond.trans (decide_eq_false h680)) (.block r.differ rfl ?_)
    have h₁ := r.differ_exec (h.cmp (.imm 680) .ecx)
    cases hlow : Cond.e.holds (r.differ.foldl Op.exec (Op.exec c (.alu .cmp (.imm 680) .ecx))) with
    | true => exact .taken rfl hlow rfl (memmove_movsBackward h₁ hsd (not_lt.mp h680) hs hd)
    | false => exact .passed rfl hlow (memmove_toBackward h₁ hn hlt hsd hs hd)

theorem memmove_prepareForward (h : Moving c m n s d) (hn : 16 ≤ n) (hlt : n < 2 ^ 32) (hds : d ≤ s)
    (hs : s + n ≤ 2 ^ 32) (hd : d + n ≤ 2 ^ 32) :
    Halts (memmoveText r) 4 c fun c' => c'.mem = overwrite m d m s n := by
  have hcond := cmp_ecx h 680
  refine .op rfl ?_
  by_cases h680 : n < 680
  · exact .taken rfl (hcond.trans (decide_eq_true h680)) rfl
      (memmove_toForward (h.cmp _ _) hn hlt hds hs hd)
  · refine .passed rfl (hcond.trans (decide_eq_false h680)) (.block r.differ rfl ?_)
    have h₁ := r.differ_exec (h.cmp (.imm 680) .ecx)
    cases hlow : Cond.e.holds (r.differ.foldl Op.exec (Op.exec c (.alu .cmp (.imm 680) .ecx))) with
    | true => exact .taken rfl hlow rfl (memmove_movsForward h₁ hds (not_lt.mp h680) hs hd)
    | false => exact .passed rfl hlow (memmove_toForward h₁ hn hlt hds hs hd)

/-- **The text moves the block.** -/
theorem memmove_halts (h : Moving c m n s d) (hlt : n < 2 ^ 32) (hs' : s < 2 ^ 32) (hd' : d < 2 ^ 32)
    (hs : s + n ≤ 2 ^ 32) (hd : d + n ≤ 2 ^ 32) :
    Halts (memmoveText r) 0 c fun c' => c'.mem = overwrite m d m s n := by
  have hcond := cmp_ecx h 16
  refine .op rfl ?_
  by_cases h16 : n < 16
  · exact .taken rfl (hcond.trans (decide_eq_true h16)) rfl
      (memmove_tail ((h.cmp _ _).mod hs' hd') h16 hs hd)
  · have hn : 16 ≤ n := not_lt.mp h16
    refine .passed rfl (hcond.trans (decide_eq_false h16)) (.op rfl ?_)
    have h₁ := (h.cmp (.imm 16) .ecx).cmp (.reg .edi) .esi
    have hdir : Cond.b.holds (Op.exec (Op.exec c (.alu .cmp (.imm 16) .ecx))
        (.alu .cmp (.reg .edi) .esi)) = decide (s < d) := by
      rw [← h.esi, ← h.edi]
      rfl
    by_cases hsd : s < d
    · exact .taken rfl (hdir.trans (decide_eq_true hsd)) rfl
        (memmove_prepareBackward h₁ hn hlt hsd.le hs hd)
    · exact .passed rfl (hdir.trans (decide_eq_false hsd))
        (memmove_prepareForward h₁ hn hlt (not_lt.mp hsd) hs hd)

end Text

/-! ## `memmove` -/

/-- **The assembly `memmove` is the generic one.** -/
theorem string32_memmove_eq (r : MemmoveRegs) {c : Cpu} (hdf : c.df = false) {dest src n : ℕ}
    (hn : n < 2 ^ 32) (hdest : dest < 2 ^ 32) (hsrc : src < 2 ^ 32) (hd : dest + n ≤ 2 ^ 32)
    (hs : src + n ≤ 2 ^ 32) :
    ∃ fuel, String32.memmove r c fuel dest src n = .ok (memmove c.mem dest src n) := by
  have hentry : Moving (((c.set .ecx n).set .esi src).set .edi dest) c.mem n src dest :=
    ⟨rfl, rfl, rfl, rfl, hdf⟩
  have hhalts := (memmove_halts (r := r) hentry hn hsrc hdest hs hd).mono
    fun c' hmem => congrArg (Prod.mk dest) hmem
  exact hhalts.returns_iff.mpr (memmove_eq hd hs).symm

/-- 700 bytes are moved up by 256: the words are copied backward. -/
theorem string32_memmove_eq_backward :
    let r : MemmoveRegs := ⟨.eax, .edx, .ebx, by decide⟩
    let c : Cpu := ⟨fun _ => 0, false, false, false, false, fun a => UInt8.ofNat a, []⟩
    ∃ fuel, String32.memmove r c fuel 0x1100 0x1000 700 = .ok (memmove c.mem 0x1100 0x1000 700) :=
  string32_memmove_eq _ rfl (by decide) (by decide) (by decide) (by decide) (by decide)

end Sandix
