import Sandix.Machinery.Word

/-!
# Console/Screen — video memory and the accesses the console makes to it

`include/video/video.h`.  Video memory is a map from the address of a 16-bit cell to its contents;
`Hw.written` logs the address of every store, in the order made, so that "nothing outside the
buffer was written" is a statement about the log.

No console code reads the screen except to copy it, so a console function is modelled by the
console state it leaves and the list of accesses (`ScrOp`) it makes; `Hw.run` carries them out.

* `mem_written_run` — the addresses a list of accesses stores to.
* `run_append` — running two lists is running their concatenation.
-/

namespace Sandix

open Machinery

/-- What the console drives: the cells of video memory, the log of the stores made to them, and
the registers of the CRT controller. -/
structure Hw where
  mem : ℕ → ℕ
  written : List ℕ
  crtc : ℕ → ℕ

/-- `scr_readw`: `*(u16 *)(addr)`. -/
def scrReadw (hw : Hw) (addr : ℕ) : ℕ := hw.mem (addr % 2 ^ 32)

/-- `scr_writew`: `*(u16 *)(addr) = (u16)(value)`. -/
def scrWritew (hw : Hw) (value addr : ℕ) : Hw :=
  { hw with
    mem := Function.update hw.mem (addr % 2 ^ 32) (value % 2 ^ 16)
    written := addr % 2 ^ 32 :: hw.written }

/-- `scr_memsetw`. -/
def scrMemsetw (hw : Hw) (d v : ℕ) : ℕ → Hw
  | 0 => hw
  | count + 1 => scrMemsetw (scrWritew hw v d) (d + 2) v count

/-- `scr_memcpyw`. -/
def scrMemcpyw (hw : Hw) (d s : ℕ) : ℕ → Hw
  | 0 => hw
  | count + 1 => scrMemcpyw (scrWritew hw (scrReadw hw s) d) (d + 2) (s + 2) count

/-- The descending loop of `scr_memmovew`: both pointers are decremented before each store. -/
def scrMemmovewDown (hw : Hw) (d s : ℕ) : ℕ → Hw
  | 0 => hw
  | count + 1 =>
    scrMemmovewDown (scrWritew hw (scrReadw hw (sub32 s 2)) (sub32 d 2)) (sub32 d 2) (sub32 s 2)
      count

/-- `scr_memmovew`.  `d += count*2` steps a `u16 *`, so it advances by `4 * count` bytes. -/
def scrMemmovew (hw : Hw) (d s count : ℕ) : Hw :=
  if d < s then scrMemcpyw hw d s count
  else scrMemmovewDown hw ((d + 4 * count) % 2 ^ 32) ((s + 4 * count) % 2 ^ 32) count

/-- One access of the console to its hardware: a helper of `video.h`, or `write_vga`, a store of
`val` to the CRT controller register `reg`. -/
inductive ScrOp
  | writew (value addr : ℕ)
  | memsetw (d v count : ℕ)
  | memcpyw (d s count : ℕ)
  | memmovew (d s count : ℕ)
  | writeVga (reg val : ℕ)
deriving DecidableEq, Repr

namespace Hw

/-- Carry out one access. -/
def access (hw : Hw) : ScrOp → Hw
  | .writew value addr => scrWritew hw value addr
  | .memsetw d v count => scrMemsetw hw d v count
  | .memcpyw d s count => scrMemcpyw hw d s count
  | .memmovew d s count => scrMemmovew hw d s count
  | .writeVga reg val => { hw with crtc := Function.update hw.crtc (reg % 2 ^ 8) (val % 2 ^ 8) }

/-- Carry out a list of accesses in order. -/
def run (hw : Hw) (ops : List ScrOp) : Hw := ops.foldl access hw

@[simp] theorem run_nil (hw : Hw) : hw.run [] = hw := rfl

theorem run_append (hw : Hw) (ops ops' : List ScrOp) :
    hw.run (ops ++ ops') = (hw.run ops).run ops' :=
  List.foldl_append

end Hw

/-! ## The cells an access stores to -/

/-- The access stores to the cell at `a`. -/
def ScrOp.Writes (a : ℕ) : ScrOp → Prop
  | .writew _ addr => a = addr % 2 ^ 32
  | .memsetw d _ count => ∃ i < count, a = (d + 2 * i) % 2 ^ 32
  | .memcpyw d _ count => ∃ i < count, a = (d + 2 * i) % 2 ^ 32
  | .memmovew d s count =>
    if d < s then ∃ i < count, a = (d + 2 * i) % 2 ^ 32
    else ∃ i < count, a = (d + 2 * count + 2 * i) % 2 ^ 32
  | .writeVga _ _ => False

theorem mem_written_memsetw {a v : ℕ} : ∀ {count : ℕ} {hw : Hw} {d : ℕ},
    a ∈ (scrMemsetw hw d v count).written ↔
      a ∈ hw.written ∨ ∃ i < count, a = (d + 2 * i) % 2 ^ 32
  | 0, _, _ => by simp [scrMemsetw]
  | count + 1, hw, d => by
      rw [scrMemsetw, mem_written_memsetw, scrWritew, List.mem_cons]
      constructor
      · rintro ((rfl | h) | ⟨i, hi, rfl⟩)
        · exact Or.inr ⟨0, by omega, by simp⟩
        · exact Or.inl h
        · exact Or.inr ⟨i + 1, by omega, by rw [Nat.mul_add]; congr 1; omega⟩
      · rintro (h | ⟨i, hi, rfl⟩)
        · exact Or.inl (Or.inr h)
        · cases i with
          | zero => exact Or.inl (Or.inl (by simp))
          | succ i => exact Or.inr ⟨i, by omega, by rw [Nat.mul_add]; congr 1; omega⟩

/-- `scr_memcpyw` stores where `scr_memsetw` would. -/
theorem written_memcpyw : ∀ {count : ℕ} {hw hw' : Hw} {d s : ℕ}, hw.written = hw'.written →
    (scrMemcpyw hw d s count).written = (scrMemsetw hw' d 0 count).written
  | 0, _, _, _, _, h => h
  | count + 1, hw, hw', d, s, h => by
      rw [scrMemcpyw, scrMemsetw]
      exact written_memcpyw (by simp [scrWritew, h])

theorem mem_written_memcpyw {a count : ℕ} {hw : Hw} {d s : ℕ} :
    a ∈ (scrMemcpyw hw d s count).written ↔
      a ∈ hw.written ∨ ∃ i < count, a = (d + 2 * i) % 2 ^ 32 := by
  have hset : (scrMemcpyw hw d s count).written = (scrMemsetw hw d 0 count).written :=
    written_memcpyw rfl
  rw [hset]
  exact mem_written_memsetw

theorem mem_written_memmovewDown {a : ℕ} : ∀ {count : ℕ} {hw : Hw} {d s : ℕ},
    a ∈ (scrMemmovewDown hw d s count).written ↔
      a ∈ hw.written ∨ ∃ i < count, a = sub32 d (2 * i + 2)
  | 0, _, _, _ => by simp [scrMemmovewDown]
  | count + 1, hw, d, s => by
      have hmod : sub32 d 2 % 2 ^ 32 = sub32 d 2 := Nat.mod_eq_of_lt (sub32_lt _ _)
      rw [scrMemmovewDown, mem_written_memmovewDown, scrWritew, List.mem_cons, hmod]
      constructor
      · rintro ((rfl | h) | ⟨i, hi, rfl⟩)
        · exact Or.inr ⟨0, by omega, rfl⟩
        · exact Or.inl h
        · exact Or.inr ⟨i + 1, by omega, by unfold sub32; omega⟩
      · rintro (h | ⟨i, hi, rfl⟩)
        · exact Or.inl (Or.inr h)
        · cases i with
          | zero => exact Or.inl (Or.inl rfl)
          | succ i => exact Or.inr ⟨i, by omega, by unfold sub32; omega⟩

theorem mem_written_access {hw : Hw} {op : ScrOp} {a : ℕ} :
    a ∈ (hw.access op).written ↔ a ∈ hw.written ∨ op.Writes a := by
  cases op with
  | writew value addr => simp [Hw.access, scrWritew, ScrOp.Writes, or_comm]
  | memsetw d v count => exact mem_written_memsetw
  | memcpyw d s count => exact mem_written_memcpyw
  | memmovew d s count =>
    simp only [Hw.access, ScrOp.Writes, scrMemmovew]
    split
    · exact mem_written_memcpyw
    · rw [mem_written_memmovewDown]
      -- the loop runs down from `d + 4 * count`: its round `i` stores to cell `count - 1 - i`
      have hrev : (∃ i < count, a = sub32 ((d + 4 * count) % 2 ^ 32) (2 * i + 2)) ↔
          ∃ i < count, a = (d + 2 * count + 2 * i) % 2 ^ 32 := by
        constructor
        · rintro ⟨i, hi, rfl⟩
          exact ⟨count - 1 - i, by omega, by unfold sub32; omega⟩
        · rintro ⟨i, hi, rfl⟩
          exact ⟨count - 1 - i, by omega, by unfold sub32; omega⟩
      rw [hrev]
  | writeVga reg val => simp [Hw.access, ScrOp.Writes]

/-- **The log of a run**: what was there, and what each access stores to. -/
theorem mem_written_run {a : ℕ} : ∀ {ops : List ScrOp} {hw : Hw},
    a ∈ (hw.run ops).written ↔ a ∈ hw.written ∨ ∃ op ∈ ops, op.Writes a
  | [], _ => by simp
  | op :: ops, hw => by
      have hcons : hw.run (op :: ops) = (hw.access op).run ops := rfl
      rw [hcons, mem_written_run, mem_written_access, or_assoc, List.exists_mem_cons_iff]

/-! ## The cells `scr_memsetw` fills -/

/-- `scr_memsetw` puts `v` in each cell of its block and in no other. -/
theorem scrMemsetw_apply {v a : ℕ} : ∀ {count : ℕ} {hw : Hw} {d : ℕ},
    (scrMemsetw hw d v count).mem a =
      if ∃ i < count, a = (d + 2 * i) % 2 ^ 32 then v % 2 ^ 16 else hw.mem a
  | 0, _, _ => by simp [scrMemsetw]
  | count + 1, hw, d => by
      have hsplit : (∃ i < count + 1, a = (d + 2 * i) % 2 ^ 32) ↔
          a = d % 2 ^ 32 ∨ ∃ i < count, a = (d + 2 + 2 * i) % 2 ^ 32 := by
        constructor
        · rintro ⟨i, hi, ha⟩
          cases i with
          | zero => exact Or.inl ha
          | succ i => exact Or.inr ⟨i, by omega, by rw [ha]; congr 1; omega⟩
        · rintro (ha | ⟨i, hi, ha⟩)
          · exact ⟨0, by omega, ha⟩
          · exact ⟨i + 1, by omega, by rw [ha]; congr 1; omega⟩
      rw [scrMemsetw, scrMemsetw_apply, if_congr hsplit rfl rfl]
      by_cases hrest : ∃ i < count, a = (d + 2 + 2 * i) % 2 ^ 32
      · rw [if_pos hrest, if_pos (Or.inr hrest)]
      · rw [if_neg hrest, scrWritew]
        by_cases hfirst : a = d % 2 ^ 32
        · rw [if_pos (Or.inl hfirst), hfirst]
          exact Function.update_self _ _ _
        · rw [if_neg (not_or.mpr ⟨hfirst, hrest⟩)]
          exact Function.update_of_ne hfirst _ _

/-! ## The screen an access leaves

The log and the CRT controller do not show on the screen. -/

theorem scrWritew_mem {hw hw' : Hw} (h : hw.mem = hw'.mem) (value addr : ℕ) :
    (scrWritew hw value addr).mem = (scrWritew hw' value addr).mem := by
  simp only [scrWritew, h]

theorem scrMemsetw_mem {v : ℕ} : ∀ {count : ℕ} {hw hw' : Hw} {d : ℕ}, hw.mem = hw'.mem →
    (scrMemsetw hw d v count).mem = (scrMemsetw hw' d v count).mem
  | 0, _, _, _, h => h
  | count + 1, hw, hw', d, h => by
      rw [scrMemsetw, scrMemsetw]
      exact scrMemsetw_mem (scrWritew_mem h _ _)

theorem scrMemcpyw_mem : ∀ {count : ℕ} {hw hw' : Hw} {d s : ℕ}, hw.mem = hw'.mem →
    (scrMemcpyw hw d s count).mem = (scrMemcpyw hw' d s count).mem
  | 0, _, _, _, _, h => h
  | count + 1, hw, hw', d, s, h => by
      have hread : scrReadw hw s = scrReadw hw' s := by simp only [scrReadw, h]
      rw [scrMemcpyw, scrMemcpyw, hread]
      exact scrMemcpyw_mem (scrWritew_mem h _ _)

theorem scrMemmovewDown_mem : ∀ {count : ℕ} {hw hw' : Hw} {d s : ℕ}, hw.mem = hw'.mem →
    (scrMemmovewDown hw d s count).mem = (scrMemmovewDown hw' d s count).mem
  | 0, _, _, _, _, h => h
  | count + 1, hw, hw', d, s, h => by
      have hread : scrReadw hw (sub32 s 2) = scrReadw hw' (sub32 s 2) := by simp only [scrReadw, h]
      rw [scrMemmovewDown, scrMemmovewDown, hread]
      exact scrMemmovewDown_mem (scrWritew_mem h _ _)

theorem access_mem {hw hw' : Hw} (h : hw.mem = hw'.mem) (op : ScrOp) :
    (hw.access op).mem = (hw'.access op).mem := by
  cases op with
  | writew value addr => exact scrWritew_mem h value addr
  | memsetw d v count => exact scrMemsetw_mem h
  | memcpyw d s count => exact scrMemcpyw_mem h
  | memmovew d s count =>
    simp only [Hw.access, scrMemmovew]
    split
    · exact scrMemcpyw_mem h
    · exact scrMemmovewDown_mem h
  | writeVga reg val => exact h

/-- The screen after a list of accesses depends on the screen before it alone. -/
theorem run_mem : ∀ (ops : List ScrOp) {hw hw' : Hw}, hw.mem = hw'.mem →
    (hw.run ops).mem = (hw'.run ops).mem
  | [], _, _, h => h
  | op :: ops, _, _, h => run_mem ops (access_mem h op)

end Sandix
