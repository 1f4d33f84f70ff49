import Mathlib.Tactic

/-!
# Machinery/Sink — writing through a cursor that has an end

A `Sink` is a cursor into memory.  `put` stores a value when the cursor is below `stop` and moves on in
either case: the cursor counts what was stored and what was not.  Addresses are taken modulo `N`.

`puts_pos` and `puts_mem` say what a whole text leaves behind, as long as the cursor does not wrap
around: the part below `stop` is stored, and nothing else changes.
-/

namespace Machinery

/-- A cursor into memory. -/
@[ext]
structure Sink (β : Type*) where
  pos : ℕ
  mem : ℕ → β

/-- The values `bs` at `a`, and everything else as it was. -/
def blit {β : Type*} (mem : ℕ → β) (a : ℕ) (bs : List β) : ℕ → β := fun x =>
  if a ≤ x then (bs[x - a]?).getD (mem x) else mem x

theorem blit_nil {β : Type*} (mem : ℕ → β) (a : ℕ) : blit mem a [] = mem := by
  funext x
  simp [blit]

/-- A text and one more value after it. -/
theorem blit_concat {β : Type*} (mem : ℕ → β) (a : ℕ) (bs : List β) (b : β) :
    blit mem a (bs ++ [b]) = Function.update (blit mem a bs) (a + bs.length) b := by
  funext x
  rw [Function.update_apply]
  unfold blit
  split_ifs with hle heq hlast
  · rw [heq, Nat.add_sub_cancel_left, List.getElem?_concat_length]
    rfl
  · congr 1
    rcases Nat.lt_or_gt_of_ne heq with hlt | hgt
    · exact List.getElem?_append_left (by omega)
    · rw [List.getElem?_eq_none (by simp; omega), List.getElem?_eq_none (by omega)]
  · omega
  · rfl

/-- A value over the last one of a text. -/
theorem blit_update_last {β : Type*} (mem : ℕ → β) (a : ℕ) (bs : List β) (b c : β) :
    Function.update (blit mem a (bs ++ [b])) (a + bs.length) c = blit mem a (bs ++ [c]) := by
  rw [blit_concat, blit_concat, Function.update_idem]

namespace Sink

variable {β : Type*} (N stop : ℕ)

/-- Store `b` if the cursor is below `stop`, and move on. -/
def put (k : Sink β) (b : β) : Sink β where
  pos := (k.pos + 1) % N
  mem := if k.pos < stop then Function.update k.mem k.pos b else k.mem

/-- A text, value by value. -/
def puts (k : Sink β) (bs : List β) : Sink β := bs.foldl (put N stop) k

variable {N stop} {k : Sink β}

@[simp] theorem puts_nil : k.puts N stop [] = k := rfl

@[simp] theorem puts_cons (b : β) (bs : List β) :
    k.puts N stop (b :: bs) = (k.put N stop b).puts N stop bs := rfl

theorem puts_append (bs cs : List β) :
    k.puts N stop (bs ++ cs) = (k.puts N stop bs).puts N stop cs := List.foldl_append

/-- The cursor counts every value, modulo `N`. -/
theorem puts_pos_mod : ∀ (bs : List β) (k : Sink β),
    (k.puts N stop bs).pos % N = (k.pos + bs.length) % N
  | [], _ => rfl
  | b :: bs, k => by
      have hpos : (k.put N stop b).pos = (k.pos + 1) % N := rfl
      rw [puts_cons, puts_pos_mod bs, hpos, Nat.mod_add_mod, List.length_cons, Nat.add_assoc,
        Nat.add_comm 1]

theorem puts_pos : ∀ {bs : List β} {k : Sink β}, k.pos + bs.length < N →
    (k.puts N stop bs).pos = k.pos + bs.length
  | [], _, _ => rfl
  | b :: bs, k, h => by
      rw [List.length_cons] at h ⊢
      have hpos : (k.put N stop b).pos = k.pos + 1 := Nat.mod_eq_of_lt (by omega)
      rw [puts_cons, puts_pos (by omega), hpos]
      omega

/-- **What a text leaves in memory.** -/
theorem puts_mem : ∀ {bs : List β} {k : Sink β}, k.pos + bs.length < N →
    (k.puts N stop bs).mem = blit k.mem k.pos (bs.take (stop - k.pos))
  | [], k, _ => by
      funext a
      simp [blit]
  | b :: bs, k, h => by
      rw [List.length_cons] at h
      have hpos : (k.put N stop b).pos = k.pos + 1 := Nat.mod_eq_of_lt (by omega)
      rw [puts_cons, puts_mem (by omega), hpos]
      funext a
      simp only [blit, put]
      by_cases hstop : k.pos < stop
      · obtain ⟨n, hn⟩ : ∃ n, stop - k.pos = n + 1 := ⟨stop - k.pos - 1, by omega⟩
        rw [if_pos hstop, hn, show stop - (k.pos + 1) = n by omega, List.take_succ_cons]
        rcases lt_trichotomy a k.pos with ha | rfl | ha
        · rw [if_neg (by omega), if_neg (by omega), Function.update_of_ne (by omega)]
        · rw [if_neg (by omega), if_pos le_rfl, Function.update_self, Nat.sub_self]
          rfl
        · rw [if_pos (by omega), if_pos (by omega), Function.update_of_ne (by omega),
            show a - k.pos = a - (k.pos + 1) + 1 by omega, List.getElem?_cons_succ]
      · rw [if_neg hstop, show stop - (k.pos + 1) = 0 by omega, show stop - k.pos = 0 by omega]
        simp

end Sink

end Machinery
