import Sandix.Tty.LdiscRefs

/-!
# Tty/LdiscChange — changing the line discipline, and recovering

`tty_ldisc_change` on a tty whose discipline is open and registered under its number, with memory at
hand: what it leaves for each outcome of the three opens it may try.

* `ttyLdiscChange_recovers` — it leaves the tty open on the new discipline, else on the old one, else
  on `N_TTY`, with one reference moved along.
-/

namespace Sandix

open Machinery

variable {δ κ : Type} [DecidableEq δ] [DecidableEq κ]

namespace LdiscState

variable {s s' : LdiscState δ κ} {t : κ} {disc line : ℤ} {old new n : δ} {env : LdiscEnv}

/-- The tty `t` has come from `old` to `new`: it is open there, `c_line` says `line`, one reference
has moved, and nothing else is changed. -/
structure Landed (s s' : LdiscState δ κ) (t : κ) (old new : δ) (line : ℤ) : Prop where
  ldisc : (s'.tty t).ldisc = some new
  cLine : (s'.tty t).cLine = line
  flag : (s'.tty t).ldiscOpen = true
  refcount : ∀ o, (s'.ops o).refcount =
    (s.ops o).refcount - (if o = old then 1 else 0) + if o = new then 1 else 0
  num : ∀ o, (s'.ops o).num = (s.ops o).num
  table : s'.table = s.table
  others : ∀ u, u ≠ t → s'.tty u = s.tty u

theorem landed_moveTo (s : LdiscState δ κ) (t : κ) (old new : δ) (line : ℤ) :
    Landed s (s.moveTo t old new line true) t old new line where
  ldisc := by simp [moveTo]
  cLine := by simp [moveTo]
  flag := by simp [moveTo]
  refcount := by
    intro o
    rw [moveTo, setTty_ops, addRef_refcount, addRef_refcount]
    split_ifs <;> ring
  num := by simp [moveTo]
  table := rfl
  others := fun u hu => setTty_tty_of_ne _ _ hu

omit [DecidableEq κ] in
/-- A tty that comes back costs and gains nothing. -/
theorem Landed.refcount_same (h : Landed s s' t old old line) (o : δ) :
    (s'.ops o).refcount = (s.ops o).refcount := by
  rw [h.refcount o]
  split_ifs <;> ring

omit [DecidableEq δ] in
theorem openRet_setTty (s : LdiscState δ κ) (v : LdiscTty δ) (ld : δ) (ret : ℤ) :
    (s.setTty t v).openRet ld ret = s.openRet ld ret := rfl

omit [DecidableEq κ] in
theorem openRet_addRef (s : LdiscState δ κ) (o ld : δ) (k ret : ℤ) :
    (s.addRef o k).openRet ld ret = s.openRet ld ret := by
  rw [openRet, openRet, addRef_hasOpen]

section Change

variable (hold : (s.tty t).ldisc = some old) (hdisc : disc ≠ (s.ops old).num)
  (hmem : ∀ k, env.mem k = true)

include hold hdisc

/-- No such discipline, or no memory for it. -/
theorem ttyLdiscChange_get_error {e : ℤ} {u : LdiscState δ κ}
    (hget : s.ttyLdiscGet disc (env.mem 0) = (.error e, u)) :
    s.ttyLdiscChange t disc env = .ok (e, s) := by
  have hu := ttyLdiscGet_error hget
  simp only [ttyLdiscChange, hold, if_neg hdisc.symm, hget, hu]

include hmem

/-- The new discipline opens. -/
theorem ttyLdiscChange_opened (hlook : s.lookup disc = some new)
    (hnew : s.openRet new (env.ret 0) = 0) :
    s.ttyLdiscChange t disc env = .ok (0, s.moveTo t old new disc true) := by
  simp only [ttyLdiscChange, hold, if_neg hdisc.symm, hmem, ttyLdiscGet_of_lookup hlook,
    ttyLdiscClose, attach_eq, openRet_setTty, openRet_addRef, hnew, setTty_setTty, ne_eq,
    not_true_eq_false, if_false, Exec.ok_bind, decide_true, ttyLdiscPut, putLdops, setTty_addRef]
  rfl

/-- The new discipline does not open. -/
theorem ttyLdiscChange_restore (hlook : s.lookup disc = some new)
    (hnew : s.openRet new (env.ret 0) ≠ 0) :
    s.ttyLdiscChange t disc env =
      (s.setTty t ⟨some new, false, disc, false⟩).ttyLdiscRestore t old env >>= fun u =>
        .ok (s.openRet new (env.ret 0), u.addRef old (-1)) := by
  simp only [ttyLdiscChange, hold, if_neg hdisc.symm, hmem, ttyLdiscGet_of_lookup hlook,
    ttyLdiscClose, attach_eq, openRet_setTty, openRet_addRef, hnew, setTty_setTty, ne_eq,
    not_false_eq_true, if_true, decide_false, ttyLdiscPut, putLdops, setTty_addRef, addRef_cancel]

end Change

section Restore

variable {v : LdiscTty δ} (hreg : s.lookup (s.ops old).num = some old)
  (hmem : ∀ k, env.mem k = true)

include hreg hmem

/-- The old discipline opens again. -/
theorem ttyLdiscRestore_reopened (hagain : s.openRet old (env.ret 1) = 0) :
    (s.setTty t v).ttyLdiscRestore t old env =
      .ok ((s.addRef old 1).setTty t ⟨some old, true, (s.ops old).num, true⟩) := by
  have hlook : (s.setTty t v).lookup (s.ops old).num = some old := hreg
  simp only [ttyLdiscRestore, setTty_ops, hmem, ttyLdiscGet_of_lookup hlook, setTty_addRef,
    attach_eq, openRet_setTty, openRet_addRef, hagain, addRef_num, setTty_setTty, decide_true,
    lt_irrefl, if_false]

/-- It does not, and `N_TTY` opens. -/
theorem ttyLdiscRestore_nTTY (hagain : s.openRet old (env.ret 1) < 0)
    (hn : s.lookup nTTY = some n) (hlast : s.openRet n (env.ret 2) = 0) :
    (s.setTty t v).ttyLdiscRestore t old env =
      .ok ((s.addRef n 1).setTty t ⟨some n, true, nTTY, true⟩) := by
  have hlook : (s.setTty t v).lookup (s.ops old).num = some old := hreg
  have hlook' : ∀ w : LdiscTty δ, (s.setTty t w).ttyLdiscGet nTTY true =
      (.ok n, (s.addRef n 1).setTty t w) := by
    intro w
    exact ttyLdiscGet_of_lookup (s := s.setTty t w) hn
  simp only [ttyLdiscRestore, setTty_ops, hmem, ttyLdiscGet_of_lookup hlook, setTty_addRef,
    attach_eq, openRet_setTty, openRet_addRef, hagain, addRef_num, setTty_setTty, if_true,
    ttyLdiscPut, putLdops, addRef_cancel, hlook', hlast, decide_true, lt_irrefl, if_false]

end Restore

/-- **Changing the discipline recovers from every failure.**  The tty's discipline is registered under
its number and open, another one is asked for, memory is at hand, and the opens return zero or a
negative error. -/
theorem ttyLdiscChange_recovers (hold : (s.tty t).ldisc = some old)
    (hreg : s.lookup (s.ops old).num = some old) (hopen : (s.tty t).ldiscOpen = true)
    (hdisc : disc ≠ (s.ops old).num) (hmem : ∀ k, env.mem k = true) (hret : ∀ k, env.ret k ≤ 0) :
    (∀ e u, s.ttyLdiscGet disc (env.mem 0) = (.error e, u) →
      s.ttyLdiscChange t disc env = .ok (e, s)) ∧
    ∀ new, s.lookup disc = some new →
      (s.openRet new (env.ret 0) ≠ 0 → s.openRet old (env.ret 1) = 0 →
        ∃ s', s.ttyLdiscChange t disc env = .ok (s.openRet new (env.ret 0), s') ∧
          Landed s s' t old old (s.ops old).num ∧
          (s'.tty t).ldiscOpen = (s.tty t).ldiscOpen ∧
          ∀ o, (s'.ops o).refcount = (s.ops o).refcount) ∧
      (s.openRet new (env.ret 0) ≠ 0 → s.openRet old (env.ret 1) ≠ 0 →
        ∀ n, s.lookup nTTY = some n → s.openRet n (env.ret 2) = 0 →
          ∃ s', s.ttyLdiscChange t disc env = .ok (s.openRet new (env.ret 0), s') ∧
            Landed s s' t old n nTTY) ∧
      (s.openRet new (env.ret 0) = 0 →
        ∃ s', s.ttyLdiscChange t disc env = .ok (0, s') ∧ Landed s s' t old new disc) := by
  refine ⟨fun e u hget => ttyLdiscChange_get_error hold hdisc hget, fun new hlook => ⟨?_, ?_, ?_⟩⟩
  · intro hfail hagain
    have hland := landed_moveTo s t old old (s.ops old).num
    refine ⟨_, ?_, hland, hland.flag.trans hopen.symm, hland.refcount_same⟩
    rw [ttyLdiscChange_restore hold hdisc hmem hlook hfail,
      ttyLdiscRestore_reopened hreg hmem hagain]
    rfl
  · intro hfail hagain n hn hlast
    have hneg : s.openRet old (env.ret 1) < 0 := by
      refine lt_of_le_of_ne ?_ hagain
      unfold openRet
      split_ifs
      · exact hret 1
      · exact le_rfl
    refine ⟨_, ?_, landed_moveTo s t old n nTTY⟩
    rw [ttyLdiscChange_restore hold hdisc hmem hlook hfail,
      ttyLdiscRestore_nTTY hreg hmem hneg hn hlast]
    rfl
  · intro hnew
    exact ⟨_, ttyLdiscChange_opened hold hdisc hmem hlook hnew, landed_moveTo s t old new disc⟩

/-- A tty open on `N_TTY` with a `c_line` of 5, as a driver's `init_termios` may have it; discipline
1 does not open. -/
def strayLine : LdiscState ℕ (Fin 2) where
  table := fun disc => if disc = 0 then some 0 else if disc = 1 then some 1 else none
  ops := fun o => if o = 0 then ⟨0, 1, true⟩ else ⟨1, 0, true⟩
  tty := fun t => if t = 0 then ⟨some 0, true, 5, true⟩ else ⟨none, false, 0, false⟩

/-- Memory is at hand, the first open fails and the others do not. -/
def firstOpenFails : LdiscEnv := ⟨fun _ => true, fun k => if k = 0 then -5 else 0⟩

theorem ttyLdiscChange_recovers_strayLine :
    ∃ s', strayLine.ttyLdiscChange 0 1 firstOpenFails =
        .ok (strayLine.openRet 1 (firstOpenFails.ret 0), s') ∧
      Landed strayLine s' 0 0 0 (strayLine.ops 0).num ∧
      (s'.tty 0).ldiscOpen = (strayLine.tty 0).ldiscOpen ∧
      ∀ o, (s'.ops o).refcount = (strayLine.ops o).refcount :=
  ((ttyLdiscChange_recovers (s := strayLine) (t := 0) rfl rfl rfl (by decide) (fun _ => rfl)
    (by intro k; by_cases hk : k = 0 <;> simp [firstOpenFails, hk])).2 1 rfl).1 (by decide) rfl

/-- The recovery does not bring `c_line` back when it named another discipline. -/
theorem ttyLdiscChange_strayLine :
    (strayLine.tty 0).ldisc = some 0 ∧ strayLine.lookup (strayLine.ops 0).num = some 0 ∧
    (strayLine.tty 0).ldiscOpen = true ∧ 1 ≠ (strayLine.ops 0).num ∧
    (strayLine.tty 0).cLine = 5 ∧
    (strayLine.ttyLdiscChange 0 1 firstOpenFails).map (fun r => (r.1, (r.2.tty 0).cLine)) =
      .ok (-5, 0) :=
  ⟨rfl, rfl, rfl, by decide, rfl, rfl⟩

end LdiscState

end Sandix
