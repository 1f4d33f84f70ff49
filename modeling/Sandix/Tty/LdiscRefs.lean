import Sandix.Machinery.Run
import Sandix.Tty.Ldisc

/-!
# Tty/LdiscRefs — references to line disciplines

`RefsExact`: a registered discipline's count is the number of ttys on it, and a tty's flag says
whether its discipline is open.  Everything `tty_ldisc_change` can do is `moveTo`
(`ttyLdiscChange_cases`), which moves one reference, so it keeps both.

`alloc_tty_struct` takes no reference and clears the flag it has just set, `tty_register_ldisc`
resets the count of a discipline in use, and `tty_ldisc_init` and `tty_ldisc_deinit` forget the
reference or the flag of a tty that has one.  `refsExactAlong_iff`: nothing else goes wrong.
-/

namespace Sandix

open Machinery Function

variable {δ κ : Type}

namespace LdiscState

/-! ## How the updates compose -/

section Counts

variable [DecidableEq δ]

@[simp] theorem addRef_table (s : LdiscState δ κ) (o : δ) (k : ℤ) :
    (s.addRef o k).table = s.table := rfl

@[simp] theorem addRef_tty (s : LdiscState δ κ) (o : δ) (k : ℤ) : (s.addRef o k).tty = s.tty := rfl

theorem addRef_refcount (s : LdiscState δ κ) (o x : δ) (k : ℤ) :
    ((s.addRef o k).ops x).refcount = (s.ops x).refcount + if x = o then k else 0 := by
  unfold addRef
  by_cases hx : x = o
  · subst hx
    simp
  · simp [hx]

@[simp] theorem addRef_num (s : LdiscState δ κ) (o x : δ) (k : ℤ) :
    ((s.addRef o k).ops x).num = (s.ops x).num := by
  by_cases hx : x = o
  · subst hx
    simp [addRef]
  · simp [addRef, hx]

@[simp] theorem addRef_hasOpen (s : LdiscState δ κ) (o x : δ) (k : ℤ) :
    ((s.addRef o k).ops x).hasOpen = (s.ops x).hasOpen := by
  by_cases hx : x = o
  · subst hx
    simp [addRef]
  · simp [addRef, hx]

/-- A reference taken and dropped. -/
@[simp] theorem addRef_cancel (s : LdiscState δ κ) (o : δ) : (s.addRef o 1).addRef o (-1) = s := by
  simp [addRef]

end Counts

section Ttys

variable [DecidableEq κ]

@[simp] theorem setTty_table (s : LdiscState δ κ) (t : κ) (v : LdiscTty δ) :
    (s.setTty t v).table = s.table := rfl

@[simp] theorem setTty_ops (s : LdiscState δ κ) (t : κ) (v : LdiscTty δ) :
    (s.setTty t v).ops = s.ops := rfl

@[simp] theorem setTty_tty_self (s : LdiscState δ κ) (t : κ) (v : LdiscTty δ) :
    (s.setTty t v).tty t = v := by
  simp [setTty]

theorem setTty_tty_of_ne (s : LdiscState δ κ) {t u : κ} (v : LdiscTty δ) (hu : u ≠ t) :
    (s.setTty t v).tty u = s.tty u := by
  simp [setTty, hu]

@[simp] theorem setTty_setTty (s : LdiscState δ κ) (t : κ) (v w : LdiscTty δ) :
    (s.setTty t v).setTty t w = s.setTty t w := by
  simp [setTty]

end Ttys

/-! ## What each function does -/

section Open

variable [DecidableEq κ]

/-- The result of an open. -/
def openRet (s : LdiscState δ κ) (ld : δ) (ret : ℤ) : ℤ := if (s.ops ld).hasOpen then ret else 0

theorem ttyLdiscOpen_eq (s : LdiscState δ κ) (t : κ) (ld : δ) (ret : ℤ) :
    s.ttyLdiscOpen t ld ret = (s.openRet ld ret, s.setTty t
      { s.tty t with ldiscOpen := s.openRet ld ret = 0, opened := s.openRet ld ret = 0 }) := by
  unfold ttyLdiscOpen openRet
  cases (s.ops ld).hasOpen with
  | false => simp
  | true =>
    by_cases hret : ret = 0
    · simp [hret]
    · simp [hret]

/-- Setting a tty up on a discipline: the pointer, `c_line`, and the open. -/
theorem attach_eq (s : LdiscState δ κ) (t : κ) (ld : δ) (line ret : ℤ) :
    ((s.setLdisc t (some ld)).ttySetTermiosLdisc t line).ttyLdiscOpen t ld ret =
      (s.openRet ld ret, s.setTty t
        ⟨some ld, s.openRet ld ret = 0, line, s.openRet ld ret = 0⟩) := by
  rw [ttyLdiscOpen_eq]
  simp [setLdisc, ttySetTermiosLdisc, openRet]

end Open

variable {s s' : LdiscState δ κ} {o : δ} {t : κ} {disc : ℤ}

/-- The discipline of a number, when there is one. -/
def lookup (s : LdiscState δ κ) (disc : ℤ) : Option δ := if inRange disc then s.table disc else none

theorem lookup_of_table {u : LdiscState δ κ} (h : u.table = s.table) (disc : ℤ) :
    u.lookup disc = s.lookup disc := by
  rw [lookup, lookup, h]

section Get

variable [DecidableEq δ]

theorem ttyLdiscGet_of_lookup (h : s.lookup disc = some o) :
    s.ttyLdiscGet disc true = (.ok o, s.addRef o 1) := by
  unfold lookup at h
  split_ifs at h with hr
  simp [ttyLdiscGet, getLdops, hr, h]

theorem ttyLdiscGet_of_lookup_none (h : s.lookup disc = none) (mem : Bool) :
    s.ttyLdiscGet disc mem = (.error (-EINVAL), s) := by
  unfold lookup at h
  split_ifs at h with hr
  · simp [ttyLdiscGet, getLdops, hr, h]
  · simp [ttyLdiscGet, hr]

/-- `tty_ldisc_get` takes a reference, or changes nothing. -/
theorem ttyLdiscGet_cases (s : LdiscState δ κ) (disc : ℤ) (mem : Bool) :
    (∃ o, s.lookup disc = some o ∧ s.ttyLdiscGet disc mem = (.ok o, s.addRef o 1)) ∨
    ∃ e, s.ttyLdiscGet disc mem = (.error e, s) := by
  cases hlook : s.lookup disc with
  | none => exact Or.inr ⟨_, ttyLdiscGet_of_lookup_none hlook mem⟩
  | some o =>
    cases mem with
    | true => exact Or.inl ⟨o, rfl, ttyLdiscGet_of_lookup hlook⟩
    | false =>
      refine Or.inr ⟨-ENOMEM, ?_⟩
      unfold lookup at hlook
      split_ifs at hlook with hr
      simp [ttyLdiscGet, getLdops, hr, hlook, putLdops]

theorem ttyLdiscGet_ok {mem : Bool} (h : s.ttyLdiscGet disc mem = (.ok o, s')) :
    s.lookup disc = some o ∧ s' = s.addRef o 1 := by
  rcases s.ttyLdiscGet_cases disc mem with ⟨o', hlook, hget⟩ | ⟨e, hget⟩
  · rw [hget, Prod.mk.injEq, Except.ok.injEq] at h
    exact ⟨h.1 ▸ hlook, h.1 ▸ h.2.symm⟩
  · simp [hget] at h

theorem ttyLdiscGet_error {mem : Bool} {e : ℤ} (h : s.ttyLdiscGet disc mem = (.error e, s')) :
    s' = s := by
  rcases s.ttyLdiscGet_cases disc mem with ⟨o', -, hget⟩ | ⟨e', hget⟩
  · simp [hget] at h
  · rw [hget, Prod.mk.injEq] at h
    exact h.2.symm

end Get

variable [DecidableEq δ] [DecidableEq κ]

@[simp] theorem setTty_addRef (s : LdiscState δ κ) (t : κ) (v : LdiscTty δ) (o : δ) (k : ℤ) :
    (s.setTty t v).addRef o k = (s.addRef o k).setTty t v := rfl

/-- The tty `t` leaves `old` for `new`: one reference moves, and the flag says whether `new` is
open. -/
def moveTo (s : LdiscState δ κ) (t : κ) (old new : δ) (line : ℤ) (isOpen : Bool) :
    LdiscState δ κ :=
  ((s.addRef new 1).addRef old (-1)).setTty t ⟨some new, isOpen, line, isOpen⟩

/-- `tty_ldisc_restore` puts the tty on some discipline, with a reference to it. -/
theorem ttyLdiscRestore_cases {old : δ} {env : LdiscEnv}
    (h : s.ttyLdiscRestore t old env = .ok s') :
    ∃ new line isOpen, s' = (s.addRef new 1).setTty t ⟨some new, isOpen, line, isOpen⟩ := by
  unfold ttyLdiscRestore at h
  split at h
  · simp at h
  · next o u hget =>
    obtain ⟨-, rfl⟩ := ttyLdiscGet_ok hget
    simp only [attach_eq] at h
    split_ifs at h with hret
    · simp only [ttyLdiscPut, putLdops, setTty_addRef, addRef_cancel] at h
      split at h
      · simp at h
      · next n u hget' =>
        obtain ⟨-, rfl⟩ := ttyLdiscGet_ok hget'
        simp only [setTty_addRef, setTty_setTty] at h
        split_ifs at h
        rw [Except.ok.injEq] at h
        exact ⟨n, _, _, h.symm⟩
    · rw [Except.ok.injEq] at h
      exact ⟨o, _, _, h.symm⟩

/-- **Everything `tty_ldisc_change` can do**: nothing, or move one reference. -/
theorem ttyLdiscChange_cases {env : LdiscEnv} {r : ℤ}
    (h : s.ttyLdiscChange t disc env = .ok (r, s')) :
    s' = s ∨ ∃ old new line isOpen, (s.tty t).ldisc = some old ∧
      s' = s.moveTo t old new line isOpen := by
  unfold ttyLdiscChange at h
  cases hold : (s.tty t).ldisc with
  | none => simp [hold] at h
  | some old =>
    simp only [hold] at h
    split_ifs at h with hnum
    · simp only [Except.ok.injEq, Prod.mk.injEq] at h
      exact Or.inl h.2.symm
    · split at h
      · next e u hget =>
        simp only [Except.ok.injEq, Prod.mk.injEq] at h
        exact Or.inl (h.2.symm.trans (ttyLdiscGet_error hget))
      · next new u hget =>
        right
        obtain ⟨-, rfl⟩ := ttyLdiscGet_ok hget
        simp only [ttyLdiscClose, attach_eq, setTty_setTty, ttyLdiscPut, putLdops, setTty_addRef,
          addRef_cancel] at h
        split_ifs at h with hret
        · rw [Exec.bind_eq_ok] at h
          obtain ⟨u, hu, h⟩ := h
          obtain ⟨n, line, isOpen, rfl⟩ := ttyLdiscRestore_cases hu
          simp only [Except.ok.injEq, Prod.mk.injEq, setTty_addRef, setTty_setTty] at h
          exact ⟨old, n, line, isOpen, rfl, h.2.symm⟩
        · simp only [Exec.ok_bind, Except.ok.injEq, Prod.mk.injEq, setTty_addRef] at h
          exact ⟨old, new, _, _, rfl, h.2.symm⟩

/-! ## The invariant -/

variable [Fintype κ]

/-- How many ttys are on the discipline. -/
def users (s : LdiscState δ κ) (o : δ) : ℕ :=
  (Finset.univ.filter fun t => (s.tty t).ldisc = some o).card

/-- The discipline has a number. -/
def Registered (s : LdiscState δ κ) (o : δ) : Prop := ∃ disc, s.lookup disc = some o

/-- A registered discipline counts the ttys on it, and a tty's flag says whether the discipline it is
on has been opened and not closed since. -/
structure RefsExact (s : LdiscState δ κ) : Prop where
  refcount : ∀ o, s.Registered o → (s.ops o).refcount = s.users o
  flag : ∀ t, (s.tty t).ldiscOpen = true ↔ (s.tty t).ldisc ≠ none ∧ (s.tty t).opened = true

/-- One tty on another discipline. -/
theorem users_setTty (s : LdiscState δ κ) (t : κ) (v : LdiscTty δ) (o : δ) :
    ((s.setTty t v).users o : ℤ) = s.users o - (if (s.tty t).ldisc = some o then 1 else 0) +
      if v.ldisc = some o then 1 else 0 := by
  have hsum : ∀ u : LdiscState δ κ, (u.users o : ℤ) =
      (if (u.tty t).ldisc = some o then 1 else 0) +
        ∑ i ∈ Finset.univ.erase t, if (u.tty i).ldisc = some o then 1 else 0 := by
    intro u
    rw [users, Finset.card_filter, Nat.cast_sum, ← Finset.add_sum_erase _ _ (Finset.mem_univ t)]
    push_cast
    rfl
  have hrest : ∑ i ∈ Finset.univ.erase t, (if ((s.setTty t v).tty i).ldisc = some o then (1 : ℤ)
      else 0) = ∑ i ∈ Finset.univ.erase t, if (s.tty i).ldisc = some o then 1 else 0 := by
    refine Finset.sum_congr rfl fun i hi => ?_
    rw [setTty_tty_of_ne s v (Finset.ne_of_mem_erase hi)]
  rw [hsum, hsum, hrest, setTty_tty_self]
  ring

omit [DecidableEq κ] in
@[simp] theorem users_addRef (s : LdiscState δ κ) (o x : δ) (k : ℤ) :
    (s.addRef o k).users x = s.users x := rfl

omit [DecidableEq δ] [DecidableEq κ] [Fintype κ] in
theorem registered_of_table {u : LdiscState δ κ} (h : u.table = s.table) (o : δ) :
    u.Registered o ↔ s.Registered o := by
  simp only [Registered, lookup_of_table h]

omit [DecidableEq δ] [Fintype κ] in
/-- What a step owes: the flags of the ttys it leaves alone are still right. -/
theorem flag_setTty (hflag : ∀ u, (s.tty u).ldiscOpen = true ↔
      (s.tty u).ldisc ≠ none ∧ (s.tty u).opened = true) (t : κ) (v : LdiscTty δ) :
    (∀ u, ((s.setTty t v).tty u).ldiscOpen = true ↔
      ((s.setTty t v).tty u).ldisc ≠ none ∧ ((s.setTty t v).tty u).opened = true) ↔
    (v.ldiscOpen = true ↔ v.ldisc ≠ none ∧ v.opened = true) := by
  constructor
  · intro h
    simpa using h t
  · intro hv u
    by_cases hu : u = t
    · subst hu
      simpa using hv
    · rw [setTty_tty_of_ne s v hu]
      exact hflag u

/-- **What a tty's move owes**: each registered discipline counts one less if the tty leaves it, and
one more if the tty comes to it. -/
theorem refsExact_setTty (h : s.RefsExact) {u : LdiscState δ κ} (htable : u.table = s.table)
    (htty : u.tty = s.tty) (t : κ) (v : LdiscTty δ) :
    (u.setTty t v).RefsExact ↔
      (∀ o, s.Registered o → (u.ops o).refcount = (s.ops o).refcount -
        (if (s.tty t).ldisc = some o then 1 else 0) + if v.ldisc = some o then 1 else 0) ∧
      (v.ldiscOpen = true ↔ v.ldisc ≠ none ∧ v.opened = true) := by
  have husers : ∀ o, ((u.setTty t v).users o : ℤ) = s.users o -
      (if (s.tty t).ldisc = some o then 1 else 0) + if v.ldisc = some o then 1 else 0 := by
    intro o
    have hsame : u.users o = s.users o := by rw [users, users, htty]
    rw [users_setTty, hsame, htty]
  have hreg : ∀ o, (u.setTty t v).Registered o ↔ s.Registered o := registered_of_table htable
  have hflag := flag_setTty (s := u) (by rw [htty]; exact h.flag) t v
  constructor
  · rintro ⟨hcount, hflag'⟩
    refine ⟨fun o ho => ?_, hflag.mp hflag'⟩
    rw [h.refcount o ho, ← husers o]
    exact hcount o ((hreg o).mpr ho)
  · rintro ⟨hcount, hv⟩
    refine ⟨fun o ho => ?_, hflag.mpr hv⟩
    rw [husers o, ← h.refcount o ((hreg o).mp ho)]
    exact hcount o ((hreg o).mp ho)

/-- **Moving a reference** with the tty keeps the counts. -/
theorem RefsExact.moveTo (h : s.RefsExact) {old new : δ} {line : ℤ} {isOpen : Bool}
    (hold : (s.tty t).ldisc = some old) : (s.moveTo t old new line isOpen).RefsExact := by
  refine (refsExact_setTty h (u := (s.addRef new 1).addRef old (-1)) rfl rfl t _).mpr ⟨?_, by simp⟩
  intro x _
  have hold' : old = x ↔ x = old := eq_comm
  have hnew' : new = x ↔ x = new := eq_comm
  simp only [addRef_refcount, hold, Option.some.injEq, hold', hnew']
  split_ifs <;> ring

/-! ## The other calls -/

omit [DecidableEq κ] in
theorem refsExact_begin (ttyLdiscNTTY : δ) (ops : δ → LdiscOps) :
    (ttyLdiscBegin ttyLdiscNTTY ops : LdiscState δ κ).RefsExact := by
  have hrange : inRange nTTY = true := by decide
  refine ⟨fun o ho => ?_, fun t => ?_⟩
  · obtain ⟨disc, hdisc⟩ := ho
    have huse : (ttyLdiscBegin ttyLdiscNTTY ops : LdiscState δ κ).users o = 0 := by
      simp [ttyLdiscBegin, ttyRegisterLdisc, hrange, users]
    have ho : o = ttyLdiscNTTY := by
      simp only [ttyLdiscBegin, ttyRegisterLdisc, hrange, if_true, lookup, update_apply] at hdisc
      split_ifs at hdisc
      exact (Option.some.inj hdisc).symm
    rw [huse, ho]
    simp [ttyLdiscBegin, ttyRegisterLdisc, hrange]
  · simp [ttyLdiscBegin, ttyRegisterLdisc, hrange]

omit [DecidableEq κ] in
/-- Registering resets the count: right when no tty is on the discipline. -/
theorem refsExact_register (h : s.RefsExact) (disc : ℤ) (new : δ) :
    (s.ttyRegisterLdisc disc new).2.RefsExact ↔ (inRange disc = true → s.users new = 0) := by
  unfold ttyRegisterLdisc
  cases hr : inRange disc with
  | false => simpa using h
  | true =>
    simp only [if_true, forall_const]
    constructor
    · intro h'
      have hnew := h'.refcount new ⟨disc, by simp [lookup, hr]⟩
      simp only [update_self] at hnew
      exact_mod_cast hnew.symm
    · intro hzero
      refine ⟨fun o ho => ?_, h.flag⟩
      obtain ⟨d, hd⟩ := ho
      by_cases hon : o = new
      · subst hon
        simp only [update_self]
        exact_mod_cast hzero.symm
      · have hreg : s.Registered o := by
          refine ⟨d, ?_⟩
          simp only [lookup, update_apply] at hd ⊢
          split_ifs at hd ⊢ with hdr hdd
          · exact absurd (Option.some.inj hd).symm hon
          · exact hd
        simp only [update_of_ne hon]
        exact h.refcount o hreg

omit [DecidableEq κ] in
/-- Unregistering takes an entry away and touches no count. -/
theorem RefsExact.unregister (h : s.RefsExact) {r : ℤ}
    (hs : s.ttyUnregisterLdisc disc = .ok (r, s')) : s'.RefsExact := by
  unfold ttyUnregisterLdisc at hs
  split_ifs at hs with hr
  · split at hs
    · simp at hs
    · split_ifs at hs with href
      · simp only [Except.ok.injEq, Prod.mk.injEq] at hs
        exact hs.2 ▸ h
      · simp only [Except.ok.injEq, Prod.mk.injEq] at hs
        rw [← hs.2]
        refine ⟨fun o ho => h.refcount o ?_, h.flag⟩
        obtain ⟨d, hd⟩ := ho
        refine ⟨d, ?_⟩
        simp only [lookup, update_apply] at hd ⊢
        split_ifs at hd ⊢
        exact hd
  · simp only [Except.ok.injEq, Prod.mk.injEq] at hs
    exact hs.2 ▸ h

/-- The new tty gets `N_TTY` without a reference: right when the discipline it leaves and the one it
gets count nothing, or are the same. -/
theorem refsExact_alloc (h : s.RefsExact) (ttyLdiscNTTY : δ) (t : κ) (cLine ret : ℤ) :
    (s.allocTtyStruct ttyLdiscNTTY t cLine ret).RefsExact ↔
      s.openRet ttyLdiscNTTY ret ≠ 0 ∧ ((s.tty t).ldisc = some ttyLdiscNTTY ∨
        ¬ s.Registered ttyLdiscNTTY ∧ ∀ o, (s.tty t).ldisc = some o → ¬ s.Registered o) := by
  have heq : s.allocTtyStruct ttyLdiscNTTY t cLine ret = s.setTty t
      ⟨some ttyLdiscNTTY, false, cLine, s.openRet ttyLdiscNTTY ret = 0⟩ := by
    simp only [allocTtyStruct, ttyLdiscOpen_eq, setLdisc, setTty_setTty, setTty_tty_self]
    rfl
  rw [heq, refsExact_setTty h rfl rfl]
  simp only [ne_eq, reduceCtorEq, not_false_eq_true, decide_eq_true_eq, true_and, Bool.false_eq_true,
    false_iff, Option.some.injEq]
  rw [and_comm]
  refine and_congr_right fun _ => ?_
  constructor
  · intro hcount
    by_cases hsame : (s.tty t).ldisc = some ttyLdiscNTTY
    · exact Or.inl hsame
    · refine Or.inr ⟨fun hreg => ?_, fun o ho hreg => ?_⟩
      · have := hcount ttyLdiscNTTY hreg
        simp [hsame] at this
      · have hne : ttyLdiscNTTY ≠ o := fun hne => hsame (hne ▸ ho)
        have := hcount o hreg
        simp only [ho, hne, if_true, if_false] at this
        omega
  · rintro (hsame | ⟨hnreg, hold⟩) o ho
    · simp [hsame]
    · have hne : ttyLdiscNTTY ≠ o := fun hne => hnreg (hne ▸ ho)
      have hne' : (s.tty t).ldisc ≠ some o := fun ho' => hold o ho' ho
      simp [hne, hne']

/-- `tty_ldisc_init` takes a reference and forgets the one the tty had. -/
theorem refsExact_init (h : s.RefsExact) {mem : Bool} (hs : s.ttyLdiscInit t mem = .ok s') :
    s'.RefsExact ↔ (s.tty t).ldiscOpen = false ∧
      ∀ o, (s.tty t).ldisc = some o → ¬ s.Registered o := by
  unfold ttyLdiscInit at hs
  split at hs
  · simp at hs
  · next ld u hget =>
    obtain ⟨-, rfl⟩ := ttyLdiscGet_ok hget
    rw [Except.ok.injEq] at hs
    rw [← hs, setLdisc, refsExact_setTty (u := s.addRef ld 1) h rfl rfl]
    simp only [addRef_refcount, addRef_tty, Option.some.injEq, and_false, iff_false,
      Bool.not_eq_true, Bool.false_eq_true]
    rw [and_comm]
    refine and_congr_right fun _ => ?_
    have hld : ∀ o, ld = o ↔ o = ld := fun o => eq_comm
    constructor
    · intro hcount o ho hreg
      have := hcount o hreg
      simp only [ho, hld, if_true] at this
      omega
    · intro hold o ho
      have hne : (s.tty t).ldisc ≠ some o := fun ho' => hold o ho' ho
      simp [hne, hld]

/-- `tty_ldisc_deinit` drops the reference and forgets the flag. -/
theorem refsExact_deinit (h : s.RefsExact) (t : κ) :
    (s.ttyLdiscDeinit t).RefsExact ↔ (s.tty t).ldiscOpen = false := by
  unfold ttyLdiscDeinit setLdisc
  cases hold : (s.tty t).ldisc with
  | none =>
    rw [ttyLdiscPut, refsExact_setTty h rfl rfl]
    simp [hold]
  | some old =>
    rw [ttyLdiscPut, putLdops, refsExact_setTty (u := s.addRef old (-1)) h rfl rfl]
    have hold' : ∀ o, old = o ↔ o = old := fun o => eq_comm
    simp only [addRef_refcount, addRef_tty, hold, Option.some.injEq, hold']
    simp only [reduceCtorEq, if_false, ne_eq, not_true_eq_false, false_and, iff_false,
      Bool.not_eq_true, and_iff_right_iff_imp]
    intro _ o _
    split_ifs <;> ring

end LdiscState

/-! ## Runs -/

/-- A call into the layer. -/
inductive LdiscOp (δ κ : Type)
  | alloc (t : κ) (cLine ret : ℤ)
  | register (disc : ℤ) (new : δ)
  | unregister (disc : ℤ)
  | init (t : κ) (mem : Bool)
  | deinit (t : κ)
  | change (t : κ) (disc : ℤ) (env : LdiscEnv)

section Runs

variable [DecidableEq δ] [DecidableEq κ] (ttyLdiscNTTY : δ)

/-- The state after a call. -/
def LdiscState.step (s : LdiscState δ κ) : LdiscOp δ κ → Exec (LdiscState δ κ)
  | .alloc t cLine ret => .ok (s.allocTtyStruct ttyLdiscNTTY t cLine ret)
  | .register disc new => .ok (s.ttyRegisterLdisc disc new).2
  | .unregister disc => s.ttyUnregisterLdisc disc >>= fun r => .ok r.2
  | .init t mem => s.ttyLdiscInit t mem
  | .deinit t => .ok (s.ttyLdiscDeinit t)
  | .change t disc env => s.ttyLdiscChange t disc env >>= fun r => .ok r.2

variable [Fintype κ]

/-- The calls that keep counts and flags, in the state before them. -/
def LdiscState.Proper (s : LdiscState δ κ) : LdiscOp δ κ → Prop
  | .alloc t _ ret => s.openRet ttyLdiscNTTY ret ≠ 0 ∧ ((s.tty t).ldisc = some ttyLdiscNTTY ∨
      ¬ s.Registered ttyLdiscNTTY ∧ ∀ o, (s.tty t).ldisc = some o → ¬ s.Registered o)
  | .register disc new => LdiscState.inRange disc = true → s.users new = 0
  | .unregister _ => True
  | .init t _ => (s.tty t).ldiscOpen = false ∧ ∀ o, (s.tty t).ldisc = some o → ¬ s.Registered o
  | .deinit t => (s.tty t).ldiscOpen = false
  | .change _ _ _ => True

/-- **One call.** -/
theorem refsExact_step {s s' : LdiscState δ κ} {op : LdiscOp δ κ} (h : s.RefsExact)
    (hs : s.step ttyLdiscNTTY op = .ok s') : s'.RefsExact ↔ s.Proper ttyLdiscNTTY op := by
  cases op with
  | alloc t cLine ret =>
    rw [LdiscState.step, Except.ok.injEq] at hs
    exact hs ▸ LdiscState.refsExact_alloc h ttyLdiscNTTY t cLine ret
  | register disc new =>
    rw [LdiscState.step, Except.ok.injEq] at hs
    exact hs ▸ LdiscState.refsExact_register h disc new
  | unregister disc =>
    rw [LdiscState.step, Exec.bind_eq_ok] at hs
    obtain ⟨r, hr, hs⟩ := hs
    rw [Except.ok.injEq] at hs
    exact iff_of_true (hs ▸ h.unregister hr) trivial
  | init t mem => exact LdiscState.refsExact_init h hs
  | deinit t =>
    rw [LdiscState.step, Except.ok.injEq] at hs
    exact hs ▸ LdiscState.refsExact_deinit h t
  | change t disc env =>
    rw [LdiscState.step, Exec.bind_eq_ok] at hs
    obtain ⟨r, hr, hs⟩ := hs
    rw [Except.ok.injEq] at hs
    refine iff_of_true ?_ trivial
    rw [← hs]
    rcases LdiscState.ttyLdiscChange_cases hr with heq | ⟨old, new, line, isOpen, hold, heq⟩
    · exact heq ▸ h
    · exact heq ▸ h.moveTo hold

/-- Every state the run reaches has exact counts and flags. -/
def RefsExactAlong (ops : δ → LdiscOps) (calls : List (LdiscOp δ κ)) : Prop :=
  ∀ pre s, pre <+: calls → execFrom (LdiscState.step ttyLdiscNTTY)
    (LdiscState.ttyLdiscBegin ttyLdiscNTTY ops) pre = .ok s → s.RefsExact

/-- **When the counts and the flags are exact**: along the runs whose calls are all proper, and along
no others. -/
theorem refsExactAlong_iff (ops : δ → LdiscOps) (calls : List (LdiscOp δ κ)) :
    RefsExactAlong ttyLdiscNTTY ops calls ↔
      ∀ pre op s s', pre ++ [op] <+: calls → execFrom (LdiscState.step ttyLdiscNTTY)
        (LdiscState.ttyLdiscBegin ttyLdiscNTTY ops) pre = .ok s →
        s.step ttyLdiscNTTY op = .ok s' → s.Proper ttyLdiscNTTY op := by
  constructor
  · intro hexact pre op s s' hpre hs hstep
    have hbefore := hexact pre s ((List.prefix_append _ _).trans hpre) hs
    have hafter := hexact (pre ++ [op]) s' hpre (by rw [execFrom_concat, hs, Exec.ok_bind, hstep])
    exact (refsExact_step ttyLdiscNTTY hbefore hstep).mp hafter
  · intro hproper
    refine exec_induction (LdiscState.refsExact_begin ttyLdiscNTTY ops) ?_
    intro pre op s s' hpre hs hbefore hstep
    exact (refsExact_step ttyLdiscNTTY hbefore hstep).mpr (hproper pre op s s' hpre hs hstep)

end Runs

/-- The one call the kernel makes: the console's tty is on `N_TTY`, which counts nobody, and is open
with its flag clear. -/
theorem refsExactAlong_console :
    ¬ RefsExactAlong (κ := Fin 2) (0 : ℕ) (fun _ => ⟨0, 0, true⟩) [.alloc 0 0 0] := by
  intro hexact
  have hs := hexact [.alloc 0 0 0] _ List.prefix_rfl rfl
  have hcount := hs.refcount 0 ⟨0, rfl⟩
  revert hcount
  decide

end Sandix
