import Mathlib.Tactic
import Mathlib.Data.Fintype.Card

/-!
# Arch/Spinlock — the basic spinlock

`arch_spin_lock`, `arch_spin_trylock` and `arch_spin_unlock` of `asm/spinlock.h`, as the atomic steps
of `n` CPUs on one lock.  The instructions address the low byte of `slock` and test its sign, so a
byte is the whole lock word.

Every CPU that finds the lock taken has decremented the byte once, and while the lock is held that
is all that moves it: the byte is minus a number of waiters (`SpinInv`).  It has room for 128 of
them.  The next decrement makes it positive, and its CPU enters.

* `mutualExclusion_iff` — the lock excludes exactly when no more than 128 CPUs can wait at once.
-/

namespace Sandix

open Function

/-- Where a CPU is: outside the lock's code, at the `decb` of label 1, in the loop of label 2. -/
inductive SpinPc
  | idle
  | dec
  | spin
deriving DecidableEq, Repr

/-- A CPU: where it is, and whether it is between a successful acquire and its release. -/
structure SpinCpu where
  pc : SpinPc
  holds : Bool
deriving DecidableEq, Repr

/-- `n` CPUs and the low byte of `slock`. -/
@[ext] structure SpinState (n : ℕ) where
  slock : BitVec 8
  cpu : Fin n → SpinCpu

variable {n : ℕ}

/-- `ARCH_SPIN_LOCK_UNLOCKED`, and no CPU in the lock's code. -/
def SpinState.init (n : ℕ) : SpinState n := ⟨1, fun _ => ⟨.idle, false⟩⟩

/-- The CPU `i` in another state. -/
def SpinState.setCpu (s : SpinState n) (i : Fin n) (c : SpinCpu) : SpinState n :=
  { s with cpu := update s.cpu i c }

/-- `lock; decb` and `jns`: in when the byte is not negative, else to the loop. -/
def SpinState.decb (s : SpinState n) (i : Fin n) : SpinState n :=
  let v := s.slock - 1
  { s with slock := v }.setCpu i
    (if v.msb then { s.cpu i with pc := .spin } else ⟨.idle, true⟩)

/-- `cmpb $0` and `jle`: once more round the loop while the byte is not positive. -/
def SpinState.cmpb (s : SpinState n) (i : Fin n) : SpinState n :=
  if s.slock.toInt ≤ 0 then s else s.setCpu i { s.cpu i with pc := .dec }

/-- `arch_spin_trylock`: exchange the byte with zero, and in when the old one is positive. -/
def SpinState.trylock (s : SpinState n) (i : Fin n) : SpinState n :=
  { s with slock := 0 }.setCpu i
    (if s.slock.toInt > 0 then { s.cpu i with holds := true } else s.cpu i)

/-- `arch_spin_unlock`. -/
def SpinState.unlock (s : SpinState n) (i : Fin n) : SpinState n :=
  { s with slock := 1 }.setCpu i { s.cpu i with holds := false }

/-- One atomic step.  Only a holder unlocks; with `relock`, a CPU may also ask for a lock it already
holds. -/
inductive SpinStep (relock : Bool) : SpinState n → SpinState n → Prop
  | lock (s : SpinState n) (i : Fin n) (hpc : (s.cpu i).pc = .idle)
      (hask : (s.cpu i).holds = false ∨ relock = true) :
      SpinStep relock s (s.setCpu i { s.cpu i with pc := .dec })
  | decb (s : SpinState n) (i : Fin n) (hpc : (s.cpu i).pc = .dec) : SpinStep relock s (s.decb i)
  | cmpb (s : SpinState n) (i : Fin n) (hpc : (s.cpu i).pc = .spin) : SpinStep relock s (s.cmpb i)
  | trylock (s : SpinState n) (i : Fin n) (hpc : (s.cpu i).pc = .idle)
      (hask : (s.cpu i).holds = false ∨ relock = true) : SpinStep relock s (s.trylock i)
  | unlock (s : SpinState n) (i : Fin n) (hpc : (s.cpu i).pc = .idle)
      (hholds : (s.cpu i).holds = true) : SpinStep relock s (s.unlock i)

/-- The states that interleavings of the steps reach. -/
def SpinReachable (relock : Bool) (s : SpinState n) : Prop :=
  Relation.ReflTransGen (SpinStep relock) (SpinState.init n) s

/-- At most one CPU holds the lock in every reachable state. -/
def MutualExclusion (relock : Bool) (n : ℕ) : Prop :=
  ∀ s : SpinState n, SpinReachable relock s →
    ∀ i j, (s.cpu i).holds = true → (s.cpu j).holds = true → i = j

/-- How many CPUs the byte has room for: 128 waiters, and the holder when it does not wait. -/
def spinRoom (relock : Bool) : ℕ := if relock then 128 else 129

/-! ## The invariant -/

/-- The CPUs in the loop. -/
def SpinState.spinning (s : SpinState n) : Finset (Fin n) :=
  Finset.univ.filter fun i => (s.cpu i).pc = .spin

/-- The lock is free and the byte is one; or one CPU holds it, and the byte is minus a number of
waiters. -/
def SpinInv (relock : Bool) (s : SpinState n) : Prop :=
  (s.slock = 1 ∧ ∀ i, (s.cpu i).holds = false) ∨
  ∃ h, (∀ i, (s.cpu i).holds = true ↔ i = h) ∧ s.slock.toInt ≤ 0 ∧
    -s.slock.toInt ≤ s.spinning.card ∧ (relock = false → (s.cpu h).pc = .idle)

theorem SpinInv.exclusive {relock : Bool} {s : SpinState n} (h : SpinInv relock s) (i j : Fin n)
    (hi : (s.cpu i).holds = true) (hj : (s.cpu j).holds = true) : i = j := by
  rcases h with ⟨-, hfree⟩ | ⟨k, hk, -⟩
  · simp [hfree i] at hi
  · rw [(hk i).mp hi, (hk j).mp hj]

/-- A byte that has room for one more waiter. -/
theorem byte_sub_one (v : BitVec 8) (hle : v.toInt ≤ 0) (hlt : -128 < v.toInt) :
    (v - 1).msb = true ∧ (v - 1).toInt = v.toInt - 1 := by
  have hbound := BitVec.toInt_lt (x := v)
  rw [BitVec.msb_eq_toInt, BitVec.toInt_sub]
  have hone : (1 : BitVec 8).toInt = 1 := rfl
  have hmod : (v.toInt - 1).bmod (2 ^ 8) = v.toInt - 1 := by
    rw [Int.bmod_eq_of_le] <;> omega
  rw [hone, hmod]
  exact ⟨by simp; omega, rfl⟩

@[simp] theorem setCpu_slock (s : SpinState n) (i : Fin n) (c : SpinCpu) :
    (s.setCpu i c).slock = s.slock := rfl

theorem setCpu_cpu (s : SpinState n) (i j : Fin n) (c : SpinCpu) :
    (s.setCpu i c).cpu j = if j = i then c else s.cpu j := by
  exact update_apply s.cpu i c j

/-- A decrement that leaves the byte not negative lets its CPU in. -/
theorem decb_enter {s : SpinState n} {i : Fin n} {v : BitVec 8} (hv : s.slock - 1 = v)
    (hmsb : v.msb = false) : s.decb i = { s with slock := v }.setCpu i ⟨.idle, true⟩ := by
  simp only [SpinState.decb, hv, hmsb]
  rfl

/-- A decrement that leaves the byte negative sends its CPU to the loop. -/
theorem decb_wait {s : SpinState n} {i : Fin n} (hmsb : (s.slock - 1).msb = true) :
    s.decb i = { s with slock := s.slock - 1 }.setCpu i { s.cpu i with pc := .spin } := by
  simp only [SpinState.decb, hmsb, if_true]

/-- A CPU that goes to the loop. -/
theorem spinning_insert {s : SpinState n} {i : Fin n} {c : SpinCpu} (hc : c.pc = .spin) :
    (s.setCpu i c).spinning = insert i s.spinning := by
  ext j
  simp only [SpinState.spinning, Finset.mem_filter, Finset.mem_univ, true_and, Finset.mem_insert,
    setCpu_cpu]
  split_ifs with hj <;> simp [hj, hc]

/-- A CPU that stays out of the loop. -/
theorem spinning_same {s : SpinState n} {i : Fin n} {c : SpinCpu} (hi : (s.cpu i).pc ≠ .spin)
    (hc : c.pc ≠ .spin) : (s.setCpu i c).spinning = s.spinning := by
  ext j
  simp only [SpinState.spinning, Finset.mem_filter, Finset.mem_univ, true_and, setCpu_cpu]
  split_ifs with hj <;> simp [hj, hc, hi]

section Step

variable {relock : Bool} {s : SpinState n} {i : Fin n}

/-- While one CPU holds the lock and another is about to decrement, fewer than 128 wait. -/
theorem spinning_lt (hn : n ≤ spinRoom relock) {h : Fin n} (hpc : (s.cpu i).pc = .dec)
    (hidle : relock = false → (s.cpu h).pc = .idle) : s.spinning.card < 128 := by
  have hi : i ∉ s.spinning := by simp [SpinState.spinning, hpc]
  have hcard := Finset.card_le_univ (insert i s.spinning)
  rw [Finset.card_insert_of_notMem hi, Fintype.card_fin] at hcard
  cases relock with
  | true =>
    have : n ≤ 128 := hn
    omega
  | false =>
    have hle : n ≤ 129 := hn
    have hh : h ∉ insert i s.spinning := by
      have hhi : h ≠ i := by
        rintro rfl
        simp [hidle rfl] at hpc
      simp [SpinState.spinning, hidle rfl, hhi]
    have hcard' := Finset.card_le_univ (insert h (insert i s.spinning))
    rw [Finset.card_insert_of_notMem hh, Finset.card_insert_of_notMem hi, Fintype.card_fin] at hcard'
    omega

theorem SpinInv.lock (hI : SpinInv relock s) (hpc : (s.cpu i).pc = .idle)
    (hask : (s.cpu i).holds = false ∨ relock = true) :
    SpinInv relock (s.setCpu i { s.cpu i with pc := .dec }) := by
  have hholds : ∀ j, ((s.setCpu i { s.cpu i with pc := .dec }).cpu j).holds = (s.cpu j).holds := by
    intro j
    rw [setCpu_cpu]
    split_ifs with hj
    · rw [hj]
    · rfl
  rcases hI with ⟨hone, hfree⟩ | ⟨h, hh, hle, hcard, hidle⟩
  · exact Or.inl ⟨hone, fun j => (hholds j).trans (hfree j)⟩
  · refine Or.inr ⟨h, fun j => by rw [hholds j, hh j], hle, ?_, fun hr => ?_⟩
    · rw [spinning_same (by simp [hpc]) (by simp)]
      exact hcard
    · have hhi : h ≠ i := by
        rintro rfl
        simp [(hh h).mpr rfl, hr] at hask
      rw [setCpu_cpu, if_neg hhi]
      exact hidle hr

theorem SpinInv.decb (hn : n ≤ spinRoom relock) (hI : SpinInv relock s)
    (hpc : (s.cpu i).pc = .dec) : SpinInv relock (s.decb i) := by
  rcases hI with ⟨hone, hfree⟩ | ⟨h, hh, hle, hcard, hidle⟩
  · -- the byte goes from one to zero, and its CPU in
    rw [decb_enter (v := 0) (by rw [hone]; rfl) rfl]
    refine Or.inr ⟨i, fun j => ?_, le_rfl, Int.natCast_nonneg _, fun _ => by simp [setCpu_cpu]⟩
    rw [setCpu_cpu]
    split_ifs with hj <;> simp [hj, hfree]
  · have hlt := spinning_lt hn hpc hidle
    obtain ⟨hmsb, hval⟩ := byte_sub_one s.slock hle (by omega)
    have hi : i ∉ s.spinning := by simp [SpinState.spinning, hpc]
    rw [decb_wait hmsb]
    refine Or.inr ⟨h, fun j => ?_, ?_, ?_, fun hr => ?_⟩
    · rw [setCpu_cpu]
      split_ifs with hj
      · rw [hj]
        exact hh i
      · exact hh j
    · rw [setCpu_slock, hval]
      omega
    · rw [spinning_insert rfl, setCpu_slock, hval]
      have hcons : (insert i s.spinning).card = s.spinning.card + 1 :=
        Finset.card_insert_of_notMem hi
      have hsame : (insert i ({ s with slock := s.slock - 1 } : SpinState n).spinning).card =
          s.spinning.card + 1 := hcons
      rw [hsame]
      push_cast
      omega
    · have hhi : h ≠ i := by
        rintro rfl
        simp [hidle hr] at hpc
      rw [setCpu_cpu, if_neg hhi]
      exact hidle hr

theorem SpinInv.cmpb (hI : SpinInv relock s) : SpinInv relock (s.cmpb i) := by
  unfold SpinState.cmpb
  rcases hI with ⟨hone, hfree⟩ | hheld
  · rw [if_neg (by rw [hone]; decide)]
    refine Or.inl ⟨hone, fun j => ?_⟩
    rw [setCpu_cpu]
    split_ifs with hj
    · exact hfree i
    · exact hfree j
  · rw [if_pos hheld.choose_spec.2.1]
    exact Or.inr hheld

theorem SpinInv.trylock (hI : SpinInv relock s) (hpc : (s.cpu i).pc = .idle) :
    SpinInv relock (s.trylock i) := by
  rcases hI with ⟨hone, hfree⟩ | ⟨h, hh, hle, hcard, hidle⟩
  · have hpos : s.slock.toInt > 0 := by rw [hone]; decide
    refine Or.inr ⟨i, fun j => ?_, by simp [SpinState.trylock], by simp [SpinState.trylock],
      fun _ => ?_⟩
    · simp only [SpinState.trylock, setCpu_cpu, hpos, if_true]
      split_ifs with hj <;> simp [hj, hfree]
    · simp [SpinState.trylock, setCpu_cpu, hpos, hpc]
  · have hsame : ∀ j, (s.trylock i).cpu j = s.cpu j := by
      intro j
      simp only [SpinState.trylock, setCpu_cpu, if_neg (not_lt.mpr hle)]
      split_ifs with hj
      · rw [hj]
      · rfl
    refine Or.inr ⟨h, fun j => by rw [hsame j, hh j], by simp [SpinState.trylock],
      by simp [SpinState.trylock], fun hr => by rw [hsame h, hidle hr]⟩

theorem SpinInv.unlock (hI : SpinInv relock s) (hholds : (s.cpu i).holds = true) :
    SpinInv relock (s.unlock i) := by
  refine Or.inl ⟨rfl, fun j => ?_⟩
  simp only [SpinState.unlock, setCpu_cpu]
  split_ifs with hj
  · rfl
  · rw [Bool.eq_false_iff]
    exact fun hjh => hj (hI.exclusive j i hjh hholds)

/-- **One step.** -/
theorem SpinInv.step (hn : n ≤ spinRoom relock) {s' : SpinState n} (hI : SpinInv relock s)
    (hstep : SpinStep relock s s') : SpinInv relock s' := by
  cases hstep with
  | lock i hpc hask => exact hI.lock hpc hask
  | decb i hpc => exact hI.decb hn hpc
  | cmpb i hpc => exact hI.cmpb
  | trylock i hpc hask => exact hI.trylock hpc
  | unlock i hpc hholds => exact hI.unlock hholds

end Step

/-- The invariant holds in every reachable state. -/
theorem SpinReachable.inv {relock : Bool} {s : SpinState n} (hn : n ≤ spinRoom relock)
    (hs : SpinReachable relock s) : SpinInv relock s := by
  induction hs with
  | refl => exact Or.inl ⟨rfl, fun _ => rfl⟩
  | tail _ hstep ih => exact ih.step hn hstep

/-! ## Filling the byte -/

/-- CPU 0 holds the lock and the CPUs up to `k` wait for it. -/
def queued (n k : ℕ) : SpinState n :=
  ⟨BitVec.ofInt 8 (-k), fun i =>
    if i.val = 0 then ⟨.idle, true⟩ else if i.val ≤ k then ⟨.spin, false⟩ else ⟨.idle, false⟩⟩

theorem queued_toInt {k : ℕ} (hk : k ≤ 128) : (queued n k).slock.toInt = -k := by
  rw [queued, BitVec.toInt_ofInt, Int.bmod_eq_of_le] <;> omega

/-- CPU `k + 1` joins the queue. -/
theorem queued_succ {k : ℕ} (hk : k < 128) (hn : k + 1 < n) :
    ((queued n k).setCpu ⟨k + 1, hn⟩ ⟨.dec, false⟩).decb ⟨k + 1, hn⟩ = queued n (k + 1) := by
  obtain ⟨hmsb, hval⟩ := byte_sub_one (queued n k).slock (by rw [queued_toInt hk.le]; omega)
    (by rw [queued_toInt hk.le]; omega)
  refine SpinState.ext ?_ (funext fun j => ?_)
  · refine BitVec.eq_of_toInt_eq ?_
    rw [queued_toInt (by omega)]
    simp only [SpinState.decb, setCpu_slock, hval, queued_toInt hk.le]
    push_cast
    ring
  · simp only [SpinState.decb, setCpu_slock, setCpu_cpu, hmsb, if_true]
    by_cases hj : j = ⟨k + 1, hn⟩
    · subst hj
      simp [queued]
    · have hjk : j.val ≠ k + 1 := fun hjk => hj (Fin.ext hjk)
      have hle : j.val ≤ k + 1 ↔ j.val ≤ k := by omega
      simp only [hj, if_false, queued, hle]

theorem queued_reachable (relock : Bool) : ∀ {k : ℕ}, k ≤ 128 → k < n →
    SpinReachable relock (queued n k)
  | 0, _, hn => by
      have hidle : ((SpinState.init n).cpu ⟨0, hn⟩).pc = .idle := rfl
      have hlock : SpinReachable relock _ :=
        Relation.ReflTransGen.refl.tail (SpinStep.lock _ ⟨0, hn⟩ hidle (Or.inl rfl))
      have hdecb : SpinReachable relock _ :=
        hlock.tail (SpinStep.decb _ ⟨0, hn⟩ (by simp [setCpu_cpu]))
      convert hdecb using 1
      refine SpinState.ext (by simp [SpinState.decb, SpinState.init, queued]) (funext fun j => ?_)
      by_cases hj : j = ⟨0, hn⟩
      · subst hj
        simp [SpinState.decb, setCpu_cpu, queued, SpinState.init]
      · have hj0 : j.val ≠ 0 := fun hj0 => hj (Fin.ext hj0)
        simp [SpinState.decb, setCpu_cpu, queued, hj, hj0, SpinState.init]
  | k + 1, hk, hn => by
      have hlast : (queued n k).cpu ⟨k + 1, hn⟩ = ⟨.idle, false⟩ := by simp [queued]
      have hlock : SpinReachable relock _ :=
        (queued_reachable relock (k := k) (by omega) (by omega)).tail
          (SpinStep.lock _ ⟨k + 1, hn⟩ (by rw [hlast]) (Or.inl (by rw [hlast])))
      have hdecb : SpinReachable relock _ :=
        hlock.tail (SpinStep.decb _ ⟨k + 1, hn⟩ (by simp [setCpu_cpu]))
      rw [hlast] at hdecb
      exact queued_succ (by omega) hn ▸ hdecb

/-- **The byte wraps.**  With 128 CPUs waiting, one more request makes it positive: the CPU that made
it is in, and so is the next waiter that looks. -/
theorem queued_overflow {relock : Bool} (hn : 128 < n) (i : Fin n) (hi : i.val = 0 ∨ 128 < i.val)
    (hask : ((queued n 128).cpu i).holds = false ∨ relock = true) :
    ∃ s : SpinState n, SpinReachable relock s ∧ (s.cpu ⟨0, by omega⟩).holds = true ∧
      (s.cpu ⟨1, by omega⟩).holds = true := by
  have hidle : ((queued n 128).cpu i).pc = .idle := by
    simp only [queued]
    split_ifs <;> first | rfl | omega
  have hwait : (queued n 128).cpu ⟨1, by omega⟩ = ⟨.spin, false⟩ := by simp [queued]
  have hzero : (queued n 128).cpu ⟨0, by omega⟩ = ⟨.idle, true⟩ := by simp [queued]
  have hne : (⟨1, by omega⟩ : Fin n) ≠ i := by
    rw [ne_eq, Fin.ext_iff]
    show ¬ 1 = i.val
    omega
  -- the request of `i` is served
  set s₁ := (queued n 128).setCpu i { (queued n 128).cpu i with pc := .dec } with hs₁
  have hr₁ : SpinReachable relock s₁ :=
    (queued_reachable relock le_rfl hn).tail (SpinStep.lock _ i hidle hask)
  have hr₂ : SpinReachable relock (s₁.decb i) :=
    hr₁.tail (SpinStep.decb _ i (by simp [hs₁, setCpu_cpu]))
  have hbyte : s₁.slock - 1 = 127 := by
    show BitVec.ofInt 8 (-(128 : ℕ)) - 1 = 127
    decide
  have hs₂ := decb_enter (i := i) hbyte (by decide)
  have hcpu₂ : (s₁.decb i).cpu ⟨1, by omega⟩ = ⟨.spin, false⟩ := by
    rw [hs₂, setCpu_cpu, if_neg hne, hs₁, ← hwait]
    exact (setCpu_cpu _ _ _ _).trans (if_neg hne)
  have hzero₂ : ((s₁.decb i).cpu ⟨0, by omega⟩).holds = true := by
    rw [hs₂, setCpu_cpu]
    split_ifs with hz
    · rfl
    · exact congrArg SpinCpu.holds (((setCpu_cpu _ _ _ _).trans (if_neg hz)).trans hzero)
  have hslock₂ : (s₁.decb i).slock = 127 := by rw [hs₂, setCpu_slock]
  -- and the waiter 1 finds the byte positive
  have hr₃ : SpinReachable relock ((s₁.decb i).cmpb ⟨1, by omega⟩) :=
    hr₂.tail (SpinStep.cmpb _ _ (by rw [hcpu₂]))
  have hs₃ : (s₁.decb i).cmpb ⟨1, by omega⟩ = (s₁.decb i).setCpu ⟨1, by omega⟩ ⟨.dec, false⟩ := by
    rw [SpinState.cmpb, if_neg (by rw [hslock₂]; decide), hcpu₂]
  rw [hs₃] at hr₃
  have hr₄ : SpinReachable relock _ :=
    hr₃.tail (SpinStep.decb _ ⟨1, by omega⟩ (by simp [setCpu_cpu]))
  rw [decb_enter (v := 126) (by rw [setCpu_slock, hslock₂]; decide) (by decide)] at hr₄
  refine ⟨_, hr₄, ?_, ?_⟩
  · have hne' : (⟨0, by omega⟩ : Fin n) ≠ ⟨1, by omega⟩ := by simp
    rw [setCpu_cpu, if_neg hne', ← hzero₂]
    exact congrArg SpinCpu.holds (update_of_ne hne' (⟨.dec, false⟩ : SpinCpu) _)
  · rw [setCpu_cpu, if_pos rfl]

/-- **When the lock excludes.**  At most one CPU is between an acquire and its release, in every
state of every interleaving, exactly when there are at most 129 CPUs — 128, if a holder may wait
too. -/
theorem mutualExclusion_iff (relock : Bool) (n : ℕ) :
    MutualExclusion relock n ↔ n ≤ spinRoom relock := by
  refine ⟨fun hex => ?_, fun hn s hs => (hs.inv hn).exclusive⟩
  by_contra hn
  have hn' : 128 < n := by
    unfold spinRoom at hn
    split_ifs at hn <;> omega
  have hover : ∃ s : SpinState n, SpinReachable relock s ∧ (s.cpu ⟨0, by omega⟩).holds = true ∧
      (s.cpu ⟨1, by omega⟩).holds = true := by
    cases relock with
    | true => exact queued_overflow hn' ⟨0, by omega⟩ (Or.inl rfl) (Or.inr rfl)
    | false =>
      have hroom : 129 < n := not_le.mp hn
      exact queued_overflow hn' ⟨129, hroom⟩ (Or.inr (by simp)) (Or.inl (by simp [queued]))
  obtain ⟨s, hs, h₀, h₁⟩ := hover
  simpa using hex s hs _ _ h₀ h₁

/-- With 512 CPUs, a number the configuration allows, the lock does not exclude. -/
theorem mutualExclusion_512 : ¬ MutualExclusion false 512 := by
  intro hex
  obtain ⟨s, hs, h₀, h₁⟩ :=
    @queued_overflow 512 false (by decide) 129 (Or.inr (by decide)) (Or.inl rfl)
  simpa using hex s hs _ _ h₀ h₁

end Sandix
