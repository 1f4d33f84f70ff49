import Sandix.Memblock.Alloc

/-!
# Memblock/BootRun — boot-time allocations over a whole run

A boot interleaves the allocators with `memblock_reserve` and `memblock_free`.  The state carries a
log, newest first, of the blocks handed out and the ranges reserved; a successful free takes its
addresses out of every entry.  `NoOverlap` says that what is live in the log is reserved, and that a
block shares no live address with anything older.

`memblock_virt_alloc_internal` and `alloc_low_pages` do not look at the result of
`memblock_reserve`: once the array of reserved regions is full they hand out a block without recording
it, and hand it out again (`runBoot_overlap`).  While each of their calls finds room, no run overlaps
(`runBoot_noOverlap`).
-/

namespace Sandix

open Machinery

/-! ## Calls, outcomes and the log -/

/-- The calls of a boot that hand out, reserve or free memory. -/
inductive BootCall
  | virtAllocTryNid (size align minAddr maxAddr : ℕ) (nid : ℤ)
  | virtAllocTryNidNopanic (size align minAddr maxAddr : ℕ) (nid : ℤ)
  | allocBootmem (size align goal : ℕ)
  | allocBootmemNopanic (size align goal : ℕ)
  | allocBootmemNode (nodeId : ℤ) (size align goal : ℕ)
  | allocBootmemNodeNopanic (nodeId : ℤ) (size align goal : ℕ)
  | allocLowPages (num : ℕ)
  | reserve (base size : ℕ)
  | free (base size : ℕ)
deriving Repr

/-- What a call did: handed out a block, reserved or freed a range, or none of these. -/
inductive Outcome
  | block (base size : ℕ)
  | range (base size : ℕ)
  | freed (base size : ℕ)
  | nothing
deriving DecidableEq, Repr

/-- The outcome of an allocator: its block, unless it returned `NULL`. -/
def blockOutcome (size : ℕ) (alloc : Exec (ℕ × Memblock)) : Exec (Outcome × Memblock) := do
  let (ptr, m) ← alloc
  pure (if ptr ≠ 0 then .block (virtToPhys ptr) size else .nothing, m)

/-- The outcome of a range call: `onSuccess`, unless it failed. -/
def rangeOutcome (onSuccess : Outcome) (edit : Exec (ℤ × Memblock)) :
    Exec (Outcome × Memblock) := do
  let (ret, m) ← edit
  pure (if ret = 0 then onSuccess else .nothing, m)

/-- One call. -/
def BootCall.exec (env : BootEnv) (m : Memblock) : BootCall → Exec (Outcome × Memblock)
  | .virtAllocTryNid size align minAddr maxAddr nid =>
    blockOutcome size (memblockVirtAllocTryNid env m size align minAddr maxAddr nid)
  | .virtAllocTryNidNopanic size align minAddr maxAddr nid =>
    blockOutcome size (memblockVirtAllocTryNidNopanic env m size align minAddr maxAddr nid)
  | .allocBootmem size align goal => blockOutcome size (Sandix.allocBootmem m size align goal)
  | .allocBootmemNopanic size align goal =>
    blockOutcome size (Sandix.allocBootmemNopanic m size align goal)
  | .allocBootmemNode nodeId size align goal =>
    blockOutcome size (Sandix.allocBootmemNode env m nodeId size align goal)
  | .allocBootmemNodeNopanic nodeId size align goal =>
    blockOutcome size (Sandix.allocBootmemNodeNopanic env m nodeId size align goal)
  | .allocLowPages num => do
    let (ptr, m, _) ← Sandix.allocLowPages env m num
    -- pages of the BRK buffer are not memblock's
    if env.usesMemblock num then blockOutcome (pageSize * num) (pure (ptr, m))
    else pure (.nothing, m)
  | .reserve base size => rangeOutcome (.range base size) (memblockReserve m base size)
  | .free base size => rangeOutcome (.freed base size) (memblockFree m base size)

/-- An entry of the log: a block (`isBlock`) or a reserved range, and what was freed since. -/
structure Held where
  isBlock : Bool
  base : ℕ
  size : ℕ
  freed : List (ℕ × ℕ)
deriving DecidableEq, Repr

/-- The address belongs to the entry and has not been freed since. -/
def Held.Live (h : Held) (a : ℕ) : Prop :=
  (h.base ≤ a ∧ a < h.base + h.size) ∧ ∀ f ∈ h.freed, ¬(f.1 ≤ a ∧ a < f.1 + f.2)

/-- The log after a call. -/
def Outcome.record : Outcome → List Held → List Held
  | .block base size, log => ⟨true, base, size, []⟩ :: log
  | .range base size, log => ⟨false, base, size, []⟩ :: log
  | .freed base size, log => log.map fun h => { h with freed := (base, size) :: h.freed }
  | .nothing, log => log

/-- `memblock`, and the log. -/
structure BootState where
  memblock : Memblock
  log : List Held
deriving DecidableEq, Repr

/-- A call, together with the kernel variables it finds. -/
structure BootStep where
  env : BootEnv
  call : BootCall

/-- One step of a boot. -/
def BootStep.exec (step : BootStep) (s : BootState) : Exec BootState := do
  let (outcome, m) ← step.call.exec step.env s.memblock
  pure ⟨m, outcome.record s.log⟩

/-- A boot. -/
def runBoot : List BootStep → BootState → Exec BootState
  | [], s => .ok s
  | step :: steps, s => step.exec s >>= runBoot steps

/-- The initial `memblock` with the memory map `memory` and the allocation limit `limit`. -/
def bootInit (memory : MemblockType) (limit : ℕ) : BootState :=
  ⟨{ initMemblock with memory, currentLimit := limit }, []⟩

/-- **No allocation overlaps**: the live part of every block is reserved, and no block shares a live
address with a block or range that was there before it. -/
structure NoOverlap (s : BootState) : Prop where
  reserved : ∀ h ∈ s.log, h.isBlock = true → ∀ a, h.Live a → s.memblock.reserved.Covers a
  disjoint : s.log.Pairwise fun newer older =>
    newer.isBlock = true → ∀ a, newer.Live a → ¬older.Live a

/-- The calls that do not look at the result of `memblock_reserve` find room in the array; and a
request for pages is below 4 GiB. -/
def BootStep.HasRoom (step : BootStep) (m : Memblock) : Prop :=
  match step.call with
  | .virtAllocTryNid .. => m.reserved.nrRegions < m.reserved.max
  | .virtAllocTryNidNopanic .. => m.reserved.nrRegions < m.reserved.max
  | .allocLowPages num => step.env.usesMemblock num = true →
      m.reserved.nrRegions < m.reserved.max ∧ pageSize * num < 2 ^ 32
  | _ => True

/-- Every step of the run finds room in the state it starts from. -/
def RoomAlong : List BootStep → BootState → Prop
  | [], _ => True
  | step :: steps, s => step.HasRoom s.memblock ∧ ∀ s', step.exec s = .ok s' → RoomAlong steps s'

/-! ## The invariant -/

/-- What a boot keeps: the arrays are in order, the live part of every entry is covered as far as
the array can cover it, blocks lie where it can, and no block overlaps an older entry. -/
structure BootInv (s : BootState) : Prop where
  ok : MemblockOk s.memblock
  covered : ∀ h ∈ s.log, ∀ a, h.Live a → a < physMax → s.memblock.reserved.Covers a
  bounded : ∀ h ∈ s.log, h.isBlock = true → ∀ a, h.Live a → a < physMax
  disjoint : s.log.Pairwise fun newer older =>
    newer.isBlock = true → ∀ a, newer.Live a → ¬older.Live a

theorem BootInv.noOverlap {s : BootState} (h : BootInv s) : NoOverlap s where
  reserved e he hb a ha := h.covered e he a ha (h.bounded e he hb a ha)
  disjoint := h.disjoint

theorem bootInv_init {memory : MemblockType} (h : WellFormed memory)
    (hmax : memory.max = initMemblockRegions) (limit : ℕ) : BootInv (bootInit memory limit) where
  ok := ⟨h, memblockOk_init.reserved, hmax, rfl⟩
  covered := by simp [bootInit]
  bounded := by simp [bootInit]
  disjoint := List.Pairwise.nil

namespace BootInv

variable {s : BootState} {m' : Memblock}

/-- Nothing was handed out, and nothing was given back. -/
theorem grow (h : BootInv s) (hok : MemblockOk m')
    (hk : ∀ a, s.memblock.reserved.Covers a → m'.reserved.Covers a) : BootInv ⟨m', s.log⟩ where
  ok := hok
  covered e he a ha hmax := hk a (h.covered e he a ha hmax)
  bounded := h.bounded
  disjoint := h.disjoint

/-- A block that was free and is now reserved. -/
theorem block (h : BootInv s) (hok : MemblockOk m')
    (hk : ∀ a, s.memblock.reserved.Covers a → m'.reserved.Covers a) {base size : ℕ}
    (hfree : FreeBlock s.memblock base size)
    (hheld : ∀ a, base ≤ a → a < base + size → m'.reserved.Covers a) :
    BootInv ⟨m', ⟨true, base, size, []⟩ :: s.log⟩ where
  ok := hok
  covered := by
    intro e he a ha hmax
    rcases List.mem_cons.mp he with rfl | he
    · exact hheld a ha.1.1 ha.1.2
    · exact hk a (h.covered e he a ha hmax)
  bounded := by
    intro e he hb a ha
    rcases List.mem_cons.mp he with rfl | he
    · exact (hfree a ha.1.1 ha.1.2).1
    · exact h.bounded e he hb a ha
  disjoint := by
    refine List.pairwise_cons.mpr ⟨fun e he _ a ha hlive => ?_, h.disjoint⟩
    obtain ⟨hmax, hno⟩ := hfree a ha.1.1 ha.1.2
    exact hno (h.covered e he a hlive hmax)

/-- A range that was reserved. -/
theorem range (h : BootInv s) (hok : MemblockOk m')
    (hk : ∀ a, s.memblock.reserved.Covers a → m'.reserved.Covers a) {base size : ℕ}
    (hheld : ∀ a, base ≤ a → a < base + size → a < physMax → m'.reserved.Covers a) :
    BootInv ⟨m', ⟨false, base, size, []⟩ :: s.log⟩ where
  ok := hok
  covered := by
    intro e he a ha hmax
    rcases List.mem_cons.mp he with rfl | he
    · exact hheld a ha.1.1 ha.1.2 hmax
    · exact hk a (h.covered e he a ha hmax)
  bounded := by
    intro e he hb a ha
    rcases List.mem_cons.mp he with rfl | he
    · cases hb
    · exact h.bounded e he hb a ha
  disjoint := by
    refine List.pairwise_cons.mpr ⟨fun e _ hb => ?_, h.disjoint⟩
    cases hb

/-- A range that was freed. -/
theorem freed (h : BootInv s) (hok : MemblockOk m') {base size : ℕ}
    (hk : ∀ a, s.memblock.reserved.Covers a → ¬(base ≤ a ∧ a < base + size) →
      m'.reserved.Covers a) :
    BootInv ⟨m', s.log.map fun e => { e with freed := (base, size) :: e.freed }⟩ := by
  have hlive : ∀ (e : Held) a, Held.Live { e with freed := (base, size) :: e.freed } a →
      e.Live a ∧ ¬(base ≤ a ∧ a < base + size) := fun e a ha =>
    ⟨⟨ha.1, fun f hf => ha.2 f (List.mem_cons_of_mem _ hf)⟩, ha.2 (base, size) (by simp)⟩
  refine ⟨hok, fun e he a ha hmax => ?_, fun e he hb a ha => ?_, ?_⟩
  · obtain ⟨e, he', rfl⟩ := List.mem_map.mp he
    obtain ⟨ha, hout⟩ := hlive e a ha
    exact hk a (h.covered e he' a ha hmax) hout
  · obtain ⟨e, he', rfl⟩ := List.mem_map.mp he
    exact h.bounded e he' hb a (hlive e a ha).1
  · refine List.pairwise_map.mpr (h.disjoint.imp fun {e e'} hd hb a ha ha' => ?_)
    exact hd hb a (hlive e a ha).1 (hlive e' a ha').1

end BootInv

/-! ## Every run -/

/-- `memblock_free`: on success the array still covers every address outside the range; on failure
nothing changes. -/
theorem memblockFree_spec {m : Memblock} (h : MemblockOk m) (base size : ℕ) :
    ∃ ret m', memblockFree m base size = .ok (ret, m') ∧ MemblockOk m' ∧
      (ret ≠ 0 → m' = m) ∧
      ∀ a, m.reserved.Covers a → ¬(base ≤ a ∧ a < base + size) → m'.reserved.Covers a := by
  obtain ⟨ret, m', hfree, hok⟩ := h.exec (.free base size)
  obtain ⟨ret₂, t', hrem, hcontent⟩ := memblockRemoveRange_content h.reserved base size
  have hfree' : memblockFree m base size = .ok (ret₂, { m with reserved := t' }) := by
    rw [memblockFree, Memblock.onReserved, hrem]
    rfl
  have heq := hfree.symm.trans hfree'
  simp only [Except.ok.injEq, Prod.mk.injEq] at heq
  obtain ⟨rfl, rfl⟩ := heq
  refine ⟨ret, _, hfree', hok, ?_⟩
  rcases hcontent with ⟨hret, hcov⟩ | ⟨hret, rfl, -⟩
  · refine ⟨fun hne => absurd hret hne, fun a ha hout => ?_⟩
    obtain ⟨k, f, hat⟩ := MemblockType.covers_iff.mp ha
    refine MemblockType.covers_iff.mpr ⟨k, f, (hcov a k f).mpr ⟨hat, fun hin => hout ?_⟩⟩
    rw [memblockCapSize] at hin
    omega
  · exact ⟨fun _ => rfl, fun a ha _ => ha⟩

/-- An allocator that keeps its contract keeps the invariant. -/
theorem BootInv.alloc {s : BootState} (h : BootInv s) {size : ℕ} {alloc : Exec (ℕ × Memblock)}
    (halloc : Exec.Safe alloc (Allocates s.memblock size)) :
    Exec.Safe (blockOutcome size alloc) fun r => BootInv ⟨r.2, r.1.record s.log⟩ := by
  refine halloc.bind ?_
  rintro ⟨ptr, m'⟩ hm'
  refine .ok ?_
  by_cases hp : ptr ≠ 0
  · rw [if_pos hp]
    exact h.block hm'.ok hm'.keeps (hm'.free hp) (hm'.held hp)
  · rw [if_neg hp]
    exact h.grow hm'.ok hm'.keeps

/-- **One call** keeps the invariant when it finds room. -/
theorem BootInv.exec {s : BootState} (h : BootInv s) (step : BootStep)
    (hroom : step.HasRoom s.memblock) :
    Exec.Safe (step.call.exec step.env s.memblock)
      fun r => BootInv ⟨r.2, r.1.record s.log⟩ := by
  obtain ⟨env, call⟩ := step
  cases call with
  | virtAllocTryNid size align minAddr maxAddr nid =>
    exact h.alloc (orPanic_allocates
      (memblockVirtAllocInternal_allocates _ _ h.ok hroom _ _ _))
  | virtAllocTryNidNopanic size align minAddr maxAddr nid =>
    exact h.alloc (memblockVirtAllocInternal_allocates _ _ h.ok hroom _ _ _)
  | allocBootmem size align goal =>
    exact h.alloc (orPanic_allocates (allocBootmemNopanicBelow_allocates _ _ _ h.ok))
  | allocBootmemNopanic size align goal =>
    exact h.alloc (allocBootmemNopanicBelow_allocates _ _ _ h.ok)
  | allocBootmemNode nodeId size align goal =>
    refine h.alloc ?_
    rw [Sandix.allocBootmemNode]
    split
    · exact .bug
    · exact orPanic_allocates (allocBootmemNodeNopanicBelow_allocates _ _ _ h.ok _)
  | allocBootmemNodeNopanic nodeId size align goal =>
    refine h.alloc ?_
    rw [Sandix.allocBootmemNodeNopanic]
    split
    · exact .bug
    · exact allocBootmemNodeNopanicBelow_allocates _ _ _ h.ok _
  | allocLowPages num =>
    by_cases hpath : env.usesMemblock num = true
    · obtain ⟨hnr, hnum⟩ := hroom hpath
      refine (allocLowPages_allocates env h.ok hpath hnr hnum).bind ?_
      rintro ⟨ptr, m', bufEnd⟩ hm'
      simp only [hpath, if_true]
      exact h.alloc (.ok hm')
    · simp only [BootCall.exec, Sandix.allocLowPages, hpath]
      exact .ok h
  | reserve base size =>
    obtain ⟨ret, m', hres, hok, hkeep, hcov, -⟩ := memblockReserve_spec h.ok base size
    simp only [BootCall.exec, rangeOutcome, hres, Exec.ok_bind]
    refine .ok ?_
    by_cases hret : ret = 0
    · rw [if_pos hret]
      exact h.range hok hkeep (hcov hret)
    · rw [if_neg hret]
      exact h.grow hok hkeep
  | free base size =>
    obtain ⟨ret, m', hfree, hok, hfail, hkeep⟩ := memblockFree_spec h.ok base size
    simp only [BootCall.exec, rangeOutcome, hfree, Exec.ok_bind]
    refine .ok ?_
    by_cases hret : ret = 0
    · rw [if_pos hret]
      exact h.freed hok hkeep
    · rw [if_neg hret]
      exact h.grow hok (by rw [hfail hret]; exact fun _ ha => ha)

/-- **A run** that finds room at every step keeps the invariant, and ends only by returning or where
an allocator gives up. -/
theorem BootInv.run {steps : List BootStep} : ∀ {s : BootState}, BootInv s → RoomAlong steps s →
    Exec.Safe (runBoot steps s) BootInv := by
  induction steps with
  | nil => exact fun h _ => .ok h
  | cons step steps ih =>
    intro s h hroom
    have hstep : Exec.Safe (step.exec s) BootInv :=
      (h.exec step hroom.1).bind fun r hr => .ok hr
    rw [runBoot]
    rcases hstep with ⟨s', hs, hinv⟩ | hs | hs
    · rw [hs, Exec.ok_bind]
      exact ih hinv (hroom.2 s' hs)
    · rw [hs]
      exact .panic
    · rw [hs]
      exact .bug

/-- **Boot-time allocations do not overlap while the reserved array has room**: from the initial
`memblock` with any memory map, every state reached by a run in which each call of
`memblock_virt_alloc_try_nid`, its `nopanic` form and `alloc_low_pages` finds fewer than `max` reserved
regions (and pages are asked for below 4 GiB). -/
theorem runBoot_noOverlap (memory : MemblockType) (hmem : WellFormed memory)
    (hmax : memory.max = initMemblockRegions) (limit : ℕ) (steps : List BootStep)
    (hroom : RoomAlong steps (bootInit memory limit)) :
    Exec.Safe (runBoot steps (bootInit memory limit)) NoOverlap :=
  ((bootInv_init hmem hmax limit).run hroom).mono fun _ h => h.noOverlap

/-! ## A full array -/

/-- Early boot: no slab, no BRK pages left, 16 MiB mapped. -/
def earlyEnv : BootEnv := ⟨false, 0, 0, false, 0, 0x1000⟩

/-- One region of memory, 16 MiB from 1 MiB on. -/
def bootMemory : MemblockType := ⟨128, 0x1000000, [⟨0x100000, 0x1000000, 0, 0⟩]⟩

theorem bootMemory_wellFormed : WellFormed bootMemory where
  one_le := by decide
  le_max := by decide
  noWrap := by decide
  sorted := by decide
  nonempty := Or.inl (by decide)

/-- A request for one page anywhere. -/
def allocPage : BootStep :=
  ⟨earlyEnv, .virtAllocTryNidNopanic 0x1000 0x1000 0 0 numaNoNode⟩

theorem runBoot_noOverlap_twoPages :
    Exec.Safe (runBoot [⟨earlyEnv, .reserve 0x100000 0x1000⟩, allocPage, allocPage]
      (bootInit bootMemory physMax)) NoOverlap := by
  refine runBoot_noOverlap bootMemory bootMemory_wellFormed rfl physMax _ ⟨trivial, ?_⟩
  intro s₁ h₁
  have hroom₁ : s₁.memblock.reserved.nrRegions < s₁.memblock.reserved.max := by
    cases h₁
    decide
  refine ⟨hroom₁, fun s₂ h₂ => ⟨?_, fun _ _ => trivial⟩⟩
  have hroom₂ : s₂.memblock.reserved.nrRegions < s₂.memblock.reserved.max := by
    cases h₁
    cases h₂
    decide
  exact hroom₂

/-- Reserve 2 MiB and free every other page of its lower half, then reserve one more page: the array
of reserved regions is full.  Then ask for a page twice. -/
def overlapSteps : List BootStep :=
  ⟨earlyEnv, .reserve 0x200000 0x200000⟩ ::
    (List.range 126).map (fun i => ⟨earlyEnv, .free (0x2ff000 - 0x2000 * i) 0x1000⟩) ++
    [⟨earlyEnv, .reserve 0x500000 0x1000⟩, allocPage, allocPage]

/-- **With a full array the same page is handed out twice.** -/
theorem runBoot_overlap : WellFormed bootMemory ∧
    ∃ s, runBoot overlapSteps (bootInit bootMemory physMax) = .ok s ∧ ¬NoOverlap s := by
  have hrun : ((runBoot overlapSteps (bootInit bootMemory physMax)).toOption.map
      fun s => s.log.take 2) = some [⟨true, 0x10ff000, 0x1000, []⟩, ⟨true, 0x10ff000, 0x1000, []⟩] := by
    decide +kernel
  refine ⟨bootMemory_wellFormed, ?_⟩
  rcases hs : runBoot overlapSteps (bootInit bootMemory physMax) with e | s
  · rw [hs] at hrun
    cases hrun
  · refine ⟨s, rfl, fun h => ?_⟩
    rw [hs] at hrun
    have hlog : s.log.take 2
        = [⟨true, 0x10ff000, 0x1000, []⟩, ⟨true, 0x10ff000, 0x1000, []⟩] := Option.some.inj hrun
    have hpair := h.disjoint.sublist (List.take_sublist 2 s.log)
    rw [hlog] at hpair
    refine (List.pairwise_cons.mp hpair).1 _ (List.mem_singleton_self _) rfl 0x10ff000 ?_ ?_ <;>
      exact ⟨by decide, by simp⟩

end Sandix
