import Sandix.Memblock.BootRun

/-!
# Memblock/BootRam — what boot hands out is RAM

Of the two promises of a boot-time allocator, that a block is nobody else's needs room in the array of
reserved regions; that it lies in `memblock.memory` does not (`FromRam`).  So this one holds along every
run, of any calls: the map of memory stays as it was, and every block handed out is inside it.

* `RamInv.run` — in every state of every run.
-/

namespace Sandix

open Machinery

/-! ## One call -/

/-- The call leaves the map of memory alone, and what it handed out lies in it. -/
structure FromRam (m : Memblock) (size : ℕ) (res : ℕ × Memblock) : Prop where
  ok : MemblockOk res.2
  memory : res.2.memory = m.memory
  ram : res.1 ≠ 0 → ∀ a, virtToPhys res.1 ≤ a → a < virtToPhys res.1 + size → m.memory.Covers a

section FrontEnds

variable {m m' : Memblock} {size : ℕ} (align goal limit : ℕ)

/-- A call that hands out nothing. -/
theorem FromRam.null (hok : MemblockOk m') (hmem : m'.memory = m.memory) :
    FromRam m size (0, m') := ⟨hok, hmem, fun h => absurd rfl h⟩

/-- A block that was found, whether or not it could be recorded. -/
theorem Found.fromRam {start stop r : ℕ} (hm : MemblockOk m) (hf : Found m size align start stop r)
    (hok : MemblockOk m') (hmem : m'.memory = m.memory) : FromRam m size (physToVirt r, m') := by
  refine ⟨hok, hmem, fun _ a ha ha' => ?_⟩
  obtain ⟨rgn, hrgn, hlo, hhi⟩ := hf.ram (by rintro rfl; omega)
  have hw : rgn.base + rgn.size < 2 ^ 32 := hm.memory.noWrap rgn hrgn
  dsimp only at ha ha'
  rw [virtToPhys_physToVirt (by omega)] at ha ha'
  exact ⟨rgn, hrgn, by omega, by dsimp only; omega⟩

theorem orElse_fromRam {first : Exec (ℕ × Memblock)} {second : Memblock → Exec (ℕ × Memblock)}
    (h₁ : Exec.Safe first (FromRam m size))
    (h₂ : ∀ m', MemblockOk m' → Exec.Safe (second m') (FromRam m' size)) :
    Exec.Safe (orElse first second) (FromRam m size) := by
  refine h₁.bind ?_
  rintro ⟨ptr, m'⟩ hm'
  dsimp only
  split
  · exact .ok hm'
  · refine (h₂ m' hm'.ok).mono fun res hres => ⟨hres.ok, hres.memory.trans hm'.memory, ?_⟩
    intro hp a ha ha'
    have hcov := hres.ram hp a ha ha'
    rwa [hm'.memory] at hcov

theorem orPanic_fromRam {alloc : Exec (ℕ × Memblock)} (h : Exec.Safe alloc (FromRam m size)) :
    Exec.Safe (orPanic alloc) (FromRam m size) := by
  refine h.bind ?_
  rintro ⟨ptr, m'⟩ hm'
  dsimp only
  split
  · exact .ok hm'
  · exact .panic

theorem allocMemoryCoreEarly_fromRam (h : MemblockOk m) (nid : ℤ) :
    Exec.Safe (allocMemoryCoreEarly m nid size align goal limit) (FromRam m size) := by
  rw [allocMemoryCoreEarly]
  obtain ⟨r, hr, hfound⟩ := memblockFindInRangeNode_found h size align goal
    (if limit > m.currentLimit then m.currentLimit else limit) nid 0
  rw [hr, Exec.ok_bind]
  split
  · exact .ok (.null h rfl)
  · rename_i hne
    obtain ⟨ret, m', hres, hok, -⟩ := memblockReserve_spec h r size
    rw [hres, Exec.ok_bind]
    dsimp only
    split
    · exact .ok (.null hok (memblockReserve_memory hres))
    · exact .ok ((hfound.resolve_left hne).fromRam _ h hok (memblockReserve_memory hres))

theorem allocBootmemNopanicBelow_fromRam (h : MemblockOk m) :
    Exec.Safe (allocBootmemNopanicBelow m size align goal limit) (FromRam m size) := by
  refine orElse_fromRam (allocMemoryCoreEarly_fromRam _ _ _ h _) fun m' hm' => ?_
  split
  · exact allocMemoryCoreEarly_fromRam _ _ _ hm' _
  · exact .ok (.null hm' rfl)

theorem allocBootmemNodePass_fromRam (h : MemblockOk m) (nodeId : ℤ) :
    Exec.Safe (allocBootmemNodePass m nodeId size align goal limit) (FromRam m size) :=
  orElse_fromRam (allocMemoryCoreEarly_fromRam _ _ _ h _) fun _ hm' =>
    allocMemoryCoreEarly_fromRam _ _ _ hm' _

theorem allocBootmemNodeNopanicBelow_fromRam (h : MemblockOk m) (nodeId : ℤ) :
    Exec.Safe (allocBootmemNodeNopanicBelow m nodeId size align goal limit) (FromRam m size) := by
  refine orElse_fromRam (allocBootmemNodePass_fromRam _ _ _ h _) fun m' hm' => ?_
  split
  · exact allocBootmemNodePass_fromRam _ _ _ hm' _
  · exact .ok (.null hm' rfl)

/-- The search of `memblock_virt_alloc_internal`. -/
theorem virtAllocFind_found (size align : ℕ) (h : MemblockOk m) (minAddr maxAddr : ℕ) (nid : ℤ) :
    ∃ r, virtAllocFind m size align minAddr maxAddr nid = .ok r ∧
      (r = 0 ∨ Found m size align minAddr maxAddr r) := by
  obtain ⟨r, hr, hfound⟩ := memblockFindInRangeNode_found h size align minAddr maxAddr nid 0
  rw [virtAllocFind, hr, Exec.ok_bind]
  split
  · exact ⟨r, rfl, hfound⟩
  · split
    · exact memblockFindInRangeNode_found h size align minAddr maxAddr numaNoNode 0
    · exact ⟨0, rfl, Or.inl rfl⟩

theorem virtAllocDone_fromRam {start stop r : ℕ} (h : MemblockOk m)
    (hfound : Found m size align start stop r) :
    Exec.Safe (virtAllocDone m r size) (FromRam m size) := by
  obtain ⟨ret, m', hres, hok, -⟩ := memblockReserve_spec h r size
  rw [virtAllocDone, hres, Exec.ok_bind]
  exact .ok (hfound.fromRam _ h hok (memblockReserve_memory hres))

theorem memblockVirtAllocInternal_fromRam (env : BootEnv) (h : MemblockOk m) (minAddr maxAddr : ℕ)
    (nid : ℤ) :
    Exec.Safe (memblockVirtAllocInternal env m size align minAddr maxAddr nid) (FromRam m size) := by
  have hfind := fun align minAddr maxAddr =>
    virtAllocFind_found size align h minAddr maxAddr (selectNode nid)
  simp only [memblockVirtAllocInternal]
  split
  · exact .panic
  · obtain ⟨r, hr, hfound⟩ := hfind (if align = 0 then l1CacheBytes else align) minAddr
      (if maxAddr > m.currentLimit then m.currentLimit else maxAddr)
    rw [hr, Exec.ok_bind]
    split
    · rename_i hne
      exact virtAllocDone_fromRam _ h (hfound.resolve_left hne)
    · split
      · obtain ⟨r', hr', hfound'⟩ := hfind (if align = 0 then l1CacheBytes else align) 0
          (if maxAddr > m.currentLimit then m.currentLimit else maxAddr)
        rw [hr', Exec.ok_bind]
        split
        · rename_i hne
          exact virtAllocDone_fromRam _ h (hfound'.resolve_left hne)
        · exact .ok (.null h rfl)
      · exact .ok (.null h rfl)

theorem allocLowPages_fromRam (env : BootEnv) (h : MemblockOk m) {num : ℕ}
    (hpath : env.usesMemblock num = true) (hnum : pageSize * num < 2 ^ 32) :
    Exec.Safe (allocLowPages env m num)
      fun res => FromRam m (pageSize * num) (res.1, res.2.1) := by
  simp only [allocLowPages, hpath, if_true, memblockFindInRange, Nat.mod_eq_of_lt hnum]
  split
  · exact .panic
  · obtain ⟨r, hr, hfound⟩ := memblockFindInRangeNode_found h (pageSize * num) pageSize
      ((env.minPfnMapped <<< pageShift) % 2 ^ 32) ((env.maxPfnMapped <<< pageShift) % 2 ^ 32)
      numaNoNode 0
    rw [hr, Exec.ok_bind]
    split
    · exact .panic
    · rename_i hne
      have hf := hfound.resolve_left hne
      obtain ⟨x, hx⟩ := hf.aligned
      obtain ⟨ret, m', hres, hok, -⟩ := memblockReserve_spec h r (pageSize * num)
      rw [hres, Exec.ok_bind]
      refine .ok ?_
      have hpfn : physToVirt (((r >>> pageShift) <<< pageShift) % 2 ^ 32) = physToVirt r := by
        rw [hx, roundDown_page, physToVirt, physToVirt]
        omega
      dsimp only
      rw [hpfn]
      exact hf.fromRam _ h hok (memblockReserve_memory hres)

end FrontEnds

/-! ## Runs -/

/-- Requests for pages are below 4 GiB. -/
def BootStep.PagesFit (step : BootStep) : Prop :=
  match step.call with
  | .allocLowPages num => pageSize * num < 2 ^ 32
  | _ => True

/-- The map of memory is still `memory`, and the blocks of the log lie in it. -/
structure RamInv (memory : MemblockType) (s : BootState) : Prop where
  ok : MemblockOk s.memblock
  memory_eq : s.memblock.memory = memory
  blocks : ∀ e ∈ s.log, e.isBlock = true → ∀ a, e.base ≤ a → a < e.base + e.size → memory.Covers a

namespace RamInv

variable {memory : MemblockType} {s : BootState} {m' : Memblock}

/-- A block from an allocator. -/
theorem alloc (h : RamInv memory s) {size : ℕ} {alloc : Exec (ℕ × Memblock)}
    (halloc : Exec.Safe alloc (FromRam s.memblock size)) :
    Exec.Safe (blockOutcome size alloc) fun r => RamInv memory ⟨r.2, r.1.record s.log⟩ := by
  refine halloc.bind ?_
  rintro ⟨ptr, m'⟩ hm'
  refine .ok ?_
  by_cases hp : ptr ≠ 0
  · rw [if_pos hp]
    refine ⟨hm'.ok, hm'.memory.trans h.memory_eq, fun e he hb a ha ha' => ?_⟩
    rcases List.mem_cons.mp he with rfl | he
    · exact h.memory_eq ▸ hm'.ram hp a ha ha'
    · exact h.blocks e he hb a ha ha'
  · rw [if_neg hp]
    exact ⟨hm'.ok, hm'.memory.trans h.memory_eq, h.blocks⟩

/-- A range reserved or freed: no block is added to the log, and none moves. -/
theorem record (h : RamInv memory s) (hok : MemblockOk m') (hmem : m'.memory = memory)
    {outcome : Outcome} (hout : ∀ base size, outcome ≠ .block base size) :
    RamInv memory ⟨m', outcome.record s.log⟩ := by
  refine ⟨hok, hmem, fun e he hb => ?_⟩
  cases outcome with
  | block base size => exact absurd rfl (hout base size)
  | range base size =>
    rcases List.mem_cons.mp he with rfl | he
    · cases hb
    · exact h.blocks e he hb
  | freed base size =>
    obtain ⟨e', he', rfl⟩ := List.mem_map.mp he
    exact h.blocks e' he' hb
  | nothing => exact h.blocks e he hb

/-- **One call.** -/
theorem exec (h : RamInv memory s) (step : BootStep) (hfit : step.PagesFit) :
    Exec.Safe (step.call.exec step.env s.memblock)
      fun r => RamInv memory ⟨r.2, r.1.record s.log⟩ := by
  obtain ⟨env, call⟩ := step
  cases call with
  | virtAllocTryNid size align minAddr maxAddr nid =>
    exact h.alloc (orPanic_fromRam (memblockVirtAllocInternal_fromRam _ _ h.ok _ _ _))
  | virtAllocTryNidNopanic size align minAddr maxAddr nid =>
    exact h.alloc (memblockVirtAllocInternal_fromRam _ _ h.ok _ _ _)
  | allocBootmem size align goal =>
    exact h.alloc (orPanic_fromRam (allocBootmemNopanicBelow_fromRam _ _ _ h.ok))
  | allocBootmemNopanic size align goal => exact h.alloc (allocBootmemNopanicBelow_fromRam _ _ _ h.ok)
  | allocBootmemNode nodeId size align goal =>
    refine h.alloc ?_
    rw [Sandix.allocBootmemNode]
    split
    · exact .bug
    · exact orPanic_fromRam (allocBootmemNodeNopanicBelow_fromRam _ _ _ h.ok _)
  | allocBootmemNodeNopanic nodeId size align goal =>
    refine h.alloc ?_
    rw [Sandix.allocBootmemNodeNopanic]
    split
    · exact .bug
    · exact allocBootmemNodeNopanicBelow_fromRam _ _ _ h.ok _
  | allocLowPages num =>
    by_cases hpath : env.usesMemblock num = true
    · refine (allocLowPages_fromRam env h.ok hpath hfit).bind ?_
      rintro ⟨ptr, m', bufEnd⟩ hm'
      simp only [hpath, if_true]
      exact h.alloc (.ok hm')
    · simp only [BootCall.exec, Sandix.allocLowPages, hpath]
      exact .ok h
  | reserve base size =>
    obtain ⟨ret, m', hres, hok, -⟩ := memblockReserve_spec h.ok base size
    simp only [BootCall.exec, rangeOutcome, hres, Exec.ok_bind]
    refine .ok (h.record hok ((memblockReserve_memory hres).trans h.memory_eq) fun b n => ?_)
    split_ifs <;> exact Outcome.noConfusion
  | free base size =>
    obtain ⟨ret, m', hfree, hok, -⟩ := memblockFree_spec h.ok base size
    simp only [BootCall.exec, rangeOutcome, hfree, Exec.ok_bind]
    have hmem : m'.memory = s.memblock.memory := by
      obtain ⟨⟨ret', t⟩, -, heq⟩ := Exec.bind_eq_ok.mp hfree
      cases heq
      rfl
    refine .ok (h.record hok (hmem.trans h.memory_eq) fun b n => ?_)
    split_ifs <;> exact Outcome.noConfusion

/-- **A run.** -/
theorem run {steps : List BootStep} : ∀ {s : BootState}, RamInv memory s →
    (∀ step ∈ steps, step.PagesFit) → Exec.Safe (runBoot steps s) (RamInv memory) := by
  induction steps with
  | nil => exact fun h _ => .ok h
  | cons step steps ih =>
    intro s h hfit
    have hstep : Exec.Safe (step.exec s) (RamInv memory) :=
      (h.exec step (hfit step List.mem_cons_self)).bind fun r hr => .ok hr
    exact hstep.bind fun s' hs' => ih hs' fun step' hs => hfit step' (List.mem_cons_of_mem _ hs)

end RamInv

end Sandix
