import Sandix.Arch.Page
import Sandix.Memblock.Walk

/-!
# Memblock/Alloc — the boot-time allocators

Three front ends hand out boot memory: `memblock_virt_alloc_try_nid`, the `__alloc_bootmem` family and
`alloc_low_pages`.  Each finds a free block with `memblock_find_in_range_node` and records it with
`memblock_reserve`; they differ in what they do when recording fails.

`Allocates` is what a call must leave behind: the block it returns was free before and is reserved
after.  The `__alloc_bootmem` family meets it always (`allocMemoryCoreEarly_allocates`); the other two
meet it while the array of reserved regions has room (`memblockVirtAllocInternal_allocates`,
`allocLowPages_allocates`).
-/

namespace Sandix

open Machinery

/-- `L1_CACHE_BYTES`, with `CONFIG_X86_L1_CACHE_SHIFT=6`. -/
abbrev l1CacheBytes : ℕ := 64

/-- `clamp`. -/
def clamp (val lo hi : ℕ) : ℕ := min (max val lo) hi

/-! ## The finder -/

/-- The body of the loop in `__memblock_find_range_top_down`: the highest aligned block of the free
range, when there is one. -/
def topDownFit (start stop size align : ℕ) (range : FreeRange) : Option ℕ :=
  let thisStart := clamp range.start start stop
  let thisStop := clamp range.stop start stop
  if thisStop < size then none
  else
    let cand := roundDown (thisStop - size) align
    if cand ≥ thisStart then some cand else none

/-- `__memblock_find_range_top_down`. -/
def memblockFindRangeTopDown (m : Memblock) (start stop size align : ℕ) (nid : ℤ) (flags : ℕ) :
    Exec ℕ := do
  let ranges ← forEachFreeMemRangeReverse m nid flags
  pure ((ranges.findSome? (topDownFit start stop size align)).getD 0)

/-- `memblock_find_in_range_node`.  `memblock_bottom_up()` is constantly false, so the search is
always top-down. -/
def memblockFindInRangeNode (m : Memblock) (size align start stop : ℕ) (nid : ℤ) (flags : ℕ) :
    Exec ℕ :=
  let stop := if stop = 0 then m.currentLimit else stop
  let start := max start pageSize
  let stop := max start stop
  memblockFindRangeTopDown m start stop size align nid flags

/-- `memblock_find_in_range`, whose flags never ask for mirrored memory. -/
def memblockFindInRange (m : Memblock) (start stop size align : ℕ) : Exec ℕ :=
  memblockFindInRangeNode m size align start stop numaNoNode 0

/-! ## The front ends -/

/-- The variables of other parts of the kernel that the allocators read: `slab_state`, the page-table
buffer in the BRK area, and how much memory is mapped. -/
structure BootEnv where
  slabIsAvailable : Bool
  pgtBufEnd : ℕ
  pgtBufTop : ℕ
  canUseBrkPgt : Bool
  minPfnMapped : ℕ
  maxPfnMapped : ℕ
deriving DecidableEq, Repr

/-- One pass of the `again` loop of `memblock_virt_alloc_internal`. -/
def virtAllocFind (m : Memblock) (size align minAddr maxAddr : ℕ) (nid : ℤ) : Exec ℕ := do
  let alloc ← memblockFindInRangeNode m size align minAddr maxAddr nid 0
  if alloc ≠ 0 then pure alloc
  else if nid ≠ numaNoNode then
    memblockFindInRangeNode m size align minAddr maxAddr numaNoNode 0
  else pure 0

/-- The label `done` of `memblock_virt_alloc_internal`: the result of `memblock_reserve` is not
looked at. -/
def virtAllocDone (m : Memblock) (alloc size : ℕ) : Exec (ℕ × Memblock) := do
  let (_, m) ← memblockReserve m alloc size
  pure (physToVirt alloc, m)

/-- `memblock_virt_alloc_internal`: the pointer, `0` for `NULL`, and the new state. -/
def memblockVirtAllocInternal (env : BootEnv) (m : Memblock) (size align minAddr maxAddr : ℕ)
    (nid : ℤ) : Exec (ℕ × Memblock) :=
  let nid := selectNode nid
  if env.slabIsAvailable then .error .panic
  else do
    let align := if align = 0 then l1CacheBytes else align
    let maxAddr := if maxAddr > m.currentLimit then m.currentLimit else maxAddr
    let alloc ← virtAllocFind m size align minAddr maxAddr nid
    if alloc ≠ 0 then virtAllocDone m alloc size
    else if minAddr ≠ 0 then do
      let alloc ← virtAllocFind m size align 0 maxAddr nid
      if alloc ≠ 0 then virtAllocDone m alloc size else pure (0, m)
    else pure (0, m)

/-- The panicking form of an allocator. -/
def orPanic (alloc : Exec (ℕ × Memblock)) : Exec (ℕ × Memblock) := do
  let (ptr, m) ← alloc
  if ptr ≠ 0 then pure (ptr, m) else .error .panic

/-- `memblock_virt_alloc_try_nid_nopanic`. -/
def memblockVirtAllocTryNidNopanic (env : BootEnv) (m : Memblock)
    (size align minAddr maxAddr : ℕ) (nid : ℤ) : Exec (ℕ × Memblock) :=
  memblockVirtAllocInternal env m size align minAddr maxAddr nid

/-- `memblock_virt_alloc_try_nid`. -/
def memblockVirtAllocTryNid (env : BootEnv) (m : Memblock) (size align minAddr maxAddr : ℕ)
    (nid : ℤ) : Exec (ℕ × Memblock) :=
  orPanic (memblockVirtAllocInternal env m size align minAddr maxAddr nid)

/-- `__alloc_memory_core_early`: a block that cannot be recorded is not handed out. -/
def allocMemoryCoreEarly (m : Memblock) (nid : ℤ) (size align goal limit : ℕ) :
    Exec (ℕ × Memblock) := do
  let limit := if limit > m.currentLimit then m.currentLimit else limit
  let addr ← memblockFindInRangeNode m size align goal limit nid 0
  if addr = 0 then pure (0, m)
  else do
    let (ret, m) ← memblockReserve m addr size
    if ret ≠ 0 then pure (0, m) else pure (physToVirt addr, m)

/-- Try `first`, and `second` on the state it leaves when it returns `NULL`. -/
def orElse (first : Exec (ℕ × Memblock)) (second : Memblock → Exec (ℕ × Memblock)) :
    Exec (ℕ × Memblock) := do
  let (ptr, m) ← first
  if ptr ≠ 0 then pure (ptr, m) else second m

/-- `___alloc_bootmem_nopanic`: the goal is dropped when it cannot be met. -/
def allocBootmemNopanicBelow (m : Memblock) (size align goal limit : ℕ) : Exec (ℕ × Memblock) :=
  orElse (allocMemoryCoreEarly m numaNoNode size align goal limit) fun m =>
    if goal ≠ 0 then allocMemoryCoreEarly m numaNoNode size align 0 limit else pure (0, m)

/-- One pass of the `again` loop of `___alloc_bootmem_node_nopanic`. -/
def allocBootmemNodePass (m : Memblock) (nodeId : ℤ) (size align goal limit : ℕ) :
    Exec (ℕ × Memblock) :=
  orElse (allocMemoryCoreEarly m nodeId size align goal limit) fun m =>
    allocMemoryCoreEarly m numaNoNode size align goal limit

/-- `___alloc_bootmem_node_nopanic`. -/
def allocBootmemNodeNopanicBelow (m : Memblock) (nodeId : ℤ) (size align goal limit : ℕ) :
    Exec (ℕ × Memblock) :=
  orElse (allocBootmemNodePass m nodeId size align goal limit) fun m =>
    if goal ≠ 0 then allocBootmemNodePass m nodeId size align 0 limit else pure (0, m)

/-- `__alloc_bootmem_nopanic`. -/
def allocBootmemNopanic (m : Memblock) (size align goal : ℕ) : Exec (ℕ × Memblock) :=
  allocBootmemNopanicBelow m size align goal physMax

/-- `__alloc_bootmem`. -/
def allocBootmem (m : Memblock) (size align goal : ℕ) : Exec (ℕ × Memblock) :=
  orPanic (allocBootmemNopanicBelow m size align goal physMax)

/-- `__alloc_bootmem_node_nopanic`. -/
def allocBootmemNodeNopanic (env : BootEnv) (m : Memblock) (nodeId : ℤ) (size align goal : ℕ) :
    Exec (ℕ × Memblock) :=
  if env.slabIsAvailable then .error .bug
  else allocBootmemNodeNopanicBelow m nodeId size align goal 0

/-- `__alloc_bootmem_node`. -/
def allocBootmemNode (env : BootEnv) (m : Memblock) (nodeId : ℤ) (size align goal : ℕ) :
    Exec (ℕ × Memblock) :=
  if env.slabIsAvailable then .error .bug
  else orPanic (allocBootmemNodeNopanicBelow m nodeId size align goal 0)

/-- Whether `alloc_low_pages` takes its pages from memblock and not from the BRK buffer. -/
def BootEnv.usesMemblock (env : BootEnv) (num : ℕ) : Bool :=
  (env.pgtBufEnd + num) % 2 ^ 32 > env.pgtBufTop || !env.canUseBrkPgt

/-- `alloc_low_pages`: the pointer, the new state, and `pgt_buf_end`.  The result of
`memblock_reserve` is not looked at. -/
def allocLowPages (env : BootEnv) (m : Memblock) (num : ℕ) : Exec (ℕ × Memblock × ℕ) :=
  if env.usesMemblock num then
    if env.minPfnMapped ≥ env.maxPfnMapped then .error .panic
    else do
      let ret ← memblockFindInRange m ((env.minPfnMapped <<< pageShift) % 2 ^ 32)
        ((env.maxPfnMapped <<< pageShift) % 2 ^ 32) (pageSize * num % 2 ^ 32) pageSize
      if ret = 0 then .error .panic
      else do
        let (_, m) ← memblockReserve m ret (pageSize * num % 2 ^ 32)
        let pfn := ret >>> pageShift
        pure (physToVirt ((pfn <<< pageShift) % 2 ^ 32), m, env.pgtBufEnd)
  else
    let pfn := env.pgtBufEnd
    .ok (physToVirt ((pfn <<< pageShift) % 2 ^ 32), m, (env.pgtBufEnd + num) % 2 ^ 32)

/-! ## The finder returns free blocks -/

/-- Every address of `[base, base + size)` can be reserved and is not. -/
def FreeBlock (m : Memblock) (base size : ℕ) : Prop :=
  ∀ a, base ≤ a → a < base + size → a < physMax ∧ ¬m.reserved.Covers a

/-- A fit lies inside its free range and inside the bounds of the search. -/
theorem topDownFit_inside {start stop size align cand : ℕ} {range : FreeRange}
    (h : topDownFit start stop size align range = some cand) (hle : start ≤ stop) :
    (start ≤ cand ∧ cand + size ≤ stop) ∧
      (size ≠ 0 → range.start ≤ cand ∧ cand + size ≤ range.stop) ∧
      ∃ x, cand = roundDown x align := by
  simp only [topDownFit] at h
  split at h
  · cases h
  · split at h
    · rename_i h₁ h₂
      rw [Option.some.injEq] at h
      have hle' := roundDown_le (clamp range.stop start stop - size) align
      rw [h] at hle' h₂
      simp only [clamp] at h₁ h₂ hle'
      exact ⟨⟨by omega, by omega⟩, fun _ => ⟨by omega, by omega⟩, _, h.symm⟩
    · cases h

/-- What the finder found: an aligned block inside the bounds of the search, inside a region of RAM,
and not reserved. -/
structure Found (m : Memblock) (size align start stop r : ℕ) : Prop where
  start_le : max start pageSize ≤ r
  le_stop : stop ≠ 0 → r + size ≤ max (max start pageSize) stop
  ram : size ≠ 0 → ∃ rgn ∈ m.memory.regions, rgn.base ≤ r ∧ r + size ≤ rgn.base + rgn.size
  free : FreeBlock m r size
  aligned : ∃ x, r = roundDown x align

/-- **`memblock_find_in_range_node`** returns `0`, or a block as it should be. -/
theorem memblockFindInRangeNode_found {m : Memblock} (h : MemblockOk m)
    (size align start stop : ℕ) (nid : ℤ) (flags : ℕ) :
    ∃ r, memblockFindInRangeNode m size align start stop nid flags = .ok r ∧
      (r = 0 ∨ Found m size align start stop r) := by
  have hmem := h.memory.le_max
  have hres := h.reserved.le_max
  rw [h.memory_max, initMemblockRegions] at hmem
  rw [h.reserved_max, initMemblockRegions] at hres
  have hwalk := forEachMemRangeRev_eq nid flags h.memory h.reserved (by omega) (by omega)
  simp only [memblockFindInRangeNode, memblockFindRangeTopDown, forEachFreeMemRangeReverse, hwalk,
    Exec.ok_bind]
  refine ⟨_, rfl, ?_⟩
  set found := List.findSome? _ _ with hfound
  rcases hf : found with _ | cand
  · exact Or.inl rfl
  · right
    rw [hfound] at hf
    obtain ⟨range, hmem, hfit⟩ := List.exists_of_findSome?_eq_some hf
    obtain ⟨⟨hstart, hstop⟩, hin, hround⟩ := topDownFit_inside hfit (le_max_left _ _)
    obtain ⟨⟨rgn, hrgn, -, -, hrb, hre⟩, hfree⟩ :=
      freeRange_inside h.memory h.reserved (List.mem_reverse.mp hmem)
    rw [Option.getD_some]
    refine ⟨hstart, fun hne => ?_, fun hsize => ⟨rgn, hrgn, ?_⟩, fun a ha ha' => ?_, hround⟩
    · rwa [if_neg hne] at hstop
    · obtain ⟨hlow, hhigh⟩ := hin hsize
      exact ⟨by omega, by omega⟩
    · have hw := h.memory.noWrap rgn hrgn
      obtain ⟨hlow, hhigh⟩ := hin (by omega)
      exact ⟨by rw [physMax]; omega, hfree a (by omega) (by omega)⟩

/-! ## Recording a block -/

/-- A range that meets no region is one gap. -/
theorem missing_of_free {stop base : ℕ} (hb : base < stop) :
    ∀ {rs : List MemblockRegion} {lo : ℕ}, RegionsFrom lo rs →
    (∀ a, base ≤ a → a < stop → ¬RegionCovers rs a) → missing stop base rs ≤ 1
  | [], _, _, _ => by rw [missing, if_pos hb]
  | r :: rs, lo, h, hfree => by
      obtain ⟨-, hpos, hw, hrs⟩ := RegionsFrom.cons_iff.mp h
      have hstop := hw.stop_eq
      rw [missing, if_pos hb]
      split
      · exact le_rfl
      · split
        · exact missing_of_free hb hrs fun a ha ha' hc =>
            hfree a ha ha' (covers_cons.mpr (Or.inr hc))
        · exact absurd (covers_cons.mpr (Or.inl ⟨le_max_right base r.base, by omega⟩))
            (hfree (max base r.base) (le_max_left _ _) (by omega))

theorem MemblockType.covers_iff {t : MemblockType} {a : ℕ} :
    t.Covers a ↔ ∃ nid flags, RegionAt t.regions a nid flags := regionCovers_iff

/-- **`memblock_reserve`**: on success the range is covered too, below `physMax`; on failure nothing
changes.  A free block is refused only when the array is full. -/
theorem memblockReserve_spec {m : Memblock} (h : MemblockOk m) (base size : ℕ) :
    ∃ ret m', memblockReserve m base size = .ok (ret, m') ∧ MemblockOk m' ∧
      (∀ a, m.reserved.Covers a → m'.reserved.Covers a) ∧
      (ret = 0 → ∀ a, base ≤ a → a < base + size → a < physMax → m'.reserved.Covers a) ∧
      (FreeBlock m base size → m.reserved.nrRegions < m.reserved.max → ret = 0) := by
  obtain ⟨ret, m', hres, hok⟩ := h.exec (.reserve base size)
  obtain ⟨ret₂, t', hadd, hcontent⟩ :=
    memblockAddRange_content h.reserved base size maxNrNodes 0
  have hres' : memblockReserve m base size = .ok (ret₂, { m with reserved := t' }) := by
    rw [memblockReserve, Memblock.onReserved, hadd]
    rfl
  have heq := hres.symm.trans hres'
  simp only [Except.ok.injEq, Prod.mk.injEq] at heq
  obtain ⟨rfl, rfl⟩ := heq
  refine ⟨ret, _, hres', hok, ?_⟩
  rcases hcontent with ⟨hret, hcov⟩ | ⟨hret, rfl, hreg, hfull⟩
  · refine ⟨fun a ha => ?_, fun _ a ha ha' hmax => ?_, fun _ _ => hret⟩
    · obtain ⟨k, f, hat⟩ := MemblockType.covers_iff.mp ha
      exact MemblockType.covers_iff.mpr ⟨k, f, (hcov a k f).mpr (Or.inl hat)⟩
    · by_cases hc : m.reserved.Covers a
      · obtain ⟨k, f, hat⟩ := MemblockType.covers_iff.mp hc
        exact MemblockType.covers_iff.mpr ⟨k, f, (hcov a k f).mpr (Or.inl hat)⟩
      · refine MemblockType.covers_iff.mpr ⟨_, _, (hcov a _ _).mpr (Or.inr ⟨⟨⟨ha, ?_⟩, hc⟩, rfl,
          rfl⟩)⟩
        rw [memblockCapSize]
        omega
  · refine ⟨fun a ha => ha, fun h0 => ?_, fun hfree hroom => ?_⟩
    · rw [hret] at h0
      simp [enomem] at h0
    · by_cases hpos : base < base + memblockCapSize base size
      · have hone := missing_of_free hpos hreg fun a ha ha' =>
          (hfree a ha (by rw [memblockCapSize] at ha'; omega)).2
        omega
      · have hcap : memblockCapSize base size = 0 := by omega
        rw [memblockAddRange] at hadd
        simp only [hcap, if_true, Except.ok.injEq, Prod.mk.injEq] at hadd
        exact hadd.1.symm

theorem memblockReserve_memory {m m' : Memblock} {base size : ℕ} {ret : ℤ}
    (h : memblockReserve m base size = .ok (ret, m')) : m'.memory = m.memory := by
  obtain ⟨⟨ret', t⟩, -, heq⟩ := Exec.bind_eq_ok.mp h
  cases heq
  rfl

/-! ## What each front end leaves behind -/

/-- **An allocation**: the array only grew, and a block that was handed out was free before the call
and is reserved after it. -/
structure Allocates (m : Memblock) (size : ℕ) (res : ℕ × Memblock) : Prop where
  ok : MemblockOk res.2
  keeps : ∀ a, m.reserved.Covers a → res.2.reserved.Covers a
  free : res.1 ≠ 0 → FreeBlock m (virtToPhys res.1) size
  held : res.1 ≠ 0 → ∀ a, virtToPhys res.1 ≤ a → a < virtToPhys res.1 + size →
    res.2.reserved.Covers a

namespace Allocates

variable {m m' : Memblock} {size : ℕ} {res : ℕ × Memblock}

/-- A call that hands out nothing. -/
theorem null (h : MemblockOk m') (hk : ∀ a, m.reserved.Covers a → m'.reserved.Covers a) :
    Allocates m size (0, m') := ⟨h, hk, fun h => absurd rfl h, fun h => absurd rfl h⟩

/-- A second attempt, after one that handed out nothing. -/
theorem retry (h₁ : Allocates m size (0, m')) (h₂ : Allocates m' size res) :
    Allocates m size res where
  ok := h₂.ok
  keeps a ha := h₂.keeps a (h₁.keeps a ha)
  free hp a ha ha' := ⟨(h₂.free hp a ha ha').1, fun hc => (h₂.free hp a ha ha').2 (h₁.keeps a hc)⟩
  held := h₂.held

/-- A free block that has been recorded. -/
theorem of_reserve {r : ℕ} (hok : MemblockOk m')
    (hk : ∀ a, m.reserved.Covers a → m'.reserved.Covers a) (hfree : FreeBlock m r size)
    (hcov : ∀ a, r ≤ a → a < r + size → a < physMax → m'.reserved.Covers a) :
    Allocates m size (physToVirt r, m') := by
  rcases Nat.eq_zero_or_pos size with rfl | hpos
  · exact ⟨hok, hk, fun _ a ha ha' => by omega, fun _ a ha ha' => by omega⟩
  · have hr : r < 2 ^ 32 := by
      have := (hfree r le_rfl (by omega)).1
      rw [physMax] at this
      omega
    refine ⟨hok, hk, fun _ => ?_, fun _ a ha ha' => ?_⟩
    · dsimp only
      rwa [virtToPhys_physToVirt hr]
    · dsimp only at ha ha'
      rw [virtToPhys_physToVirt hr] at ha ha'
      exact hcov a ha ha' (hfree a ha ha').1

end Allocates

section FrontEnds

variable {m : Memblock} {size : ℕ} (align goal limit : ℕ)

/-- Falling back on a second attempt. -/
theorem orElse_allocates {first : Exec (ℕ × Memblock)} {second : Memblock → Exec (ℕ × Memblock)}
    (h₁ : Exec.Safe first (Allocates m size))
    (h₂ : ∀ m', MemblockOk m' → Exec.Safe (second m') (Allocates m' size)) :
    Exec.Safe (orElse first second) (Allocates m size) := by
  refine h₁.bind ?_
  rintro ⟨ptr, m'⟩ hm'
  dsimp only
  split
  · exact .ok hm'
  · rename_i hnull
    rw [not_not.mp hnull] at hm'
    exact (h₂ m' hm'.ok).mono fun _ => hm'.retry

theorem orPanic_allocates {alloc : Exec (ℕ × Memblock)} (h : Exec.Safe alloc (Allocates m size)) :
    Exec.Safe (orPanic alloc) (Allocates m size) := by
  refine h.bind ?_
  rintro ⟨ptr, m'⟩ hm'
  dsimp only
  split
  · exact .ok hm'
  · exact .panic

/-- **`__alloc_memory_core_early` keeps the contract in every state**, as it checks that the block
could be recorded. -/
theorem allocMemoryCoreEarly_allocates (h : MemblockOk m) (nid : ℤ) :
    Exec.Safe (allocMemoryCoreEarly m nid size align goal limit) (Allocates m size) := by
  rw [allocMemoryCoreEarly]
  obtain ⟨r, hr, hfound⟩ := memblockFindInRangeNode_found h size align goal
    (if limit > m.currentLimit then m.currentLimit else limit) nid 0
  rw [hr, Exec.ok_bind]
  split
  · exact .ok (.null h fun _ ha => ha)
  · rename_i hne
    have hfree := (hfound.resolve_left hne).free
    obtain ⟨ret, m', hres, hok, hkeep, hcov, -⟩ := memblockReserve_spec h r size
    rw [hres, Exec.ok_bind]
    dsimp only
    split
    · exact .ok (.null hok hkeep)
    · rename_i hret
      exact .ok (.of_reserve hok hkeep hfree (hcov (not_not.mp hret)))

theorem allocBootmemNopanicBelow_allocates (h : MemblockOk m) :
    Exec.Safe (allocBootmemNopanicBelow m size align goal limit) (Allocates m size) := by
  refine orElse_allocates (allocMemoryCoreEarly_allocates _ _ _ h _) fun m' hm' => ?_
  split
  · exact allocMemoryCoreEarly_allocates _ _ _ hm' _
  · exact .ok (.null hm' fun _ ha => ha)

theorem allocBootmemNodePass_allocates (h : MemblockOk m) (nodeId : ℤ) :
    Exec.Safe (allocBootmemNodePass m nodeId size align goal limit) (Allocates m size) :=
  orElse_allocates (allocMemoryCoreEarly_allocates _ _ _ h _) fun _ hm' =>
    allocMemoryCoreEarly_allocates _ _ _ hm' _

theorem allocBootmemNodeNopanicBelow_allocates (h : MemblockOk m) (nodeId : ℤ) :
    Exec.Safe (allocBootmemNodeNopanicBelow m nodeId size align goal limit) (Allocates m size) := by
  refine orElse_allocates (allocBootmemNodePass_allocates _ _ _ h _) fun m' hm' => ?_
  split
  · exact allocBootmemNodePass_allocates _ _ _ hm' _
  · exact .ok (.null hm' fun _ ha => ha)

/-- The search of `memblock_virt_alloc_internal` finds free blocks. -/
theorem virtAllocFind_free (size align : ℕ) (h : MemblockOk m) (minAddr maxAddr : ℕ) (nid : ℤ) :
    ∃ r, virtAllocFind m size align minAddr maxAddr nid = .ok r ∧ (r = 0 ∨ FreeBlock m r size) := by
  obtain ⟨r, hr, hfound⟩ := memblockFindInRangeNode_found h size align minAddr maxAddr nid 0
  rw [virtAllocFind, hr, Exec.ok_bind]
  split
  · exact ⟨r, rfl, hfound.imp_right Found.free⟩
  · split
    · obtain ⟨r', hr', hfound'⟩ :=
        memblockFindInRangeNode_found h size align minAddr maxAddr numaNoNode 0
      exact ⟨r', hr', hfound'.imp_right Found.free⟩
    · exact ⟨0, rfl, Or.inl rfl⟩

/-- With room in the array the block that was found is recorded. -/
theorem virtAllocDone_allocates (h : MemblockOk m)
    (hroom : m.reserved.nrRegions < m.reserved.max) {r : ℕ} (hfree : FreeBlock m r size) :
    Exec.Safe (virtAllocDone m r size) (Allocates m size) := by
  obtain ⟨ret, m', hres, hok, hkeep, hcov, hzero⟩ := memblockReserve_spec h r size
  rw [virtAllocDone, hres, Exec.ok_bind]
  exact .ok (.of_reserve hok hkeep hfree (hcov (hzero hfree hroom)))

/-- **`memblock_virt_alloc_internal` keeps the contract while the array has room.** -/
theorem memblockVirtAllocInternal_allocates (env : BootEnv) (h : MemblockOk m)
    (hroom : m.reserved.nrRegions < m.reserved.max) (minAddr maxAddr : ℕ) (nid : ℤ) :
    Exec.Safe (memblockVirtAllocInternal env m size align minAddr maxAddr nid)
      (Allocates m size) := by
  have hfind := fun align minAddr maxAddr =>
    virtAllocFind_free size align h minAddr maxAddr (selectNode nid)
  simp only [memblockVirtAllocInternal]
  split
  · exact .panic
  · obtain ⟨r, hr, hfree⟩ := hfind (if align = 0 then l1CacheBytes else align) minAddr
      (if maxAddr > m.currentLimit then m.currentLimit else maxAddr)
    rw [hr, Exec.ok_bind]
    split
    · rename_i hne
      exact virtAllocDone_allocates h hroom (hfree.resolve_left hne)
    · split
      · obtain ⟨r', hr', hfree'⟩ := hfind (if align = 0 then l1CacheBytes else align) 0
          (if maxAddr > m.currentLimit then m.currentLimit else maxAddr)
        rw [hr', Exec.ok_bind]
        split
        · rename_i hne
          exact virtAllocDone_allocates h hroom (hfree'.resolve_left hne)
        · exact .ok (.null h fun _ ha => ha)
      · exact .ok (.null h fun _ ha => ha)

/-- **`alloc_low_pages`, on its memblock path**, keeps it while the array has room and the request is
below 4 GiB. -/
theorem allocLowPages_allocates (env : BootEnv) (h : MemblockOk m) {num : ℕ}
    (hpath : env.usesMemblock num = true) (hroom : m.reserved.nrRegions < m.reserved.max)
    (hnum : pageSize * num < 2 ^ 32) :
    Exec.Safe (allocLowPages env m num)
      fun res => Allocates m (pageSize * num) (res.1, res.2.1) := by
  simp only [allocLowPages, hpath, if_true, memblockFindInRange, Nat.mod_eq_of_lt hnum]
  split
  · exact .panic
  · obtain ⟨r, hr, hfound⟩ := memblockFindInRangeNode_found h (pageSize * num) pageSize
      ((env.minPfnMapped <<< pageShift) % 2 ^ 32) ((env.maxPfnMapped <<< pageShift) % 2 ^ 32)
      numaNoNode 0
    rw [hr, Exec.ok_bind]
    split
    · exact .panic
    · rename_i hne
      obtain ⟨-, -, -, hfree, x, hx⟩ := hfound.resolve_left hne
      obtain ⟨ret, m', hres, hok, hkeep, hcov, hzero⟩ := memblockReserve_spec h r (pageSize * num)
      rw [hres, Exec.ok_bind]
      refine .ok ?_
      have hpfn : physToVirt (((r >>> pageShift) <<< pageShift) % 2 ^ 32) = physToVirt r := by
        rw [hx, roundDown_page, physToVirt, physToVirt]
        omega
      dsimp only
      rw [hpfn]
      exact .of_reserve hok hkeep hfree (hcov (hzero hfree hroom))

end FrontEnds

end Sandix
