import Sandix.Machinery.Proc
import Sandix.Memblock.Alloc
import Sandix.Memblock.PfnRange

/-!
# Mm/DirectMap — mapping physical memory at `PAGE_OFFSET`

`arch/x86/mm/init.c`: `memory_map_top_down` and `memory_map_bottom_up` cut the range to be mapped into
steps, `init_range_memory_mapping` maps the RAM inside a step piece by piece, and
`init_memory_mapping` maps one piece.  Page tables come from `alloc_low_pages`, which takes them from
the BRK buffer or from memory between the two watermarks `min_pfn_mapped` and `max_pfn_mapped`.

The two walkers call `init_range_memory_mapping` through a parameter: how they cut the range does not
depend on what is mapped, only on the sizes that come back.  `kernel_physical_mapping_init` is taken as
what its callers rely on: it allocates some page tables, one page each, maps the range it is given and
returns its end.

`MapState` also records what happened: the ranges passed to `init_range_memory_mapping`, the ranges
that completed calls of `init_memory_mapping` have mapped, and the pages `alloc_low_pages` took from
memblock, each with what had been mapped by then.
-/

namespace Sandix

open Machinery

/-- `ISA_END_ADDRESS`. -/
abbrev isaEndAddress : ℕ := 0x100000

/-- `NR_MR_RANGE`, on 32 bits. -/
abbrev nrMrRange : ℕ := 3

/-- The memory map and the watermarks, and the record of what has been done. -/
structure MapState where
  memblock : Memblock
  env : BootEnv
  maxLowPfnMapped : ℕ
  ranges : List (ℕ × ℕ)
  mapped : List (ℕ × ℕ)
  taken : List (ℕ × List (ℕ × ℕ))

/-- A procedure of the boot path. -/
abbrev MapProc := Proc MapState

/-! ## Page tables -/

/-- `alloc_low_page`: `alloc_low_pages(1)` on the state.  A page from memblock is recorded. -/
def allocLowPage : MapProc Unit := do
  let s ← get
  let (ptr, m, pgtBufEnd) ← Proc.ofExec (allocLowPages s.env s.memblock 1)
  modify fun s => { s with
    memblock := m
    taken := if s.env.usesMemblock 1 then s.taken ++ [(virtToPhys ptr, s.mapped)] else s.taken
    env := { s.env with pgtBufEnd } }

section Mapping

variable (newTables : MapState → ℕ → ℕ → ℕ)

/-- `kernel_physical_mapping_init`, to its callers: `newTables` page tables are allocated, and the end
of the range comes back. -/
def kernelPhysicalMappingInit (start stop : ℕ) : MapProc ℕ := do
  let s ← get
  (List.range (newTables s start stop)).foldlM (fun _ _ => allocLowPage) ()
  pure stop

/-- `save_mr`. -/
def saveMr (mr : List (ℕ × ℕ)) (startPfn endPfn : ℕ) : Exec (List (ℕ × ℕ)) :=
  if startPfn < endPfn then
    if mr.length ≥ nrMrRange then .error .panic
    else .ok (mr ++ [((startPfn <<< pageShift) % 2 ^ 32, (endPfn <<< pageShift) % 2 ^ 32)])
  else .ok mr

/-- `split_mem_range`, which uses 4 KiB pages only. -/
def splitMemRange (mr : List (ℕ × ℕ)) (start stop : ℕ) : Exec (List (ℕ × ℕ)) :=
  saveMr mr (pfnDown start) (pfnUp stop)

/-- `add_pfn_range_mapped`. -/
def addPfnRangeMapped (startPfn endPfn : ℕ) (s : MapState) : MapState :=
  { s with
    env := { s.env with maxPfnMapped := max s.env.maxPfnMapped endPfn }
    maxLowPfnMapped := if startPfn < 2 ^ (32 - pageShift) then
      max s.maxLowPfnMapped (min endPfn (2 ^ (32 - pageShift))) else s.maxLowPfnMapped }

/-- `init_memory_mapping`; once it is through, its ranges are mapped. -/
def initMemoryMapping (start stop : ℕ) : MapProc ℕ := do
  let mr ← Proc.ofExec (splitMemRange [] start stop)
  let ret ← mr.foldlM (fun _ r => kernelPhysicalMappingInit newTables r.1 r.2) 0
  modify fun s =>
    { addPfnRangeMapped (start >>> pageShift) (ret >>> pageShift) s with mapped := s.mapped ++ mr }
  pure (ret >>> pageShift)

/-- `can_use_brk_pgt`, for a piece: it does not overlap what is left of the BRK buffer. -/
def brkClear (env : BootEnv) (start stop : ℕ) : Bool :=
  max start (env.pgtBufEnd <<< pageShift) ≥ min stop (env.pgtBufTop <<< pageShift)

/-- `PFN_PHYS`. -/
def pfnPhys (x : ℕ) : ℕ := (x <<< pageShift) % 2 ^ 32

/-- The body of the loop of `init_range_memory_mapping`, on `mapped_ram_size`. -/
def mapPiece (rStart rEnd mappedRamSize : ℕ) (x : PfnRange) : MapProc ℕ := do
  let start := clamp (pfnPhys x.start) rStart rEnd
  let stop := clamp (pfnPhys x.stop) rStart rEnd
  if start ≥ stop then pure mappedRamSize
  else do
    modify fun s => { s with env := { s.env with canUseBrkPgt := brkClear s.env start stop } }
    let _ ← initMemoryMapping newTables start stop
    modify fun s => { s with env := { s.env with canUseBrkPgt := true } }
    pure ((mappedRamSize + (stop - start)) % 2 ^ 32)

/-- `init_range_memory_mapping`. -/
def initRangeMemoryMapping (rStart rEnd : ℕ) : MapProc ℕ := do
  let s ← get
  let ranges ← Proc.ofExec (forEachMemPfnRange s.memblock.memory maxNrNodes)
  ranges.foldlM (mapPiece newTables rStart rEnd) 0

end Mapping

/-! ## The two walkers -/

/-- `get_new_step_size`. -/
def getNewStepSize (stepSize : ℕ) : ℕ := (stepSize <<< (pmdShift - pageShift - 1)) % 2 ^ 32

section Walkers

variable (initRange : ℕ → ℕ → MapProc ℕ)

/-- A call of `init_range_memory_mapping`, recorded. -/
def callInitRange (rStart rEnd : ℕ) : MapProc ℕ := do
  modify fun s => { s with ranges := s.ranges ++ [(rStart, rEnd)] }
  initRange rStart rEnd

/-- The variables of a walk: where it stands, `step_size` and `mapped_ram_size`. -/
structure MapWalk where
  pos : ℕ
  stepSize : ℕ
  mappedRamSize : ℕ

/-- `step_size` grows once a step's worth of RAM is mapped. -/
def MapWalk.next (w : MapWalk) (pos ram : ℕ) : MapWalk :=
  let mappedRamSize := (w.mappedRamSize + ram) % 2 ^ 32
  { pos
    stepSize := if mappedRamSize ≥ w.stepSize then getNewStepSize w.stepSize else w.stepSize
    mappedRamSize }

/-- Where a step of `memory_map_top_down` from `lastStart` starts. -/
def topDownStart (mapStart lastStart stepSize : ℕ) : ℕ :=
  if lastStart > stepSize then
    let start := roundDown (lastStart - 1) stepSize
    if start < mapStart then mapStart else start
  else mapStart

/-- One round of the loop of `memory_map_top_down`; `pos` is `last_start`. -/
def topDownStep (mapStart : ℕ) (w : MapWalk) : MapProc (MapWalk ⊕ Unit) :=
  if w.pos > mapStart then do
    let start := topDownStart mapStart w.pos w.stepSize
    let ram ← callInitRange initRange start w.pos
    modify fun s => { s with env := { s.env with minPfnMapped := start >>> pageShift } }
    pure (.inl (w.next start ram))
  else pure (.inr ())

/-- `memory_map_top_down`. -/
def memoryMapTopDown (mapStart mapEnd : ℕ) : MapProc Unit := do
  let s ← get
  let addr ← Proc.ofExec (memblockFindInRange s.memblock mapStart mapEnd pmdSize pmdSize)
  let realEnd := (addr + pmdSize) % 2 ^ 32
  modify fun s => { s with
    env := { s.env with maxPfnMapped := 0, minPfnMapped := realEnd >>> pageShift } }
  Proc.loop (topDownStep initRange mapStart) (realEnd + 1) ⟨realEnd, pmdSize, 0⟩
  if realEnd < mapEnd then do
    let _ ← callInitRange initRange realEnd mapEnd
    pure ()
  else pure ()

/-- Where a step of `memory_map_bottom_up` from `start` ends. -/
def bottomUpNext (mapEnd start stepSize : ℕ) : ℕ :=
  if stepSize ≠ 0 ∧ mapEnd - start > stepSize then
    let next := roundUp (start + 1) stepSize
    if next > mapEnd then mapEnd else next
  else mapEnd

/-- One round of the loop of `memory_map_bottom_up`; `pos` is `start`. -/
def bottomUpStep (mapEnd : ℕ) (w : MapWalk) : MapProc (MapWalk ⊕ Unit) :=
  if w.pos < mapEnd then do
    let next := bottomUpNext mapEnd w.pos w.stepSize
    let ram ← callInitRange initRange w.pos next
    pure (.inl (w.next next ram))
  else pure (.inr ())

/-- `memory_map_bottom_up`. -/
def memoryMapBottomUp (mapStart mapEnd : ℕ) : MapProc Unit := do
  modify fun s => { s with env := { s.env with minPfnMapped := mapStart >>> pageShift } }
  Proc.loop (bottomUpStep initRange mapEnd) (mapEnd - mapStart + 1) ⟨mapStart, pmdSize, 0⟩

end Walkers

end Sandix
