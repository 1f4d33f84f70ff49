import Sandix.Mm.PageTables

/-!
# Mm/RangeInit — page tables for a range of addresses

`page_table_range_init` of `arch/x86/mm/init_32.c`, for two-level page tables and `CONFIG_HIGHMEM`: it
puts a page table behind every directory entry of a range.  The tables of the directory entries that
hold the `kmap` window of the fixmap, when there are several, must follow one another in memory:
`page_table_range_init_count` counts them, one block of pages is allocated for all, and
`page_table_kmap_check` moves each table there as the loop passes it.

The two functions walk the range with the same pair of nested loops (`rangeLoop`).
-/

namespace Sandix

open Machinery Function

/-- `KM_TYPE_NR`. -/
abbrev kmTypeNr : ℕ := 20

/-- Where the configuration puts the `kmap` window: `FIXADDR_TOP`, `FIX_KMAP_BEGIN` and `NR_CPUS`.
`FIX_HOLE` comes before it, and its indices are addresses. -/
structure KmapArea where
  fixaddrTop : ℕ
  fixKmapBegin : ℕ
  nrCpus : ℕ
  aligned : fixaddrTop % pageSize = 0
  top_lt : fixaddrTop < 2 ^ 32
  begin_pos : 0 < fixKmapBegin
  cpus_pos : 0 < nrCpus
  above : (fixKmapBegin + kmTypeNr * nrCpus) * pageSize < fixaddrTop

namespace KmapArea

variable (K : KmapArea)

/-- `FIX_KMAP_END`. -/
def fixKmapEnd : ℕ := K.fixKmapBegin + kmTypeNr * K.nrCpus - 1

/-- `fix_to_virt`. -/
def fixToVirt (idx : ℕ) : ℕ := sub32 K.fixaddrTop (idx * pageSize)

/-- `pmd_idx_kmap_begin`. -/
def pmdIdxKmapBegin : ℕ := K.fixToVirt K.fixKmapEnd >>> pmdShift

/-- `pmd_idx_kmap_end`. -/
def pmdIdxKmapEnd : ℕ := K.fixToVirt K.fixKmapBegin >>> pmdShift

end KmapArea

/-! ## The loops -/

section Loops

variable {α : Type} (body : ℕ → ℕ → α → Exec α) (stop : ℕ)

/-- `pmd_index`. -/
def pmdIndex (address : ℕ) : ℕ := (address >>> pmdShift) &&& (ptrsPerPmd - 1)

/-- One round of the inner loop, on `pmd_idx` and `vaddr`; `body` is given the directory entry and
`vaddr`. -/
def rangePmdStep (pgdIdx : ℕ) : ℕ × ℕ × α → Exec (ℕ × ℕ × α ⊕ ℕ × α)
  | (pmdIdx, vaddr, a) =>
    if pmdIdx < ptrsPerPmd ∧ vaddr ≠ stop then do
      let a ← body (pgdIdx + pmdIdx) vaddr a
      pure (.inl (pmdIdx + 1, (vaddr + pmdSize) % 2 ^ 32, a))
    else .ok (.inr (vaddr, a))

/-- One round of the outer loop, on `pgd_idx`, `pmd_idx` and `vaddr`. -/
def rangePgdStep : ℕ × ℕ × ℕ × α → Exec (ℕ × ℕ × ℕ × α ⊕ α)
  | (pgdIdx, pmdIdx, vaddr, a) =>
    if pgdIdx < ptrsPerPgd ∧ vaddr ≠ stop then do
      let (vaddr, a) ← Exec.loop (rangePmdStep body stop pgdIdx) (ptrsPerPmd + 1) (pmdIdx, vaddr, a)
      pure (.inl (pgdIdx + 1, 0, vaddr, a))
    else .ok (.inr a)

/-- The walk over the directory entries of `[start, stop)`. -/
def rangeLoop (start : ℕ) (a : α) : Exec α :=
  Exec.loop (rangePgdStep body stop) (ptrsPerPgd + 1) (pgdIndex start, pmdIndex start, start, a)

end Loops

/-! ## `page_table_range_init` -/

section RangeInit

variable (K : KmapArea) (lowPfn : ℕ → ℕ)

/-- `page_table_range_init_count`. -/
def pageTableRangeInitCount (start stop : ℕ) : Exec ℕ :=
  if K.pmdIdxKmapBegin = K.pmdIdxKmapEnd then .ok 0
  else rangeLoop (fun _ vaddr count => .ok
    (if vaddr >>> pmdShift ≥ K.pmdIdxKmapBegin ∧ vaddr >>> pmdShift ≤ K.pmdIdxKmapEnd then
      (count + 1) % 2 ^ 32 else count)) stop start 0

/-- `alloc_low_pages`: `num` pages in a row, cleared.  A call takes the next page number of `lowPfn`. -/
def PageTables.allocLowPages (pt : PageTables) (num : ℕ) : ℕ × PageTables :=
  let pfn := lowPfn pt.lowPages
  (physToVirt ((pfn <<< pageShift) % 2 ^ 32),
    { pt with
      pte := (List.range num).foldl
        (fun pte i => update pte (((pfn + i) <<< pageShift) % 2 ^ 32) fun _ => 0) pt.pte
      lowPages := pt.lowPages + 1 })

/-- What the loop of `page_table_range_init` carries: the page tables, `pte` and `adr`. -/
structure RangeState where
  pt : PageTables
  pte : ℕ
  adr : ℕ

/-- The loop of `page_table_kmap_check` that copies the page table `pte` to `newpte`. -/
def PageTables.copyPtes (pt : PageTables) (newpte pte : ℕ) : PageTables :=
  (List.range ptrsPerPte).foldl (fun pt i => pt.setPte newpte i (pt.pte (virtToPhys pte) i)) pt

/-- The move of `page_table_kmap_check`, for an entry of the window. -/
def moveTable (s : RangeState) (d : ℕ) : Exec RangeState :=
  let newpte := s.adr
  let pt := s.pt.copyPtes newpte s.pte
  let pt := pt.setPmd d (virtToPhys newpte ||| pageTable)
  if (newpte, 0) ≠ pteOffsetKernel (pt.pgd d) 0 then .error .bug
  else .ok ⟨pt, newpte, (s.adr + pageSize) % 2 ^ 32⟩

/-- `page_table_kmap_check`, on the directory entry `d`; `s.pte` is the page table behind it. -/
def pageTableKmapCheck (s : RangeState) (d vaddr lastpte : ℕ) : Exec RangeState := do
  let s ← if K.pmdIdxKmapBegin ≠ K.pmdIdxKmapEnd ∧ vaddr >>> pmdShift ≥ K.pmdIdxKmapBegin ∧
      vaddr >>> pmdShift ≤ K.pmdIdxKmapEnd then moveTable s d else .ok s
  if vaddr < K.fixToVirt (K.fixKmapBegin - 1) ∧ vaddr > K.fixToVirt K.fixKmapEnd ∧
      lastpte ≠ 0 ∧ (lastpte + ptrsPerPte * 4) % 2 ^ 32 ≠ s.pte then .error .bug
  else .ok s

/-- The body of the loop of `page_table_range_init`. -/
def rangeInitBody (d vaddr : ℕ) (s : RangeState) : Exec RangeState := do
  let ((page, _), pt) ← onePageTableInit lowPfn s.pt d
  pageTableKmapCheck K { s with pt, pte := page } d vaddr s.pte

/-- `page_table_range_init`. -/
def pageTableRangeInit (pt : PageTables) (start stop : ℕ) : Exec RangeState := do
  let count ← pageTableRangeInitCount K start stop
  let (adr, pt) := if count ≠ 0 then pt.allocLowPages lowPfn count else (0, pt)
  rangeLoop (rangeInitBody K lowPfn) stop start ⟨pt, 0, adr⟩

end RangeInit

end Sandix
