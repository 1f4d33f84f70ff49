import Sandix.Machinery.Exec
import Sandix.Mm.EarlyIoremap

/-!
# Mm/PageTables — building the direct map

`kernel_physical_mapping_init` of `arch/x86/mm/init_32.c`, for two-level page tables: the page
directory `initial_page_table`, the page tables it points to, and the three nested loops that run
over them twice, first with the attributes of the early identity mapping and then with the final
ones.  The middle level is folded into the directory, so a PMD is a directory entry.

`translate` is what the hardware makes of the tables.  Page tables come from `alloc_low_page`; the
page numbers it hands out, call after call, are a parameter.
-/

namespace Sandix

open Machinery Function

/-- `PGDIR_SHIFT`. -/
abbrev pgdirShift : ℕ := 22

/-- `PTRS_PER_PGD`. -/
abbrev ptrsPerPgd : ℕ := 1024

/-- `PTRS_PER_PMD`, with the middle level folded. -/
abbrev ptrsPerPmd : ℕ := 1

/-- `PTRS_PER_PTE`. -/
abbrev ptrsPerPte : ℕ := 1024

/-- `__VMALLOC_RESERVE`. -/
abbrev vmallocReserve : ℕ := 128 <<< 20

/-! ## Entries -/

/-- `__PAGE_PSE`. -/
def pagePse : ℕ := 0x080

/-- `__PAGE_TABLE`: present, writable, user, accessed and dirty. -/
def pageTable : ℕ := 0x067

/-- `__PAGE_KERNEL_EXEC`; without `__PAGE_NX` it has the bits of `__PAGE_KERNEL`. -/
def pageKernelExec : ℕ := 0x163

/-- `__PAGE_KERNEL_LARGE`. -/
def pageKernelLarge : ℕ := pageKernel ||| pagePse

/-- `__PAGE_KERNEL_LARGE_EXEC`. -/
def pageKernelLargeExec : ℕ := pageKernelExec ||| pagePse

/-- `PTE_IDENT_ATTR`: present and writable. -/
def pteIdentAttr : ℕ := 0x003

/-- `PTE_PFN_MASK`. -/
def ptePfnMask : ℕ := 0xfffff000

/-- `PTE_FLAGS_MASK`. -/
def pteFlagsMask : ℕ := 0x00000fff

/-- `PHYSICAL_PMD_PAGE_MASK`. -/
def physicalPmdPageMask : ℕ := 0xffc00000

/-- `pmd_pfn_mask`. -/
def pmdPfnMask (pmd : ℕ) : ℕ := if pmd &&& pagePse ≠ 0 then physicalPmdPageMask else ptePfnMask

/-- `pgd_index`. -/
def pgdIndex (address : ℕ) : ℕ := address / 2 ^ pgdirShift % ptrsPerPgd

/-- `pmd_page_vaddr`. -/
def pmdPageVaddr (pmd : ℕ) : ℕ := physToVirt (pmd &&& pmdPfnMask pmd)

/-- `pte_offset_kernel`: the page the entry is in, and its index there. -/
def pteOffsetKernel (pmd address : ℕ) : ℕ × ℕ := (pmdPageVaddr pmd, pteIndex address)

/-- `enum pg_level`, for the levels that exist. -/
inductive PgLevel
  | level4K
  | level2M
  | level1G
deriving DecidableEq, Repr

/-- The number of a level in the enumeration, which begins with `PG_LEVEL_NONE`. -/
def PgLevel.num : PgLevel → ℕ
  | .level4K => 1
  | .level2M => 2
  | .level1G => 3

/-! ## The machine -/

/-- What the linker and the boot CPU fix: `__text_start` and `__init_end`, `VMALLOC_END`, and the
features `cpu_has_pse` and `cpu_has_pge`.  The area reserved for `vmalloc` fits below
`VMALLOC_END`. -/
structure KernelLayout where
  textStart : ℕ
  initEnd : ℕ
  vmallocEnd : ℕ
  cpuHasPse : Bool
  cpuHasPge : Bool
  vmallocEnd_lt : vmallocEnd < 2 ^ 32
  room : pageOffset + vmallocReserve ≤ vmallocEnd

namespace KernelLayout

variable (L : KernelLayout)

/-- `MAXMEM`. -/
def maxmem : ℕ := L.vmallocEnd - pageOffset - vmallocReserve

/-- `__supported_pte_mask`, as `probe_page_size_mask` leaves it. -/
def supportedPteMask : ℕ := probePteMask L.cpuHasPge definedPteMask

/-- `massage_pgprot`. -/
def massagePgprot (pgprot : ℕ) : ℕ := Sandix.massagePgprot L.supportedPteMask pgprot

/-- `pfn_pte`, and `pfn_pmd`. -/
def pfnPte (pageNr pgprot : ℕ) : ℕ := Sandix.pfnPte L.supportedPteMask pageNr pgprot

/-- `is_kernel_text`. -/
def isKernelText (addr : ℕ) : Bool := addr ≥ L.textStart && addr ≤ L.initEnd

/-- `use_pse`. -/
def usePse (pageSizeMask : ℕ) : Bool :=
  pageSizeMask == 1 <<< PgLevel.num .level2M && L.cpuHasPse

end KernelLayout

/-- `initial_page_table`, the page tables by physical address, `direct_page_counts`, and how many
pages `alloc_low_page` has handed out. -/
structure PageTables where
  pgd : ℕ → ℕ
  pte : ℕ → ℕ → ℕ
  directPageCounts : PgLevel → ℕ
  lowPages : ℕ

namespace PageTables

/-- `set_pmd`, on the directory entry `d`. -/
def setPmd (pt : PageTables) (d pmd : ℕ) : PageTables := { pt with pgd := update pt.pgd d pmd }

/-- `set_pte`, on entry `idx` of the page table at the virtual address `page`. -/
def setPte (pt : PageTables) (page idx pte : ℕ) : PageTables :=
  { pt with pte := update pt.pte (virtToPhys page) (update (pt.pte (virtToPhys page)) idx pte) }

/-- `update_page_count`. -/
def updatePageCount (pt : PageTables) (level : PgLevel) (pages : ℕ) : PageTables :=
  { pt with directPageCounts :=
      update pt.directPageCounts level ((pt.directPageCounts level + pages) % 2 ^ 32) }

/-- The translation of a virtual address by the hardware: the physical address, and the flags of the
entry that maps the page. -/
def translate (pt : PageTables) (v : ℕ) : Option (ℕ × ℕ) :=
  let pde := pt.pgd (pgdIndex v)
  if pde &&& pagePresent = 0 then none
  else if pde &&& pagePse ≠ 0 then
    some ((pde &&& physicalPmdPageMask) + v % 2 ^ pgdirShift, pde &&& pteFlagsMask)
  else
    let pte := pt.pte (pde &&& ptePfnMask) (pteIndex v)
    if pte &&& pagePresent = 0 then none
    else some ((pte &&& ptePfnMask) + v % pageSize, pte &&& pteFlagsMask)

end PageTables

/-! ## `kernel_physical_mapping_init` -/

section Mapping

variable (L : KernelLayout) (lowPfn : ℕ → ℕ)

/-- `alloc_low_page`: the next page, cleared. -/
def PageTables.allocLowPage (pt : PageTables) : ℕ × PageTables :=
  let page := (lowPfn pt.lowPages <<< pageShift) % 2 ^ 32
  (physToVirt page,
    { pt with pte := update pt.pte page fun _ => 0, lowPages := pt.lowPages + 1 })

/-- `one_page_table_init`, on the directory entry `d`. -/
def onePageTableInit (pt : PageTables) (d : ℕ) : Exec ((ℕ × ℕ) × PageTables) :=
  if pt.pgd d &&& pagePresent = 0 then
    let (page, pt) := pt.allocLowPage lowPfn
    let pt := pt.setPmd d (virtToPhys page ||| pageTable)
    if (page, 0) ≠ pteOffsetKernel (pt.pgd d) 0 then .error .bug
    else .ok (pteOffsetKernel (pt.pgd d) 0, pt)
  else .ok (pteOffsetKernel (pt.pgd d) 0, pt)

/-- `mapping_iter`. -/
inductive MappingIter
  | first
  | second
deriving DecidableEq, Repr

/-- The variables the three loops share.  The counters stay far below `2 ^ 32`, as the loops run while
`pfn < end_pfn`. -/
structure MapScan where
  pt : PageTables
  pfn : ℕ
  lastMapPaddr : ℕ
  pages2m : ℕ
  pages4k : ℕ

/-- The protection of a small page at `addr`. -/
def MappingIter.prot (iter : MappingIter) (addr : ℕ) : ℕ :=
  match iter with
  | .first => pteIdentAttr
  | .second => if L.isKernelText addr then pageKernelExec else pageKernel

/-- One round of the innermost loop, on `pte_idx` and `addr`; `pte` is the entry `pte_idx` of
`page`. -/
def pteStep (iter : MappingIter) (endPfn page : ℕ) :
    MapScan × ℕ × ℕ → Exec (MapScan × ℕ × ℕ ⊕ MapScan)
  | (s, pteIdx, addr) =>
    if pteIdx < ptrsPerPte ∧ s.pfn < endPfn then
      .ok (.inl ({ s with
        pt := s.pt.setPte page pteIdx (L.pfnPte s.pfn (iter.prot L addr))
        pages4k := s.pages4k + 1
        lastMapPaddr := if iter = .first then ((s.pfn <<< pageShift) + pageSize) % 2 ^ 32
          else s.lastMapPaddr
        pfn := s.pfn + 1 }, pteIdx + 1, (addr + pageSize) % 2 ^ 32))
    else .ok (.inr s)

/-- A large page, at the directory entry `d`. -/
def mapLarge (iter : MappingIter) (d addr : ℕ) (s : MapScan) : MapScan :=
  let pfn := s.pfn &&& (physicalPmdPageMask >>> pageShift)
  let addr2 := ((pfn + ptrsPerPte - 1) * pageSize + pageOffset + pageSize - 1) % 2 ^ 32
  let prot := match iter with
    | .first => pteIdentAttr ||| pagePse
    | .second =>
      if L.isKernelText addr || L.isKernelText addr2 then pageKernelLargeExec else pageKernelLarge
  { s with
    pt := s.pt.setPmd d (L.pfnPte pfn prot)
    pages2m := s.pages2m + 1
    pfn := pfn + ptrsPerPte }

/-- One round of the middle loop, on `pmd_idx`, for the directory entry `pgdIdx`. -/
def pmdStep (iter : MappingIter) (usePse : Bool) (endPfn pgdIdx : ℕ) :
    MapScan × ℕ → Exec (MapScan × ℕ ⊕ MapScan)
  | (s, pmdIdx) =>
    if pmdIdx < ptrsPerPmd ∧ s.pfn < endPfn then
      let addr := (s.pfn * pageSize + pageOffset) % 2 ^ 32
      if usePse then .ok (.inl (mapLarge L iter (pgdIdx + pmdIdx) addr s, pmdIdx + 1))
      else do
        let ((page, idx), pt) ← onePageTableInit lowPfn s.pt (pgdIdx + pmdIdx)
        let pteIdx := pteIndex (((s.pfn <<< pageShift) + pageOffset) % 2 ^ 32)
        let s ← Exec.loop (pteStep L iter endPfn page) (ptrsPerPte + 1)
          ({ s with pt }, idx + pteIdx, addr)
        pure (.inl (s, pmdIdx + 1))
    else .ok (.inr s)

/-- One round of the outermost loop, on `pgd_idx`; `one_md_table_init` has nothing to do. -/
def pgdStep (iter : MappingIter) (usePse : Bool) (endPfn : ℕ) :
    MapScan × ℕ → Exec (MapScan × ℕ ⊕ MapScan)
  | (s, pgdIdx) =>
    if pgdIdx < ptrsPerPgd then
      if s.pfn ≥ endPfn then .ok (.inl (s, pgdIdx + 1))
      else do
        let s ← Exec.loop (pmdStep L lowPfn iter usePse endPfn pgdIdx) (ptrsPerPmd + 1) (s, 0)
        pure (.inl (s, pgdIdx + 1))
    else .ok (.inr s)

/-- One pass over the range, from the label `repeat`. -/
def mappingPass (iter : MappingIter) (usePse : Bool) (startPfn endPfn lastMapPaddr : ℕ)
    (pt : PageTables) : Exec MapScan :=
  Exec.loop (pgdStep L lowPfn iter usePse endPfn) (ptrsPerPgd + 1)
    (⟨pt, startPfn, lastMapPaddr, 0, 0⟩,
      pgdIndex (((startPfn <<< pageShift) + pageOffset) % 2 ^ 32))

/-- `kernel_physical_mapping_init`: `last_map_paddr`, and the page tables. -/
def PageTables.kernelPhysicalMappingInit (pt : PageTables) (start stop pageSizeMask : ℕ) :
    Exec (ℕ × PageTables) := do
  let usePse := L.usePse pageSizeMask
  let startPfn := start >>> pageShift
  let endPfn := stop >>> pageShift
  let s ← mappingPass L lowPfn .first usePse startPfn endPfn stop pt
  let pt := (s.pt.updatePageCount .level2M s.pages2m).updatePageCount .level4K s.pages4k
  let s ← mappingPass L lowPfn .second usePse startPfn endPfn s.lastMapPaddr pt
  pure (s.lastMapPaddr, s.pt)

end Mapping

end Sandix
