import Sandix.Machinery.Run
import Sandix.Arch.Page

/-!
# Mm/EarlyIoremap — temporary mappings before paging is up

`mm/early_ioremap.c` and `__early_set_fixmap` of `arch/x86/mm/ioremap.c`, between
`early_ioremap_init` and `early_ioremap_reset`, with 32-bit physical addresses.  There are eight
slots of 64 pages in the fixmap; fixmap indices grow as addresses fall, so a slot begins at its
highest index.  `bm_pte` is the page table of the one PMD the slots lie in.  An entry keeps the
protection bits of `__supported_pte_mask`, which `probe_page_size_mask` may change between two calls.
-/

namespace Sandix

open Machinery Function

/-- `NR_FIX_BTMAPS`. -/
abbrev nrFixBtmaps : ℕ := 64

/-- `FIX_BTMAPS_SLOTS`. -/
abbrev fixBtmapsSlots : ℕ := 8

/-- Where the configuration puts the slots: `FIXADDR_TOP` and `FIX_BTMAP_END`.  The indices are
addresses, and the slots lie in one PMD. -/
structure BtArea where
  fixaddrTop : ℕ
  fixBtmapEnd : ℕ
  aligned : fixaddrTop % pageSize = 0
  top_lt : fixaddrTop < 2 ^ 32
  above : (fixBtmapEnd + 511) * pageSize < fixaddrTop
  onePmd : (fixaddrTop - (fixBtmapEnd + 511) * pageSize) / 2 ^ 22 =
    (fixaddrTop - fixBtmapEnd * pageSize) / 2 ^ 22

variable (A : BtArea)

/-- `FIX_BTMAP_BEGIN`. -/
def BtArea.fixBtmapBegin : ℕ := A.fixBtmapEnd + 511

/-- `__fix_to_virt`. -/
def BtArea.fixToVirt (idx : ℕ) : ℕ := sub32 A.fixaddrTop (idx * pageSize)

/-- `__virt_to_fix`. -/
def BtArea.virtToFix (vaddr : ℕ) : ℕ := sub32 A.fixaddrTop (vaddr / pageSize * pageSize) / pageSize

/-- `slot_virt[i]`, as `early_ioremap_setup` leaves it. -/
def BtArea.slotVirt (i : ℕ) : ℕ := A.fixToVirt (A.fixBtmapBegin - i * nrFixBtmaps)

/-- `pte_index`. -/
def pteIndex (address : ℕ) : ℕ := address / pageSize % 1024

/-- `PAGE_ALIGN` in 32 bits. -/
def pageAlign (addr : ℕ) : ℕ := (addr + (pageSize - 1)) % 2 ^ 32 / pageSize * pageSize

/-! ## Protections -/

/-- `__PAGE_PRESENT`. -/
def pagePresent : ℕ := 0x001

/-- `__PAGE_GLOBAL`. -/
def pageGlobal : ℕ := 0x100

/-- `__PAGE_KERNEL`, which is both `FIXMAP_PAGE_IO` and `FIXMAP_PAGE_NORMAL`. -/
def pageKernel : ℕ := 0x163

/-- The value `__supported_pte_mask` is defined with; with two-level page tables `__PAGE_NX` is
zero, and `x86_configure_nx` changes nothing. -/
def definedPteMask : ℕ := 2 ^ 32 - 1 - pageGlobal

/-- `probe_page_size_mask`, on `__supported_pte_mask`. -/
def probePteMask (cpuHasPge : Bool) (mask : ℕ) : ℕ :=
  if cpuHasPge then mask ||| pageGlobal else mask &&& (2 ^ 32 - 1 - pageGlobal)

/-- `massage_pgprot`, where `__supported_pte_mask` is `mask`. -/
def massagePgprot (mask pgprot : ℕ) : ℕ :=
  if pgprot &&& pagePresent ≠ 0 then pgprot &&& mask else pgprot

/-- `pfn_pte`, and `pfn_pmd`. -/
def pfnPte (mask pageNr pgprot : ℕ) : ℕ :=
  (pageNr <<< pageShift) % 2 ^ 32 ||| massagePgprot mask pgprot

/-! ## The calls -/

/-- `prev_map`, `prev_size`, `bm_pte` and `__supported_pte_mask`; a null pointer is zero. -/
structure BtState where
  prevMap : Fin fixBtmapsSlots → ℕ
  prevSize : Fin fixBtmapsSlots → ℕ
  pte : ℕ → ℕ
  supportedPteMask : ℕ

/-- The state `early_ioremap_init` leaves. -/
def BtState.init : BtState := ⟨fun _ => 0, fun _ => 0, fun _ => 0, definedPteMask⟩

namespace BtState

/-- `__early_set_fixmap`. -/
def earlySetFixmap (s : BtState) (idx phys flags : ℕ) : Exec BtState :=
  if A.fixBtmapBegin + 1 ≤ idx then .error .bug
  else
    let entry := if flags ≠ 0 then pfnPte s.supportedPteMask (phys / pageSize) flags else 0
    .ok { s with pte := update s.pte (pteIndex (A.fixToVirt idx)) entry }

/-- The loop of `__early_ioremap`. -/
def setFixmaps (prot : ℕ) : ℕ → ℕ → ℕ → BtState → Exec BtState
  | _, _, 0, s => .ok s
  | idx, phys, nrpages + 1, s => do
    let s ← s.earlySetFixmap A idx phys prot
    setFixmaps prot (idx - 1) ((phys + pageSize) % 2 ^ 32) nrpages s

/-- The loop of `early_iounmap`. -/
def clearFixmaps : ℕ → ℕ → BtState → Exec BtState
  | _, 0, s => .ok s
  | idx, nrpages + 1, s => do
    let s ← s.earlySetFixmap A idx 0 0
    clearFixmaps (idx - 1) nrpages s

/-- The first slot whose `prev_map` is `addr`. -/
def findSlot (s : BtState) (addr : ℕ) : Option (Fin fixBtmapsSlots) :=
  (List.finRange fixBtmapsSlots).find? fun i => s.prevMap i = addr

/-- The number of pages `__early_ioremap` computes. -/
def ioremapPages (phys size : ℕ) : ℕ :=
  let lastAddr := sub32 (phys + size) 1
  sub32 (pageAlign ((lastAddr + 1) % 2 ^ 32)) (phys / pageSize * pageSize) / pageSize

/-- `__early_ioremap`: the address, or null. -/
def earlyIoremapProt (s : BtState) (phys size prot : ℕ) : Exec (ℕ × BtState) :=
  match s.findSlot 0 with
  | none => .ok (0, s)
  | some slot =>
    if size = 0 ∨ sub32 (phys + size) 1 < phys then .ok (0, s)
    else
      let s := { s with prevSize := update s.prevSize slot size }
      let nrpages := ioremapPages phys size
      if nrpages > nrFixBtmaps then .ok (0, s)
      else do
        let s ← s.setFixmaps A prot (A.fixBtmapBegin - nrFixBtmaps * slot)
          (phys / pageSize * pageSize) nrpages
        let addr := (phys % pageSize + A.slotVirt slot) % 2 ^ 32
        .ok (addr, { s with prevMap := update s.prevMap slot addr })

/-- `early_ioremap`. -/
def earlyIoremap (s : BtState) (phys size : ℕ) : Exec (ℕ × BtState) :=
  s.earlyIoremapProt A phys size pageKernel

/-- `early_memremap`. -/
def earlyMemremap (s : BtState) (phys size : ℕ) : Exec (ℕ × BtState) :=
  s.earlyIoremapProt A phys size pageKernel

/-- `early_iounmap`. -/
def earlyIounmap (s : BtState) (addr size : ℕ) : Exec BtState :=
  match s.findSlot addr with
  | none => .ok s
  | some slot =>
    if s.prevSize slot ≠ size then .ok s
    else if addr < A.fixToVirt A.fixBtmapBegin then .ok s
    else do
      let nrpages := pageAlign ((addr % pageSize + size) % 2 ^ 32) / pageSize
      let s ← s.clearFixmaps A (A.fixBtmapBegin - nrFixBtmaps * slot) nrpages
      .ok { s with prevMap := update s.prevMap slot 0 }

/-- `early_memunmap`. -/
def earlyMemunmap (s : BtState) (addr size : ℕ) : Exec BtState := s.earlyIounmap A addr size

/-- `probe_page_size_mask`. -/
def probePageSizeMask (s : BtState) (cpuHasPge : Bool) : BtState :=
  { s with supportedPteMask := probePteMask cpuHasPge s.supportedPteMask }

end BtState

end Sandix
