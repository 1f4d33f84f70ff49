import Sandix.Memblock.BootRun

/-!
# Mm/MemMap — the array of page descriptors

`alloc_node_mem_map` allocates a `struct page` for every frame of the node, from the last multiple of
`MAX_ORDER_NR_PAGES` up to its first frame on, and sets `mem_map`, the base `pfn_to_page` counts from.
The array begins at the frame `start`; `mem_map` should lie `start` descriptors before it, so that the
frame `pfn` is `mem_map + pfn`.  But the test for the correction asks `page_to_pfn` about the very
pointer it counts from, which is frame `0`, and what is taken off is the offset that was added:
`mem_map` is the array itself (`allocNodeMemMap_memMap`).

* `memMap_addressable_iff` — the descriptors of the node are addressable exactly when the node starts in
  the first block and its descriptors fit the signed half of the address space.
-/

namespace Sandix

open Machinery

/-- `MAX_ORDER_NR_PAGES`. -/
abbrev maxOrderNrPages : ℕ := 1 <<< 10

/-- `sizeof(struct page)`: its flags. -/
abbrev sizeofPage : ℕ := 4

/-- The fields of `struct pglist_data` that `alloc_node_mem_map` uses. -/
structure NodeMap where
  nodeId : ℤ
  nodeStartPfn : ℕ
  nodeSpannedPages : ℕ
  nodeMemMap : ℕ
deriving DecidableEq, Repr

/-- `ALIGN`. -/
def alignTo (x a : ℕ) : ℕ := roundDown ((x + sub32 a 1) % 2 ^ 32) a

/-- `pgdata_end_pfn`. -/
def pgdataEndPfn (pgdata : NodeMap) : ℕ := (pgdata.nodeStartPfn + pgdata.nodeSpannedPages) % 2 ^ 32

/-- `page + n`. -/
def pageAdd (page n : ℕ) : ℕ := (page + n * sizeofPage) % 2 ^ 32

/-- `page - n`. -/
def pageSub (page n : ℕ) : ℕ := sub32 page (n * sizeofPage)

/-- `__pfn_to_page`. -/
def pfnToPage (memMap pfn : ℕ) : ℕ := pageAdd memMap pfn

/-- `__page_to_pfn`: the difference of two pointers is signed. -/
def pageToPfn (memMap page : ℕ) : ℕ := u32 (int32 (sub32 page memMap) / sizeofPage)

/-- `memblock_virt_alloc_node_nopanic`. -/
def memblockVirtAllocNodeNopanic (env : BootEnv) (m : Memblock) (size : ℕ) (nid : ℤ) :
    Exec (ℕ × Memblock) :=
  memblockVirtAllocTryNidNopanic env m size 0 0 0 nid

/-- The first frame of the array. -/
def memMapStart (pgdata : NodeMap) : ℕ := roundDown pgdata.nodeStartPfn maxOrderNrPages

/-- The size of the array, in bytes. -/
def memMapSize (pgdata : NodeMap) : ℕ :=
  sub32 (alignTo (pgdataEndPfn pgdata) maxOrderNrPages) (memMapStart pgdata) * sizeofPage % 2 ^ 32

/-- `alloc_node_mem_map` on `NODE_DATA(0)`: the node, `mem_map`, and the allocator. -/
def allocNodeMemMap (env : BootEnv) (m : Memblock) (pgdata : NodeMap) (memMap : ℕ) :
    Exec (NodeMap × ℕ × Memblock) :=
  if pgdata.nodeSpannedPages = 0 then .ok (pgdata, memMap, m)
  else do
    let offset := sub32 pgdata.nodeStartPfn (memMapStart pgdata)
    let (pgdata, m) ←
      if pgdata.nodeMemMap = 0 then do
        let (map, m) ← memblockVirtAllocNodeNopanic env m (memMapSize pgdata) pgdata.nodeId
        pure ({ pgdata with nodeMemMap := pageAdd map offset }, m)
      else pure (pgdata, m)
    let memMap := pgdata.nodeMemMap
    let memMap :=
      if pageToPfn memMap memMap ≠ pgdata.nodeStartPfn then pageSub memMap offset else memMap
    pure (pgdata, memMap, m)

/-! ## What it is for -/

/-- The frames of the node have their descriptors in the array of `size` bytes at `map`: an element
each, one for every frame, and the frame can be told from it. -/
structure Addressable (memMap map size startPfn spannedPages : ℕ) : Prop where
  inside : ∀ pfn, startPfn ≤ pfn → pfn < startPfn + spannedPages →
    ∃ i, (i + 1) * sizeofPage ≤ size ∧ pfnToPage memMap pfn = map + i * sizeofPage
  distinct : ∀ pfn pfn', startPfn ≤ pfn → pfn < startPfn + spannedPages → startPfn ≤ pfn' →
    pfn' < startPfn + spannedPages → pfnToPage memMap pfn = pfnToPage memMap pfn' → pfn = pfn'
  roundTrip : ∀ pfn, startPfn ≤ pfn → pfn < startPfn + spannedPages →
    pageToPfn memMap (pfnToPage memMap pfn) = pfn

/-! ## Where `mem_map` points -/

variable {env : BootEnv} {m m' : Memblock} {pgdata : NodeMap} {map : ℕ}

theorem pageToPfn_self (page : ℕ) : pageToPfn page page = 0 := by
  have hzero : sub32 page page = 0 := by
    rw [sub32]
    omega
  rw [pageToPfn, hzero]
  rfl

theorem pageSub_pageAdd {page : ℕ} (h : page < 2 ^ 32) (n : ℕ) :
    pageSub (pageAdd page n) n = page := by
  rw [pageSub, pageAdd, sub32]
  omega

/-- **`mem_map` is the array**, wherever the node starts. -/
theorem allocNodeMemMap_memMap (hspan : pgdata.nodeSpannedPages ≠ 0)
    (hnull : pgdata.nodeMemMap = 0) (hmap : map < 2 ^ 32)
    (halloc : memblockVirtAllocNodeNopanic env m (memMapSize pgdata) pgdata.nodeId = .ok (map, m'))
    (memMap : ℕ) :
    ∃ pgdata', allocNodeMemMap env m pgdata memMap = .ok (pgdata', map, m') := by
  have hoff : pgdata.nodeStartPfn = 0 → sub32 pgdata.nodeStartPfn (memMapStart pgdata) = 0 := by
    intro h0
    rw [memMapStart, h0]
    decide
  simp only [allocNodeMemMap, if_neg hspan, if_pos hnull, halloc, Exec.ok_bind, Exec.pure_eq_ok,
    pageToPfn_self]
  have hmem : (if 0 ≠ pgdata.nodeStartPfn then
      pageSub (pageAdd map (sub32 pgdata.nodeStartPfn (memMapStart pgdata)))
        (sub32 pgdata.nodeStartPfn (memMapStart pgdata))
      else pageAdd map (sub32 pgdata.nodeStartPfn (memMapStart pgdata))) = map := by
    by_cases h0 : pgdata.nodeStartPfn = 0
    · rw [if_neg (by simpa using h0.symm), hoff h0, pageAdd, Nat.zero_mul, Nat.add_zero,
        Nat.mod_eq_of_lt hmap]
    · rw [if_pos (Ne.symm h0), pageSub_pageAdd hmap]
  rw [hmem]
  exact ⟨_, rfl⟩

/-! ## The array -/

/-- The array covers the blocks the node touches, in 32-bit arithmetic. -/
theorem memMapSize_eq (hstart : pgdata.nodeStartPfn < 2 ^ 32) :
    (memMapSize pgdata : ℤ) =
      (((pgdata.nodeStartPfn + pgdata.nodeSpannedPages + 1023) / 1024 * 1024 : ℕ) -
        (pgdata.nodeStartPfn / 1024 * 1024 : ℕ) : ℤ) % 2 ^ 32 * 4 % 2 ^ 32 := by
  have hblock : maxOrderNrPages = 2 ^ 10 := rfl
  have hmask : sub32 (2 ^ 10) 1 = 1023 := by decide
  have hx : ((pgdata.nodeStartPfn + pgdata.nodeSpannedPages) % 2 ^ 32 + 1023) % 2 ^ 32 < 2 ^ 32 :=
    Nat.mod_lt _ (by decide)
  rw [memMapSize, memMapStart, alignTo, pgdataEndPfn, hblock, hmask,
    roundDown_two_pow hstart (by decide), roundDown_two_pow hx (by decide), sub32]
  simp only [sizeofPage]
  omega

/-- The signed difference counts elements on both sides of the base. -/
theorem u32_int32_div_four (pfn : ℕ) : u32 (int32 (pfn * 4 % 2 ^ 32) / 4) = pfn ↔
    pfn < 2 ^ 29 ∨ 7 * 2 ^ 29 ≤ pfn ∧ pfn < 2 ^ 32 := by
  unfold u32 int32
  by_cases hneg : ((pfn * 4 % 2 ^ 32 : ℕ) : ℤ) % 2 ^ 32 < 2 ^ 31
  · rw [if_pos hneg]
    constructor
    · intro h
      omega
    · intro h
      omega
  · rw [if_neg hneg]
    constructor
    · intro h
      omega
    · intro h
      omega

/-- The frame read back from its descriptor. -/
theorem pageToPfn_pfnToPage (map pfn : ℕ) :
    pageToPfn map (pfnToPage map pfn) = pfn ↔
      pfn < 2 ^ 29 ∨ 7 * 2 ^ 29 ≤ pfn ∧ pfn < 2 ^ 32 := by
  have hsub : sub32 (pfnToPage map pfn) map = pfn * 4 % 2 ^ 32 := by
    rw [pfnToPage, pageAdd, sub32, show sizeofPage = 4 from rfl]
    omega
  rw [← u32_int32_div_four, pageToPfn, hsub]
  rfl

/-- Counted from the array itself, the frames of the node have their descriptors in it when it begins
at frame `0`, and only then: otherwise the last frame lies behind it. -/
theorem addressable_iff (hstart : pgdata.nodeStartPfn < 2 ^ 32) (hspan : pgdata.nodeSpannedPages ≠ 0)
    (hfit : map + memMapSize pgdata ≤ 2 ^ 32) :
    Addressable map map (memMapSize pgdata) pgdata.nodeStartPfn pgdata.nodeSpannedPages ↔
      pgdata.nodeStartPfn < maxOrderNrPages ∧
        pgdata.nodeStartPfn + pgdata.nodeSpannedPages ≤ 2 ^ 29 := by
  have hsize := memMapSize_eq hstart
  generalize memMapSize pgdata = size at *
  generalize pgdata.nodeStartPfn = start at *
  generalize pgdata.nodeSpannedPages = spanned at *
  rw [show maxOrderNrPages = 1024 from rfl]
  constructor
  · intro h
    have hfirst := (pageToPfn_pfnToPage map start).mp (h.roundTrip start le_rfl (by omega))
    have hlast := (pageToPfn_pfnToPage map (start + spanned - 1)).mp
      (h.roundTrip (start + spanned - 1) (by omega) (by omega))
    rcases hfirst with hlow | hhigh
    · have hend : start + spanned ≤ 2 ^ 29 := by
        by_contra hover
        have hmid := (pageToPfn_pfnToPage map (2 ^ 29)).mp
          (h.roundTrip (2 ^ 29) (by omega) (by omega))
        omega
      obtain ⟨i, hi, heq⟩ := h.inside (start + spanned - 1) (by omega) (by omega)
      rw [pfnToPage, pageAdd] at heq
      simp only [sizeofPage] at hi heq
      omega
    · obtain ⟨i, hi, heq⟩ := h.inside start le_rfl (by omega)
      rw [pfnToPage, pageAdd] at heq
      simp only [sizeofPage] at hi heq
      omega
  · rintro ⟨hblock, hend⟩
    have hpage : ∀ pfn < start + spanned, pfnToPage map pfn = map + pfn * 4 ∧ (pfn + 1) * 4 ≤ size := by
      intro pfn hpfn
      rw [pfnToPage, pageAdd]
      simp only [sizeofPage]
      omega
    refine ⟨fun pfn _ hpfn => ?_, fun pfn pfn' _ hpfn _ hpfn' heq => ?_, fun pfn _ hpfn => ?_⟩
    · exact ⟨pfn, (hpage pfn hpfn).2, (hpage pfn hpfn).1⟩
    · rw [(hpage pfn hpfn).1, (hpage pfn' hpfn').1] at heq
      omega
    · exact (pageToPfn_pfnToPage map pfn).mpr (Or.inl (by omega))

/-- The allocator hands out 32-bit addresses. -/
theorem memblockVirtAllocNodeNopanic_lt {size : ℕ} {nid : ℤ}
    (h : memblockVirtAllocNodeNopanic env m size nid = .ok (map, m')) : map < 2 ^ 32 := by
  have hdone : ∀ alloc, virtAllocDone m alloc size = .ok (map, m') → map < 2 ^ 32 := by
    intro alloc hret
    obtain ⟨⟨_, _⟩, -, hret⟩ := Exec.bind_eq_ok.mp hret
    obtain ⟨rfl, rfl⟩ := Prod.mk.inj (Except.ok.inj hret)
    exact Nat.mod_lt _ (by decide)
  simp only [memblockVirtAllocNodeNopanic, memblockVirtAllocTryNidNopanic,
    memblockVirtAllocInternal, ne_eq, not_true, if_false] at h
  cases hslab : env.slabIsAvailable with
  | true => simp [hslab] at h
  | false =>
    rw [hslab, if_neg (by decide)] at h
    obtain ⟨alloc, -, h⟩ := Exec.bind_eq_ok.mp h
    split_ifs at h with halloc
    · obtain ⟨rfl, rfl⟩ := Prod.mk.inj (Except.ok.inj h)
      decide
    · exact hdone alloc h

/-- **When the memory map is addressable.**  Once the array is allocated, at `map`, `mem_map` gives every
frame of the node a descriptor of its own in it exactly when the node starts in the first
`MAX_ORDER_NR_PAGES` frames and its descriptors fill at most 2 GiB. -/
theorem memMap_addressable_iff (hstart : pgdata.nodeStartPfn < 2 ^ 32)
    (hspan : pgdata.nodeSpannedPages ≠ 0) (hnull : pgdata.nodeMemMap = 0)
    (halloc : memblockVirtAllocNodeNopanic env m (memMapSize pgdata) pgdata.nodeId = .ok (map, m'))
    (hfit : map + memMapSize pgdata ≤ 2 ^ 32) (memMap : ℕ) :
    ∃ pgdata' memMap', allocNodeMemMap env m pgdata memMap = .ok (pgdata', memMap', m') ∧
      (Addressable memMap' map (memMapSize pgdata) pgdata.nodeStartPfn pgdata.nodeSpannedPages ↔
        pgdata.nodeStartPfn < maxOrderNrPages ∧
          pgdata.nodeStartPfn + pgdata.nodeSpannedPages ≤ 2 ^ 29) := by
  obtain ⟨pgdata', heq⟩ := allocNodeMemMap_memMap hspan hnull
    (memblockVirtAllocNodeNopanic_lt halloc) halloc memMap
  exact ⟨pgdata', map, heq, addressable_iff hstart hspan hfit⟩

/-- 16 MiB of RAM from 1 MiB on, none of it reserved. -/
def bootMemblock : Memblock := (bootInit bootMemory physMax).memblock

/-- The 16 MiB above 1 MiB. -/
theorem memMap_addressable_low :
    ∃ m' pgdata' memMap', allocNodeMemMap earlyEnv bootMemblock ⟨0, 0x100, 0x1000, 0⟩ 0 =
        .ok (pgdata', memMap', m') ∧
      Addressable memMap' 0xc10fb000 0x5000 0x100 0x1000 := by
  have hret : (memblockVirtAllocNodeNopanic earlyEnv bootMemblock 0x5000 0).toOption.map Prod.fst =
      some 0xc10fb000 := by decide +kernel
  rcases halloc : memblockVirtAllocNodeNopanic earlyEnv bootMemblock 0x5000 0 with e | ⟨map, m'⟩
  · rw [halloc] at hret
    cases hret
  · rw [halloc] at hret
    obtain rfl : map = 0xc10fb000 := Option.some.inj hret
    obtain ⟨pgdata', memMap', heq, hiff⟩ := memMap_addressable_iff
      (show (⟨0, 0x100, 0x1000, 0⟩ : NodeMap).nodeStartPfn < 2 ^ 32 by decide) (by decide) rfl
      halloc (by decide) 0
    exact ⟨m', pgdata', memMap', heq, hiff.mpr (by decide)⟩

/-- 4 MiB from 4 MiB on: the array has 1024 elements, and the frame 1024 is none of them. -/
theorem memMap_addressable_high :
    ∃ m' pgdata' memMap', allocNodeMemMap earlyEnv bootMemblock ⟨0, 0x400, 0x400, 0⟩ 0 =
        .ok (pgdata', memMap', m') ∧ memblockVirtAllocNodeNopanic earlyEnv bootMemblock 0x1000 0 =
        .ok (0xc10ff000, m') ∧
      ¬ Addressable memMap' 0xc10ff000 0x1000 0x400 0x400 := by
  have hret : (memblockVirtAllocNodeNopanic earlyEnv bootMemblock 0x1000 0).toOption.map Prod.fst =
      some 0xc10ff000 := by decide +kernel
  rcases halloc : memblockVirtAllocNodeNopanic earlyEnv bootMemblock 0x1000 0 with e | ⟨map, m'⟩
  · rw [halloc] at hret
    cases hret
  · rw [halloc] at hret
    obtain rfl : map = 0xc10ff000 := Option.some.inj hret
    obtain ⟨pgdata', heq⟩ := allocNodeMemMap_memMap
      (show (⟨0, 0x400, 0x400, 0⟩ : NodeMap).nodeSpannedPages ≠ 0 by decide) rfl (by decide) halloc 0
    refine ⟨m', pgdata', _, heq, rfl, fun h => ?_⟩
    obtain ⟨i, hi, hpage⟩ := h.inside 0x400 le_rfl (by decide)
    rw [show pfnToPage 0xc10ff000 0x400 = 0xc1100000 by decide] at hpage
    simp only [sizeofPage] at hi hpage
    omega

end Sandix
