import Mathlib
import Sandix.Mm.EarlyIoremap

/-!
# Mm/BtmapSlots — the slots of the early mappings

The slots are consecutive, in addresses and in `bm_pte` (`fixToVirt_eq`, `pteIndex_eq`), so a slot
owns 64 entries that no other slot touches.  `SlotOk` says what a slot and its entries hold: nothing,
or one mapping; `BtInv` that the mappings alive are those in the slots.
-/

namespace Sandix

open Machinery Function

variable {A : BtArea}

/-! ## Addresses, indices and entries -/

/-- The address of `FIX_BTMAP_BEGIN`, where the slots begin. -/
def BtArea.base (A : BtArea) : ℕ := A.fixaddrTop - (A.fixBtmapEnd + 511) * pageSize

/-- The entry of `FIX_BTMAP_BEGIN`. -/
def BtArea.baseEntry (A : BtArea) : ℕ := A.base / pageSize % 1024

theorem BtArea.base_facts (A : BtArea) : 0 < A.base ∧ A.base % pageSize = 0 ∧
    A.base + 512 * pageSize ≤ 2 ^ 32 ∧ A.baseEntry + 512 ≤ 1024 := by
  have h₁ := A.aligned
  have h₂ := A.top_lt
  have h₃ := A.above
  have h₄ := A.onePmd
  unfold BtArea.baseEntry BtArea.base
  simp only [pageSize] at *
  omega

theorem fixToVirt_eq (A : BtArea) {d : ℕ} (hd : d ≤ 511) :
    A.fixToVirt (A.fixBtmapBegin - d) = A.base + d * pageSize := by
  have h₂ := A.top_lt
  have h₃ := A.above
  unfold BtArea.fixToVirt BtArea.fixBtmapBegin BtArea.base sub32
  simp only [pageSize] at *
  omega

theorem slotVirt_eq (A : BtArea) (i : Fin fixBtmapsSlots) :
    A.slotVirt i = A.base + i * nrFixBtmaps * pageSize := by
  have hi : i.val < 8 := i.isLt
  have hd : i.val * 64 ≤ 511 := by omega
  unfold BtArea.slotVirt
  exact fixToVirt_eq A hd

/-- The entry of an address in the slots. -/
theorem pteIndex_eq (A : BtArea) {d r : ℕ} (hd : d ≤ 511) (hr : r < pageSize) :
    pteIndex (A.base + d * pageSize + r) = A.baseEntry + d := by
  obtain ⟨-, h₂, -, h₄⟩ := A.base_facts
  unfold pteIndex
  unfold BtArea.baseEntry at *
  simp only [pageSize] at *
  omega

/-- The fixmap index of an address in the slots. -/
theorem virtToFix_eq (A : BtArea) {d r : ℕ} (hd : d ≤ 511) (hr : r < pageSize) :
    A.virtToFix (A.base + d * pageSize + r) = A.fixBtmapBegin - d := by
  have h₁ := A.aligned
  have h₂ := A.top_lt
  have h₃ := A.above
  unfold BtArea.virtToFix BtArea.fixBtmapBegin BtArea.base sub32
  simp only [pageSize] at *
  omega

/-! ## Protections -/

/-- The mask keeps `__PAGE_PRESENT`. -/
def KeepsPresent (mask : ℕ) : Prop := mask &&& pagePresent ≠ 0

/-- `__supported_pte_mask` always does: `probe_page_size_mask` moves another bit. -/
theorem KeepsPresent.probe {mask : ℕ} (h : KeepsPresent mask) (cpuHasPge : Bool) :
    KeepsPresent (probePteMask cpuHasPge mask) := by
  have hglobal : pageGlobal &&& pagePresent = 0 := by decide
  have hothers : (2 ^ 32 - 1 - pageGlobal) &&& pagePresent = pagePresent := by decide
  unfold KeepsPresent probePteMask at *
  cases cpuHasPge with
  | true => rwa [if_pos rfl, Nat.and_or_distrib_right, hglobal, Nat.or_zero]
  | false => rwa [if_neg Bool.false_ne_true, Nat.and_assoc, hothers]

/-- A protection that is present stays present, and is a matter of the flags. -/
theorem massagePgprot_pageKernel {mask : ℕ} (h : KeepsPresent mask) :
    massagePgprot mask pageKernel < pageSize ∧ massagePgprot mask pageKernel % 2 = 1 := by
  have hmask : mask % 2 = 1 := by
    rw [KeepsPresent, pagePresent, Nat.and_one_is_mod] at h
    omega
  have hval : massagePgprot mask pageKernel = pageKernel &&& mask := if_pos (by decide)
  rw [hval]
  constructor
  · exact lt_of_le_of_lt Nat.and_le_left (by decide)
  · rw [← Nat.and_one_is_mod, Nat.and_assoc, Nat.and_one_is_mod mask, hmask]
    decide

/-- The page of an entry, and that it is present. -/
theorem pfnPte_pageKernel {mask pageNr : ℕ} (h : KeepsPresent mask) (hnr : pageNr < 2 ^ 20) :
    pfnPte mask pageNr pageKernel / pageSize = pageNr ∧ pfnPte mask pageNr pageKernel % 2 = 1 := by
  obtain ⟨hlt, hodd⟩ := massagePgprot_pageKernel h
  have hshift : (pageNr <<< pageShift) % 2 ^ 32 = pageNr <<< pageShift := by
    rw [Nat.shiftLeft_eq, pageShift]
    omega
  have hval : pfnPte mask pageNr pageKernel = pageNr * pageSize + massagePgprot mask pageKernel := by
    rw [pfnPte, hshift, ← Nat.shiftLeft_add_eq_or_of_lt hlt, Nat.shiftLeft_eq]
    rfl
  rw [hval]
  simp only [pageSize] at *
  omega

/-! ## The loops -/

namespace BtState

variable {s : BtState}

/-- A change of the entries alone. -/
def setPte (s : BtState) (pte : ℕ → ℕ) : BtState := { s with pte := pte }

@[simp] theorem setPte_prevMap (s : BtState) (pte : ℕ → ℕ) : (s.setPte pte).prevMap = s.prevMap := rfl

@[simp] theorem setPte_prevSize (s : BtState) (pte : ℕ → ℕ) :
    (s.setPte pte).prevSize = s.prevSize := rfl

@[simp] theorem setPte_pte (s : BtState) (pte : ℕ → ℕ) : (s.setPte pte).pte = pte := rfl

@[simp] theorem setPte_supportedPteMask (s : BtState) (pte : ℕ → ℕ) :
    (s.setPte pte).supportedPteMask = s.supportedPteMask := rfl

theorem earlySetFixmap_eq (A : BtArea) (s : BtState) {d phys flags : ℕ} (hd : d ≤ 511) :
    s.earlySetFixmap A (A.fixBtmapBegin - d) phys flags =
      .ok (s.setPte (update s.pte (A.baseEntry + d)
        (if flags ≠ 0 then pfnPte s.supportedPteMask (phys / pageSize) flags else 0))) := by
  have hidx : pteIndex (A.base + d * pageSize) = A.baseEntry + d := by
    simpa using pteIndex_eq A hd (r := 0) (by decide)
  unfold earlySetFixmap
  rw [if_neg (by omega)]
  simp only [fixToVirt_eq A hd, hidx, setPte]

/-- The entries after a run of pages from index `begin - d` on. -/
def pteAfter (A : BtArea) (pte : ℕ → ℕ) (d nrpages : ℕ) (entry : ℕ → ℕ) : ℕ → ℕ := fun j =>
  if A.baseEntry + d ≤ j ∧ j < A.baseEntry + d + nrpages then entry (j - (A.baseEntry + d)) else pte j

theorem pteAfter_zero (A : BtArea) (pte : ℕ → ℕ) (d : ℕ) (entry : ℕ → ℕ) :
    pteAfter A pte d 0 entry = pte := by
  funext j
  unfold pteAfter
  rw [if_neg (by omega)]

/-- The first page, and then the others. -/
theorem pteAfter_succ (A : BtArea) (pte : ℕ → ℕ) (d n : ℕ) (entry : ℕ → ℕ) :
    pteAfter A (update pte (A.baseEntry + d) (entry 0)) (d + 1) n (fun m => entry (m + 1)) =
      pteAfter A pte d (n + 1) entry := by
  funext j
  unfold pteAfter
  by_cases hj : j = A.baseEntry + d
  · subst hj
    rw [if_neg (by omega), if_pos (by omega), update_self, Nat.sub_self]
  · rw [update_of_ne hj]
    by_cases hin : A.baseEntry + (d + 1) ≤ j ∧ j < A.baseEntry + (d + 1) + n
    · have hsub : j - (A.baseEntry + (d + 1)) + 1 = j - (A.baseEntry + d) := by omega
      rw [if_pos hin, if_pos (by omega), ← hsub]
    · rw [if_neg hin, if_neg (by omega)]

/-- The entries a mapping of `phys` sets. -/
def mapEntry (mask prot phys m : ℕ) : ℕ := pfnPte mask (phys / pageSize + m) prot

theorem setFixmaps_eq (A : BtArea) {prot : ℕ} (hprot : prot ≠ 0) : ∀ {n d phys : ℕ} {s : BtState},
    d + n ≤ 512 → phys + n * pageSize ≤ 2 ^ 32 →
    s.setFixmaps A prot (A.fixBtmapBegin - d) phys n =
      .ok (s.setPte (pteAfter A s.pte d n (mapEntry s.supportedPteMask prot phys)))
  | 0, d, phys, s, _, _ => by
      rw [setFixmaps, pteAfter_zero]
      rfl
  | n + 1, d, phys, s, hd, hphys => by
      have hidx : A.fixBtmapBegin - d - 1 = A.fixBtmapBegin - (d + 1) := by omega
      rw [setFixmaps, earlySetFixmap_eq A s (by omega), if_pos hprot, Exec.ok_bind, hidx]
      -- the address after the last page may wrap, and nothing reads it
      rcases Nat.eq_zero_or_pos n with rfl | hn
      · rw [setFixmaps, ← pteAfter_succ, pteAfter_zero]
        simp only [mapEntry, setPte, add_zero]
      · have hmod : (phys + pageSize) % 2 ^ 32 = phys + pageSize := by
          simp only [pageSize] at *
          omega
        rw [hmod, setFixmaps_eq A hprot (by omega) (by simp only [pageSize] at *; omega),
          ← pteAfter_succ]
        have hentry : mapEntry s.supportedPteMask prot (phys + pageSize) =
            fun m => mapEntry s.supportedPteMask prot phys (m + 1) := by
          funext m
          unfold mapEntry
          rw [Nat.add_div_right phys (by decide), Nat.succ_add_eq_add_succ]
        rw [setPte_supportedPteMask, hentry]
        simp only [mapEntry, setPte, add_zero]

theorem clearFixmaps_eq (A : BtArea) : ∀ {n d : ℕ} {s : BtState}, d + n ≤ 512 →
    s.clearFixmaps A (A.fixBtmapBegin - d) n =
      .ok (s.setPte (pteAfter A s.pte d n fun _ => 0))
  | 0, d, s, _ => by
      rw [clearFixmaps, pteAfter_zero]
      rfl
  | n + 1, d, s, hd => by
      have hidx : A.fixBtmapBegin - d - 1 = A.fixBtmapBegin - (d + 1) := by omega
      rw [clearFixmaps, earlySetFixmap_eq A s (by omega), Exec.ok_bind, hidx,
        clearFixmaps_eq A (by omega), ← pteAfter_succ]
      rfl

end BtState

/-! ## What the slots hold -/

/-- A request: a physical address and a size. -/
structure BtMapping where
  phys : ℕ
  size : ℕ
deriving DecidableEq, Repr

/-- How far the request reaches into the pages it touches. -/
def BtMapping.extent (m : BtMapping) : ℕ := m.phys % pageSize + m.size

/-- The slot `i` holds `m`, or nothing. -/
def SlotOk (A : BtArea) (s : BtState) (i : Fin fixBtmapsSlots) : Option BtMapping → Prop
  | none => s.prevMap i = 0 ∧ ∀ d < nrFixBtmaps, s.pte (A.baseEntry + i * nrFixBtmaps + d) = 0
  | some m => (s.prevMap i = A.slotVirt i + m.phys % pageSize ∧ s.prevSize i = m.size) ∧
      (0 < m.size ∧ m.extent ≤ nrFixBtmaps * pageSize ∧ m.phys + m.size ≤ 2 ^ 32) ∧
      ∃ mask, KeepsPresent mask ∧ ∀ d < nrFixBtmaps, s.pte (A.baseEntry + i * nrFixBtmaps + d) =
        if d * pageSize < m.extent then BtState.mapEntry mask pageKernel m.phys d else 0

/-- A state, and the mappings alive in it by address: those a call returned and no call took back. -/
structure BtRun where
  st : BtState
  live : ℕ → Option BtMapping

/-- The mappings alive are those in the slots. -/
def BtInv (A : BtArea) (r : BtRun) : Prop :=
  KeepsPresent r.st.supportedPteMask ∧
  ∃ g : Fin fixBtmapsSlots → Option BtMapping, (∀ i, SlotOk A r.st i (g i)) ∧
    ∀ v m, r.live v = some m ↔ ∃ i, g i = some m ∧ v = r.st.prevMap i

section Slots

variable {s : BtState} {i : Fin fixBtmapsSlots} {m : BtMapping}

/-- An address of a mapping, by page. -/
theorem SlotOk.addr (h : SlotOk A s i (some m)) {k : ℕ} (hk : k < m.size) :
    ∃ d r, d < nrFixBtmaps ∧ r < pageSize ∧ d * pageSize + r = m.phys % pageSize + k ∧
      s.prevMap i + k = A.base + (i * nrFixBtmaps + d) * pageSize + r := by
  obtain ⟨⟨hmap, -⟩, ⟨-, hext, -⟩, -⟩ := h
  rw [slotVirt_eq] at hmap
  unfold BtMapping.extent at hext
  refine ⟨(m.phys % pageSize + k) / pageSize, (m.phys % pageSize + k) % pageSize, ?_, ?_, ?_, ?_⟩
  · rw [Nat.div_lt_iff_lt_mul (by decide)]
    omega
  · exact Nat.mod_lt _ (by decide)
  · exact Nat.div_add_mod' _ _
  · have hdiv := Nat.div_add_mod' (m.phys % pageSize + k) pageSize
    rw [hmap, Nat.add_mul]
    omega

theorem slot_page_le {d : ℕ} (hd : d < nrFixBtmaps) : i.val * nrFixBtmaps + d ≤ 511 := by
  have hi : i.val < 8 := i.isLt
  have hd' : d < 64 := hd
  show i.val * 64 + d ≤ 511
  omega

/-- The physical address an address translates to through `bm_pte`. -/
def BtState.translate (s : BtState) (va : ℕ) : Option ℕ :=
  let entry := s.pte (pteIndex va)
  if entry % 2 = 1 then some (entry / pageSize * pageSize + va % pageSize) else none

/-- The arithmetic of a translation: page `d` of the mapping, offset `r` in it. -/
theorem mapEntry_translate {mask phys base page d r k : ℕ} (hmask : KeepsPresent mask)
    (hnr : phys / pageSize + d < 2 ^ 20) (hbase : base % pageSize = 0) (hr : r < pageSize)
    (hdr : d * pageSize + r = phys % pageSize + k) :
    BtState.mapEntry mask pageKernel phys d / pageSize * pageSize +
      (base + page * pageSize + r) % pageSize = phys + k := by
  have hframe : BtState.mapEntry mask pageKernel phys d / pageSize = phys / pageSize + d :=
    (pfnPte_pageKernel hmask hnr).1
  have hoff : (base + page * pageSize + r) % pageSize = r := by
    simp only [pageSize] at *
    omega
  have hphys := Nat.div_add_mod' phys pageSize
  rw [hframe, hoff, Nat.add_mul]
  linarith

/-- **A mapping translates to what was asked for.** -/
theorem SlotOk.translate (h : SlotOk A s i (some m)) {k : ℕ} (hk : k < m.size) :
    s.translate (s.prevMap i + k) = some (m.phys + k) := by
  obtain ⟨d, r, hd, hr, hdr, haddr⟩ := h.addr hk
  obtain ⟨-, h₂, -⟩ := A.base_facts
  obtain ⟨mask, hmask, hpte⟩ := h.2.2
  have hin : d * pageSize < m.extent := by
    unfold BtMapping.extent
    omega
  have hnr : m.phys / pageSize + d < 2 ^ 20 := by
    have hend := h.2.1.2.2
    unfold BtMapping.extent at hin
    simp only [pageSize] at *
    omega
  have hentry := hpte d hd
  rw [if_pos hin] at hentry
  have hidx : pteIndex (s.prevMap i + k) = A.baseEntry + i * nrFixBtmaps + d := by
    rw [haddr, pteIndex_eq A (slot_page_le hd) hr, Nat.add_assoc]
  have hodd : BtState.mapEntry mask pageKernel m.phys d % 2 = 1 := (pfnPte_pageKernel hmask hnr).2
  have hsum : BtState.mapEntry mask pageKernel m.phys d / pageSize * pageSize +
      (s.prevMap i + k) % pageSize = m.phys + k := by
    rw [haddr]
    exact mapEntry_translate hmask hnr h₂ hr hdr
  simp only [BtState.translate, hidx, hentry, hodd, if_true, hsum]

theorem SlotOk.virtToFix (h : SlotOk A s i (some m)) {k : ℕ} (hk : k < m.size) :
    ∃ d < nrFixBtmaps, A.virtToFix (s.prevMap i + k) =
      A.fixBtmapBegin - (i * nrFixBtmaps + d) := by
  obtain ⟨d, r, hd, hr, -, haddr⟩ := h.addr hk
  exact ⟨d, hd, by rw [haddr, virtToFix_eq A (slot_page_le hd) hr]⟩

/-- The window of addresses a slot hands out. -/
theorem SlotOk.window (h : SlotOk A s i (some m)) :
    0 < s.prevMap i ∧ A.base + i * nrFixBtmaps * pageSize ≤ s.prevMap i ∧
      s.prevMap i < A.base + i * nrFixBtmaps * pageSize + pageSize := by
  have hbase := A.base_facts.1
  have hmod : m.phys % pageSize < pageSize := Nat.mod_lt _ (by decide)
  have hmap := h.1.1
  rw [slotVirt_eq] at hmap
  omega

/-- Two slots do not hand out one address. -/
theorem SlotOk.ne {j : Fin fixBtmapsSlots} {m' : BtMapping} (h : SlotOk A s i (some m))
    (h' : SlotOk A s j (some m')) (heq : s.prevMap i = s.prevMap j) : i = j := by
  have hw := h.window
  have hw' := h'.window
  simp only [nrFixBtmaps, pageSize] at hw hw'
  exact Fin.ext (by omega)

end Slots

/-- The pages a request touches. -/
def BtMapping.pages (m : BtMapping) : ℕ := (m.extent + (pageSize - 1)) / pageSize

/-- The request begins in the first page and ends in the last one. -/
def BtMapping.spansAll (m : BtMapping) : Prop :=
  m.phys < pageSize ∧ 0xfffff000 < m.phys + m.size ∧ m.phys + m.size ≤ 2 ^ 32

/-- The code counts the pages right, unless the request spans all of memory: then it counts none. -/
theorem ioremapPages_eq {m : BtMapping} (hsize : 0 < m.size) (hend : m.phys + m.size ≤ 2 ^ 32) :
    (¬ m.spansAll → BtState.ioremapPages m.phys m.size = m.pages) ∧
    (m.spansAll → BtState.ioremapPages m.phys m.size = 0) := by
  have hlast : sub32 (m.phys + m.size) 1 + 1 = m.phys + m.size := by
    unfold sub32
    omega
  unfold BtState.ioremapPages BtMapping.pages BtMapping.extent BtMapping.spansAll pageAlign
  simp only [hlast, pageSize]
  unfold sub32
  constructor
  · intro hspan
    omega
  · intro hspan
    omega

/-- The count of `early_iounmap` agrees. -/
theorem iounmapPages_eq {m : BtMapping} {addr : ℕ} (hext : m.extent ≤ nrFixBtmaps * pageSize)
    (haddr : addr % pageSize = m.phys % pageSize) :
    pageAlign ((addr % pageSize + m.size) % 2 ^ 32) / pageSize = m.pages := by
  unfold BtMapping.pages
  unfold BtMapping.extent at *
  unfold pageAlign
  simp only [nrFixBtmaps, pageSize] at *
  omega

/-! ## Mapping -/

section Map

variable {s : BtState} {i : Fin fixBtmapsSlots} {m : BtMapping}

theorem prevMap_of_findSlot {addr : ℕ} (h : s.findSlot addr = some i) : s.prevMap i = addr := by
  simpa using List.find?_some h

theorem findSlot_eq_none {addr : ℕ} : s.findSlot addr = none ↔ ∀ i, s.prevMap i ≠ addr := by
  simp [BtState.findSlot, List.find?_eq_none]

/-- A slot is what its own fields and entries are; the size of a free one does not matter. -/
theorem SlotOk.congr {s' : BtState} {o : Option BtMapping} (hmap : s'.prevMap i = s.prevMap i)
    (hsize : s.prevMap i ≠ 0 → s'.prevSize i = s.prevSize i)
    (hpte : ∀ d < nrFixBtmaps, s'.pte (A.baseEntry + i * nrFixBtmaps + d) =
      s.pte (A.baseEntry + i * nrFixBtmaps + d)) (h : SlotOk A s i o) : SlotOk A s' i o := by
  cases o with
  | none =>
    refine ⟨hmap.trans h.1, fun d hd => ?_⟩
    rw [hpte d hd]
    exact h.2 d hd
  | some m =>
    obtain ⟨mask, hmask, hentry⟩ := h.2.2
    refine ⟨⟨hmap.trans h.1.1, (hsize h.window.1.ne').trans h.1.2⟩, h.2.1, mask, hmask,
      fun d hd => ?_⟩
    rw [hpte d hd]
    exact hentry d hd

/-- A slot whose pointer is null holds nothing. -/
theorem SlotOk.eq_none {o : Option BtMapping} (h : SlotOk A s i o) (hnull : s.prevMap i = 0) :
    o = none := by
  cases o with
  | none => rfl
  | some m => exact absurd hnull h.window.1.ne'

/-- The pages of one slot are no pages of another. -/
theorem pteAfter_other {j : Fin fixBtmapsSlots} (hij : j ≠ i) {n : ℕ} (hn : n ≤ nrFixBtmaps)
    (pte entry : ℕ → ℕ) {d : ℕ} (hd : d < nrFixBtmaps) :
    BtState.pteAfter A pte (nrFixBtmaps * i) n entry (A.baseEntry + j * nrFixBtmaps + d) =
      pte (A.baseEntry + j * nrFixBtmaps + d) := by
  have hne : j.val ≠ i.val := fun hval => hij (Fin.ext hval)
  unfold BtState.pteAfter
  simp only [nrFixBtmaps] at *
  rw [if_neg (by omega)]

theorem pteAfter_self {n : ℕ} (pte entry : ℕ → ℕ) (d : ℕ) :
    BtState.pteAfter A pte (nrFixBtmaps * i) n entry (A.baseEntry + i * nrFixBtmaps + d) =
      if d < n then entry d else pte (A.baseEntry + i * nrFixBtmaps + d) := by
  unfold BtState.pteAfter
  simp only [nrFixBtmaps]
  by_cases hd : d < n
  · have hsub : A.baseEntry + i * 64 + d - (A.baseEntry + 64 * i) = d := by omega
    rw [if_pos hd, if_pos (by omega), hsub]
  · rw [if_neg hd, if_neg (by omega)]

theorem lt_pages_iff {d : ℕ} : d < m.pages ↔ d * pageSize < m.extent := by
  unfold BtMapping.pages
  simp only [pageSize]
  omega

/-- The address a slot hands out does not wrap. -/
theorem slotVirt_add (A : BtArea) (i : Fin fixBtmapsSlots) (phys : ℕ) :
    (phys % pageSize + A.slotVirt i) % 2 ^ 32 = A.slotVirt i + phys % pageSize := by
  have hi : i.val < 8 := i.isLt
  have hbase := A.base_facts.2.2.1
  rw [slotVirt_eq]
  simp only [nrFixBtmaps, pageSize] at *
  omega

/-- The state with `m` granted in the slot `i`, and `n` entries set for it. -/
def BtState.grant (A : BtArea) (s : BtState) (i : Fin fixBtmapsSlots) (m : BtMapping) (n : ℕ) :
    BtState where
  prevMap := update s.prevMap i (A.slotVirt i + m.phys % pageSize)
  prevSize := update s.prevSize i m.size
  pte := BtState.pteAfter A s.pte (nrFixBtmaps * i) n
    (BtState.mapEntry s.supportedPteMask pageKernel m.phys)
  supportedPteMask := s.supportedPteMask

/-- What `__early_ioremap` does in a free slot with a request it counts at most 64 pages for. -/
theorem earlyIoremapProt_eq (hslot : s.findSlot 0 = some i) (hsize : 0 < m.size)
    (hphys : m.phys < 2 ^ 32) (hend : m.phys + m.size ≤ 2 ^ 32)
    (hle : BtState.ioremapPages m.phys m.size ≤ nrFixBtmaps)
    (hpages : BtState.ioremapPages m.phys m.size ≤ m.pages) :
    s.earlyIoremapProt A m.phys m.size pageKernel =
      .ok (A.slotVirt i + m.phys % pageSize,
        s.grant A i m (BtState.ioremapPages m.phys m.size)) := by
  have hi : i.val < 8 := i.isLt
  have hlast : ¬ (m.size = 0 ∨ sub32 (m.phys + m.size) 1 < m.phys) := by
    unfold sub32
    omega
  have hentry : BtState.mapEntry s.supportedPteMask pageKernel (m.phys / pageSize * pageSize) =
      BtState.mapEntry s.supportedPteMask pageKernel m.phys := by
    funext d
    unfold BtState.mapEntry
    rw [Nat.mul_div_cancel _ (by decide)]
  have hroom : m.phys / pageSize * pageSize + m.pages * pageSize ≤ 2 ^ 32 := by
    unfold BtMapping.pages BtMapping.extent
    simp only [pageSize]
    omega
  unfold BtState.earlyIoremapProt
  simp only [hslot, if_neg hlast, if_neg (not_lt.mpr hle)]
  rw [BtState.setFixmaps_eq A (by decide) (by simp only [nrFixBtmaps] at *; omega)
    (le_trans (by gcongr) hroom), Exec.ok_bind, slotVirt_add, hentry]
  simp only [BtState.setPte_prevMap, BtState.setPte_prevSize, BtState.setPte_pte,
    BtState.setPte_supportedPteMask, BtState.grant]

/-- **A mapping goes into a free slot.** -/
theorem BtInv.mapped {r : BtRun} (h : BtInv A r) (hslot : r.st.findSlot 0 = some i)
    (hsize : 0 < m.size) (hend : m.phys + m.size ≤ 2 ^ 32) (hpages : m.pages ≤ nrFixBtmaps) :
    0 < A.slotVirt i + m.phys % pageSize ∧
    BtInv A ⟨r.st.grant A i m m.pages,
      update r.live (A.slotVirt i + m.phys % pageSize) (some m)⟩ := by
  obtain ⟨hmask, g, hok, hlive⟩ := h
  have hnull := prevMap_of_findSlot hslot
  have hg : g i = none := (hok i).eq_none hnull
  have hfree := hok i
  rw [hg] at hfree
  set addr := A.slotVirt i + m.phys % pageSize with haddr
  set st' := r.st.grant A i m m.pages with hst'
  have hi : SlotOk A st' i (some m) := by
    refine ⟨⟨update_self _ _ _, update_self _ _ _⟩, ⟨hsize, ?_, hend⟩, _, hmask, fun d hd => ?_⟩
    · unfold BtMapping.pages at hpages
      simp only [nrFixBtmaps, pageSize] at *
      omega
    · rw [hst', BtState.grant]
      simp only [pteAfter_self, lt_pages_iff, hfree.2 d hd]
  have hother : ∀ j, j ≠ i → SlotOk A st' j (g j) := by
    intro j hj
    refine SlotOk.congr (update_of_ne hj _ _) (fun _ => update_of_ne hj _ _) (fun d hd => ?_) (hok j)
    exact pteAfter_other hj hpages _ _ hd
  have hpos := hi.window.1
  have hmapi : st'.prevMap i = addr := update_self _ _ _
  rw [hmapi] at hpos
  refine ⟨hpos, hmask, update g i (some m), fun j => ?_, fun v m' => ?_⟩
  · by_cases hj : j = i
    · subst hj
      rw [update_self]
      exact hi
    · rw [update_of_ne hj]
      exact hother j hj
  · dsimp only
    by_cases hv : v = addr
    · subst hv
      rw [update_self, Option.some.injEq]
      constructor
      · rintro rfl
        exact ⟨i, by rw [update_self], hmapi.symm⟩
      · rintro ⟨j, hj, hjmap⟩
        by_cases hji : j = i
        · subst hji
          rw [update_self, Option.some.injEq] at hj
          exact hj
        · rw [update_of_ne hji] at hj
          have hjok := hother j hji
          rw [hj] at hjok
          exact absurd (hjok.ne hi (hjmap.symm.trans hmapi.symm)) hji
    · rw [update_of_ne hv, hlive v m']
      constructor
      · rintro ⟨j, hj, rfl⟩
        have hji : j ≠ i := by
          rintro rfl
          simp [hg] at hj
        exact ⟨j, by rw [update_of_ne hji, hj], (update_of_ne hji _ _).symm⟩
      · rintro ⟨j, hj, rfl⟩
        have hji : j ≠ i := by
          rintro rfl
          exact hv hmapi
        rw [update_of_ne hji] at hj
        exact ⟨j, hj, update_of_ne hji _ _⟩

/-- The requests `__early_ioremap` has to refuse. -/
def Refusable (s : BtState) (m : BtMapping) : Prop :=
  (∀ i, s.prevMap i ≠ 0) ∨ m.size = 0 ∨ 2 ^ 32 < m.phys + m.size ∨ nrFixBtmaps < m.pages

/-- A call that leaves the entries and the pointers leaves the mappings. -/
theorem BtInv.congr {r : BtRun} {s' : BtState} (h : BtInv A r) (hmap : s'.prevMap = r.st.prevMap)
    (hpte : s'.pte = r.st.pte) (hsize : ∀ j, r.st.prevMap j ≠ 0 → s'.prevSize j = r.st.prevSize j)
    (hmask : KeepsPresent s'.supportedPteMask) : BtInv A ⟨s', r.live⟩ := by
  obtain ⟨-, g, hok, hlive⟩ := h
  refine ⟨hmask, g, fun j => SlotOk.congr (congrFun hmap j) (hsize j) (fun d _ => ?_) (hok j), ?_⟩
  · rw [hpte]
  · intro v m
    simp only [hmap, hlive v m]

/-- **A refused request changes nothing**, unless it spans all of memory. -/
theorem earlyIoremapProt_refused (hphys : m.phys < 2 ^ 32) (hsize : m.size < 2 ^ 32)
    (href : Refusable s m) (hspan : ¬ (s.findSlot 0 ≠ none ∧ m.spansAll)) :
    ∃ s', s.earlyIoremapProt A m.phys m.size pageKernel = .ok (0, s') ∧
      s'.prevMap = s.prevMap ∧ s'.pte = s.pte ∧ s'.supportedPteMask = s.supportedPteMask ∧
      ∀ j, s.prevMap j ≠ 0 → s'.prevSize j = s.prevSize j := by
  unfold BtState.earlyIoremapProt
  cases hslot : s.findSlot 0 with
  | none => exact ⟨s, rfl, rfl, rfl, rfl, fun _ _ => rfl⟩
  | some i =>
    have hnull := prevMap_of_findSlot hslot
    dsimp only
    by_cases hbad : m.size = 0 ∨ sub32 (m.phys + m.size) 1 < m.phys
    · rw [if_pos hbad]
      exact ⟨s, rfl, rfl, rfl, rfl, fun _ _ => rfl⟩
    · rw [if_neg hbad]
      have hend : m.phys + m.size ≤ 2 ^ 32 := by
        unfold sub32 at hbad
        omega
      have hpages := (ioremapPages_eq (by omega) hend).1 fun hs => hspan ⟨by simp [hslot], hs⟩
      have hmany : nrFixBtmaps < m.pages := by
        rcases href with hfull | hzero | hwrap | hmany
        · exact absurd hnull (hfull i)
        · omega
        · omega
        · exact hmany
      rw [hpages, if_pos hmany]
      refine ⟨_, rfl, rfl, rfl, rfl, fun j hj => ?_⟩
      have hji : j ≠ i := by
        rintro rfl
        exact hj hnull
      exact update_of_ne hji _ _

end Map

/-! ## Unmapping -/

section Unmap

variable {r : BtRun} {addr size : ℕ}

/-- The entries a mapping set are those of its addresses. -/
theorem SlotOk.pte_iff {s : BtState} {i : Fin fixBtmapsSlots} {m : BtMapping}
    (h : SlotOk A s i (some m)) (j : ℕ) :
    (∃ k < m.size, j = pteIndex (s.prevMap i + k)) ↔
      A.baseEntry + nrFixBtmaps * i ≤ j ∧ j < A.baseEntry + nrFixBtmaps * i + m.pages := by
  constructor
  · rintro ⟨k, hk, rfl⟩
    obtain ⟨d, r, hd, hr, hdr, haddr⟩ := h.addr hk
    have hlt : d < m.pages := by
      rw [lt_pages_iff, BtMapping.extent]
      omega
    rw [haddr, pteIndex_eq A (slot_page_le hd) hr, Nat.mul_comm nrFixBtmaps]
    omega
  · rintro ⟨hlo, hhi⟩
    obtain ⟨d, rfl⟩ := Nat.exists_eq_add_of_le hlo
    have hd : d < m.pages := by omega
    have hd64 : d < nrFixBtmaps := by
      have hext := h.2.1.2.1
      unfold BtMapping.pages at hd
      simp only [nrFixBtmaps, pageSize] at *
      omega
    rw [lt_pages_iff, BtMapping.extent] at hd
    -- the first address of the mapping in page `d`
    refine ⟨d * pageSize - m.phys % pageSize, ?_, ?_⟩
    · have := h.2.1.1
      omega
    · have hmod : m.phys % pageSize < pageSize := Nat.mod_lt _ (by decide)
      have haddr : s.prevMap i + (d * pageSize - m.phys % pageSize) =
          A.base + (i * nrFixBtmaps + d) * pageSize + (m.phys % pageSize - d * pageSize) := by
        rw [h.1.1, slotVirt_eq, Nat.add_mul]
        rcases Nat.eq_zero_or_pos d with rfl | hpos
        · omega
        · have : pageSize ≤ d * pageSize := Nat.le_mul_of_pos_left _ hpos
          omega
      rw [haddr, pteIndex_eq A (slot_page_le hd64) (by omega), Nat.mul_comm nrFixBtmaps,
        Nat.add_assoc]

/-- The slot of a mapping is the one `early_iounmap` finds. -/
theorem findSlot_of_live {s : BtState} {g : Fin fixBtmapsSlots → Option BtMapping}
    {i : Fin fixBtmapsSlots} {m : BtMapping} (hok : ∀ j, SlotOk A s j (g j)) (hi : g i = some m) :
    s.findSlot (s.prevMap i) = some i := by
  have hoki : SlotOk A s i (some m) := hi ▸ hok i
  cases hslot : s.findSlot (s.prevMap i) with
  | none => exact absurd rfl (findSlot_eq_none.mp hslot i)
  | some j =>
    have hj := prevMap_of_findSlot hslot
    have hokj := hok j
    cases hgj : g j with
    | none =>
      rw [hgj] at hokj
      exact absurd (hj.symm.trans hokj.1) hoki.window.1.ne'
    | some m' =>
      rw [hgj] at hokj
      rw [hokj.ne hoki hj]

/-- **Unmapping takes a mapping out of its slot.** -/
theorem BtInv.unmapped (h : BtInv A r) {m : BtMapping} (hm : r.live addr = some m) :
    ∃ i s', r.st.earlyIounmap A addr m.size = .ok s' ∧ r.st.prevMap i = addr ∧
      s'.prevMap = update r.st.prevMap i 0 ∧
      (∀ j, s'.pte j = if ∃ k < m.size, j = pteIndex (addr + k) then 0 else r.st.pte j) ∧
      BtInv A ⟨s', update r.live addr none⟩ := by
  obtain ⟨hmask, g, hok, hlive⟩ := h
  obtain ⟨i, hg, rfl⟩ := (hlive addr m).mp hm
  have hi : SlotOk A r.st i (some m) := hg ▸ hok i
  have hilt : i.val < 8 := i.isLt
  have hwin := hi.window
  have hext := hi.2.1.2.1
  have hpages : m.pages ≤ nrFixBtmaps := by
    unfold BtMapping.pages
    simp only [nrFixBtmaps, pageSize] at *
    omega
  have hbegin : A.fixToVirt A.fixBtmapBegin = A.base := by
    simpa using fixToVirt_eq A (Nat.zero_le 511)
  have hmod : r.st.prevMap i % pageSize = m.phys % pageSize := by
    have hal := A.base_facts.2.1
    rw [hi.1.1, slotVirt_eq]
    simp only [nrFixBtmaps, pageSize] at *
    omega
  obtain ⟨pte', hpte'⟩ : ∃ pte', pte' =
      BtState.pteAfter A r.st.pte (nrFixBtmaps * i) m.pages fun _ => 0 := ⟨_, rfl⟩
  have hcall : r.st.earlyIounmap A (r.st.prevMap i) m.size =
      .ok ⟨update r.st.prevMap i 0, r.st.prevSize, pte', r.st.supportedPteMask⟩ := by
    unfold BtState.earlyIounmap
    simp only [findSlot_of_live hok hg, hi.1.2, hbegin]
    rw [if_neg (by simp), if_neg (by omega), iounmapPages_eq hext hmod,
      BtState.clearFixmaps_eq A (by simp only [nrFixBtmaps] at *; omega), Exec.ok_bind, ← hpte']
    simp only [BtState.setPte_prevMap, BtState.setPte_prevSize, BtState.setPte_pte,
      BtState.setPte_supportedPteMask]
  refine ⟨i, _, hcall, rfl, rfl, fun j => ?_, hmask, update g i none, fun j => ?_, fun v m' => ?_⟩
  · simp only [hpte', BtState.pteAfter, hi.pte_iff j]
  · by_cases hj : j = i
    · subst hj
      rw [update_self]
      refine ⟨update_self _ _ _, fun d hd => ?_⟩
      obtain ⟨mask, -, hentry⟩ := hi.2.2
      simp only [hpte', pteAfter_self, lt_pages_iff, hentry d hd]
      split_ifs <;> rfl
    · rw [update_of_ne hj]
      refine SlotOk.congr (update_of_ne hj _ _) (fun _ => rfl) (fun d hd => ?_) (hok j)
      show pte' _ = _
      rw [hpte', pteAfter_other hj hpages _ _ hd]
  · dsimp only
    by_cases hv : v = r.st.prevMap i
    · subst hv
      rw [update_self]
      refine iff_of_false (by simp) ?_
      rintro ⟨j, hj, hjmap⟩
      by_cases hji : j = i
      · subst hji
        simp at hj
      · rw [update_of_ne hji] at hj hjmap
        exact hji ((hj ▸ hok j : SlotOk A r.st j (some m')).ne hi hjmap.symm)
    · rw [update_of_ne hv, hlive v m']
      constructor
      · rintro ⟨j, hj, rfl⟩
        have hji : j ≠ i := by
          rintro rfl
          exact hv rfl
        exact ⟨j, by rw [update_of_ne hji, hj], (update_of_ne hji _ _).symm⟩
      · rintro ⟨j, hj, rfl⟩
        have hji : j ≠ i := by
          rintro rfl
          simp at hj
        rw [update_of_ne hji] at hj
        exact ⟨j, hj, update_of_ne hji _ _⟩

/-- An address and a size that name no mapping. -/
theorem BtInv.unmap_unknown (h : BtInv A r)
    (hno : ∀ m, r.live addr = some m → m.size ≠ size) :
    r.st.earlyIounmap A addr size = .ok r.st := by
  obtain ⟨-, g, hok, hlive⟩ := h
  unfold BtState.earlyIounmap
  cases hslot : r.st.findSlot addr with
  | none => rfl
  | some i =>
    have hi := prevMap_of_findSlot hslot
    have hoki := hok i
    dsimp only
    cases hg : g i with
    | none =>
      rw [hg] at hoki
      have hzero : addr = 0 := hi.symm.trans hoki.1
      have hbase := A.base_facts.1
      have hbegin : A.fixToVirt A.fixBtmapBegin = A.base := by
        simpa using fixToVirt_eq A (Nat.zero_le 511)
      split_ifs with h₁ h₂
      · rfl
      · rfl
      · omega
    | some m =>
      rw [hg] at hoki
      have hm : r.live addr = some m := (hlive addr m).mpr ⟨i, hg, hi.symm⟩
      rw [if_pos]
      rw [hoki.1.2]
      exact hno m hm

end Unmap

end Sandix
