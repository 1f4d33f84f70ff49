import Sandix.Boot.Brk
import Sandix.E820.Fill
import Sandix.E820.Setup
import Sandix.Memblock.BootRam
import Sandix.Memblock.TrimCore

/-!
# Boot/Memory — from the BIOS map to a block of boot memory

The steps of `arch_setup` that decide what memory there is: the kernel image is reserved, the BIOS map
becomes `e820`, the brk area is used for the first page tables and reserved, and the RAM of `e820` fills
`memblock.memory`.  From then on the allocators run, in any order.

An address is RAM when the largest type the BIOS gives it is `E820_RAM` (`TopRam`).  The part of
`memblock.memory` in a page is all of it or nothing, and it is all of it exactly on the pages that are
RAM throughout (`SetUp`): provided the last page below 4 GiB is not RAM, as the BIOS ROM is there.

* `archSetupMemory_setUp` — what the setup leaves in `memblock`.
* `bootRun_blocks` — whatever the BIOS answers, and whatever is allocated then: every block handed out is
  RAM, and meets neither the kernel, nor the brk area, nor a block or range that is still held.
-/

namespace Sandix

open Machinery

/-! ## What is RAM -/

/-- The largest type of the entries that cover `a` is `E820_RAM`. -/
def TopRam (es : List E820Entry) (a : ℕ) : Prop :=
  IsGreatest {t | ∃ x ∈ es, x.Has a ∧ x.type = t} e820Ram

/-- Every address of the page of `a` is RAM. -/
def RamPage (es : List E820Entry) (a : ℕ) : Prop := ∀ b, b / pageSize = a / pageSize → TopRam es b

/-- No RAM in the last page below 4 GiB. -/
def TopPageFree (es : List E820Entry) : Prop := ∀ a, 0xfffff000 ≤ a → a < 2 ^ 32 → ¬TopRam es a

namespace IsOverlay

variable {es overlay : List E820Entry} (h : IsOverlay es overlay) {a : ℕ}

include h

theorem has_ram_iff : (∃ y ∈ overlay, y.Has a ∧ y.type = e820Ram) ↔ TopRam es a := by
  constructor
  · rintro ⟨y, hy, hya, hram⟩
    rw [TopRam, ← hram]
    exact h.type y hy a hya
  · intro htop
    obtain ⟨x, hx, hxa, hxt⟩ := htop.1
    obtain ⟨y, hy, hya⟩ := (h.covers a).mpr ⟨x, hx, hxa, by rw [hxt]; decide⟩
    exact ⟨y, hy, hya, (h.type y hy a hya).unique htop⟩

/-- The copied part of the overlay is a sanitized map. -/
theorem sanitized (hes : ∀ x ∈ es, x.limit < 2 ^ 64) : Sanitized (overlay.take 128) where
  sorted := (ascending_iff.mp h.ascending).2.sublist (List.take_sublist 128 overlay)
  noWrap _ hx := h.limit_lt hes (List.mem_of_mem_take hx)
  length_le := by
    have := List.length_take_le 128 overlay
    rw [e820Max]
    omega

theorem topRam_of_usable (hu : UsableRam (overlay.take 128) a) : TopRam es a ∧ a < 2 ^ 32 := by
  obtain ⟨y, hy, ⟨hram, hlim⟩, hya⟩ := hu
  exact ⟨h.has_ram_iff.mp ⟨y, List.mem_of_mem_take hy, hya, hram⟩, hya.2.trans hlim⟩

/-- When nothing was cut off, all RAM below 4 GiB is usable. -/
theorem usable_of_topRam (hlen : overlay.length ≤ 128) (hfree : TopPageFree es) (ha : a < 2 ^ 32)
    (htop : TopRam es a) : UsableRam (overlay.take 128) a := by
  obtain ⟨y, hy, hya, hram⟩ := h.has_ram_iff.mpr htop
  refine ⟨y, by rwa [List.take_of_length_le hlen], ⟨hram, ?_⟩, hya⟩
  by_contra hge
  refine hfree (2 ^ 32 - 1) (by decide) (by decide) (h.has_ram_iff.mp ⟨y, hy, ⟨?_, ?_⟩, hram⟩)
  · exact hya.1.trans (Nat.le_sub_one_of_lt ha)
  · exact (Nat.sub_one_lt (by decide)).trans_le (not_lt.mp hge)

end IsOverlay

/-! ## The setup -/

/-- What the linker and the bootloader fix: the physical range of the kernel image, and the limit of the
brk area. -/
structure KernelImage where
  base : ℕ
  size : ℕ
  brkLimit : ℕ

/-- `early_alloc_pgt_buf`: `pgt_buf_start`, which is also `pgt_buf_end`, and `pgt_buf_top`. -/
def earlyAllocPgtBuf (limit : ℕ) (brk : Brk) : Exec ((ℕ × ℕ) × Brk) := do
  let (ret, brk) ← extendBrk limit brk (6 * pageSize) pageSize
  let start := virtToPhys ret >>> pageShift
  pure ((start, start + 6), brk)

/-- What `arch_setup` has in hand. -/
structure Setup where
  maps : BootE820
  brk : Brk
  pgtBuf : ℕ × ℕ
  memblock : Memblock

/-- The steps of `arch_setup` up to `memblock_x86_fill` that concern memory. -/
def archSetupMemory (img : KernelImage) (newBios : ℕ → E820Entry) (maps : BootE820) (brk : Brk)
    (m : Memblock) : Exec Setup := do
  let (_, m) ← memblockReserve m img.base img.size
  let maps ← setupMemoryMap newBios maps
  let (pgtBuf, brk) ← earlyAllocPgtBuf img.brkLimit brk
  let (brk, m) ← memblockReserveBrk brk m
  let m ← memblockX86Fill maps.e820.map maps.e820.nrEntries m
  pure ⟨maps, brk, pgtBuf, m⟩

/-- The entries in `boot_params`. -/
def BootE820.reported (maps : BootE820) : List E820Entry := (List.range maps.nrParams).map maps.params

/-- **What the setup leaves.**  `memblock.memory` is made of pages of RAM, and of all of them when nothing
was cut off; the kernel image and the used part of the brk area are reserved; and the buffer for the first
page tables lies in that part. -/
structure SetUp (img : KernelImage) (es : List E820Entry) (brk : Brk) (r : Setup) : Prop where
  ok : MemblockOk r.memblock
  ram : ∀ a, r.memblock.memory.Covers a → RamPage es a
  all : es.length ≤ 64 → ∀ a < 2 ^ 32, RamPage es a → r.memblock.memory.Covers a
  image : ∀ a, img.base ≤ a → a < img.base + img.size → a < physMax → r.memblock.reserved.Covers a
  area : ∀ x, brk.start ≤ x → x < r.brk.stop → r.memblock.reserved.Covers (virtToPhys x)
  stop_le : r.brk.stop ≤ img.brkLimit
  pgtBuf : r.pgtBuf.2 = r.pgtBuf.1 + 6 ∧ brk.stop ≤ physToVirt (r.pgtBuf.1 <<< pageShift) ∧
    physToVirt (r.pgtBuf.1 <<< pageShift) + 6 * pageSize ≤ r.brk.stop

section Setup

variable {img : KernelImage} {newBios : ℕ → E820Entry} {maps : BootE820} {brk : Brk}

/-- The first reservation finds an empty array. -/
theorem reserve_first (base size : ℕ) : ∃ m, memblockReserve initMemblock base size = .ok (0, m) ∧
    MemblockOk m ∧ m.memory = initMemblock.memory ∧ m.reserved.nrRegions = 1 ∧
    m.reserved.max = initMemblockRegions ∧
    ∀ a, base ≤ a → a < base + size → a < physMax → m.reserved.Covers a := by
  obtain ⟨m, hres, hok, hmem, -, hcov⟩ := memblockReserve_roomy memblockOk_init (by decide) base size
  refine ⟨m, hres, hok, hmem, ?_, hok.reserved_max, hcov⟩
  rw [memblockReserve, Memblock.onReserved, memblockAddRange] at hres
  dsimp only at hres
  split_ifs at hres with hsize hempty
  · cases hres
    rfl
  · cases hres
    rfl
  · exact absurd rfl hempty

/-- The buffer for the first page tables. -/
theorem earlyAllocPgtBuf_spec (h : BrkOpen img.brkLimit brk) (hkernel : pageOffset ≤ brk.start)
    (hbuf : Modest img.brkLimit (6 * pageSize, pageSize)) :
    Exec.Safe (earlyAllocPgtBuf img.brkLimit brk) fun r => BrkOpen img.brkLimit r.2 ∧
      r.2.start = brk.start ∧ r.1.2 = r.1.1 + 6 ∧ brk.stop ≤ physToVirt (r.1.1 <<< pageShift) ∧
      physToVirt (r.1.1 <<< pageShift) + 6 * pageSize ≤ r.2.stop := by
  rw [earlyAllocPgtBuf]
  have hlimit : img.brkLimit < 2 ^ 32 := by
    have := hbuf.2
    dsimp only [pageSize] at this
    linarith
  rcases extendBrk_cases h hbuf with
    hbug | ⟨ret, s', hok, hopen, hstart, hstop, hcarved, -⟩
  · rw [hbug]
    exact .bug
  · have hlo := hcarved.lo_le
    have hhi := hcarved.le_hi
    have hlim := hopen.stop_le
    have hle := h.start_le
    dsimp only at hlo hhi
    obtain ⟨q, rfl⟩ : pageSize ∣ ret := hcarved.aligned
    rw [pageSize] at *
    rw [pageOffset] at hkernel
    have hphys : virtToPhys (4096 * q) = 4096 * (q - 0xc0000) := by
      rw [virtToPhys, sub32, pageOffset]
      omega
    have hpfn : virtToPhys (4096 * q) >>> pageShift = q - 0xc0000 := by
      rw [hphys, Nat.shiftRight_eq_div_pow]
      exact Nat.mul_div_cancel_left _ (by decide)
    have hvirt : physToVirt ((q - 0xc0000) <<< pageShift) = 4096 * q := by
      rw [physToVirt, Nat.shiftLeft_eq, pageOffset, show 2 ^ pageShift = 4096 from rfl]
      omega
    rw [hok, Exec.ok_bind]
    dsimp only
    rw [hpfn]
    refine .ok ⟨hopen, hstart, rfl, ?_, ?_⟩
    · dsimp only
      rw [hvirt]
      exact hlo
    · dsimp only
      rw [hvirt]
      exact hhi

/-- Unless the kernel panics, `e820` is an overlay, cut at `E820MAX`. -/
theorem setupMemoryMap_safe (hfit : ∀ i, (maps.params i).Fits) (hn : maps.nrParams ≤ 128)
    (hempty : maps.e820.nrEntries = 0) :
    Exec.Safe (setupMemoryMap newBios maps) fun maps' => ∃ overlay,
      IsOverlay maps.reported overlay ∧ overlay.length ≤ 2 * maps.nrParams ∧
      maps'.e820.entries = overlay.take 128 ∧ ∀ x ∈ maps.reported, x.limit < 2 ^ 64 := by
  by_cases hbad : maps.nrParams < 2 ∨ ∃ i < maps.nrParams, (maps.params i).stop < (maps.params i).addr
  · rw [setupMemoryMap_refused hn hbad]
    exact .panic
  · push Not at hbad
    obtain ⟨overlay, hover, hlen, hshort, hlong⟩ :=
      @setupMemoryMap_cases newBios maps hfit hbad.1 hn hbad.2 hempty
    rcases lt_or_ge overlay.length 2 with h₂ | h₂
    · rw [hshort h₂]
      exact .panic
    · obtain ⟨maps', hok, hent, -⟩ := hlong h₂
      rw [hok]
      refine .ok ⟨overlay, hover, hlen, hent, fun x hx => ?_⟩
      obtain ⟨i, hi, rfl⟩ := List.mem_map.mp hx
      have h₁ := hbad.2 i (List.mem_range.mp hi)
      have h₂ := hfit i
      unfold E820Entry.stop at h₁
      unfold E820Entry.Fits at h₂
      unfold E820Entry.limit
      omega

/-- Filling `memblock.memory` from an overlay. -/
theorem memblockX86Fill_overlay {es overlay : List E820Entry} {e : E820Map} {m : Memblock}
    (h : IsOverlay es overlay) (hes : ∀ x ∈ es, x.limit < 2 ^ 64) (he : e.entries = overlay.take 128)
    (hfree : TopPageFree es) (hm : MemblockOk m) (hmem : m.memory = initMemblock.memory) :
    ∃ t, memblockX86Fill e.map e.nrEntries m = .ok { m with memory := t } ∧
      MemblockOk { m with memory := t } ∧ (∀ a, t.Covers a → RamPage es a) ∧
      (overlay.length ≤ 128 → ∀ a < 2 ^ 32, RamPage es a → t.Covers a) := by
  have hnone : ∀ a, ¬m.memory.Covers a := by
    rintro a ⟨r, hr, -, ha⟩
    rw [hmem] at hr
    rw [List.mem_singleton.mp hr] at ha
    exact absurd ha (Nat.not_lt_zero a)
  obtain ⟨t, hrun, hinv⟩ := FillInv.run (overlay.take 128) (FillInv.init hm hnone)
    (by rw [List.nil_append]; exact h.sanitized hes)
  rw [List.nil_append] at hinv
  have hlast : ∀ a, 0xfffff000 ≤ a → UsableRam (overlay.take 128) (a + 1) →
      UsableRam (overlay.take 128) a := by
    intro a ha hu
    obtain ⟨htop, hlt⟩ := h.topRam_of_usable hu
    exact absurd htop (hfree (a + 1) (by omega) hlt)
  obtain ⟨t', htrim, hcovers⟩ := memblockTrimMemory_covers (m := { m with memory := t })
    hinv.wellFormed hinv.separated fun r hr => hinv.base_le hlast hr
  refine ⟨t', ?_, ?_, fun a ha b hb => ?_, fun hlen a ha hpage => ?_⟩
  · rw [memblockX86Fill]
    change (e.entries.foldlM x86FillStep m >>= _) = _
    rw [he, hrun, Exec.ok_bind, htrim]
  · obtain ⟨t'', htrim', hmax, -, ht⟩ :=
      memblockTrimMemory_eq (m := { m with memory := t }) pageSize hinv.wellFormed
    cases htrim.symm.trans htrim'
    exact ⟨(memblockTrimMemory_trimmed (m := { m with memory := t }) (k := 12) hinv.wellFormed
      (by decide) (fun r hr => hinv.base_le hlast hr) hmax ht).wellFormed, hm.reserved,
      hmax.trans hinv.max_eq, hm.reserved_max⟩
  · exact (h.topRam_of_usable (hinv.covers_iff.mp ((hcovers a).mp ha b hb))).1
  · refine (hcovers a).mpr fun b hb => hinv.covers_iff.mpr ?_
    have hb' : b < 2 ^ 32 := by
      rw [pageSize] at hb
      omega
    exact h.usable_of_topRam hlen hfree hb' (hpage b hb)

/-- **The setup**, with whatever the BIOS reported: the kernel stops, or `memblock` is set up. -/
theorem archSetupMemory_setUp (hfit : ∀ i, (maps.params i).Fits) (hn : maps.nrParams ≤ 128)
    (hempty : maps.e820.nrEntries = 0) (hfree : TopPageFree maps.reported)
    (hbrk : BrkOpen img.brkLimit brk) (hkernel : pageOffset ≤ brk.start)
    (hbuf : Modest img.brkLimit (6 * pageSize, pageSize)) :
    Exec.Safe (archSetupMemory img newBios maps brk initMemblock) (SetUp img maps.reported brk) := by
  have hlimit : img.brkLimit < 2 ^ 32 := by
    have := hbuf.2
    dsimp only [pageSize] at this
    linarith
  obtain ⟨m₁, hres, hok₁, hmem₁, hnr, hmax, himage⟩ := reserve_first img.base img.size
  rw [archSetupMemory, hres, Exec.ok_bind]
  refine (setupMemoryMap_safe hfit hn hempty).bind fun maps' hmaps => ?_
  obtain ⟨overlay, hover, hlen, hent, hes⟩ := hmaps
  refine (earlyAllocPgtBuf_spec hbrk hkernel hbuf).bind ?_
  rintro ⟨pgtBuf, brk'⟩ ⟨hopen, hstart, hpgt⟩
  dsimp only at hopen hstart hpgt ⊢
  obtain ⟨m₂, hres₂, hok₂, hmem₂, hkeep₂, harea⟩ := memblockReserveBrk_spec hopen hlimit
    (hstart ▸ hkernel) hok₁ (by rw [hnr, hmax]; decide)
  rw [hres₂, Exec.ok_bind]
  dsimp only
  obtain ⟨t, hfill, hok₃, hram, hall⟩ := memblockX86Fill_overlay hover hes hent hfree hok₂
    (hmem₂.trans hmem₁)
  rw [hfill]
  refine .ok ⟨hok₃, hram, fun hnum a ha hpage => hall ?_ a ha hpage, fun a ha ha' hmax => ?_,
    fun x hx hx' => ?_, hopen.stop_le, hpgt⟩
  · rw [BootE820.reported, List.length_map, List.length_range] at hnum
    exact hlen.trans (Nat.mul_le_mul_left 2 hnum)
  · exact hkeep₂ a (himage a ha ha' hmax)
  · exact harea x (hstart ▸ hx) hx'

end Setup

/-! ## The allocators -/

/-- The state the allocators start from: the kernel image and the brk area are held, and the limit is
what has been mapped. -/
def Setup.bootState (r : Setup) (img : KernelImage) (brk : Brk) (limit : ℕ) : BootState :=
  ⟨{ r.memblock with currentLimit := limit },
    [⟨false, virtToPhys brk.start, r.brk.stop - brk.start, []⟩, ⟨false, img.base, img.size, []⟩]⟩

/-- What stays of an entry of the log when something is freed. -/
def Held.key (e : Held) : Bool × ℕ × ℕ := (e.isBlock, e.base, e.size)

/-- A call adds to the log, and else only notes what it freed. -/
theorem Outcome.record_suffix (outcome : Outcome) (log : List Held) :
    ∃ newer older, outcome.record log = newer ++ older ∧ older.map Held.key = log.map Held.key := by
  cases outcome with
  | block base size => exact ⟨[_], log, rfl, rfl⟩
  | range base size => exact ⟨[_], log, rfl, rfl⟩
  | freed base size => exact ⟨[], _, rfl, List.map_map⟩
  | nothing => exact ⟨[], log, rfl, rfl⟩

theorem runBoot_suffix : ∀ {steps : List BootStep} {s s' : BootState}, runBoot steps s = .ok s' →
    ∃ newer older, s'.log = newer ++ older ∧ older.map Held.key = s.log.map Held.key
  | [], s, s', h => by
      cases h
      exact ⟨[], s.log, rfl, rfl⟩
  | step :: steps, s, s', h => by
      obtain ⟨s₁, hstep, hrun⟩ := Exec.bind_eq_ok.mp h
      obtain ⟨⟨outcome, m⟩, -, heq⟩ := Exec.bind_eq_ok.mp hstep
      obtain ⟨newer, older, hlog, hkeys⟩ := runBoot_suffix hrun
      cases heq
      obtain ⟨newer', older', hlog', hkeys'⟩ := outcome.record_suffix s.log
      dsimp only at hkeys
      rw [hlog', List.map_append] at hkeys
      obtain ⟨l₁, l₂, rfl, -, hl₂⟩ := List.map_eq_append_iff.mp hkeys
      exact ⟨newer ++ l₁, l₂, by rw [hlog, List.append_assoc], hl₂.trans hkeys'⟩

/-- The setup, with the map the BIOS reports, and then a run of the allocators. -/
def bootRun {β : Type} (int15 : β → ℕ → E820Entry → BiosReply β) (bios : β) (img : KernelImage)
    (newBios : ℕ → E820Entry) (brk : Brk) (limit : ℕ) (steps : List BootStep) :
    Exec (Setup × BootState) := do
  let r ← archSetupMemory img newBios (detected (detectMemoryE820 int15 bios)) brk initMemblock
  let s ← runBoot steps (r.bootState img brk limit)
  pure (r, s)

/-- **What the allocators have handed out**: RAM; and what is live of it is nobody else's — neither of the
kernel image and the brk area, as long as they are held, nor of an older block or range. -/
structure BlocksSound (es : List E820Entry) (img : KernelImage) (brk : Brk) (r : Setup) (s : BootState) :
    Prop where
  ram : ∀ e ∈ s.log, e.isBlock = true → ∀ a, e.base ≤ a → a < e.base + e.size → TopRam es a
  noOverlap : NoOverlap s
  held : ∃ newer area image, s.log = newer ++ [area, image] ∧
    (area.base = virtToPhys brk.start ∧ area.size = r.brk.stop - brk.start) ∧
    (image.base = img.base ∧ image.size = img.size) ∧
    ∀ e ∈ newer, e.isBlock = true → ∀ a, e.Live a → ¬area.Live a ∧ ¬image.Live a

section Run

variable {img : KernelImage} {brk : Brk} {es : List E820Entry} {r : Setup} {limit : ℕ}
  {steps : List BootStep}

/-- The state the allocators start from keeps what they keep. -/
theorem SetUp.bootInv (h : SetUp img es brk r) (hkernel : pageOffset ≤ brk.start)
    (hstop : r.brk.stop < 2 ^ 32) : BootInv (r.bootState img brk limit) where
  ok := ⟨h.ok.memory, h.ok.reserved, h.ok.memory_max, h.ok.reserved_max⟩
  covered := by
    intro e he a ha hmax
    rcases List.mem_cons.mp he with rfl | he
    · obtain ⟨⟨hlo, hhi⟩, -⟩ := ha
      dsimp only at hlo hhi
      rw [pageOffset] at hkernel
      have hphys : virtToPhys brk.start = brk.start - pageOffset := by
        rw [virtToPhys, sub32, pageOffset]
        omega
      rw [hphys, pageOffset] at hlo hhi
      have hcov := h.area (a + pageOffset) (by rw [pageOffset]; omega) (by rw [pageOffset]; omega)
      have hback : virtToPhys (a + pageOffset) = a := by
        rw [virtToPhys, sub32, pageOffset]
        omega
      rwa [hback] at hcov
    · rw [List.mem_singleton.mp he] at ha
      exact h.image a ha.1.1 ha.1.2 hmax
  bounded := by
    intro e he hb
    rcases List.mem_cons.mp he with rfl | he
    · cases hb
    · rw [List.mem_singleton.mp he] at hb
      cases hb
  disjoint := by
    refine List.pairwise_cons.mpr ⟨fun _ _ hb => ?_, List.pairwise_singleton _ _⟩
    cases hb

theorem SetUp.ramInv (h : SetUp img es brk r) :
    RamInv r.memblock.memory (r.bootState img brk limit) where
  ok := ⟨h.ok.memory, h.ok.reserved, h.ok.memory_max, h.ok.reserved_max⟩
  memory_eq := rfl
  blocks := by
    intro e he hb
    rcases List.mem_cons.mp he with rfl | he
    · cases hb
    · rw [List.mem_singleton.mp he] at hb
      cases hb

/-- **A run of the allocators**, after the setup. -/
theorem SetUp.run (h : SetUp img es brk r) (hkernel : pageOffset ≤ brk.start)
    (hstop : r.brk.stop < 2 ^ 32) (hfit : ∀ step ∈ steps, step.PagesFit)
    (hroom : RoomAlong steps (r.bootState img brk limit)) :
    Exec.Safe (runBoot steps (r.bootState img brk limit)) (BlocksSound es img brk r) := by
  have hinv := ((h.bootInv hkernel hstop).run hroom).and (h.ramInv.run hfit)
  have hlog := hinv.of_ok fun s hs => runBoot_suffix hs
  refine (hinv.and hlog).mono fun s hs => ?_
  obtain ⟨⟨hboot, hram⟩, newer, older, hsplit, hkeys⟩ := hs
  have hno := hboot.noOverlap
  obtain ⟨area, older₁, rfl, harea, hkeys⟩ := List.map_eq_cons_iff.mp hkeys
  obtain ⟨image, older₂, rfl, himage, hnil⟩ := List.map_eq_cons_iff.mp hkeys
  rw [List.map_nil, List.map_eq_nil_iff] at hnil
  subst hnil
  refine ⟨fun e he hb a ha ha' => ?_, hno, newer, area, image, hsplit, ?_, ?_, ?_⟩
  · exact h.ram a (hram.blocks e he hb a ha ha') a rfl
  · exact Prod.mk.inj (Prod.mk.inj harea).2
  · exact Prod.mk.inj (Prod.mk.inj himage).2
  · intro e he hb a ha
    have hpair := hno.disjoint
    rw [hsplit] at hpair
    have hlater := (List.pairwise_append.mp hpair).2.2 e he
    exact ⟨hlater area (by simp) hb a ha, hlater image (by simp) hb a ha⟩

end Run

/-- **From the BIOS to a block of boot memory.**  Whatever the BIOS answers, and whatever the allocators are
asked for afterwards, the kernel stops or every block handed out is sound; `memblock` fills with RAM and
nothing else, and with all of it when the BIOS reported at most 64 entries. -/
theorem bootRun_blocks {β : Type} (int15 : β → ℕ → E820Entry → BiosReply β) (bios : β)
    (img : KernelImage) (newBios : ℕ → E820Entry) (brk : Brk) (limit : ℕ) (steps : List BootStep)
    (hbios : ∀ bios ebx buf, buf.Fits → (int15 bios ebx buf).buf.Fits)
    (hfree : TopPageFree (detected (detectMemoryE820 int15 bios)).reported)
    (hbrk : BrkOpen img.brkLimit brk) (hkernel : pageOffset ≤ brk.start)
    (hbuf : Modest img.brkLimit (6 * pageSize, pageSize)) (hfit : ∀ step ∈ steps, step.PagesFit)
    (hroom : ∀ r, archSetupMemory img newBios (detected (detectMemoryE820 int15 bios)) brk
      initMemblock = .ok r → RoomAlong steps (r.bootState img brk limit)) :
    Exec.Safe (bootRun int15 bios img newBios brk limit steps) fun res =>
      SetUp img (detected (detectMemoryE820 int15 bios)).reported brk res.1 ∧
      BlocksSound (detected (detectMemoryE820 int15 bios)).reported img brk res.1 res.2 := by
  obtain ⟨hlen, hall⟩ := detectMemoryE820_spec hbios bios
  have hsetup := @archSetupMemory_setUp img newBios (detected (detectMemoryE820 int15 bios)) brk
    hall hlen rfl hfree hbrk hkernel hbuf
  have hlimit : img.brkLimit < 2 ^ 32 := by
    have := hbuf.2
    dsimp only [pageSize] at this
    linarith
  refine (hsetup.and (hsetup.of_ok fun r hr => hroom r hr)).bind fun r hr => ?_
  obtain ⟨hset, hroom⟩ := hr
  exact (hset.run hkernel (hset.stop_le.trans_lt hlimit) hfit hroom).bind fun s hs => .ok ⟨hset, hs⟩

/-- A PC with RAM below 640 KiB and 15 MiB from 1 MiB on, and the kernel at 1 MiB. -/
def smallPc : List E820Entry := [⟨0, 0xa0000, 1⟩, ⟨0xf0000, 0x10000, 2⟩, ⟨0x100000, 0xf00000, 1⟩]

/-- The block is the last page of RAM; the brk area and the image are the older entries. -/
theorem bootRun_blocks_smallPc :
    (bootRun (listBios smallPc) 0 ⟨0x100000, 0x200000, 0xc0310000⟩ (fun _ => ⟨0, 0, 0⟩)
      ⟨0xc0300000, 0xc0301000, fun _ => 0⟩ physMax [⟨earlyEnv, .allocBootmem 0x1000 0x1000 0⟩]).map
      (fun res => res.2.log.map fun e => (e.isBlock, e.base, e.size)) =
      .ok [(true, 0xfff000, 0x1000), (false, 0x300000, 0x7000), (false, 0x100000, 0x200000)] ∧
    Exec.Safe (bootRun (listBios smallPc) 0 ⟨0x100000, 0x200000, 0xc0310000⟩ (fun _ => ⟨0, 0, 0⟩)
      ⟨0xc0300000, 0xc0301000, fun _ => 0⟩ physMax [⟨earlyEnv, .allocBootmem 0x1000 0x1000 0⟩])
      fun res => BlocksSound smallPc ⟨0x100000, 0x200000, 0xc0310000⟩
        ⟨0xc0300000, 0xc0301000, fun _ => 0⟩ res.1 res.2 := by
  have hreported : (detected (detectMemoryE820 (listBios smallPc) 0)).reported = smallPc := by decide
  refine ⟨by decide +kernel, (bootRun_blocks (listBios smallPc) 0 ⟨0x100000, 0x200000, 0xc0310000⟩
    (fun _ => ⟨0, 0, 0⟩) ⟨0xc0300000, 0xc0301000, fun _ => 0⟩ physMax
    [⟨earlyEnv, .allocBootmem 0x1000 0x1000 0⟩]
    (fun i _ _ _ => ?_) ?_ ⟨by decide, by decide, by decide⟩ (by decide) ⟨by decide, by decide⟩
    (by simp [BootStep.PagesFit]) fun _ _ => ⟨trivial, fun _ _ => trivial⟩).mono
    fun res hres => hreported ▸ hres.2⟩
  · rcases i with _ | _ | _ | i
    all_goals simp [listBios, smallPc, E820Entry.Fits]
  · rw [hreported]
    rintro a ha - ⟨⟨x, hx, hhas, -⟩, -⟩
    have hlow : ∀ x ∈ smallPc, x.limit ≤ 0x1000000 := by decide
    have h₁ : x.addr + x.size ≤ 0x1000000 := hlow x hx
    have h₂ := hhas.2
    omega

end Sandix
