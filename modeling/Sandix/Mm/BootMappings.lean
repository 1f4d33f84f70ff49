import Sandix.Mm.PhysicalMapping

/-!
# Mm/BootMappings — taking down the boot mappings above low memory

The loop of `native_pagetable_init` walks the frames from `max_low_pfn` on and clears the page-table
entry of each, until it meets one that is not mapped.  Whether a page-table entry is in use it asks
`pte_present`, which tests `__PAGE_PSE`, the bit that is the PAT bit on a 4 KiB page, where the
siblings of the two other levels test `__PAGE_PRESENT`.

The loop clears an interval of frames and touches nothing else, whatever the test (`Cleared`,
`nativePagetableInit_spec`); it is the right interval exactly when the two bits agree up to its end.

* `nativePagetableInit_clears_iff` — the loop takes down the boot mappings above low memory exactly when
  on every frame it should reach the PSE bit of the entry says what the present bit says.
-/

namespace Sandix

open Machinery Function

/-! ## The loop -/

/-- `pte_flags`. -/
def pteFlags (pte : ℕ) : ℕ := pte &&& pteFlagsMask

/-- `pmd_flags`. -/
def pmdFlags (pmd : ℕ) : ℕ := pmd &&& (2 ^ 32 - 1 - pmdPfnMask pmd)

/-- `pmd_present`. -/
def pmdPresent (pmd : ℕ) : Bool := pmdFlags pmd &&& pagePresent ≠ 0

/-- `pmd_large`. -/
def pmdLarge (pmd : ℕ) : Bool := pmdFlags pmd &&& pagePse ≠ 0

/-- `pte_present`. -/
def ptePresent (pte : ℕ) : Bool := pteFlags pte &&& pagePse ≠ 0

/-- `PAGE_OFFSET + (pfn << PAGE_SHIFT)`. -/
def pfnVa (pfn : ℕ) : ℕ := (pageOffset + (pfn <<< pageShift)) % 2 ^ 32

/-- One round of the loop of `native_pagetable_init`.  `pgd_present` is constantly true, the two upper
levels being folded. -/
def clearStep : PageTables × ℕ → Exec (PageTables × ℕ ⊕ PageTables)
  | (pt, pfn) =>
    if pfn < 1 <<< (32 - pageShift) then
      let va := pfnVa pfn
      let pmd := pt.pgd (pgdIndex va)
      if !pmdPresent pmd then .ok (.inr pt)
      else if pmdLarge pmd then .error .bug
      else
        let (page, idx) := pteOffsetKernel pmd va
        if !ptePresent (pt.pte (virtToPhys page) idx) then .ok (.inr pt)
        else .ok (.inl (pt.setPte page idx 0, pfn + 1))
    else .ok (.inr pt)

/-- `native_pagetable_init`, up to the call of `paging_init`. -/
def PageTables.nativePagetableInit (pt : PageTables) (maxLowPfn : ℕ) : Exec PageTables :=
  Exec.loop clearStep (1 <<< (32 - pageShift) + 1) (pt, maxLowPfn)

/-! ## What it is for -/

namespace PageTables

variable (pt : PageTables)

/-- The directory entry of a frame. -/
abbrev pfnDir (pfn : ℕ) : ℕ := pgdIndex (pfnVa pfn)

/-- Where the page-table entry of a frame is. -/
def pteSlot (pfn : ℕ) : ℕ × ℕ := (pt.table (pfnDir pfn), pteIndex (pfnVa pfn))

/-- The page-table entry of a frame. -/
def pfnEntry (pfn : ℕ) : ℕ := pt.pte (pt.pteSlot pfn).1 (pt.pteSlot pfn).2

/-- The frame is mapped: its directory entry and its page-table entry have `__PAGE_PRESENT`. -/
def Mapped (pfn : ℕ) : Prop := pt.Present (pfnDir pfn) ∧ pt.pfnEntry pfn &&& pagePresent ≠ 0

/-- The frame lies in the run of mapped frames from `maxLowPfn` on. -/
def InRun (maxLowPfn pfn : ℕ) : Prop :=
  maxLowPfn ≤ pfn ∧ pfn < 2 ^ 20 ∧ ∀ q, maxLowPfn ≤ q → q ≤ pfn → pt.Mapped q

/-- No two directory entries share a page table. -/
def Unshared : Prop := ∀ d < ptrsPerPgd, ∀ d' < ptrsPerPgd, pt.Present d → pt.Present d' →
  pt.table d = pt.table d' → d = d'

/-- **The boot mappings are taken down**: the entries of the run are cleared, and no other entry is
changed. -/
structure ClearsRun (maxLowPfn : ℕ) (pt pt' : PageTables) : Prop where
  pgd : pt'.pgd = pt.pgd
  cleared : ∀ q, pt.InRun maxLowPfn q → pt'.pte (pt.pteSlot q).1 (pt.pteSlot q).2 = 0
  kept : ∀ page i, (∀ q, pt.InRun maxLowPfn q → pt.pteSlot q ≠ (page, i)) →
    pt'.pte page i = pt.pte page i

end PageTables

/-! ## The accessors -/

theorem pmdFlags_and_low {pmd m : ℕ} (hm : 0xfff &&& m = m) : pmdFlags pmd &&& m = pmd &&& m := by
  have hmask : (2 ^ 32 - 1 - pmdPfnMask pmd) &&& m = m := by
    rw [pmdPfnMask, ← hm, ← Nat.and_assoc]
    split_ifs <;> rfl
  rw [pmdFlags, Nat.and_assoc, hmask]

theorem pmdPresent_iff {pmd : ℕ} : pmdPresent pmd = true ↔ pmd &&& pagePresent ≠ 0 := by
  rw [pmdPresent, pmdFlags_and_low (by decide), decide_eq_true_iff]

theorem pmdLarge_iff {pmd : ℕ} : pmdLarge pmd = true ↔ pmd &&& pagePse ≠ 0 := by
  rw [pmdLarge, pmdFlags_and_low (by decide), decide_eq_true_iff]

theorem ptePresent_iff {pte : ℕ} : ptePresent pte = true ↔ pte &&& pagePse ≠ 0 := by
  rw [ptePresent, pteFlags, Nat.and_assoc, show pteFlagsMask &&& pagePse = pagePse by decide,
    decide_eq_true_iff]

/-! ## The frames and their entries -/

/-- Two frames of a 32-bit machine differ in their directory entry or in the index behind it. -/
theorem pfnVa_inj {p q : ℕ} (hp : p < 2 ^ 20) (hq : q < 2 ^ 20)
    (hdir : pgdIndex (pfnVa p) = pgdIndex (pfnVa q)) (hidx : pteIndex (pfnVa p) = pteIndex (pfnVa q)) :
    p = q := by
  simp only [pgdIndex, pteIndex, pfnVa, Nat.shiftLeft_eq, pageOffset, pageShift, pageSize, pgdirShift,
    ptrsPerPgd] at hdir hidx
  omega

variable {pt pt' : PageTables} {maxLowPfn n p q : ℕ}

theorem PageTables.Unshared.pteSlot_inj (h : pt.Unshared) (hp : p < 2 ^ 20) (hq : q < 2 ^ 20)
    (hpp : pt.Present (PageTables.pfnDir p)) (hpq : pt.Present (PageTables.pfnDir q))
    (heq : pt.pteSlot p = pt.pteSlot q) : p = q := by
  obtain ⟨htable, hidx⟩ := Prod.mk.inj heq
  exact pfnVa_inj hp hq (h _ (pgdIndex_lt _) _ (pgdIndex_lt _) hpp hpq htable) hidx

/-- The loop would go on at the frame. -/
def PageTables.Tested (pt : PageTables) (pfn : ℕ) : Prop :=
  pt.Present (PageTables.pfnDir pfn) ∧ pt.pfnEntry pfn &&& pagePse ≠ 0

/-- **The invariant of the loop**: the entries of the frames from `maxLowPfn` up to `n` are cleared, and
no other entry is changed. -/
structure Cleared (pt : PageTables) (maxLowPfn n : ℕ) (pt' : PageTables) : Prop where
  le : maxLowPfn ≤ n
  pgd : pt'.pgd = pt.pgd
  tested : ∀ q, maxLowPfn ≤ q → q < n → q < 2 ^ 20 ∧ pt.Tested q
  cleared : ∀ q, maxLowPfn ≤ q → q < n → pt'.pte (pt.pteSlot q).1 (pt.pteSlot q).2 = 0
  kept : ∀ page i, (∀ q, maxLowPfn ≤ q → q < n → pt.pteSlot q ≠ (page, i)) →
    pt'.pte page i = pt.pte page i

/-- The entries of the frames ahead are as they were. -/
theorem Cleared.ahead (h : Cleared pt maxLowPfn n pt') (hunshared : pt.Unshared) (hn : n ≤ q)
    (hq : q < 2 ^ 20) (hpresent : pt.Present (PageTables.pfnDir q)) :
    pt'.pte (pt.pteSlot q).1 (pt.pteSlot q).2 = pt.pfnEntry q := by
  refine h.kept _ _ fun p hp hpn heq => ?_
  obtain ⟨hp20, htested⟩ := h.tested p hp hpn
  have hpq := hunshared.pteSlot_inj hp20 hq htested.1 hpresent heq
  omega

theorem Cleared.step (h : Cleared pt maxLowPfn n pt') (hn : n < 2 ^ 20) (htested : pt.Tested n)
    {page : ℕ} (hpage : virtToPhys page = pt.table (PageTables.pfnDir n)) :
    Cleared pt maxLowPfn (n + 1) (pt'.setPte page (pteIndex (pfnVa n)) 0) := by
  have hpte : ∀ q i, (pt'.setPte page (pteIndex (pfnVa n)) 0).pte q i =
      if pt.pteSlot n = (q, i) then 0 else pt'.pte q i := by
    intro q i
    simp only [PageTables.setPte, hpage, PageTables.pteSlot, Prod.mk.injEq]
    by_cases hq : q = pt.table (PageTables.pfnDir n)
    · subst hq
      rw [update_self]
      by_cases hi : i = pteIndex (pfnVa n)
      · rw [hi, update_self, if_pos ⟨rfl, rfl⟩]
      · rw [update_of_ne hi, if_neg fun heq => hi heq.2.symm]
    · rw [update_of_ne hq, if_neg fun heq => hq heq.1.symm]
  refine ⟨h.le.trans (Nat.le_succ n), h.pgd, fun q hq hlt => ?_, fun q hq hlt => ?_,
    fun q i hne => ?_⟩
  · rcases Nat.lt_succ_iff_lt_or_eq.mp hlt with hlt | rfl
    · exact h.tested q hq hlt
    · exact ⟨hn, htested⟩
  · rw [hpte]
    rcases Nat.lt_succ_iff_lt_or_eq.mp hlt with hlt | rfl
    · rw [h.cleared q hq hlt, ite_self]
    · rw [if_pos rfl]
  · rw [hpte, if_neg (hne n h.le (Nat.lt_succ_self n)),
      h.kept q i fun p hp hlt => hne p hp (hlt.trans (Nat.lt_succ_self n))]

/-- **One round** on tables of small pages. -/
theorem clearStep_spec (hsmall : pt.SmallPages) (hunshared : pt.Unshared)
    (h : Cleared pt maxLowPfn n pt') :
    (n < 2 ^ 20 ∧ ∃ pt'', clearStep (pt', n) = .ok (.inl (pt'', n + 1)) ∧
      Cleared pt maxLowPfn (n + 1) pt'') ∨
    (clearStep (pt', n) = .ok (.inr pt') ∧ (n < 2 ^ 20 → ¬ pt.Tested n)) := by
  by_cases hn : n < 1 <<< (32 - pageShift)
  · simp only [clearStep, if_pos hn, h.pgd]
    by_cases hpresent : pt.Present (PageTables.pfnDir n)
    · have hlarge : ¬ pmdLarge (pt.pgd (PageTables.pfnDir n)) = true := by
        rw [pmdLarge_iff, not_not]
        exact hsmall _ (pgdIndex_lt _) hpresent
      have hpage : virtToPhys (pmdPageVaddr (pt.pgd (PageTables.pfnDir n))) =
          pt.table (PageTables.pfnDir n) := by
        rw [pmdPageVaddr, pmdPfnMask, if_neg (not_not.mpr (hsmall _ (pgdIndex_lt _) hpresent))]
        exact virtToPhys_physToVirt (table_lt pt _)
      have hentry := h.ahead hunshared le_rfl hn hpresent
      rw [if_neg (by simpa using pmdPresent_iff.mpr hpresent), if_neg hlarge]
      simp only [pteOffsetKernel, hpage]
      by_cases hpse : pt.pfnEntry n &&& pagePse ≠ 0
      · left
        refine ⟨hn, _, if_neg ?_, h.step hn ⟨hpresent, hpse⟩ hpage⟩
        simpa using ptePresent_iff.mpr (hentry ▸ hpse)
      · refine Or.inr ⟨if_pos ?_, fun _ htested => hpse htested.2⟩
        rw [Bool.not_eq_true', ← Bool.not_eq_true, ptePresent_iff]
        exact hentry ▸ hpse
    · refine Or.inr ⟨if_pos ?_, fun _ htested => hpresent htested.1⟩
      rw [Bool.not_eq_true', ← Bool.not_eq_true, pmdPresent_iff]
      exact hpresent
  · exact Or.inr ⟨if_neg hn, fun hlt => absurd hlt hn⟩

/-- **What `native_pagetable_init` does**, on tables of small pages. -/
theorem nativePagetableInit_spec (hsmall : pt.SmallPages) (hunshared : pt.Unshared) (maxLowPfn : ℕ) :
    ∃ pt', pt.nativePagetableInit maxLowPfn = .ok pt' ∧
      ∃ n, Cleared pt maxLowPfn n pt' ∧ (n < 2 ^ 20 → ¬ pt.Tested n) := by
  have hstart : Cleared pt maxLowPfn maxLowPfn pt :=
    ⟨le_rfl, rfl, fun q hq hlt => by omega, fun q hq hlt => by omega, fun _ _ _ => rfl⟩
  refine Exec.loop_spec clearStep
    (fun k st => 2 ^ 20 - st.2 = k ∧ Cleared pt maxLowPfn st.2 st.1) _ ?_ ⟨rfl, hstart⟩ ?_
  · rintro k ⟨pt', n⟩ ⟨rfl, h⟩
    rcases clearStep_spec hsmall hunshared h with ⟨hn, pt'', heq, h'⟩ | ⟨heq, hstop⟩
    · exact Or.inl ⟨_, _, heq, by dsimp only; omega, rfl, h'⟩
    · exact Or.inr ⟨pt', heq, n, h, hstop⟩
  · rw [show 1 <<< (32 - pageShift) = 2 ^ 20 from rfl]
    dsimp only
    omega

/-! ## The right interval -/

/-- The frame is the next one, after a run of mapped frames from `maxLowPfn` on. -/
def PageTables.Reached (pt : PageTables) (maxLowPfn pfn : ℕ) : Prop :=
  maxLowPfn ≤ pfn ∧ pfn < 2 ^ 20 ∧ ∀ q, maxLowPfn ≤ q → q < pfn → pt.Mapped q

theorem PageTables.Reached.inRun (h : pt.Reached maxLowPfn q) (hmapped : pt.Mapped q) :
    pt.InRun maxLowPfn q := by
  refine ⟨h.1, h.2.1, fun p hp hle => ?_⟩
  rcases hle.lt_or_eq with hlt | rfl
  · exact h.2.2 p hp hlt
  · exact hmapped

theorem PageTables.InRun.reached (h : pt.InRun maxLowPfn q) (hp : maxLowPfn ≤ p) (hle : p ≤ q) :
    pt.Reached maxLowPfn p :=
  ⟨hp, hle.trans_lt h.2.1, fun p' hp' hlt => h.2.2 p' hp' (hlt.le.trans hle)⟩

/-- The two bits agree on the frames the loop should reach. -/
def PageTables.BitsAgree (pt : PageTables) (maxLowPfn : ℕ) : Prop :=
  ∀ q, pt.Reached maxLowPfn q → pt.Present (PageTables.pfnDir q) →
    (pt.pfnEntry q &&& pagePse ≠ 0 ↔ pt.pfnEntry q &&& pagePresent ≠ 0)

theorem PageTables.BitsAgree.tested_iff (h : pt.BitsAgree maxLowPfn) (hq : pt.Reached maxLowPfn q) :
    pt.Tested q ↔ pt.Mapped q :=
  and_congr_right fun hpresent => h q hq hpresent

/-- With bits that agree, the loop clears the run. -/
theorem Cleared.clearsRun (h : Cleared pt maxLowPfn n pt') (hstop : n < 2 ^ 20 → ¬ pt.Tested n)
    (hbits : pt.BitsAgree maxLowPfn) : PageTables.ClearsRun maxLowPfn pt pt' := by
  -- every frame before the end is mapped, so every one of them is reached
  have hmapped : ∀ q, maxLowPfn ≤ q → q < n → pt.Mapped q := by
    intro q
    induction q using Nat.strong_induction_on with
    | _ q ih =>
      intro hq hlt
      obtain ⟨hq20, htested⟩ := h.tested q hq hlt
      exact (hbits.tested_iff ⟨hq, hq20, fun p hp hpq => ih p hpq hp (hpq.trans hlt)⟩).mp htested
  have hrun : ∀ q, pt.InRun maxLowPfn q ↔ maxLowPfn ≤ q ∧ q < n := by
    refine fun q => ⟨fun hq => ⟨hq.1, ?_⟩, fun hq => ?_⟩
    · by_contra hge
      have hn := hq.reached h.le (not_lt.mp hge)
      exact hstop hn.2.1 ((hbits.tested_iff hn).mpr (hq.2.2 n h.le (not_lt.mp hge)))
    · exact ⟨hq.1, (h.tested q hq.1 hq.2).1, fun p hp hle => hmapped p hp (hle.trans_lt hq.2)⟩
  refine ⟨h.pgd, fun q hq => ?_, fun page i hne => ?_⟩
  · exact h.cleared q hq.1 ((hrun q).mp hq).2
  · exact h.kept page i fun q hq hlt => hne q ((hrun q).mpr ⟨hq, hlt⟩)

theorem ne_zero_of_and_ne_zero {e m : ℕ} (h : e &&& m ≠ 0) : e ≠ 0 := by
  rintro rfl
  exact h (Nat.zero_and m)

/-- A loop that clears the run stops at its end, so the bits agree up to there. -/
theorem Cleared.bitsAgree (h : Cleared pt maxLowPfn n pt') (hunshared : pt.Unshared)
    (hstop : n < 2 ^ 20 → ¬ pt.Tested n) (hclears : PageTables.ClearsRun maxLowPfn pt pt') :
    pt.BitsAgree maxLowPfn := by
  -- a frame of the run is cleared, which a frame from `n` on is not
  have hbefore : ∀ q, pt.InRun maxLowPfn q → q < n := by
    intro q hq
    by_contra hge
    have hmapped := hq.2.2 q hq.1 le_rfl
    have hentry := h.ahead hunshared (not_lt.mp hge) hq.2.1 hmapped.1
    exact ne_zero_of_and_ne_zero hmapped.2 (hentry.symm.trans (hclears.cleared q hq))
  intro q hq hpresent
  constructor
  · intro hpse
    by_contra hnot
    have hout : ∀ p, pt.InRun maxLowPfn p → pt.pteSlot p ≠ pt.pteSlot q := by
      intro p hp heq
      have hmapped := hp.2.2 p hp.1 le_rfl
      obtain rfl := hunshared.pteSlot_inj hp.2.1 hq.2.1 hmapped.1 hpresent heq
      exact hmapped.2 hnot
    have hkept : pt'.pte (pt.pteSlot q).1 (pt.pteSlot q).2 = pt.pfnEntry q := hclears.kept _ _ hout
    have hge : n ≤ q := by
      by_contra hlt
      exact ne_zero_of_and_ne_zero hpse (hkept.symm.trans (h.cleared q hq.1 (not_le.mp hlt)))
    rcases hge.lt_or_eq with hlt | rfl
    · have hn : pt.Reached maxLowPfn n :=
        ⟨h.le, hlt.trans hq.2.1, fun p hp hpn => hq.2.2 p hp (hpn.trans hlt)⟩
      exact absurd (hbefore n (hn.inRun (hq.2.2 n h.le hlt))) (lt_irrefl n)
    · exact hstop hq.2.1 ⟨hpresent, hpse⟩
  · intro hbit
    exact (h.tested q hq.1 (hbefore q (hq.inRun ⟨hpresent, hbit⟩))).2.2

/-- **When the boot mappings are taken down.**  On tables of small pages that are not shared, the loop of
`native_pagetable_init` ends, and it clears exactly the entries of the mapped frames from `max_low_pfn`
on if and only if, on every frame it should reach whose directory entry is in use, the PSE bit of the
entry is its present bit. -/
theorem nativePagetableInit_clears_iff (hsmall : pt.SmallPages) (hunshared : pt.Unshared)
    (maxLowPfn : ℕ) :
    ∃ pt', pt.nativePagetableInit maxLowPfn = .ok pt' ∧
      (PageTables.ClearsRun maxLowPfn pt pt' ↔ pt.BitsAgree maxLowPfn) := by
  obtain ⟨pt', heq, n, h, hstop⟩ := nativePagetableInit_spec hsmall hunshared maxLowPfn
  exact ⟨pt', heq, h.bitsAgree hunshared hstop, h.clearsRun hstop⟩

/-- One page table, behind the first directory entry of the kernel, with two entries from frame `0x100`
on. -/
def twoEntries (e : ℕ) : PageTables where
  pgd d := if d = 768 then 0x1000 ||| pageTable else 0
  pte page i := if page = 0x1000 ∧ (i = 0x100 ∨ i = 0x101) then e else 0
  directPageCounts _ := 0
  lowPages := 0

theorem twoEntries_present {e d : ℕ} (h : (twoEntries e).Present d) : d = 768 := by
  by_contra hne
  exact h (by simp [twoEntries, hne])

theorem twoEntries_smallPages (e : ℕ) : (twoEntries e).SmallPages := by
  intro d _ h
  rw [twoEntries_present h]
  show (0x1000 ||| pageTable) &&& pagePse = 0
  decide

theorem twoEntries_unshared (e : ℕ) : (twoEntries e).Unshared :=
  fun _ _ _ _ h h' _ => (twoEntries_present h).trans (twoEntries_present h').symm

/-- Entries with both bits are taken down. -/
theorem nativePagetableInit_clears_both :
    ∃ pt', (twoEntries 0x1e3).nativePagetableInit 0x100 = .ok pt' ∧
      PageTables.ClearsRun 0x100 (twoEntries 0x1e3) pt' := by
  obtain ⟨pt', heq, hiff⟩ := nativePagetableInit_clears_iff (twoEntries_smallPages 0x1e3)
    (twoEntries_unshared 0x1e3) 0x100
  refine ⟨pt', heq, hiff.mpr fun q _ _ => ?_⟩
  rw [PageTables.pfnEntry, twoEntries]
  dsimp only
  split_ifs <;> decide

/-- Entries as the kernel makes them have no PSE bit: the first one is left in place. -/
theorem nativePagetableInit_clears_kernel :
    (twoEntries pageKernel).SmallPages ∧ (twoEntries pageKernel).Unshared ∧
    ∃ pt', (twoEntries pageKernel).nativePagetableInit 0x100 = .ok pt' ∧
      ¬ PageTables.ClearsRun 0x100 (twoEntries pageKernel) pt' := by
  refine ⟨twoEntries_smallPages _, twoEntries_unshared _, twoEntries pageKernel, rfl, fun h => ?_⟩
  have hrun : (twoEntries pageKernel).InRun 0x100 0x100 := by
    refine ⟨le_rfl, by decide, fun q hle hge => ?_⟩
    obtain rfl := le_antisymm hge hle
    exact ⟨by decide, by decide⟩
  exact absurd (h.cleared 0x100 hrun) (by decide)

end Sandix
