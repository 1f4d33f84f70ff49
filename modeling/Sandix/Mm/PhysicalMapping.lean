import Sandix.Mm.DirectMap
import Sandix.Mm.PageTables

/-!
# Mm/PhysicalMapping — the direct map is built exactly

Read through the directory, the page tables are one flat table: `entry pt d i` is entry `i` of the
page table behind directory entry `d`, and `0` where there is none.  The hardware sees nothing else
(`translate_eq`).  Putting a cleared page behind an absent directory entry does not change it
(`onePageTableInit_spec`), and `set_pte` changes it in one place, as long as the page table is not
shared (`Mapping.setPte`).

`Mapping` is what every step of the three loops keeps; a pass over the range writes the entries of the
range and no others (`mappingPass_spec`), and two passes make the direct map
(`kernelPhysicalMappingInit_directMap`).  What the callers of `kernel_physical_mapping_init` take it
for is what it does (`kernelPhysicalMappingInit_refines`).
-/

namespace Sandix

open Machinery Function

namespace PageTables

variable (pt : PageTables) {d i v : ℕ}

/-- The directory entry `d` is in use. -/
def Present (d : ℕ) : Prop := pt.pgd d &&& pagePresent ≠ 0

instance (d : ℕ) : Decidable (pt.Present d) := inferInstanceAs (Decidable (_ ≠ _))

/-- The page table behind `d`. -/
def table (d : ℕ) : ℕ := pt.pgd d &&& ptePfnMask

/-- No directory entry maps a large page: those in use point to page tables. -/
def SmallPages : Prop := ∀ d < ptrsPerPgd, pt.Present d → pt.pgd d &&& pagePse = 0

/-- The tables read through the directory. -/
def entry (d i : ℕ) : ℕ := if pt.Present d then pt.pte (pt.table d) i else 0

variable {pt}

theorem entry_of_present (h : pt.Present d) : pt.entry d i = pt.pte (pt.table d) i := if_pos h

theorem entry_of_not_present (h : ¬pt.Present d) : pt.entry d i = 0 := if_neg h

end PageTables

/-- The translation that an entry stands for, at an offset into its page. -/
def decodePte (pte offset : ℕ) : Option (ℕ × ℕ) :=
  if pte &&& pagePresent = 0 then none else some ((pte &&& ptePfnMask) + offset, pte &&& pteFlagsMask)

/-- `d` is the directory entry of an address of the direct map of `[start, stop)`. -/
def RangeDir (start stop d : ℕ) : Prop :=
  ∃ pa, start ≤ pa ∧ pa < stop ∧ pgdIndex (pageOffset + pa) = d

/-- `d` shares its page table with no other directory entry of the range. -/
def PageTables.Apart (pt : PageTables) (start stop d : ℕ) : Prop :=
  ∀ d', RangeDir start stop d' → d' ≠ d → pt.Present d' → pt.Present d → pt.table d' ≠ pt.table d

/-- The directory entries in use in `pt` and not in `pt₀`. -/
def addedDirs (pt₀ pt : PageTables) : Finset ℕ :=
  (Finset.range ptrsPerPgd).filter fun d => pt.Present d ∧ ¬pt₀.Present d

/-- What is assumed of `alloc_low_page`: its next pages are pages of memory, distinct from one another
and from the page tables there are.  No more than one page a directory entry is ever asked for in a
pass. -/
structure FreshLowPages (lowPfn : ℕ → ℕ) (pt : PageTables) : Prop where
  lt : ∀ k < ptrsPerPgd, lowPfn (pt.lowPages + k) < 2 ^ 20
  inj : ∀ j < ptrsPerPgd, ∀ k < ptrsPerPgd,
    lowPfn (pt.lowPages + j) = lowPfn (pt.lowPages + k) → j = k
  fresh : ∀ k < ptrsPerPgd, ∀ d < ptrsPerPgd, pt.Present d →
    pt.table d ≠ lowPfn (pt.lowPages + k) * pageSize

theorem pgdIndex_lt (v : ℕ) : pgdIndex v < ptrsPerPgd := Nat.mod_lt _ (by decide)

theorem RangeDir.lt {start stop d : ℕ} (h : RangeDir start stop d) : d < ptrsPerPgd := by
  obtain ⟨pa, -, -, rfl⟩ := h
  exact pgdIndex_lt _

/-- The hardware sees the tables through the directory only. -/
theorem translate_eq {pt : PageTables} (h : pt.SmallPages) (v : ℕ) :
    pt.translate v = decodePte (pt.entry (pgdIndex v) (pteIndex v)) (v % pageSize) := by
  simp only [PageTables.translate]
  by_cases hp : pt.Present (pgdIndex v)
  · rw [if_neg hp, if_neg (not_not.mpr (h _ (pgdIndex_lt v) hp)), PageTables.entry_of_present hp]
    rfl
  · rw [if_pos (not_not.mp hp), PageTables.entry_of_not_present hp]
    rfl

/-! ## Entries, as bits -/

section Bits

variable {n f : ℕ}

/-- The flags of an entry. -/
theorem page_or_and_low {m : ℕ} (hm : m < pageSize) : (n * pageSize ||| f) &&& m = f &&& m :=
  or_and_low (k := 12) hm

/-- The page of an entry. -/
theorem page_or_and_ptePfnMask (hn : n < 2 ^ 20) (hf : f < pageSize) :
    (n * pageSize ||| f) &&& ptePfnMask = n * pageSize := by
  have hmask : ptePfnMask = 2 ^ 32 - 1 - (2 ^ 12 - 1) := by decide
  rw [hmask]
  exact or_and_high (k := 12) hf (by decide) (by rw [pageSize] at hf; omega)

theorem shiftLeft_pageShift (hn : n < 2 ^ 20) : (n <<< pageShift) % 2 ^ 32 = n * pageSize := by
  rw [Nat.shiftLeft_eq, pageShift, pageSize]
  omega

variable (L : KernelLayout)

/-- The protections that are used are present, and their bits are flags. -/
theorem massagePgprot_prot (iter : MappingIter) (addr : ℕ) :
    L.massagePgprot (iter.prot L addr) < pageSize ∧
      L.massagePgprot (iter.prot L addr) &&& pagePresent ≠ 0 := by
  have hprot : iter.prot L addr = pteIdentAttr ∨ iter.prot L addr = pageKernel := by
    cases iter with
    | first => exact Or.inl rfl
    | second => exact Or.inr (by simp only [MappingIter.prot]; split <;> rfl)
  rcases hprot with hprot | hprot <;> rw [hprot, KernelLayout.massagePgprot, massagePgprot,
    KernelLayout.supportedPteMask] <;> cases L.cpuHasPge <;> decide

/-- What the hardware reads from an entry of the direct map. -/
theorem decodePte_pfnPte (hn : n < 2 ^ 20) (iter : MappingIter) (addr offset : ℕ) :
    decodePte (L.pfnPte n (iter.prot L addr)) offset
      = some (n * pageSize + offset, L.massagePgprot (iter.prot L addr)) := by
  obtain ⟨hlt, hpresent⟩ := massagePgprot_prot L iter addr
  rw [decodePte, KernelLayout.pfnPte, pfnPte, shiftLeft_pageShift hn, ← KernelLayout.massagePgprot,
    page_or_and_low (by decide), if_neg hpresent, page_or_and_ptePfnMask hn hlt,
    page_or_and_low (by decide)]
  have hflags : L.massagePgprot (iter.prot L addr) &&& pteFlagsMask
      = L.massagePgprot (iter.prot L addr) := Nat.and_two_pow_sub_one_of_lt_two_pow (n := 12) hlt
  rw [hflags]

end Bits

/-! ## What every step keeps -/

section Steps

variable (lowPfn : ℕ → ℕ) (a b : ℕ)

/-- The directory entry that maps page `q` of physical memory. -/
def pageDir (q : ℕ) : ℕ := 768 + q / ptrsPerPte

/-- Entry `i` of directory entry `d` maps a page of `[a, b)`. -/
def InPages (d i : ℕ) : Prop :=
  pageOffset / pageSize + a ≤ d * ptrsPerPte + i ∧ d * ptrsPerPte + i < pageOffset / pageSize + b

/-- **The invariant of the three loops**, from the tables `pt₀` on: a page has been taken for every
directory entry that has come into use, all in the range; directory entries in use point to page
tables, those of the range share none with any that `Apart` speaks of, the next pages are still
fresh, and outside the range nothing has changed. -/
structure Mapping (pt₀ pt : PageTables) : Prop where
  pages : pt.lowPages = pt₀.lowPages + (addedDirs pt₀ pt).card
  kept : ∀ d, pt₀.Present d → pt.Present d
  added : ∀ d, pt.Present d → pt₀.Present d ∨ RangeDir (a * pageSize) (b * pageSize) d
  small : pt.SmallPages
  apart : ∀ d d', RangeDir (a * pageSize) (b * pageSize) d → d' < ptrsPerPgd → d ≠ d' →
    pt₀.Apart (a * pageSize) (b * pageSize) d' → pt.Present d → pt.Present d' →
    pt.table d ≠ pt.table d'
  fresh : ∀ k, pt.lowPages ≤ k → k < pt₀.lowPages + ptrsPerPgd → ∀ d < ptrsPerPgd, pt.Present d →
    pt.table d ≠ lowPfn k * pageSize
  frame : ∀ d < ptrsPerPgd, ∀ i, pt₀.Apart (a * pageSize) (b * pageSize) d → ¬InPages a b d i →
    pt.entry d i = pt₀.entry d i

variable {lowPfn a b} {pt₀ pt : PageTables}

theorem addedDirs_self (pt : PageTables) : addedDirs pt pt = ∅ := by
  refine Finset.filter_eq_empty_iff.mpr fun d _ h => ?_
  exact h.2 h.1

theorem Mapping.grown (h : Mapping lowPfn a b pt₀ pt) : pt₀.lowPages ≤ pt.lowPages := by
  rw [h.pages]
  exact Nat.le_add_right _ _

theorem mapping_refl (hsmall : pt.SmallPages) (hfresh : FreshLowPages lowPfn pt) :
    Mapping lowPfn a b pt pt where
  pages := by rw [addedDirs_self, Finset.card_empty, Nat.add_zero]
  kept _ hp := hp
  added _ hp := Or.inl hp
  small := hsmall
  apart d d' hd _ hne hapart hp hp' := hapart d hd hne hp hp'
  fresh k hk hk' d hd hp := by
    obtain ⟨j, rfl⟩ := Nat.exists_eq_add_of_le hk
    exact hfresh.fresh j (by omega) d hd hp
  frame _ _ _ _ _ := rfl

/-- The page counts are no part of the tables. -/
theorem Mapping.updatePageCount (h : Mapping lowPfn a b pt₀ pt) (level : PgLevel) (pages : ℕ) :
    Mapping lowPfn a b pt₀ (pt.updatePageCount level pages) :=
  ⟨h.pages, h.kept, h.added, h.small, h.apart, h.fresh, h.frame⟩

/-- The directory entry of an address of the direct map. -/
theorem pgdIndex_pageOffset {pa : ℕ} (hpa : pa < 2 ^ 30) :
    pgdIndex (pageOffset + pa) = pageDir (pa / pageSize) := by
  rw [pgdIndex, pageDir, pageOffset, pageSize, pgdirShift, ptrsPerPgd, ptrsPerPte]
  omega

/-- The directory entries of a range of pages. -/
theorem rangeDir_iff {d : ℕ} (hb : b ≤ 2 ^ 18) :
    RangeDir (a * pageSize) (b * pageSize) d ↔ ∃ q, a ≤ q ∧ q < b ∧ pageDir q = d := by
  rw [pageSize]
  constructor
  · rintro ⟨pa, hpa, hpa', rfl⟩
    exact ⟨pa / pageSize, by rw [pageSize]; omega, by rw [pageSize]; omega,
      (pgdIndex_pageOffset (by omega)).symm⟩
  · rintro ⟨q, hq, hq', rfl⟩
    refine ⟨q * 4096, by omega, by omega, ?_⟩
    rw [pgdIndex_pageOffset (by omega), pageSize, Nat.mul_div_cancel q (by decide)]

theorem rangeDir_pageDir {q : ℕ} (hb : b ≤ 2 ^ 18) (ha : a ≤ q) (hq : q < b) :
    RangeDir (a * pageSize) (b * pageSize) (pageDir q) := (rangeDir_iff hb).mpr ⟨q, ha, hq, rfl⟩

theorem table_lt (pt : PageTables) (d : ℕ) : pt.table d < 2 ^ 32 :=
  lt_of_le_of_lt Nat.and_le_right (by decide)

/-- `set_pte` through the directory: other entries of the page table are left alone, and so is every
page table but this one. -/
theorem entry_setPte {d d' i j e : ℕ} (hp : pt.Present d)
    (hapart : d ≠ d' → pt.Present d' → pt.table d ≠ pt.table d') :
    (pt.setPte (physToVirt (pt.table d)) i e).entry d' j
      = if d' = d ∧ j = i then e else pt.entry d' j := by
  have hpage : virtToPhys (physToVirt (pt.table d)) = pt.table d :=
    virtToPhys_physToVirt (table_lt pt d)
  by_cases hp' : pt.Present d'
  · rw [PageTables.entry_of_present (show (pt.setPte _ i e).Present d' from hp'),
      PageTables.entry_of_present hp']
    show (pt.setPte _ i e).pte (pt.table d') j = _
    rw [PageTables.setPte, hpage]
    dsimp only
    by_cases hd : d' = d
    · subst hd
      rw [update_self]
      by_cases hj : j = i
      · rw [hj, update_self, if_pos ⟨rfl, rfl⟩]
      · rw [update_of_ne hj, if_neg fun h => hj h.2]
    · rw [update_of_ne fun h => hapart (Ne.symm hd) hp' h.symm, if_neg fun h => hd h.1]
  · rw [PageTables.entry_of_not_present (show ¬(pt.setPte _ i e).Present d' from hp'),
      PageTables.entry_of_not_present hp', if_neg]
    rintro ⟨rfl, -⟩
    exact hp' hp

/-- **`set_pte` in the range** keeps the invariant, and changes one entry. -/
theorem Mapping.setPte (h : Mapping lowPfn a b pt₀ pt) {q : ℕ} (hb : b ≤ 2 ^ 18) (ha : a ≤ q)
    (hq : q < b) (hp : pt.Present (pageDir q)) (e : ℕ) :
    Mapping lowPfn a b pt₀ (pt.setPte (physToVirt (pt.table (pageDir q))) (q % ptrsPerPte) e) ∧
      ∀ d < ptrsPerPgd, ∀ i, pt₀.Apart (a * pageSize) (b * pageSize) d →
        (pt.setPte (physToVirt (pt.table (pageDir q))) (q % ptrsPerPte) e).entry d i
          = if d = pageDir q ∧ i = q % ptrsPerPte then e else pt.entry d i := by
  have hentry : ∀ d < ptrsPerPgd, ∀ i, pt₀.Apart (a * pageSize) (b * pageSize) d →
      (pt.setPte (physToVirt (pt.table (pageDir q))) (q % ptrsPerPte) e).entry d i
        = if d = pageDir q ∧ i = q % ptrsPerPte then e else pt.entry d i := by
    intro d hd i hapart
    exact entry_setPte hp fun hne hp' =>
      h.apart _ d (rangeDir_pageDir hb ha hq) hd hne hapart hp hp'
  refine ⟨⟨h.pages, h.kept, h.added, h.small, h.apart, h.fresh, fun d hd i hapart hout => ?_⟩, hentry⟩
  rw [hentry d hd i hapart, if_neg, h.frame d hd i hapart hout]
  rintro ⟨rfl, rfl⟩
  refine hout ?_
  rw [InPages, pageDir, pageOffset, pageSize, ptrsPerPte]
  omega

/-- The page tables with a cleared page behind the directory entry `d`. -/
def withTable (pt : PageTables) (d n : ℕ) : PageTables :=
  { pt with
    pgd := update pt.pgd d (n * pageSize ||| pageTable)
    pte := update pt.pte (n * pageSize) fun _ => 0
    lowPages := pt.lowPages + 1 }

/-- `pt'` has page `n` behind the directory entry `d`; the other directory entries are those of `pt`. -/
def PointsTo (pt : PageTables) (d n : ℕ) (pt' : PageTables) : Prop :=
  pt'.pgd = update pt.pgd d (n * pageSize ||| pageTable)

section PointsTo

variable {pt' : PageTables} {n d d' : ℕ}

theorem PointsTo.pgd_self (h : PointsTo pt d n pt') : pt'.pgd d = n * pageSize ||| pageTable := by
  rw [h, update_self]

theorem PointsTo.pgd_of_ne (h : PointsTo pt d n pt') (hd : d' ≠ d) : pt'.pgd d' = pt.pgd d' := by
  rw [h, update_of_ne hd]

theorem PointsTo.present_self (h : PointsTo pt d n pt') : pt'.Present d := by
  rw [PageTables.Present, h.pgd_self, page_or_and_low (by decide)]
  decide

theorem PointsTo.small_self (h : PointsTo pt d n pt') : pt'.pgd d &&& pagePse = 0 := by
  rw [h.pgd_self, page_or_and_low (by decide)]
  decide

theorem PointsTo.table_self (h : PointsTo pt d n pt') (hn : n < 2 ^ 20) :
    pt'.table d = n * pageSize := by
  rw [PageTables.table, h.pgd_self, page_or_and_ptePfnMask hn (by decide)]

theorem PointsTo.present_of_ne (h : PointsTo pt d n pt') (hd : d' ≠ d) :
    pt'.Present d' ↔ pt.Present d' := by
  rw [PageTables.Present, h.pgd_of_ne hd, PageTables.Present]

theorem PointsTo.table_of_ne (h : PointsTo pt d n pt') (hd : d' ≠ d) :
    pt'.table d' = pt.table d' := by
  rw [PageTables.table, h.pgd_of_ne hd, PageTables.table]

theorem PointsTo.small (h : PointsTo pt d n pt') (hsmall : pt.SmallPages) : pt'.SmallPages := by
  intro d' hd' hp
  by_cases hd : d' = d
  · rw [hd]
    exact h.small_self
  · rw [h.pgd_of_ne hd]
    exact hsmall d' hd' ((h.present_of_ne hd).mp hp)

/-- **Nothing changes through the directory** when the page was no page table before and now holds what
there was behind `d`. -/
theorem PointsTo.entry_eq (h : PointsTo pt d n pt') (hn : n < 2 ^ 20) {i : ℕ}
    (hpage : pt'.pte (n * pageSize) i = pt.entry d i)
    (hother : ∀ p, p ≠ n * pageSize → pt'.pte p = pt.pte p)
    (hfree : pt.Present d' → pt.table d' ≠ n * pageSize) : pt'.entry d' i = pt.entry d' i := by
  by_cases hd : d' = d
  · subst hd
    rw [PageTables.entry_of_present h.present_self, h.table_self hn, hpage]
  · by_cases hp : pt.Present d'
    · rw [PageTables.entry_of_present ((h.present_of_ne hd).mpr hp), PageTables.entry_of_present hp,
        h.table_of_ne hd, hother _ (hfree hp)]
    · rw [PageTables.entry_of_not_present fun hp' => hp ((h.present_of_ne hd).mp hp'),
        PageTables.entry_of_not_present hp]

end PointsTo

section WithTable

variable {n d d' i : ℕ}

theorem withTable_pointsTo : PointsTo pt d n (withTable pt d n) := rfl

theorem withTable_present : (withTable pt d n).Present d' ↔ d' = d ∨ pt.Present d' := by
  by_cases hd : d' = d
  · subst hd
    exact iff_of_true withTable_pointsTo.present_self (Or.inl rfl)
  · rw [withTable_pointsTo.present_of_ne hd, or_iff_right hd]

theorem withTable_pte_self : (withTable pt d n).pte (n * pageSize) = fun _ => 0 := update_self _ _ _

/-- A cleared page of its own is as good as none. -/
theorem entry_withTable (hn : n < 2 ^ 20) (hd : ¬pt.Present d)
    (hfresh : pt.Present d' → pt.table d' ≠ n * pageSize) :
    (withTable pt d n).entry d' i = pt.entry d' i := by
  refine withTable_pointsTo.entry_eq hn ?_ (fun p hp => update_of_ne hp _ _) hfresh
  rw [withTable_pte_self, PageTables.entry_of_not_present hd]

end WithTable

/-- One more directory entry in use, and one more page taken. -/
theorem Mapping.card_withTable (h : Mapping lowPfn a b pt₀ pt) {d n : ℕ} (hlt : d < ptrsPerPgd)
    (hd : ¬pt.Present d) :
    (addedDirs pt₀ (Sandix.withTable pt d n)).card = (addedDirs pt₀ pt).card + 1 := by
  have hnot : d ∉ addedDirs pt₀ pt := fun hmem => hd (Finset.mem_filter.mp hmem).2.1
  have hset : addedDirs pt₀ (Sandix.withTable pt d n) = insert d (addedDirs pt₀ pt) := by
    ext d'
    rw [Finset.mem_insert, addedDirs, addedDirs, Finset.mem_filter, Finset.mem_filter,
      Finset.mem_range, withTable_present]
    by_cases heq : d' = d
    · subst heq
      exact iff_of_true ⟨hlt, Or.inl rfl, fun hp => hd (h.kept _ hp)⟩ (Or.inl rfl)
    · rw [or_iff_right heq, or_iff_right heq]
  rw [hset, Finset.card_insert_of_notMem hnot]

/-- The next page number is one of memory, while pages are left. -/
theorem Mapping.lowPfn_lt (h : Mapping lowPfn a b pt₀ pt) (hfresh : FreshLowPages lowPfn pt₀)
    (hleft : pt.lowPages < pt₀.lowPages + ptrsPerPgd) : lowPfn pt.lowPages < 2 ^ 20 := by
  obtain ⟨k, hk⟩ := Nat.exists_eq_add_of_le h.grown
  rw [hk]
  exact hfresh.lt k (by omega)

/-- A cleared page behind an absent directory entry keeps the invariant. -/
theorem Mapping.withTable (h : Mapping lowPfn a b pt₀ pt) (hfresh : FreshLowPages lowPfn pt₀)
    (hleft : pt.lowPages < pt₀.lowPages + ptrsPerPgd) {d : ℕ} (hd : ¬pt.Present d)
    (hrange : RangeDir (a * pageSize) (b * pageSize) d) :
    Mapping lowPfn a b pt₀ (Sandix.withTable pt d (lowPfn pt.lowPages)) := by
  have hn := h.lowPfn_lt hfresh hleft
  have hnew := h.fresh pt.lowPages le_rfl hleft
  have hmore : (Sandix.withTable pt d (lowPfn pt.lowPages)).lowPages = pt.lowPages + 1 := rfl
  refine ⟨?_, fun d' hp => withTable_present.mpr (Or.inr (h.kept d' hp)), fun d' hp => ?_,
    withTable_pointsTo.small h.small,
    fun d₁ d₂ hr₁ hd₂ hne hapart hp₁ hp₂ => ?_, fun k hk hk' d₁ hd₁ hp => ?_,
    fun d₁ hd₁ i hapart hout => ?_⟩
  · rw [hmore, h.card_withTable hrange.lt hd, h.pages, Nat.add_assoc]
  · rcases withTable_present.mp hp with rfl | hp'
    · exact Or.inr hrange
    · exact h.added d' hp'
  · have hd₁ := hr₁.lt
    by_cases h₁ : d₁ = d
    · subst h₁
      have h₂ : d₂ ≠ d₁ := Ne.symm hne
      rw [withTable_pointsTo.table_self hn, withTable_pointsTo.table_of_ne h₂]
      exact (hnew d₂ hd₂ ((withTable_pointsTo.present_of_ne h₂).mp hp₂)).symm
    · rw [withTable_pointsTo.table_of_ne h₁]
      rw [withTable_pointsTo.present_of_ne h₁] at hp₁
      by_cases h₂ : d₂ = d
      · subst h₂
        rw [withTable_pointsTo.table_self hn]
        exact hnew d₁ hd₁ hp₁
      · rw [withTable_pointsTo.table_of_ne h₂]
        exact h.apart d₁ d₂ hr₁ hd₂ hne hapart hp₁ ((withTable_pointsTo.present_of_ne h₂).mp hp₂)
  · by_cases heq : d₁ = d
    · subst heq
      rw [withTable_pointsTo.table_self hn]
      intro hsame
      obtain ⟨j, hj⟩ := Nat.exists_eq_add_of_le h.grown
      obtain ⟨j', hj'⟩ := Nat.exists_eq_add_of_le (h.grown.trans (by omega : pt.lowPages ≤ k))
      have hpfn : lowPfn pt.lowPages = lowPfn k := Nat.eq_of_mul_eq_mul_right (by decide) hsame
      rw [hj, hj'] at hpfn
      have := hfresh.inj j (by omega) j' (by omega) hpfn
      omega
    · rw [withTable_pointsTo.table_of_ne heq]
      exact h.fresh k (by omega) hk' d₁ hd₁ ((withTable_pointsTo.present_of_ne heq).mp hp)
  · rw [entry_withTable hn hd (hnew d₁ hd₁), h.frame d₁ hd₁ i hapart hout]

/-- A directory entry that points to a page table gives its address. -/
theorem pteOffsetKernel_table {d : ℕ} (hsmall : pt.pgd d &&& pagePse = 0) :
    pteOffsetKernel (pt.pgd d) 0 = (physToVirt (pt.table d), 0) := by
  rw [pteOffsetKernel, pmdPageVaddr, pmdPfnMask, if_neg (not_not.mpr hsmall)]
  rfl

/-- `one_page_table_init` where there is a page table. -/
theorem onePageTableInit_present {d : ℕ} (hp : pt.Present d) (hsmall : pt.pgd d &&& pagePse = 0) :
    onePageTableInit lowPfn pt d = .ok ((physToVirt (pt.table d), 0), pt) := by
  rw [onePageTableInit, if_neg hp, pteOffsetKernel_table hsmall]

/-- …and where there is none. -/
theorem onePageTableInit_absent {d : ℕ} (hp : ¬pt.Present d) (hn : lowPfn pt.lowPages < 2 ^ 20) :
    onePageTableInit lowPfn pt d = .ok ((physToVirt (lowPfn pt.lowPages * pageSize), 0),
      withTable pt d (lowPfn pt.lowPages)) := by
  have hlt : lowPfn pt.lowPages * pageSize < 2 ^ 32 := by
    rw [pageSize]
    omega
  have halloc : ((pt.allocLowPage lowPfn).2.setPmd d
      (virtToPhys (pt.allocLowPage lowPfn).1 ||| pageTable))
      = withTable pt d (lowPfn pt.lowPages) := by
    simp only [PageTables.allocLowPage, PageTables.setPmd, withTable, shiftLeft_pageShift hn,
      virtToPhys_physToVirt hlt]
  have hpoints : PointsTo pt d (lowPfn pt.lowPages) (withTable pt d (lowPfn pt.lowPages)) :=
    withTable_pointsTo
  rw [onePageTableInit, if_pos (not_not.mp hp)]
  dsimp only
  rw [halloc, pteOffsetKernel_table hpoints.small_self, hpoints.table_self hn, if_neg]
  rw [not_not]
  simp only [PageTables.allocLowPage, shiftLeft_pageShift hn]

/-- **`one_page_table_init`** returns the page table behind `d`, which is in use now, and changes
nothing that the hardware sees. -/
theorem onePageTableInit_spec (h : Mapping lowPfn a b pt₀ pt) (hfresh : FreshLowPages lowPfn pt₀)
    (hleft : pt.lowPages < pt₀.lowPages + ptrsPerPgd) {d : ℕ}
    (hrange : RangeDir (a * pageSize) (b * pageSize) d) :
    ∃ pt', onePageTableInit lowPfn pt d = .ok ((physToVirt (pt'.table d), 0), pt') ∧
      Mapping lowPfn a b pt₀ pt' ∧ pt'.Present d ∧ pt'.lowPages ≤ pt.lowPages + 1 ∧
      ∀ d' < ptrsPerPgd, ∀ i, pt'.entry d' i = pt.entry d' i := by
  by_cases hp : pt.Present d
  · exact ⟨pt, onePageTableInit_present hp (h.small d hrange.lt hp), h, hp, Nat.le_succ _,
      fun _ _ _ => rfl⟩
  · have hn := h.lowPfn_lt hfresh hleft
    refine ⟨withTable pt d (lowPfn pt.lowPages), ?_, h.withTable hfresh hleft hp hrange,
      withTable_pointsTo.present_self, le_rfl,
      fun d' hd' i => entry_withTable hn hp (h.fresh _ le_rfl hleft d' hd')⟩
    rw [onePageTableInit_absent hp hn, withTable_pointsTo.table_self hn]

end Steps

/-! ## A pass -/

section Pass

variable (L : KernelLayout) (lowPfn : ℕ → ℕ) (a b : ℕ) (pt₀ : PageTables) (iter : MappingIter)
  (last₀ : ℕ)

/-- **The state of a pass** that has come to `pfn`: the pages up to there are mapped. -/
structure PassInv (s : MapScan) : Prop where
  mapping : Mapping lowPfn a b pt₀ s.pt
  le : a ≤ s.pfn
  ge : s.pfn ≤ b
  written : ∀ q, a ≤ q → q < s.pfn → s.pt.entry (pageDir q) (q % ptrsPerPte)
    = L.pfnPte q (iter.prot L (pageOffset + q * pageSize))
  first : iter = .first → a < s.pfn → s.lastMapPaddr = s.pfn * pageSize
  second : iter = .second → s.lastMapPaddr = last₀

/-- The innermost loop, inside one page table. -/
structure PteInv (d lowPages : ℕ) (page : ℕ) (st : MapScan × ℕ × ℕ) : Prop where
  pass : PassInv L lowPfn a b pt₀ iter last₀ st.1
  present : st.1.pt.Present d
  page : page = physToVirt (st.1.pt.table d)
  lowPages : st.1.pt.lowPages = lowPages
  idx : d * ptrsPerPte + st.2.1 = pageOffset / pageSize + st.1.pfn
  idx_le : st.2.1 ≤ ptrsPerPte
  addr : st.2.2 = (pageOffset + st.1.pfn * pageSize) % 2 ^ 32

variable {L lowPfn a b pt₀ iter last₀} {s : MapScan} {d n page : ℕ}

/-- **One page.** -/
theorem PteInv.step (hb : b ≤ 2 ^ 18)
    (hshared : ∀ d, RangeDir (a * pageSize) (b * pageSize) d →
      pt₀.Apart (a * pageSize) (b * pageSize) d)
    {st : MapScan × ℕ × ℕ} (h : PteInv L lowPfn a b pt₀ iter last₀ d n page st)
    (hidx : st.2.1 < ptrsPerPte) (hlt : st.1.pfn < b) :
    ∃ st', pteStep L iter b page st = .ok (.inl st') ∧ st'.1.pfn = st.1.pfn + 1 ∧
      st'.2.1 = st.2.1 + 1 ∧ PteInv L lowPfn a b pt₀ iter last₀ d n page st' := by
  obtain ⟨s, pteIdx, addr⟩ := st
  obtain ⟨⟨hmap, hle, hge, hwritten, hfirst, hsecond⟩, hp, hpage, hlow, hi, hile, haddr⟩ := h
  dsimp only at *
  have hd : d = pageDir s.pfn ∧ pteIdx = s.pfn % ptrsPerPte := by
    rw [pageOffset, pageSize, ptrsPerPte] at hi
    rw [ptrsPerPte] at hidx
    rw [pageDir, ptrsPerPte]
    omega
  obtain ⟨rfl, rfl⟩ := hd
  have haddr' : addr = pageOffset + s.pfn * pageSize := by
    rw [haddr, pageOffset, pageSize]
    omega
  have hpfn : ((s.pfn <<< pageShift) + pageSize) % 2 ^ 32 = (s.pfn + 1) * pageSize := by
    rw [Nat.shiftLeft_eq, pageShift, pageSize]
    omega
  obtain ⟨hmap', hentry⟩ := hmap.setPte hb hle hlt hp (L.pfnPte s.pfn (iter.prot L addr))
  rw [← hpage] at hmap' hentry
  simp only [pteStep]
  rw [if_pos ⟨hidx, hlt⟩]
  refine ⟨_, rfl, rfl, rfl, ⟨hmap', ?_, ?_, ?_, ?_, ?_⟩, hp, hpage, hlow, ?_, ?_, ?_⟩
  · dsimp only
    omega
  · dsimp only
    omega
  · intro q hq hq'
    dsimp only at hq' ⊢
    have hrange := rangeDir_pageDir hb hq (by omega : q < b)
    rw [hentry _ hrange.lt _ (hshared _ hrange)]
    by_cases heq : q = s.pfn
    · rw [heq, if_pos ⟨rfl, rfl⟩, haddr']
    · rw [if_neg, hwritten q hq (by omega)]
      rintro ⟨hdir, hidx⟩
      rw [pageDir, pageDir, ptrsPerPte] at hdir
      rw [ptrsPerPte] at hidx
      omega
  · intro hiter _
    dsimp only
    rw [if_pos hiter, hpfn]
  · intro hiter
    dsimp only
    rw [if_neg (by rw [hiter]; decide), hsecond hiter]
  · dsimp only
    omega
  · dsimp only
    omega
  · dsimp only
    rw [haddr', pageSize]
    omega

/-- **One page table**: the loop maps every page of the range it can hold. -/
theorem pteLoop_spec (hb : b ≤ 2 ^ 18)
    (hshared : ∀ d, RangeDir (a * pageSize) (b * pageSize) d →
      pt₀.Apart (a * pageSize) (b * pageSize) d)
    {st : MapScan × ℕ × ℕ} (h : PteInv L lowPfn a b pt₀ iter last₀ d n page st) :
    ∃ s', Exec.loop (pteStep L iter b page) (ptrsPerPte + 1) st = .ok s' ∧
      PassInv L lowPfn a b pt₀ iter last₀ s' ∧ s'.pt.lowPages = n ∧
      pageOffset / pageSize + s'.pfn
        = min (pageOffset / pageSize + b) (d * ptrsPerPte + ptrsPerPte) := by
  refine Exec.loop_spec (pteStep L iter b page)
    (fun k st => k = ptrsPerPte - st.2.1 ∧ PteInv L lowPfn a b pt₀ iter last₀ d n page st) _ ?_
    ⟨rfl, h⟩ (by omega)
  rintro k st ⟨rfl, hinv⟩
  by_cases hgo : st.2.1 < ptrsPerPte ∧ st.1.pfn < b
  · obtain ⟨st', hstep, -, hidx, hinv'⟩ := hinv.step hb hshared hgo.1 hgo.2
    exact Or.inl ⟨_, st', hstep, by omega, rfl, hinv'⟩
  · refine Or.inr ⟨st.1, ?_, hinv.pass, hinv.lowPages, ?_⟩
    · obtain ⟨s, pteIdx, addr⟩ := st
      simp only [pteStep]
      rw [if_neg hgo]
    · have hidx := hinv.idx
      have hle := hinv.idx_le
      have hge := hinv.pass.ge
      omega

/-- The address of page `q` in the direct map, as the source computes its indices. -/
theorem pteIndex_page (q : ℕ) :
    pteIndex (((q <<< pageShift) + pageOffset) % 2 ^ 32) = q % ptrsPerPte := by
  rw [pteIndex, Nat.shiftLeft_eq, pageShift, pageOffset, pageSize, ptrsPerPte]
  omega

theorem pgdIndex_page {q : ℕ} (hq : q < 2 ^ 18) :
    pgdIndex (((q <<< pageShift) + pageOffset) % 2 ^ 32) = pageDir q := by
  rw [pgdIndex, pageDir, Nat.shiftLeft_eq, pageShift, pageOffset, pgdirShift, ptrsPerPgd, ptrsPerPte]
  omega

/-- **One directory entry**: the pages behind it are mapped, at the price of one page at most. -/
theorem pgdStep_spec (hb : b ≤ 2 ^ 18)
    (hshared : ∀ d, RangeDir (a * pageSize) (b * pageSize) d →
      pt₀.Apart (a * pageSize) (b * pageSize) d)
    (hfresh : FreshLowPages lowPfn pt₀) (h : PassInv L lowPfn a b pt₀ iter last₀ s)
    (hlt : s.pfn < b) (hleft : s.pt.lowPages < pt₀.lowPages + ptrsPerPgd) :
    ∃ s', pgdStep L lowPfn iter false b (s, pageDir s.pfn) = .ok (.inl (s', pageDir s.pfn + 1)) ∧
      PassInv L lowPfn a b pt₀ iter last₀ s' ∧ s'.pt.lowPages ≤ s.pt.lowPages + 1 ∧
      (s'.pfn < b → pageDir s'.pfn = pageDir s.pfn + 1) := by
  have hrange := rangeDir_pageDir hb h.le hlt
  have hdir : pageDir s.pfn < ptrsPerPgd := hrange.lt
  obtain ⟨pt, hinit, hmap, hpresent, hlow, hentry⟩ :=
    onePageTableInit_spec h.mapping hfresh hleft hrange
  have hpass : PassInv L lowPfn a b pt₀ iter last₀ { s with pt } := by
    refine ⟨hmap, h.le, h.ge, fun q hq hq' => ?_, h.first, h.second⟩
    dsimp only at hq' ⊢
    rw [hentry _ (rangeDir_pageDir hb hq (by omega)).lt, h.written q hq hq']
  have hstart : PteInv L lowPfn a b pt₀ iter last₀ (pageDir s.pfn) pt.lowPages
      (physToVirt (pt.table (pageDir s.pfn)))
      ({ s with pt }, 0 + pteIndex (((s.pfn <<< pageShift) + pageOffset) % 2 ^ 32),
        (s.pfn * pageSize + pageOffset) % 2 ^ 32) := by
    refine ⟨hpass, hpresent, rfl, rfl, ?_, ?_, ?_⟩
    · dsimp only
      rw [pteIndex_page, pageDir, pageOffset, pageSize, ptrsPerPte]
      omega
    · dsimp only
      rw [pteIndex_page, ptrsPerPte]
      omega
    · dsimp only
      rw [Nat.add_comm]
  obtain ⟨s', hloop, hpass', hlow', hpfn⟩ := pteLoop_spec hb hshared hstart
  have hround : pmdStep L lowPfn iter false b (pageDir s.pfn) (s, 0) = .ok (.inl (s', 1)) := by
    simp only [pmdStep]
    rw [if_pos ⟨by decide, hlt⟩, if_neg (by decide), Nat.add_zero, hinit, Exec.ok_bind]
    dsimp only
    rw [hloop, Exec.ok_bind]
    rfl
  have hdone : pmdStep L lowPfn iter false b (pageDir s.pfn) (s', 1) = .ok (.inr s') := by
    simp only [pmdStep]
    rw [if_neg fun h => absurd h.1 (by decide)]
  refine ⟨s', ?_, hpass', by omega, fun hlt' => ?_⟩
  · simp only [pgdStep]
    rw [if_pos hdir, if_neg (not_le.mpr hlt), Exec.loop_next hround, Exec.loop_done hdone]
    rfl
  · rw [pageDir, ptrsPerPte, pageOffset, pageSize] at hpfn
    rw [pageDir, pageDir, ptrsPerPte]
    omega

variable (L iter last₀) in
/-- **One pass** maps the pages of the range. -/
theorem mappingPass_spec (hb : b ≤ 2 ^ 18) (hab : a < b)
    (hshared : ∀ d, RangeDir (a * pageSize) (b * pageSize) d →
      pt₀.Apart (a * pageSize) (b * pageSize) d)
    (hfresh : FreshLowPages lowPfn pt₀) {pt : PageTables} (hmap : Mapping lowPfn a b pt₀ pt)
    (hlow : pt.lowPages + 256 ≤ pt₀.lowPages + ptrsPerPgd) :
    ∃ s, mappingPass L lowPfn iter false a b last₀ pt = .ok s ∧
      PassInv L lowPfn a b pt₀ iter last₀ s ∧ s.pfn = b ∧ s.pt.lowPages ≤ pt.lowPages + 256 := by
  refine Exec.loop_spec (pgdStep L lowPfn iter false b)
    (fun k st => k = ptrsPerPgd - st.2 ∧ PassInv L lowPfn a b pt₀ iter last₀ st.1 ∧
      (st.1.pfn < b → st.2 = pageDir st.1.pfn) ∧ st.2 ≤ ptrsPerPgd ∧
      st.1.pt.lowPages + 768 ≤ pt.lowPages + st.2) _ ?_ ⟨rfl, ?_, ?_, ?_, ?_⟩ ?_
  · rintro k ⟨s, i⟩ ⟨rfl, hinv, hdir, hi, hlow'⟩
    dsimp only at hinv hdir hi hlow' ⊢
    by_cases hlt : s.pfn < b
    · obtain rfl := hdir hlt
      have hrange := (rangeDir_pageDir hb hinv.le hlt).lt
      obtain ⟨s', hstep, hinv', hless, hnext⟩ := pgdStep_spec hb hshared hfresh hinv hlt
        (by rw [ptrsPerPgd] at *; omega)
      exact Or.inl ⟨_, _, hstep, by dsimp only; omega, rfl, hinv',
        fun hlt' => (hnext hlt').symm, by dsimp only; omega, by dsimp only; omega⟩
    · by_cases hend : i < ptrsPerPgd
      · refine Or.inl ⟨_, (s, i + 1), ?_, by dsimp only; omega, rfl, hinv,
          fun hlt' => absurd hlt' hlt, by dsimp only; omega, by dsimp only; omega⟩
        simp only [pgdStep]
        rw [if_pos hend, if_pos (not_lt.mp hlt)]
      · refine Or.inr ⟨s, ?_, hinv, le_antisymm hinv.ge (not_lt.mp hlt), ?_⟩
        · simp only [pgdStep]
          rw [if_neg hend]
        · rw [ptrsPerPgd] at *
          omega
  · exact ⟨hmap, le_rfl, hab.le, fun q hq hq' => absurd hq (not_le.mpr hq'),
      fun _ h => absurd h (lt_irrefl _), fun _ => rfl⟩
  · exact fun _ => pgdIndex_page (by omega)
  · exact (pgdIndex_lt _).le
  · dsimp only
    rw [pgdIndex_page (by omega), pageDir, ptrsPerPte]
    omega
  · dsimp only
    omega

end Pass

/-! ## Two passes -/

/-- The direct map fits between `PAGE_OFFSET` and the end of the address space. -/
theorem KernelLayout.maxmem_le (L : KernelLayout) : L.maxmem ≤ 2 ^ 30 := by
  have hend := L.vmallocEnd_lt
  have hsub : L.maxmem ≤ L.vmallocEnd - pageOffset := Nat.sub_le _ _
  rw [pageOffset] at hsub
  omega

section Init

variable {L : KernelLayout} {lowPfn : ℕ → ℕ} {pt : PageTables} {a b start stop pageSizeMask : ℕ}

/-- A range of whole pages below `MAXMEM`, by page numbers. -/
theorem pages_of_range (hstart : pageSize ∣ start) (hstop : pageSize ∣ stop) (hlt : start < stop)
    (hmax : stop ≤ L.maxmem) :
    ∃ a b, start = a * pageSize ∧ stop = b * pageSize ∧ a < b ∧ b ≤ 2 ^ 18 := by
  obtain ⟨a, ha⟩ := hstart
  obtain ⟨b, hb⟩ := hstop
  rw [Nat.mul_comm] at ha hb
  have hle := hmax.trans L.maxmem_le
  refine ⟨a, b, ha, hb, ?_, ?_⟩
  · rw [ha, hb, pageSize] at hlt
    omega
  · rw [hb, pageSize] at hle
    omega

/-- Both passes: the end of the range comes back, and its pages are mapped. -/
theorem kernelPhysicalMappingInit_pages (hab : a < b) (hb : b ≤ 2 ^ 18)
    (hpse : L.usePse pageSizeMask = false) (hsmall : pt.SmallPages)
    (hshared : ∀ d, RangeDir (a * pageSize) (b * pageSize) d →
      pt.Apart (a * pageSize) (b * pageSize) d)
    (hfresh : FreshLowPages lowPfn pt) :
    ∃ pt', pt.kernelPhysicalMappingInit L lowPfn (a * pageSize) (b * pageSize) pageSizeMask
        = .ok (b * pageSize, pt') ∧ Mapping lowPfn a b pt pt' ∧
      ∀ q, a ≤ q → q < b → pt'.entry (pageDir q) (q % ptrsPerPte)
        = L.pfnPte q (MappingIter.second.prot L (pageOffset + q * pageSize)) := by
  have hpfn : ∀ q, (q * pageSize) >>> pageShift = q := by
    intro q
    rw [Nat.shiftRight_eq_div_pow, pageSize, pageShift]
    omega
  obtain ⟨s₁, hpass₁, hinv₁, hpfn₁, hlow₁⟩ := mappingPass_spec L .first (b * pageSize) hb hab
    hshared hfresh (mapping_refl hsmall hfresh) (by rw [ptrsPerPgd]; omega)
  have hmap₁ := (hinv₁.mapping.updatePageCount .level2M s₁.pages2m).updatePageCount .level4K s₁.pages4k
  obtain ⟨s₂, hpass₂, hinv₂, hpfn₂, -⟩ := mappingPass_spec L .second s₁.lastMapPaddr hb hab
    hshared hfresh hmap₁ (by simp only [PageTables.updatePageCount]; rw [ptrsPerPgd]; omega)
  have hlast : s₂.lastMapPaddr = b * pageSize := by
    rw [hinv₂.second rfl, hinv₁.first rfl (hpfn₁ ▸ hab), hpfn₁]
  refine ⟨s₂.pt, ?_, hinv₂.mapping, fun q hq hq' => hinv₂.written q hq (by omega)⟩
  simp only [PageTables.kernelPhysicalMappingInit]
  rw [hpse, hpfn, hpfn, hpass₁, Exec.ok_bind, hpass₂, Exec.ok_bind, hlast]
  rfl

end Init

/-- **`kernel_physical_mapping_init` builds exactly the direct map.**  With small pages, on tables whose
directory entries in use point to page tables, none shared by two directory entries of the range, and
with fresh pages for new ones: it returns the end of the range; every address of the range is found at
`PAGE_OFFSET` with the protection chosen for its page; and every other virtual address translates as
before, unless its directory entry shares its page table with the range. -/
theorem kernelPhysicalMappingInit_directMap (L : KernelLayout) (lowPfn : ℕ → ℕ) (pt : PageTables)
    (start stop pageSizeMask : ℕ) (hstart : pageSize ∣ start) (hstop : pageSize ∣ stop)
    (hlt : start < stop) (hmax : stop ≤ L.maxmem) (hpse : L.usePse pageSizeMask = false)
    (hsmall : pt.SmallPages) (hshared : ∀ d, RangeDir start stop d → pt.Apart start stop d)
    (hfresh : FreshLowPages lowPfn pt) :
    ∃ pt', pt.kernelPhysicalMappingInit L lowPfn start stop pageSizeMask = .ok (stop, pt') ∧
      (∀ pa, start ≤ pa → pa < stop → pt'.translate (pageOffset + pa)
        = some (pa, L.massagePgprot (if L.isKernelText (pageOffset + pa / pageSize * pageSize)
            then pageKernelExec else pageKernel))) ∧
      ∀ v < 2 ^ 32, ¬(pageOffset + start ≤ v ∧ v < pageOffset + stop) →
        pt.Apart start stop (pgdIndex v) → pt'.translate v = pt.translate v := by
  obtain ⟨a, b, rfl, rfl, hab, hb⟩ := pages_of_range hstart hstop hlt hmax
  obtain ⟨pt', hinit, hmap, hwritten⟩ :=
    kernelPhysicalMappingInit_pages hab hb hpse hsmall hshared hfresh
  refine ⟨pt', hinit, fun pa hpa hpa' => ?_, fun v hv hout hapart => ?_⟩
  · have hq : a ≤ pa / pageSize ∧ pa / pageSize < b := by
      rw [pageSize] at *
      omega
    have hindex : pteIndex (pageOffset + pa) = pa / pageSize % ptrsPerPte ∧
        (pageOffset + pa) % pageSize = pa % pageSize := by
      rw [pteIndex, pageOffset, pageSize, ptrsPerPte]
      omega
    have hdir : pgdIndex (pageOffset + pa) = pageDir (pa / pageSize) :=
      pgdIndex_pageOffset (by rw [pageSize] at hpa'; omega)
    rw [translate_eq hmap.small, hdir, hindex.1, hindex.2, hwritten _ hq.1 hq.2,
      decodePte_pfnPte L (by omega), Nat.div_add_mod']
    rfl
  · rw [translate_eq hmap.small, translate_eq hsmall, hmap.frame _ (pgdIndex_lt v) _ hapart]
    rintro ⟨hlow, hhigh⟩
    refine hout ?_
    rw [pgdIndex, pteIndex, pageOffset, pageSize, pgdirShift, ptrsPerPgd, ptrsPerPte] at hlow hhigh
    rw [pageOffset, pageSize]
    omega

/-- A kernel at 4 MiB whose first page table, at `0x2000`, is there already. -/
def bootLayout : KernelLayout :=
  ⟨0xc0400000, 0xc0500000, 0xff7fe000, true, true, by decide, by decide⟩

def bootTables : PageTables where
  pgd d := if d = 768 then 0x2067 else 0
  pte _ _ := 0
  directPageCounts _ := 0
  lowPages := 0

theorem bootTables_present {d : ℕ} (h : bootTables.Present d) : d = 768 := by
  by_contra hne
  refine h ?_
  show (if d = 768 then 0x2067 else 0) &&& pagePresent = 0
  rw [if_neg hne, Nat.zero_and]

/-- The last page of its page table and the first of the next, which is new. -/
theorem kernelPhysicalMappingInit_boot :
    ∃ pt', bootTables.kernelPhysicalMappingInit bootLayout (0x100 + ·) 0x3ff000 0x401000 0
        = .ok (0x401000, pt') ∧
      (∀ pa, 0x3ff000 ≤ pa → pa < 0x401000 → pt'.translate (pageOffset + pa)
        = some (pa, bootLayout.massagePgprot
            (if bootLayout.isKernelText (pageOffset + pa / pageSize * pageSize)
              then pageKernelExec else pageKernel))) ∧
      ∀ v < 2 ^ 32, ¬(pageOffset + 0x3ff000 ≤ v ∧ v < pageOffset + 0x401000) →
        bootTables.Apart 0x3ff000 0x401000 (pgdIndex v) →
        pt'.translate v = bootTables.translate v := by
  refine kernelPhysicalMappingInit_directMap bootLayout (0x100 + ·) bootTables 0x3ff000 0x401000 0
    (by decide) (by decide) (by decide) (by decide) (by decide) ?_ ?_ ⟨?_, ?_, ?_⟩
  · intro d _ hp
    rw [bootTables_present hp]
    decide
  · intro d _ d' _ hne hp' hp
    exact absurd ((bootTables_present hp').trans (bootTables_present hp).symm) hne
  · intro k hk
    dsimp only [bootTables]
    rw [ptrsPerPgd] at hk
    omega
  · intro j _ k _ heq
    dsimp only [bootTables] at heq
    omega
  · intro k hk d _ hp
    rw [bootTables_present hp, show bootTables.table 768 = 0x2000 from rfl, pageSize]
    dsimp only [bootTables]
    omega

/-! ## What its callers see -/

/-- How many directory entries of the range are not in use. -/
def PageTables.newTables (pt : PageTables) (start stop : ℕ) : ℕ :=
  ((Finset.Icc (pgdIndex (pageOffset + start)) (pgdIndex (pageOffset + (stop - 1)))).filter
    fun d => ¬pt.Present d).card

section Callers

variable {L : KernelLayout} {lowPfn : ℕ → ℕ} {pt pt' : PageTables} {a b d : ℕ}

theorem mem_rangeDirs_iff (hab : a < b) (hb : b ≤ 2 ^ 18) :
    d ∈ Finset.Icc (pgdIndex (pageOffset + a * pageSize)) (pgdIndex (pageOffset + (b * pageSize - 1)))
      ↔ ∃ q, a ≤ q ∧ q < b ∧ pageDir q = d := by
  rw [Finset.mem_Icc, pageSize, pgdIndex_pageOffset (by omega), pgdIndex_pageOffset (by omega)]
  unfold pageDir ptrsPerPte
  rw [pageSize]
  constructor
  · rintro ⟨hlow, hhigh⟩
    exact ⟨max a ((d - 768) * 1024), by omega, by omega, by omega⟩
  · rintro ⟨q, hq, hq', rfl⟩
    omega

/-- A page has been taken for every directory entry of the range that was not in use. -/
theorem Mapping.lowPages_eq (hmap : Mapping lowPfn a b pt pt') (hab : a < b) (hb : b ≤ 2 ^ 18)
    (hwritten : ∀ q, a ≤ q → q < b → pt'.entry (pageDir q) (q % ptrsPerPte)
      = L.pfnPte q (MappingIter.second.prot L (pageOffset + q * pageSize))) :
    pt'.lowPages = pt.lowPages + pt.newTables (a * pageSize) (b * pageSize) := by
  have hset : addedDirs pt pt' = (Finset.Icc (pgdIndex (pageOffset + a * pageSize))
      (pgdIndex (pageOffset + (b * pageSize - 1)))).filter fun d => ¬pt.Present d := by
    ext d
    rw [addedDirs, Finset.mem_filter, Finset.mem_filter, mem_rangeDirs_iff hab hb,
      ← rangeDir_iff hb, Finset.mem_range]
    constructor
    · rintro ⟨-, hp', hp⟩
      exact ⟨(hmap.added d hp').resolve_left hp, hp⟩
    · rintro ⟨hrange, hp⟩
      obtain ⟨q, hq, hq', rfl⟩ := (rangeDir_iff hb).mp hrange
      refine ⟨hrange.lt, fun hp' => ?_, hp⟩
      -- an entry of the direct map is present, and there is none in a page table that is not
      have hdecode := decodePte_pfnPte L (by omega : q < 2 ^ 20) .second (pageOffset + q * pageSize) 0
      rw [← hwritten q hq hq', PageTables.entry_of_not_present (not_not.mpr hp'), decodePte,
        if_pos (Nat.zero_and _)] at hdecode
      exact absurd hdecode (by simp)
  rw [hmap.pages, hset, PageTables.newTables]

end Callers

/-- **What the callers of `kernel_physical_mapping_init` take it for is what it does**: where it builds
the direct map it returns the end of the range, and calls `alloc_low_page` once for every directory
entry of the range that is not in use. -/
theorem kernelPhysicalMappingInit_refines (L : KernelLayout) (lowPfn : ℕ → ℕ) (pt : PageTables)
    (start stop pageSizeMask : ℕ) (hstart : pageSize ∣ start) (hstop : pageSize ∣ stop)
    (hlt : start < stop) (hmax : stop ≤ L.maxmem) (hpse : L.usePse pageSizeMask = false)
    (hsmall : pt.SmallPages) (hshared : ∀ d, RangeDir start stop d → pt.Apart start stop d)
    (hfresh : FreshLowPages lowPfn pt) (newTables : MapState → ℕ → ℕ → ℕ) (s : MapState)
    (hnew : newTables s start stop = pt.newTables start stop) :
    ∃ ret pt', pt.kernelPhysicalMappingInit L lowPfn start stop pageSizeMask = .ok (ret, pt') ∧
      kernelPhysicalMappingInit newTables start stop s =
        (do
          (List.range (pt'.lowPages - pt.lowPages)).foldlM (fun _ _ => allocLowPage) ()
          pure ret : MapProc ℕ) s := by
  obtain ⟨a, b, rfl, rfl, hab, hb⟩ := pages_of_range hstart hstop hlt hmax
  obtain ⟨pt', hinit, hmap, hwritten⟩ :=
    kernelPhysicalMappingInit_pages hab hb hpse hsmall hshared hfresh
  have hpages : pt'.lowPages - pt.lowPages = newTables s (a * pageSize) (b * pageSize) := by
    rw [hmap.lowPages_eq hab hb hwritten, hnew, Nat.add_sub_cancel_left]
  refine ⟨_, pt', hinit, ?_⟩
  rw [hpages]
  rfl

end Sandix
