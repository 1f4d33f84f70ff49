import Sandix.Mm.PhysicalMapping
import Sandix.Mm.RangeInit

/-!
# Mm/RangeTables — completing the page tables of a range disturbs no mapping

The nested loops visit the directory entries of the range once each, in order, also when the range ends
at the top of the address space (`rangeLoop_eq_foldlM`).  So the count and the moves decide about the
same entries: `taken` is the number of moves before an entry, and `MoveInv` says that the next page of
the block is page `taken` of it.  A move copies the table before the directory points to the copy, so
through the directory nothing changes (`Retabled.entry`).

* `pageTableRangeInit_spec` — the whole function: it ends, no `BUG_ON` fires, exactly the counted pages
  are taken, the range is complete, every address translates as before, and the tables of the `kmap`
  window follow one another.
-/

namespace Sandix

open Machinery Function

/-! ## The walk -/

section Walk

variable {α : Type} {body : ℕ → ℕ → α → Exec α} {stop d vaddr : ℕ} {a : α}

/-- With the middle level folded, a round of the outer loop is one directory entry. -/
theorem rangePgdStep_eq (hd : d < ptrsPerPgd) (hne : vaddr ≠ stop) :
    rangePgdStep body stop (d, 0, vaddr, a) =
      body d vaddr a >>= fun a => .ok (.inl (d + 1, 0, (vaddr + pmdSize) % 2 ^ 32, a)) := by
  have hin : (0 : ℕ) < ptrsPerPmd ∧ vaddr ≠ stop := ⟨by decide, hne⟩
  have hloop : Exec.loop (rangePmdStep body stop d) (ptrsPerPmd + 1) (0, vaddr, a) =
      body d vaddr a >>= fun a => .ok ((vaddr + pmdSize) % 2 ^ 32, a) := by
    rw [Exec.loop, rangePmdStep, if_pos hin, Nat.add_zero]
    cases body d vaddr a with
    | error e => rfl
    | ok a => rfl
  rw [rangePgdStep, if_pos ⟨hd, hne⟩, hloop]
  cases body d vaddr a with
  | error e => rfl
  | ok a => rfl

/-- The address of a directory entry; past the last one it is `0`. -/
theorem dirAddr_succ (d : ℕ) :
    (d * pmdSize % 2 ^ 32 + pmdSize) % 2 ^ 32 = (d + 1) * pmdSize % 2 ^ 32 := by
  rw [Nat.mod_add_mod, Nat.succ_mul]

theorem rangePgdLoop_eq (body : ℕ → ℕ → α → Exec α) {last : ℕ} (hlast : last ≤ ptrsPerPgd) :
    ∀ (k : ℕ) {fuel d : ℕ} (a : α), d + k = last → (0 < d ∨ last < ptrsPerPgd) → k < fuel →
      Exec.loop (rangePgdStep body (last * pmdSize % 2 ^ 32)) fuel (d, 0, d * pmdSize % 2 ^ 32, a) =
        (List.range' d k).foldlM (fun a d => body d (d * pmdSize) a) a
  | 0, fuel + 1, d, a, hd, _, _ => by
      obtain rfl : d = last := hd
      exact Exec.loop_done (by rw [rangePgdStep, if_neg fun h => h.2 rfl])
  | k + 1, fuel + 1, d, a, hd, hpos, hfuel => by
      have hsize : pmdSize = 4194304 := rfl
      rw [ptrsPerPgd] at hlast hpos
      have hlt : d * pmdSize % 2 ^ 32 = d * pmdSize := by
        rw [hsize]
        omega
      have hne : d * pmdSize ≠ last * pmdSize % 2 ^ 32 := by
        rw [hsize]
        omega
      rw [Exec.loop, hlt, rangePgdStep_eq (show d < 1024 by omega) hne, List.range'_succ,
        List.foldlM_cons]
      cases hbody : body d (d * pmdSize) a with
      | error e => rfl
      | ok a =>
        have hnext := dirAddr_succ d
        rw [hlt] at hnext
        simp only [Exec.ok_bind, hnext]
        exact rangePgdLoop_eq body hlast k a (by omega) (Or.inl (Nat.succ_pos d)) (by omega)

/-- **The walk** visits the directory entries of the range in order; a range that ends at `0` ends
after the last one. -/
theorem rangeLoop_eq_foldlM (body : ℕ → ℕ → α → Exec α) {first last : ℕ} (hlt : first < last)
    (hlast : last ≤ ptrsPerPgd) (hpos : 0 < first ∨ last < ptrsPerPgd) (a : α) :
    rangeLoop body (last * pmdSize % 2 ^ 32) (first * pmdSize) a =
      (List.range' first (last - first)).foldlM (fun a d => body d (d * pmdSize) a) a := by
  have hsize : pmdSize = 4194304 := rfl
  have hidx : pgdIndex (first * pmdSize) = first := by
    rw [pgdIndex, hsize, pgdirShift, ptrsPerPgd]
    rw [ptrsPerPgd] at hlast
    omega
  have hpmd : pmdIndex (first * pmdSize) = 0 := Nat.and_zero _
  have haddr : first * pmdSize % 2 ^ 32 = first * pmdSize := by
    rw [hsize]
    rw [ptrsPerPgd] at hlast
    omega
  rw [rangeLoop, hidx, hpmd]
  have hloop := rangePgdLoop_eq body hlast (last - first) (d := first) a (by omega) hpos
    (show last - first < ptrsPerPgd + 1 by omega)
  rwa [haddr] at hloop

end Walk

/-! ## The window -/

section Window

variable (K : KmapArea)

/-- The directory entry holds a part of the `kmap` window, and not all of it. -/
def KmapArea.InWindow (d : ℕ) : Prop :=
  K.pmdIdxKmapBegin ≠ K.pmdIdxKmapEnd ∧ K.pmdIdxKmapBegin ≤ d ∧ d ≤ K.pmdIdxKmapEnd
deriving Decidable

/-- The entries of the window among the first `k` of the range. -/
def KmapArea.taken (first k : ℕ) : ℕ := (List.range' first k).countP fun d => K.InWindow d

variable {K} {first k d : ℕ}

theorem KmapArea.taken_succ : K.taken first (k + 1) =
    K.taken first k + if K.InWindow (first + k) then 1 else 0 := by
  rw [taken, List.range'_1_concat, List.countP_append, List.countP_singleton]
  simp only [decide_eq_true_eq]
  rfl

theorem KmapArea.taken_le (K : KmapArea) (first k : ℕ) : K.taken first k ≤ k := by
  have hle := List.countP_le_length (p := fun d => decide (K.InWindow d)) (l := List.range' first k)
  rwa [List.length_range'] at hle

theorem KmapArea.taken_mono (K : KmapArea) (first : ℕ) {k k' : ℕ} (h : k ≤ k') :
    K.taken first k ≤ K.taken first k' := by
  obtain ⟨j, rfl⟩ := Nat.exists_eq_add_of_le h
  rw [taken, taken, ← List.range'_append_1, List.countP_append]
  exact Nat.le_add_right _ _

theorem dirAddr_shiftRight (d : ℕ) : (d * pmdSize) >>> pmdShift = d := by
  rw [Nat.shiftRight_eq_div_pow, Nat.mul_div_cancel _ (by decide)]

/-- **The count** is the number of entries of the window in the range. -/
theorem pageTableRangeInitCount_eq {last : ℕ} (hlt : first < last) (hlast : last ≤ ptrsPerPgd)
    (hpos : 0 < first ∨ last < ptrsPerPgd) :
    pageTableRangeInitCount K (first * pmdSize) (last * pmdSize % 2 ^ 32) =
      .ok (K.taken first (last - first)) := by
  unfold pageTableRangeInitCount
  by_cases hone : K.pmdIdxKmapBegin = K.pmdIdxKmapEnd
  · have hzero : K.taken first (last - first) = 0 := by
      rw [KmapArea.taken, List.countP_eq_zero]
      intro d _
      simp [KmapArea.InWindow, hone]
    rw [if_pos hone, hzero]
  · rw [if_neg hone, rangeLoop_eq_foldlM _ hlt hlast hpos]
    have hk : last - first ≤ ptrsPerPgd := by omega
    generalize last - first = k at hk
    induction k with
    | zero => rfl
    | succ k ih =>
      have hle := K.taken_le first k
      have hmod : (K.taken first k + 1) % 2 ^ 32 = K.taken first k + 1 := by
        rw [ptrsPerPgd] at hk
        omega
      rw [List.range'_1_concat, List.foldlM_append, ih (by omega), KmapArea.taken_succ, Exec.ok_bind,
        List.foldlM_cons, dirAddr_shiftRight, hmod]
      by_cases hin : K.InWindow (first + k)
      · rw [if_pos hin, if_pos ⟨hin.2.1, hin.2.2⟩]
        rfl
      · rw [if_neg hin, if_neg fun h => hin ⟨hone, h.1, h.2⟩]
        rfl

theorem KmapArea.fixToVirt_eq (K : KmapArea) {idx : ℕ} (h : idx ≤ K.fixKmapBegin + kmTypeNr * K.nrCpus) :
    K.fixToVirt idx = K.fixaddrTop - idx * pageSize := by
  have hle := Nat.mul_le_mul_right pageSize h
  have habove := K.above
  exact sub32_of_le K.top_lt (by omega)

/-- An aligned address strictly inside the window, as `BUG_ON` tests it, is in a directory entry of the
window, and so is the entry before it. -/
theorem inWindow_of_between (hlo : d * pmdSize > K.fixToVirt K.fixKmapEnd)
    (hhi : d * pmdSize < K.fixToVirt (K.fixKmapBegin - 1)) : K.InWindow (d - 1) ∧ K.InWindow d := by
  have hbegin := K.begin_pos
  have habove := K.above
  have haligned := K.aligned
  have hcpus := K.cpus_pos
  rw [KmapArea.fixKmapEnd, K.fixToVirt_eq (by omega)] at hlo
  rw [K.fixToVirt_eq (by omega)] at hhi
  simp only [KmapArea.InWindow, KmapArea.pmdIdxKmapBegin, KmapArea.pmdIdxKmapEnd,
    Nat.shiftRight_eq_div_pow, KmapArea.fixKmapEnd]
  rw [K.fixToVirt_eq (by omega), K.fixToVirt_eq (by omega)]
  simp only [pageSize, pmdShift, pmdSize, kmTypeNr] at *
  generalize K.fixKmapBegin = b at *
  generalize K.fixaddrTop = top at *
  generalize K.nrCpus = c at *
  refine ⟨⟨?_, ?_, ?_⟩, ?_, ?_, ?_⟩ <;> omega

end Window

/-! ## Another page behind a directory entry -/

/-- `pt'` has page `n` behind the directory entry `d`, with what `pt` has there; the other pages are as
they were. -/
structure Retabled (pt : PageTables) (d n : ℕ) (pt' : PageTables) : Prop where
  points : PointsTo pt d n pt'
  page : ∀ i < ptrsPerPte, pt'.pte (n * pageSize) i = pt.entry d i
  other : ∀ p, p ≠ n * pageSize → pt'.pte p = pt.pte p

section Retabled

variable {pt pt' : PageTables} {d d' n : ℕ}

/-- A cleared page where there was none. -/
theorem withTable_retabled (hp : ¬pt.Present d) : Retabled pt d n (withTable pt d n) := by
  refine ⟨rfl, fun i _ => ?_, fun p hp' => update_of_ne hp' _ _⟩
  rw [withTable_pte_self, PageTables.entry_of_not_present hp]

theorem Retabled.entry (h : Retabled pt d n pt') (hn : n < 2 ^ 20)
    (hfree : pt.Present d' → pt.table d' ≠ n * pageSize) {i : ℕ} (hi : i < ptrsPerPte) :
    pt'.entry d' i = pt.entry d' i :=
  h.points.entry_eq hn (h.page i hi) h.other hfree

/-- The copying loop, up to index `m`. -/
theorem copyPtes_fold (pt : PageTables) {newpte pte : ℕ}
    (hne : virtToPhys newpte ≠ virtToPhys pte) : ∀ m : ℕ,
    (List.range m).foldl (fun pt i => pt.setPte newpte i (pt.pte (virtToPhys pte) i)) pt =
      { pt with pte := update pt.pte (virtToPhys newpte) fun i =>
          if i < m then pt.pte (virtToPhys pte) i else pt.pte (virtToPhys newpte) i }
  | 0 => by simp
  | m + 1 => by
      rw [List.range_succ, List.foldl_append, copyPtes_fold pt hne m]
      simp only [List.foldl_cons, List.foldl_nil, PageTables.setPte, update_self,
        update_of_ne (Ne.symm hne), update_idem]
      congr 2
      funext i
      by_cases hi : i = m
      · subst hi
        rw [update_self, if_pos (Nat.lt_succ_self i)]
      · rw [update_of_ne hi]
        have hiff : i < m + 1 ↔ i < m := by omega
        simp only [hiff]

/-- **A move** puts a copy of the page table behind `d`, where `adr` points. -/
theorem moveTable_eq {s : RangeState} (hp : s.pt.Present d) (hpte : s.pte = physToVirt (s.pt.table d))
    (hadr : s.adr = physToVirt (n * pageSize)) (hn : n < 2 ^ 20)
    (hfree : s.pt.table d ≠ n * pageSize) :
    ∃ pt', moveTable s d = .ok ⟨pt', s.adr, (s.adr + pageSize) % 2 ^ 32⟩ ∧ Retabled s.pt d n pt' ∧
      pt'.lowPages = s.pt.lowPages := by
  have hnew : virtToPhys s.adr = n * pageSize := by
    rw [hadr]
    exact virtToPhys_physToVirt (by rw [pageSize]; omega)
  have hold : virtToPhys s.pte = s.pt.table d := by
    rw [hpte]
    exact virtToPhys_physToVirt (table_lt s.pt d)
  have hcopy : s.pt.copyPtes s.adr s.pte = { s.pt with
      pte := update s.pt.pte (n * pageSize) fun i =>
        if i < ptrsPerPte then s.pt.pte (s.pt.table d) i else s.pt.pte (n * pageSize) i } := by
    have hne : virtToPhys s.adr ≠ virtToPhys s.pte := by
      rw [hnew, hold]
      exact Ne.symm hfree
    rw [PageTables.copyPtes, copyPtes_fold s.pt hne, hnew, hold]
  have hmoved : Retabled s.pt d n
      ((s.pt.copyPtes s.adr s.pte).setPmd d (n * pageSize ||| pageTable)) := by
    rw [hcopy]
    refine ⟨rfl, fun i hi => ?_, fun p hp' => update_of_ne hp' _ _⟩
    rw [PageTables.entry_of_present hp, PageTables.setPmd]
    simp only [update_self, if_pos hi]
  refine ⟨_, ?_, hmoved, by rw [hcopy]; rfl⟩
  rw [moveTable, hnew, pteOffsetKernel_table hmoved.points.small_self, hmoved.points.table_self hn, hadr,
    if_neg (not_not.mpr rfl)]

end Retabled

/-! ## The invariant -/

/-- What is assumed of `alloc_low_pages`: its next block of `count` pages and the pages it hands out
after are pages of memory, distinct from one another and from the page tables there are. -/
structure FreshBlock (lowPfn : ℕ → ℕ) (pt : PageTables) (count : ℕ) : Prop where
  low : FreshLowPages lowPfn pt
  le : lowPfn pt.lowPages + count ≤ 2 ^ 20
  apart : ∀ j < count, ∀ k, 0 < k → k < ptrsPerPgd →
    lowPfn (pt.lowPages + k) ≠ lowPfn pt.lowPages + j
  fresh : ∀ j < count, ∀ d < ptrsPerPgd, pt.Present d →
    pt.table d ≠ (lowPfn pt.lowPages + j) * pageSize

section Invariant

variable (lowPfn : ℕ → ℕ) (pt₀ : PageTables) (count : ℕ)

/-- The calls of the allocator before the loop. -/
def blockCalls : ℕ := if count = 0 then 0 else 1

/-- **What every change of the tables keeps**, with `t` pages of the block in use: nothing has changed
through the directory, and no page that is still to come is a page table. -/
structure TableInv (t : ℕ) (pt : PageTables) : Prop where
  small : pt.SmallPages
  entries : ∀ d < ptrsPerPgd, ∀ i < ptrsPerPte, pt.entry d i = pt₀.entry d i
  calls : pt₀.lowPages + blockCalls count ≤ pt.lowPages
  lowFree : ∀ k, pt.lowPages ≤ k → k < pt₀.lowPages + ptrsPerPgd → ∀ d < ptrsPerPgd, pt.Present d →
    pt.table d ≠ lowPfn k * pageSize
  blockFree : ∀ j, t ≤ j → j < count → ∀ d < ptrsPerPgd, pt.Present d →
    pt.table d ≠ (lowPfn pt₀.lowPages + j) * pageSize

variable {lowPfn pt₀ count} {t t' d n : ℕ} {pt pt' : PageTables}

/-- **One change**: a page that was still to come, and is not any more, behind a directory entry. -/
theorem TableInv.retable (h : TableInv lowPfn pt₀ count t pt) (hr : Retabled pt d n pt')
    (hn : n < 2 ^ 20) (hfree : ∀ d' < ptrsPerPgd, pt.Present d' → pt.table d' ≠ n * pageSize)
    (hcalls : pt.lowPages ≤ pt'.lowPages) (ht : t ≤ t')
    (hlow : ∀ k, pt'.lowPages ≤ k → k < pt₀.lowPages + ptrsPerPgd → lowPfn k ≠ n)
    (hblock : ∀ j, t' ≤ j → j < count → lowPfn pt₀.lowPages + j ≠ n) :
    TableInv lowPfn pt₀ count t' pt' := by
  -- a page other than `n` that was no page table is none now
  have hstill : ∀ m, m ≠ n → (∀ d' < ptrsPerPgd, pt.Present d' → pt.table d' ≠ m * pageSize) →
      ∀ d' < ptrsPerPgd, pt'.Present d' → pt'.table d' ≠ m * pageSize := by
    intro m hm hold d' hd' hp
    by_cases hd : d' = d
    · subst hd
      rw [hr.points.table_self hn]
      exact fun heq => hm (Nat.eq_of_mul_eq_mul_right (by decide) heq).symm
    · rw [hr.points.table_of_ne hd]
      exact hold d' hd' ((hr.points.present_of_ne hd).mp hp)
  refine ⟨hr.points.small h.small, fun d' hd' i hi => ?_, h.calls.trans hcalls, fun k hk hk' => ?_,
    fun j hj hj' => ?_⟩
  · rw [hr.entry hn (hfree d' hd') hi, h.entries d' hd' i hi]
  · exact hstill _ (hlow k hk hk') (h.lowFree k (hcalls.trans hk) hk')
  · exact hstill _ (hblock j hj hj') (h.blockFree j (ht.trans hj) hj')

/-- `one_page_table_init` makes sure of a page table. -/
theorem TableInv.onePageTableInit (h : TableInv lowPfn pt₀ count t pt)
    (hfresh : FreshBlock lowPfn pt₀ count) (hleft : pt.lowPages < pt₀.lowPages + ptrsPerPgd)
    (hd : d < ptrsPerPgd) :
    ∃ pt', Sandix.onePageTableInit lowPfn pt d = .ok ((physToVirt (pt'.table d), 0), pt') ∧
      TableInv lowPfn pt₀ count t pt' ∧ pt'.Present d ∧ pt'.lowPages ≤ pt.lowPages + 1 ∧
      ∀ d', d' ≠ d → pt'.pgd d' = pt.pgd d' := by
  by_cases hp : pt.Present d
  · exact ⟨pt, onePageTableInit_present hp (h.small d hd hp), h, hp, Nat.le_succ _, fun _ _ => rfl⟩
  · obtain ⟨k, hk⟩ := Nat.exists_eq_add_of_le (Nat.le_of_add_right_le h.calls)
    have hcalls := h.calls
    have hn : lowPfn pt.lowPages < 2 ^ 20 := by
      rw [hk]
      exact hfresh.low.lt k (by omega)
    refine ⟨withTable pt d (lowPfn pt.lowPages), ?_, ?_, withTable_pointsTo.present_self, le_rfl,
      fun d' hne => withTable_pointsTo.pgd_of_ne hne⟩
    · rw [onePageTableInit_absent hp hn, withTable_pointsTo.table_self hn]
    · refine h.retable (withTable_retabled hp) hn (h.lowFree _ le_rfl hleft) (Nat.le_succ _) le_rfl
        (fun k' hk' hlt heq => ?_) (fun j _ hj heq => ?_)
      · obtain ⟨i, rfl⟩ := Nat.exists_eq_add_of_le
          ((Nat.le_of_add_right_le h.calls).trans ((Nat.le_succ _).trans hk'))
        rw [hk] at heq
        have := hfresh.low.inj i (by omega) k (by omega) heq
        have hmore : (withTable pt d (lowPfn pt.lowPages)).lowPages = pt.lowPages + 1 := rfl
        omega
      · rw [hk] at heq
        refine hfresh.apart j hj k ?_ (by omega) heq.symm
        rw [blockCalls, if_neg (by omega)] at hcalls
        omega

end Invariant

/-! ## One directory entry -/

theorem physToVirt_add (x y : ℕ) : (physToVirt x + y) % 2 ^ 32 = physToVirt (x + y) := by
  rw [physToVirt, physToVirt]
  omega

section Step

variable (K : KmapArea) (lowPfn : ℕ → ℕ) (pt₀ : PageTables) (first count : ℕ)

/-- Where the block begins; `NULL` when there is none. -/
def blockAdr : ℕ := if count = 0 then 0 else physToVirt (lowPfn pt₀.lowPages * pageSize)

/-- **The state of the loop** after `k` directory entries of the range. -/
structure MoveInv (k : ℕ) (s : RangeState) : Prop where
  tables : TableInv lowPfn pt₀ count (K.taken first k) s.pt
  calls : s.pt.lowPages ≤ pt₀.lowPages + blockCalls count + k
  present : ∀ d, first ≤ d → d < first + k → s.pt.Present d
  window : ∀ d, first ≤ d → d < first + k → K.InWindow d →
    s.pt.table d = (lowPfn pt₀.lowPages + K.taken first (d - first)) * pageSize
  adr : s.adr = (blockAdr lowPfn pt₀ count + K.taken first k * pageSize) % 2 ^ 32
  last : s.pte = if k = 0 then 0 else physToVirt (s.pt.table (first + k - 1))

variable {K lowPfn pt₀ first count} {k total : ℕ} {s : RangeState}

/-- `BUG_ON` finds the tables of the window in a row. -/
theorem MoveInv.noBug (h : MoveInv K lowPfn pt₀ first count k s) {pte : ℕ}
    (hpte : K.InWindow (first + k) →
      pte = physToVirt ((lowPfn pt₀.lowPages + K.taken first k) * pageSize)) :
    ¬((first + k) * pmdSize < K.fixToVirt (K.fixKmapBegin - 1) ∧
      (first + k) * pmdSize > K.fixToVirt K.fixKmapEnd ∧ s.pte ≠ 0 ∧
      (s.pte + ptrsPerPte * 4) % 2 ^ 32 ≠ pte) := by
  rintro ⟨hhi, hlo, hlast, hne⟩
  obtain ⟨hprev, hin⟩ := inWindow_of_between hlo hhi
  rcases Nat.eq_zero_or_pos k with rfl | hk
  · exact hlast (h.last.trans (if_pos rfl))
  obtain ⟨j, rfl⟩ := Nat.exists_eq_add_of_lt hk
  rw [Nat.zero_add] at *
  have hidx : first + (j + 1) - 1 = first + j := by omega
  have htable := h.window (first + j) (by omega) (by omega) (hidx ▸ hprev)
  have hpte' := h.last
  rw [if_neg (Nat.succ_ne_zero j), hidx, htable, Nat.add_sub_cancel_left] at hpte'
  refine hne ?_
  have hnext : (lowPfn pt₀.lowPages + K.taken first j) * pageSize + ptrsPerPte * 4 =
      (lowPfn pt₀.lowPages + (K.taken first j + 1)) * pageSize := by
    rw [pageSize, ptrsPerPte]
    omega
  rw [hpte hin, hpte', physToVirt_add, hnext, KmapArea.taken_succ, if_pos (hidx ▸ hprev)]

/-- The state after one more entry, with a page table behind it: in the window, the next of the
block. -/
theorem MoveInv.next (h : MoveInv K lowPfn pt₀ first count k s) {pt : PageTables} (adr : ℕ)
    (htab : TableInv lowPfn pt₀ count (K.taken first (k + 1)) pt)
    (hcalls : pt.lowPages ≤ s.pt.lowPages + 1) (hp : pt.Present (first + k))
    (hpgd : ∀ d, d ≠ first + k → pt.pgd d = s.pt.pgd d)
    (hwin : K.InWindow (first + k) →
      pt.table (first + k) = (lowPfn pt₀.lowPages + K.taken first k) * pageSize)
    (hadr : adr = (blockAdr lowPfn pt₀ count + K.taken first (k + 1) * pageSize) % 2 ^ 32) :
    MoveInv K lowPfn pt₀ first count (k + 1) ⟨pt, physToVirt (pt.table (first + k)), adr⟩ := by
  have hbefore : ∀ d, first ≤ d → d < first + (k + 1) → d = first + k ∨
      d < first + k ∧ pt.pgd d = s.pt.pgd d := by
    intro d _ hlt
    by_cases hd : d = first + k
    · exact Or.inl hd
    · exact Or.inr ⟨by omega, hpgd d hd⟩
  refine ⟨htab, ?_, fun d hd hlt => ?_, fun d hd hlt hin => ?_, hadr, ?_⟩
  · have := h.calls
    dsimp only
    omega
  · rcases hbefore d hd hlt with rfl | ⟨hlt', hsame⟩
    · exact hp
    · rw [PageTables.Present, hsame]
      exact h.present d hd hlt'
  · rcases hbefore d hd hlt with rfl | ⟨hlt', hsame⟩
    · rw [Nat.add_sub_cancel_left]
      exact hwin hin
    · rw [PageTables.table, hsame]
      exact h.window d hd hlt' hin
  · rw [if_neg (Nat.succ_ne_zero k)]
    rfl

/-- **One directory entry.** -/
theorem MoveInv.step (h : MoveInv K lowPfn pt₀ first count k s)
    (hfresh : FreshBlock lowPfn pt₀ count) (hcount : count = K.taken first total) (hk : k < total)
    (hfirst : first + total ≤ ptrsPerPgd) (htotal : total < ptrsPerPgd) :
    ∃ s', rangeInitBody K lowPfn (first + k) ((first + k) * pmdSize) s = .ok s' ∧
      MoveInv K lowPfn pt₀ first count (k + 1) s' := by
  have hcalls := h.calls
  have hblock : blockCalls count ≤ 1 := by
    rw [blockCalls]
    split_ifs <;> omega
  obtain ⟨pt₁, hinit, htab₁, hp₁, hcalls₁, hpgd₁⟩ := h.tables.onePageTableInit hfresh
    (show s.pt.lowPages < pt₀.lowPages + ptrsPerPgd by omega) (show first + k < ptrsPerPgd by omega)
  rw [rangeInitBody, hinit, Exec.ok_bind]
  dsimp only
  rw [pageTableKmapCheck, dirAddr_shiftRight]
  by_cases hin : K.InWindow (first + k)
  · have htaken : K.taken first k < count := by
      have hmono := K.taken_mono first (show k + 1 ≤ total from hk)
      rw [KmapArea.taken_succ, if_pos hin] at hmono
      omega
    have hn : lowPfn pt₀.lowPages + K.taken first k < 2 ^ 20 := by
      have := hfresh.le
      omega
    have hadr : s.adr = physToVirt ((lowPfn pt₀.lowPages + K.taken first k) * pageSize) := by
      rw [h.adr, blockAdr, if_neg (by omega), physToVirt_add, Nat.add_mul]
    have hfree := htab₁.blockFree _ le_rfl htaken
    obtain ⟨pt₂, hmove, hr, hlow₂⟩ := moveTable_eq (s := ⟨pt₁, physToVirt (pt₁.table (first + k)),
      s.adr⟩) hp₁ rfl hadr hn (hfree (first + k) (by omega) hp₁)
    dsimp only at hmove hr hlow₂
    have htable := hr.points.table_self hn
    have htab₂ : TableInv lowPfn pt₀ count (K.taken first (k + 1)) pt₂ := by
      rw [KmapArea.taken_succ, if_pos hin]
      refine htab₁.retable hr hn hfree hlow₂.ge (Nat.le_succ _) (fun j hj hlt heq => ?_)
        (fun j hj _ heq => by omega)
      have hcalls' := htab₁.calls
      rw [blockCalls, if_neg (by omega)] at hcalls'
      obtain ⟨i, rfl⟩ := Nat.exists_eq_add_of_le (show pt₀.lowPages ≤ j by omega)
      exact hfresh.apart _ htaken i (by omega) (by omega) heq
    have hnext := h.next ((s.adr + pageSize) % 2 ^ 32) htab₂ (by omega) hr.points.present_self
      (fun d hd => (hr.points.pgd_of_ne hd).trans (hpgd₁ d hd)) (fun _ => htable) (by
        rw [h.adr, KmapArea.taken_succ, if_pos hin, pageSize]
        omega)
    refine ⟨_, ?_, hnext⟩
    rw [if_pos ⟨hin.1, hin.2.1, hin.2.2⟩, hmove, Exec.ok_bind, htable, ← hadr]
    exact if_neg (h.noBug fun _ => hadr)
  · have hnext := h.next s.adr (by rw [KmapArea.taken_succ, if_neg hin]; exact htab₁) hcalls₁
      hp₁ hpgd₁ (fun hin' => absurd hin' hin) (by rw [h.adr, KmapArea.taken_succ, if_neg hin]; rfl)
    refine ⟨_, ?_, hnext⟩
    rw [if_neg fun hc => hin ⟨hc.1, hc.2.1, hc.2.2⟩, Exec.ok_bind]
    exact if_neg (h.noBug fun hin' => absurd hin' hin)

end Step

/-! ## The whole range -/

section Range

variable {K : KmapArea} {lowPfn : ℕ → ℕ} {pt : PageTables} {first count total start stop : ℕ}

/-- Clearing the pages of a block leaves the others alone. -/
theorem clearBlock_other {n p : ℕ} : ∀ {num : ℕ} (pte : ℕ → ℕ → ℕ), n + num ≤ 2 ^ 20 →
    (∀ j < num, p ≠ (n + j) * pageSize) →
    (List.range num).foldl (fun pte i => update pte (((n + i) <<< pageShift) % 2 ^ 32) fun _ => 0) pte p
      = pte p
  | 0, _, _, _ => rfl
  | num + 1, pte, hle, hne => by
      rw [List.range_succ, List.foldl_append, List.foldl_cons, List.foldl_nil,
        shiftLeft_pageShift (by omega), update_of_ne (hne num (Nat.lt_succ_self num)),
        clearBlock_other pte (by omega) fun j hj => hne j (by omega)]

theorem blockAdr_lt (lowPfn : ℕ → ℕ) (pt : PageTables) (count : ℕ) :
    blockAdr lowPfn pt count < 2 ^ 32 := by
  rw [blockAdr, physToVirt]
  split_ifs <;> omega

/-- Before the loop: the block is allocated. -/
theorem moveInv_start (hsmall : pt.SmallPages) (hfresh : FreshBlock lowPfn pt count) :
    let r := if count ≠ 0 then pt.allocLowPages lowPfn count else (0, pt)
    MoveInv K lowPfn pt first count 0 ⟨r.2, 0, r.1⟩ := by
  have hlow : ∀ k, pt.lowPages ≤ k → k < pt.lowPages + ptrsPerPgd → ∀ d < ptrsPerPgd,
      pt.Present d → pt.table d ≠ lowPfn k * pageSize := by
    intro k hk hlt d hd hp
    obtain ⟨j, rfl⟩ := Nat.exists_eq_add_of_le hk
    exact hfresh.low.fresh j (by omega) d hd hp
  have hwindow : ∀ (pt' : PageTables) (d : ℕ), first ≤ d → d < first + 0 → K.InWindow d →
      pt'.table d = (lowPfn pt.lowPages + K.taken first (d - first)) * pageSize :=
    fun _ _ _ _ => by omega
  have hadr : blockAdr lowPfn pt count =
      (blockAdr lowPfn pt count + K.taken first 0 * pageSize) % 2 ^ 32 := by
    rw [show K.taken first 0 = 0 from rfl, Nat.zero_mul, Nat.add_zero,
      Nat.mod_eq_of_lt (blockAdr_lt lowPfn pt count)]
  by_cases h0 : count = 0
  · subst h0
    rw [show blockAdr lowPfn pt 0 = 0 from rfl] at hadr
    refine ⟨⟨hsmall, fun _ _ _ _ => rfl, le_rfl, hlow, fun j _ hj => by omega⟩, le_rfl,
      fun d _ _ => by omega, hwindow pt, hadr, rfl⟩
  · have hn : lowPfn pt.lowPages < 2 ^ 20 := by
      have := hfresh.le
      omega
    have hptr : (pt.allocLowPages lowPfn count).1 = blockAdr lowPfn pt count := by
      rw [blockAdr, if_neg h0, ← shiftLeft_pageShift hn]
      rfl
    have hentry : ∀ d < ptrsPerPgd, ∀ i, (pt.allocLowPages lowPfn count).2.entry d i = pt.entry d i := by
      intro d hd i
      by_cases hp : pt.Present d
      · rw [PageTables.entry_of_present (show (pt.allocLowPages lowPfn count).2.Present d from hp),
          PageTables.entry_of_present hp]
        exact congrFun (clearBlock_other pt.pte hfresh.le fun j hj => hfresh.fresh j hj d hd hp) i
      · rw [PageTables.entry_of_not_present
          (show ¬(pt.allocLowPages lowPfn count).2.Present d from hp),
          PageTables.entry_of_not_present hp]
    have hcalls : (pt.allocLowPages lowPfn count).2.lowPages = pt.lowPages + blockCalls count := by
      rw [blockCalls, if_neg h0]
      rfl
    simp only [ne_eq, h0, not_false_eq_true, if_true]
    refine ⟨⟨hsmall, fun d hd i _ => hentry d hd i, hcalls.ge, fun k hk => ?_,
      fun j _ hj => hfresh.fresh j hj⟩, hcalls.le, fun d _ _ => by omega, hwindow _,
      hptr.trans hadr, rfl⟩
    dsimp only at hk
    exact hlow k (by omega)

/-- The loop over the first `k` directory entries. -/
theorem moveInv_run {s₀ : RangeState} (hstart : MoveInv K lowPfn pt first count 0 s₀)
    (hfresh : FreshBlock lowPfn pt count) (hcount : count = K.taken first total)
    (hfirst : first + total ≤ ptrsPerPgd) (htotal : total < ptrsPerPgd) : ∀ k ≤ total,
    ∃ s, (List.range' first k).foldlM (fun s d => rangeInitBody K lowPfn d (d * pmdSize) s) s₀ = .ok s ∧
      MoveInv K lowPfn pt first count k s
  | 0, _ => ⟨s₀, rfl, hstart⟩
  | k + 1, hk => by
      obtain ⟨s, hs, hinv⟩ := moveInv_run hstart hfresh hcount hfirst htotal k (by omega)
      obtain ⟨s', hs', hinv'⟩ := hinv.step hfresh hcount (by omega) hfirst htotal
      refine ⟨s', ?_, hinv'⟩
      rw [List.range'_1_concat, List.foldlM_append, hs, Exec.ok_bind, List.foldlM_cons, hs',
        Exec.ok_bind, List.foldlM_nil, Exec.pure_eq_ok]

/-- The directory entry after the last of the range; `0` is the top of the address space. -/
def rangeLast (stop : ℕ) : ℕ := if stop = 0 then ptrsPerPgd else stop / pmdSize

/-- The directory entry belongs to the range. -/
def InRange (start stop d : ℕ) : Prop := start / pmdSize ≤ d ∧ d < rangeLast stop

/-- **The range is complete**, from the tables `pt` on: `adr` has moved over `count` pages of the block
at `adr₀`, there is a page table behind every entry of the range, every address translates as before,
and the tables of the entries of the window follow one another. -/
structure RangeComplete (K : KmapArea) (pt : PageTables) (start stop count adr₀ : ℕ) (s : RangeState) :
    Prop where
  taken : sub32 s.adr adr₀ = count * pageSize
  present : ∀ d, InRange start stop d → s.pt.Present d
  translate : ∀ v, s.pt.translate v = pt.translate v
  consecutive : ∀ d, InRange start stop d → InRange start stop (d + 1) → K.InWindow d →
    K.InWindow (d + 1) → s.pt.table (d + 1) = s.pt.table d + pageSize

theorem MoveInv.complete {s : RangeState} (h : MoveInv K lowPfn pt (start / pmdSize) count
    (rangeLast stop - start / pmdSize) s) (hcount : count = K.taken (start / pmdSize)
    (rangeLast stop - start / pmdSize)) (hsmall : pt.SmallPages) (hlast : rangeLast stop ≤ ptrsPerPgd) :
    RangeComplete K pt start stop count (blockAdr lowPfn pt count) s := by
  have hmem : ∀ d, InRange start stop d → start / pmdSize ≤ d ∧
      d < start / pmdSize + (rangeLast stop - start / pmdSize) := by
    rintro d ⟨hle, hlt⟩
    omega
  refine ⟨?_, fun d hd => h.present d (hmem d hd).1 (hmem d hd).2, fun v => ?_,
    fun d hd hd' hin hin' => ?_⟩
  · have hadr := h.adr
    have hlt := blockAdr_lt lowPfn pt count
    have hle : count ≤ 1024 := by
      rw [hcount]
      exact (K.taken_le _ _).trans ((Nat.sub_le _ _).trans hlast)
    rw [← hcount] at hadr
    rw [sub32, hadr, pageSize]
    omega
  · have hidx : pteIndex v < ptrsPerPte := Nat.mod_lt _ (by decide)
    rw [translate_eq h.tables.small, translate_eq hsmall, h.tables.entries _ (pgdIndex_lt v) _ hidx]
  · rw [h.window d (hmem d hd).1 (hmem d hd).2 hin, h.window (d + 1) (hmem _ hd').1 (hmem _ hd').2 hin',
      Nat.succ_sub (hmem d hd).1, KmapArea.taken_succ, Nat.add_sub_cancel' (hmem d hd).1, if_pos hin]
    rw [pageSize]
    omega

/-- **`page_table_range_init` completes the tables of a range without disturbing a mapping.** -/
theorem pageTableRangeInit_spec (K : KmapArea) (hstart : pmdSize ∣ start) (hstart' : start < 2 ^ 32)
    (hstop : pmdSize ∣ stop) (hstop' : stop < 2 ^ 32) (hne : start ≠ stop)
    (hafter : start < stop ∨ stop = 0) (hsmall : pt.SmallPages)
    (hfresh : ∀ count, pageTableRangeInitCount K start stop = .ok count → FreshBlock lowPfn pt count) :
    ∃ count s, pageTableRangeInitCount K start stop = .ok count ∧
      pageTableRangeInit K lowPfn pt start stop = .ok s ∧
      RangeComplete K pt start stop count (blockAdr lowPfn pt count) s := by
  obtain ⟨first, rfl⟩ := hstart
  have hsize : pmdSize = 4194304 := rfl
  -- a range that ends at `0` ends behind the last directory entry
  have hlast : rangeLast stop ≤ ptrsPerPgd ∧ rangeLast stop * pmdSize % 2 ^ 32 = stop ∧
      first < rangeLast stop ∧ (0 < first ∨ rangeLast stop < ptrsPerPgd) := by
    obtain ⟨last, rfl⟩ := hstop
    rw [rangeLast, hsize, ptrsPerPgd]
    rw [hsize] at hstart' hstop' hne hafter
    split_ifs with h0 <;> omega
  obtain ⟨hle, hend, hlt, hpos⟩ := hlast
  generalize hn : rangeLast stop = last at *
  have hidx : pmdSize * first / pmdSize = first := Nat.mul_div_cancel_left _ (by decide)
  have hcount := pageTableRangeInitCount_eq (K := K) hlt hle hpos
  rw [hend, Nat.mul_comm] at hcount
  have hfresh' := hfresh _ hcount
  obtain ⟨s, hrun, hinv⟩ := moveInv_run (moveInv_start hsmall hfresh') hfresh' rfl
    (show first + (last - first) ≤ ptrsPerPgd by omega) (by omega) (last - first) le_rfl
  refine ⟨_, s, hcount, ?_, ?_⟩
  · rw [pageTableRangeInit, hcount, Exec.ok_bind, Nat.mul_comm pmdSize first, ← hend]
    dsimp only
    rw [rangeLoop_eq_foldlM _ hlt hle hpos, hrun]
  · refine MoveInv.complete ?_ ?_ hsmall ?_
    · rwa [hidx, hn]
    · rw [hidx, hn]
    · rwa [hn]

theorem kmapArea64_aligned : 0xfffff000 % pageSize = 0 := by decide

theorem kmapArea64_top_lt : 0xfffff000 < 2 ^ 32 := by decide

/-- The fixmap below the last page, for 64 CPUs: the window lies in the last two directory entries. -/
def kmapArea64 : KmapArea :=
  ⟨0xfffff000, 5, 64, kmapArea64_aligned, kmapArea64_top_lt, by decide, by decide, by decide⟩

/-- An empty directory. -/
def emptyTables : PageTables := ⟨fun _ => 0, fun _ _ => 0, fun _ => 0, 0⟩

theorem emptyTables_present (d : ℕ) : ¬emptyTables.Present d :=
  fun h => h (Nat.zero_and pagePresent)

/-- The last 8 MiB of the address space, in an empty directory: both tables are moved. -/
theorem pageTableRangeInit_top :
    ∃ count s, pageTableRangeInitCount kmapArea64 0xff800000 0 = .ok count ∧
      pageTableRangeInit kmapArea64 (fun k => 0x100 + 2 * k) emptyTables 0xff800000 0 = .ok s ∧
      RangeComplete kmapArea64 emptyTables 0xff800000 0 count
        (blockAdr (fun k => 0x100 + 2 * k) emptyTables count) s := by
  refine pageTableRangeInit_spec kmapArea64 (by decide) (by decide) (by decide) (by decide)
    (by decide) (Or.inr rfl) (fun d _ hp => absurd hp (emptyTables_present d)) fun count hcount => ?_
  have htaken : kmapArea64.taken 1022 (1024 - 1022) = 2 := by decide +kernel
  have htwo := pageTableRangeInitCount_eq (K := kmapArea64) (show 1022 < 1024 by decide) le_rfl
    (Or.inl (by decide))
  rw [htaken] at htwo
  obtain rfl := Except.ok.inj (htwo.symm.trans hcount)
  refine ⟨⟨fun k hk => ?_, fun j _ k _ heq => ?_, fun k _ d _ hp => ?_⟩, by decide,
    fun j hj k hk _ => ?_, fun j _ d _ hp => ?_⟩
  · rw [ptrsPerPgd] at hk
    show 0x100 + 2 * (0 + k) < 2 ^ 20
    omega
  · omega
  · exact absurd hp (emptyTables_present d)
  · show 0x100 + 2 * (0 + k) ≠ 0x100 + 2 * 0 + j
    omega
  · exact absurd hp (emptyTables_present d)

end Range

end Sandix
