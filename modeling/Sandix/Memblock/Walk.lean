import Sandix.Memblock.FreeRanges

/-!
# Memblock/Walk — the iterators yield the free ranges, upwards and downwards

A round of a walk either leaves what remains of `freeRanges` unchanged or takes its first (last)
member off.  `Walk` packs that up: from it a call returns the head of the rest (`Walk.call`) and the
loop around the calls yields all of it (`Walk.forEach`).  The two iterators are two walks, so the
loops yield the list and its reversal (`forEachFreeMemRange_maximal`).
-/

namespace Sandix

open Machinery

/-! What one round of the upward walk does to the rest of the list. -/

section Upward

variable {nid : ℤ} {flags : ℕ} {m : MemblockRegion} {ms : List MemblockRegion} {g : ℕ × ℕ}
  {gs : List (ℕ × ℕ)}

/-- The gap begins after the region: so do all later ones. -/
theorem cutAll_passRegion (hg : GapsInOrder (g :: gs)) (h : m.stop ≤ g.1) :
    cutAll nid flags (m :: ms) (g :: gs) = cutAll nid flags ms (g :: gs) := by
  have hnil : (g :: gs).flatMap (cutGap m) = [] := by
    refine flatMap_cutGap_eq_nil fun g' hg' => Or.inl ?_
    rcases List.mem_cons.mp hg' with rfl | hg'
    · exact h
    · have h₁ := hg.le g (by simp)
      have h₂ := (List.pairwise_cons.mp hg.pairwise).1 g' hg'
      omega
  rw [cutAll_cons, hnil, ite_self, List.nil_append]

/-- The gap ends before every region still to come. -/
theorem cutAll_dropGap (h : ∀ m ∈ ms, g.2 ≤ m.base) :
    cutAll nid flags ms (g :: gs) = cutAll nid flags ms gs := by
  refine cutAll_congr fun m hm => ?_
  rw [List.flatMap_cons, cutGap_of_stop_le (h m hm), List.nil_append]

/-- The gap ends before the region, so before the later ones too. -/
theorem cutAll_passGap (hm : InOrder (m :: ms)) (h : g.2 ≤ m.base) :
    cutAll nid flags (m :: ms) (g :: gs) = cutAll nid flags (m :: ms) gs := by
  refine cutAll_dropGap fun m' hm' => ?_
  rcases List.mem_cons.mp hm' with rfl | hm'
  · exact h
  · have h₁ := hm.le m (by simp)
    have h₂ := (List.pairwise_cons.mp hm.pairwise).1 m' hm'
    omega

/-- They meet and the region ends first. -/
theorem cutAll_meetRegion (hg : GapsInOrder (g :: gs)) (hskip : ¬skipRegion nid flags m = true)
    (h₁ : g.1 < m.stop) (h₂ : m.base < g.2) (h₃ : m.stop ≤ g.2) :
    cutAll nid flags (m :: ms) (g :: gs)
      = ⟨max m.base g.1, min m.stop g.2, m.nid⟩ :: cutAll nid flags ms (g :: gs) := by
  have hnil : gs.flatMap (cutGap m) = [] := by
    refine flatMap_cutGap_eq_nil fun g' hg' => Or.inl ?_
    exact h₃.trans ((List.pairwise_cons.mp hg.pairwise).1 g' hg')
  rw [cutAll_cons, if_neg hskip, List.flatMap_cons, hnil, cutGap, if_pos ⟨h₁, h₂⟩]
  rfl

/-- They meet and the gap ends first. -/
theorem cutAll_meetGap (hm : InOrder (m :: ms)) (hskip : ¬skipRegion nid flags m = true)
    (h₁ : g.1 < m.stop) (h₂ : m.base < g.2) (h₃ : g.2 < m.stop) :
    cutAll nid flags (m :: ms) (g :: gs)
      = ⟨max m.base g.1, min m.stop g.2, m.nid⟩ :: cutAll nid flags (m :: ms) gs := by
  rw [cutAll_cons, cutAll_cons, if_neg hskip, if_neg hskip, List.flatMap_cons, cutGap,
    if_pos ⟨h₁, h₂⟩, cutAll_dropGap fun m' hm' => ?_]
  · rfl
  · exact h₃.le.trans ((List.pairwise_cons.mp hm.pairwise).1 m' hm')

end Upward

/-! The same for the downward walk, which takes both lists apart from the end. -/

section Downward

variable {nid : ℤ} {flags : ℕ} {m : MemblockRegion} {ms : List MemblockRegion} {g : ℕ × ℕ}
  {gs : List (ℕ × ℕ)}

/-- In an ordered list the last gap comes after the others. -/
theorem GapsInOrder.le_last (hg : GapsInOrder (gs ++ [g])) {g' : ℕ × ℕ} (hg' : g' ∈ gs) :
    g'.2 ≤ g.1 := (List.pairwise_append.mp hg.pairwise).2.2 g' hg' g (by simp)

theorem InOrder.le_last (hm : InOrder (ms ++ [m])) {m' : MemblockRegion} (hm' : m' ∈ ms) :
    m'.stop ≤ m.base := (List.pairwise_append.mp hm.pairwise).2.2 m' hm' m (by simp)

/-- The gap ends before the region: so do all earlier ones. -/
theorem cutAll_passRegion_last (hg : GapsInOrder (gs ++ [g])) (h : g.2 ≤ m.base) :
    cutAll nid flags (ms ++ [m]) (gs ++ [g]) = cutAll nid flags ms (gs ++ [g]) := by
  have hnil : (gs ++ [g]).flatMap (cutGap m) = [] := by
    refine flatMap_cutGap_eq_nil fun g' hg' => Or.inr ?_
    rcases List.mem_append.mp hg' with hg' | hg'
    · have h₁ := hg.le g (by simp)
      have h₂ := hg.le_last hg'
      omega
    · rwa [List.mem_singleton.mp hg']
  rw [cutAll_append, cutAll_singleton, hnil, ite_self, List.append_nil]

/-- The gap begins after every region still to come. -/
theorem cutAll_dropGap_last (h : ∀ m ∈ ms, m.stop ≤ g.1) :
    cutAll nid flags ms (gs ++ [g]) = cutAll nid flags ms gs := by
  refine cutAll_congr fun m hm => ?_
  rw [List.flatMap_append, List.flatMap_singleton, cutGap_of_le_start (h m hm), List.append_nil]

/-- The gap begins after the region, so after the earlier ones too. -/
theorem cutAll_passGap_last (hm : InOrder (ms ++ [m])) (h : m.stop ≤ g.1) :
    cutAll nid flags (ms ++ [m]) (gs ++ [g]) = cutAll nid flags (ms ++ [m]) gs := by
  refine cutAll_dropGap_last fun m' hm' => ?_
  rcases List.mem_append.mp hm' with hm' | hm'
  · have h₁ := hm.le m (by simp)
    have h₂ := hm.le_last hm'
    omega
  · rwa [List.mem_singleton.mp hm']

/-- They meet and the region begins last. -/
theorem cutAll_meetRegion_last (hg : GapsInOrder (gs ++ [g]))
    (hskip : ¬skipRegion nid flags m = true) (h₁ : g.1 < m.stop) (h₂ : m.base < g.2)
    (h₃ : g.1 ≤ m.base) :
    cutAll nid flags (ms ++ [m]) (gs ++ [g])
      = cutAll nid flags ms (gs ++ [g]) ++ [⟨max m.base g.1, min m.stop g.2, m.nid⟩] := by
  have hnil : gs.flatMap (cutGap m) = [] :=
    flatMap_cutGap_eq_nil fun g' hg' => Or.inr ((hg.le_last hg').trans h₃)
  rw [cutAll_append, cutAll_singleton, if_neg hskip, List.flatMap_append, hnil,
    List.flatMap_singleton, cutGap, if_pos ⟨h₁, h₂⟩, List.nil_append]

/-- They meet and the gap begins last. -/
theorem cutAll_meetGap_last (hm : InOrder (ms ++ [m])) (hskip : ¬skipRegion nid flags m = true)
    (h₁ : g.1 < m.stop) (h₂ : m.base < g.2) (h₃ : m.base < g.1) :
    cutAll nid flags (ms ++ [m]) (gs ++ [g])
      = cutAll nid flags (ms ++ [m]) gs ++ [⟨max m.base g.1, min m.stop g.2, m.nid⟩] := by
  rw [cutAll_append, cutAll_append, cutAll_singleton, cutAll_singleton, if_neg hskip,
    if_neg hskip, List.flatMap_append, List.flatMap_singleton, cutGap, if_pos ⟨h₁, h₂⟩,
    cutAll_dropGap_last fun m' hm' => ?_, List.append_assoc]
  exact (hm.le_last hm').trans h₃.le

end Downward
/-! ## A call takes one member off the list -/

section Index

variable {nid : ℤ} {flags : ℕ} {a b : MemblockType}

/-- What is left of the free ranges when the upward walk stands at region `i` and gap `j`. -/
def rangesFrom (nid : ℤ) (flags : ℕ) (a b : MemblockType) (i j : ℕ) : List FreeRange :=
  cutAll nid flags (a.regions.drop i) ((gapsFrom 0 b.regions).drop j)

/-- What is left when the downward walk has `i` regions and `j` gaps to go. -/
def rangesUpto (nid : ℤ) (flags : ℕ) (a b : MemblockType) (i j : ℕ) : List FreeRange :=
  cutAll nid flags (a.regions.take i) ((gapsFrom 0 b.regions).take j)

theorem drop_regions {i : ℕ} (h : i < a.nrRegions) :
    a.regions.drop i = a.region i :: a.regions.drop (i + 1) := by
  rw [MemblockType.region, List.getD_eq_getElem?_getD, List.getElem?_eq_getElem h]
  exact List.drop_eq_getElem_cons h

theorem take_regions {i : ℕ} (h : i < a.nrRegions) :
    a.regions.take (i + 1) = a.regions.take i ++ [a.region i] := by
  rw [MemblockType.region, List.getD_eq_getElem?_getD, List.getElem?_eq_getElem h]
  exact (List.take_append_getElem h).symm

theorem region_mem {i : ℕ} (h : i < a.nrRegions) : a.region i ∈ a.regions := by
  rw [MemblockType.region, List.getD_eq_getElem?_getD, List.getElem?_eq_getElem h]
  exact List.getElem_mem h

theorem gapStop_last {j : ℕ} (h : b.nrRegions ≤ j) (hj : j < 2 ^ 32) : gapStop b j = physMax := by
  rw [gapStop, u32_natCast hj, if_neg (not_lt.mpr h)]

theorem getElem?_gaps {j : ℕ} (h : j ≤ b.nrRegions) (hsmall : b.nrRegions < 2 ^ 31) :
    (gapsFrom 0 b.regions)[j]? = some (gapStart b j, gapStop b j) := by
  rw [getElem?_gapsFrom _ _ _ h, gapStart, gapStop, u32_natCast (by omega)]
  simp only [MemblockType.region, MemblockType.nrRegions, Int.toNat_natCast]
  cases j with
  | zero => rfl
  | succ j =>
    have hne : ((j + 1 : ℕ) : ℤ) ≠ 0 := by omega
    rw [if_neg (Nat.succ_ne_zero j), if_pos hne]
    simp

theorem drop_gaps {j : ℕ} (h : j ≤ b.nrRegions) (hsmall : b.nrRegions < 2 ^ 31) :
    (gapsFrom 0 b.regions).drop j
      = (gapStart b j, gapStop b j) :: (gapsFrom 0 b.regions).drop (j + 1) := by
  obtain ⟨hlt, hget⟩ := List.getElem?_eq_some_iff.mp (getElem?_gaps h hsmall)
  rw [List.drop_eq_getElem_cons hlt, hget]

theorem take_gaps {j : ℕ} (h : j ≤ b.nrRegions) (hsmall : b.nrRegions < 2 ^ 31) :
    (gapsFrom 0 b.regions).take (j + 1)
      = (gapsFrom 0 b.regions).take j ++ [(gapStart b j, gapStop b j)] := by
  obtain ⟨hlt, hget⟩ := List.getElem?_eq_some_iff.mp (getElem?_gaps h hsmall)
  rw [← List.take_append_getElem hlt, hget]

end Index

/-- One round of an iterator: on the two indices, to the next pair or to the outcome of the call. -/
abbrev RangeStep := ℤ × ℤ → Exec (ℤ × ℤ ⊕ ℕ × Option FreeRange)

/-- **A walk**, as positions of two counters: the code sees a position `p` as the index pair `enc p`
and has `rest p` left to yield.  A round finds the end, or moves on with the same rest, or returns
the head of the rest and a packed position from which the next call can go on. -/
structure Walk (step : RangeStep) where
  enc : ℕ × ℕ → ℤ × ℤ
  rest : ℕ × ℕ → List FreeRange
  variant : ℕ × ℕ → ℕ
  valid : ℕ × ℕ → Prop
  packable : ℕ × ℕ → Prop
  round : ∀ p, valid p → (step (enc p) = .ok (.inr (ullongMax, none)) ∧ rest p = []) ∨
    ∃ p', valid p' ∧ variant p' < variant p ∧
      ((step (enc p) = .ok (.inl (enc p')) ∧ rest p = rest p') ∨
        ∃ x, step (enc p) = .ok (.inr (packIdx (enc p').1 (enc p').2, some x)) ∧
          packable p' ∧ rest p = x :: rest p')

namespace Walk

variable {step : RangeStep} (w : Walk step) {p : ℕ × ℕ}

/-- `*idx` at a position. -/
def idx (p : ℕ × ℕ) : ℕ := packIdx (w.enc p).1 (w.enc p).2

/-- **One call** returns the head of the rest, or the end mark when there is none. -/
theorem call (hp : w.valid p) {n : ℕ} (hn : w.variant p < n) :
    (Exec.loop step n (w.enc p) = .ok (ullongMax, none) ∧ w.rest p = []) ∨
    ∃ p' x, Exec.loop step n (w.enc p) = .ok (w.idx p', some x) ∧ w.valid p' ∧ w.packable p' ∧
      w.variant p' < w.variant p ∧ w.rest p = x :: w.rest p' := by
  let Q (b : ℕ × Option FreeRange) : Prop := (b = (ullongMax, none) ∧ w.rest p = []) ∨
    ∃ p' x, b = (w.idx p', some x) ∧ w.valid p' ∧ w.packable p' ∧
      w.variant p' < w.variant p ∧ w.rest p = x :: w.rest p'
  have hcall : ∃ b, Exec.loop step n (w.enc p) = .ok b ∧ Q b := by
    refine Exec.loop_spec step (fun k s => ∃ q, s = w.enc q ∧ w.valid q ∧ k = w.variant q ∧
      k ≤ w.variant p ∧ w.rest q = w.rest p) Q ?_ ⟨p, rfl, hp, rfl, le_rfl, rfl⟩ hn
    rintro k s ⟨q, rfl, hq, rfl, hle, hrest⟩
    rcases w.round q hq with ⟨hs, hnil⟩ | ⟨q', hq', hlt, ⟨hs, hsame⟩ | ⟨x, hs, hpk, hcons⟩⟩
    · exact Or.inr ⟨_, hs, Or.inl ⟨rfl, hrest ▸ hnil⟩⟩
    · exact Or.inl ⟨_, _, hs, hlt, q', rfl, hq', rfl, by omega, hsame ▸ hrest⟩
    · exact Or.inr ⟨_, hs, Or.inr ⟨q', x, rfl, hq', hpk, by omega, hrest ▸ hcons⟩⟩
  obtain ⟨b, hb, ⟨rfl, hnil⟩ | ⟨p', x, rfl, hrest⟩⟩ := hcall
  · exact Or.inl ⟨hb, hnil⟩
  · exact Or.inr ⟨p', x, hb, hrest⟩

/-- **The loop around the calls** yields the rest, one member a call, and then ends. -/
theorem forEach {next : ℕ → Exec (ℕ × Option FreeRange)} {fuel start : ℕ} (hp : w.valid p)
    (hfuel : w.variant p < fuel) (hstart : next start = Exec.loop step fuel (w.enc p))
    (hnext : ∀ q, w.valid q → w.packable q →
      w.idx q ≠ ullongMax ∧ next (w.idx q) = Exec.loop step fuel (w.enc q)) :
    Exec.loop (forEachStep next) fuel (start, []) = .ok (w.rest p) := by
  have hloop : ∃ b, Exec.loop (forEachStep next) fuel (start, []) = .ok b ∧ b = w.rest p := by
    refine Exec.loop_spec (forEachStep next)
      (fun k s => ∃ q, next s.1 = Exec.loop step fuel (w.enc q) ∧ w.valid q ∧ k = w.variant q ∧
        k ≤ w.variant p ∧ s.2 ++ w.rest q = w.rest p)
      (fun b => b = w.rest p) ?_ ⟨p, hstart, hp, rfl, le_rfl, rfl⟩ hfuel
    rintro k ⟨idx, acc⟩ ⟨q, hidx, hq, rfl, hle, hacc⟩
    dsimp only at hidx hacc
    simp only [forEachStep, hidx]
    rcases w.call hq (n := fuel) (by omega) with ⟨hc, hnil⟩ | ⟨q', x, hc, hq', hpk, hlt, hcons⟩
    · rw [hnil, List.append_nil] at hacc
      exact Or.inr ⟨acc, by rw [hc]; rfl, hacc⟩
    · obtain ⟨hne, hnx⟩ := hnext q' hq' hpk
      refine Or.inl ⟨_, (w.idx q', acc ++ [x]), ?_, hlt, q', hnx, hq', rfl, by omega, ?_⟩
      · rw [hc, Exec.ok_bind, if_neg hne]
        rfl
      · rw [← hacc, hcons]
        simp
  obtain ⟨b, hb, rfl⟩ := hloop
  exact hb

end Walk

/-! ## The two walks -/

section TwoWalks

variable (nid : ℤ) (flags : ℕ) {a b : MemblockType}

/-- **One round upwards**, at region `i` and gap `j`. -/
theorem nextMemRangeStep_cases (ha : WellFormed a) (hb : WellFormed b)
    (hsa : a.nrRegions < 2 ^ 31) (hsb : b.nrRegions < 2 ^ 31) {i j : ℕ} (hi : i ≤ a.nrRegions)
    (hj : j ≤ b.nrRegions) :
    (nextMemRangeStep nid flags a (some b) (i, j) = .ok (.inr (ullongMax, none)) ∧
      rangesFrom nid flags a b i j = []) ∨
    ∃ p : ℕ × ℕ, (p.1 ≤ a.nrRegions ∧ p.2 ≤ b.nrRegions) ∧ i + j < p.1 + p.2 ∧
      ((nextMemRangeStep nid flags a (some b) (i, j) = .ok (.inl (p.1, p.2)) ∧
          rangesFrom nid flags a b i j = rangesFrom nid flags a b p.1 p.2) ∨
        ∃ x, nextMemRangeStep nid flags a (some b) (i, j)
            = .ok (.inr (packIdx p.1 p.2, some x)) ∧
          rangesFrom nid flags a b i j = x :: rangesFrom nid flags a b p.1 p.2) := by
  simp only [nextMemRangeStep]
  rw [u32_natCast (by omega), u32_natCast (by omega)]
  simp only [Int.toNat_natCast]
  by_cases hia : i < a.nrRegions
  swap
  · refine Or.inl ⟨by rw [if_neg hia], ?_⟩
    rw [rangesFrom, List.drop_eq_nil_of_le (not_lt.mp hia)]
    rfl
  right
  rw [if_pos hia]
  have hdm := drop_regions hia
  have hdg := drop_gaps hj hsb
  have hord := ha.inOrder.sublist (List.drop_sublist i _)
  have hgap := hb.gapsInOrder.sublist (List.drop_sublist j _)
  rw [hdm] at hord
  rw [hdg] at hgap
  have hstop := ha.stop_le (region_mem hia)
  have hbase := ha.base_lt (region_mem hia)
  simp only [rangesFrom]
  by_cases hskip : skipRegion nid flags (a.region i) = true
  · refine ⟨(i + 1, j), ⟨hia, hj⟩, by dsimp only; omega, Or.inl ⟨?_, by rw [hdm, cutAll_skip hskip]⟩⟩
    rw [if_pos hskip]
    norm_cast
  rw [if_neg hskip, if_pos (by omega)]
  by_cases h₁ : gapStart b j ≥ (a.region i).stop
  · refine ⟨(i + 1, j), ⟨hia, hj⟩, by dsimp only; omega, Or.inl ⟨?_, ?_⟩⟩
    · rw [if_pos h₁]
      norm_cast
    · rw [hdm, hdg, cutAll_passRegion hgap h₁]
  rw [if_neg h₁]
  by_cases h₂ : (a.region i).base < gapStop b j
  swap
  · -- the last gap reaches past every region, so this is not the last one
    have hlast : j < b.nrRegions := by
      by_contra hge
      rw [gapStop_last (not_lt.mp hge) (by omega)] at h₂
      omega
    refine ⟨(i, j + 1), ⟨hi, hlast⟩, by dsimp only; omega, Or.inl ⟨?_, ?_⟩⟩
    · rw [if_neg h₂]
      norm_cast
    · rw [hdm, hdg, cutAll_passGap hord (not_lt.mp h₂)]
  rw [if_pos h₂]
  let range : FreeRange :=
    ⟨max (a.region i).base (gapStart b j), min (a.region i).stop (gapStop b j), (a.region i).nid⟩
  by_cases h₃ : (a.region i).stop ≤ gapStop b j
  · refine ⟨(i + 1, j), ⟨hia, hj⟩, by dsimp only; omega, Or.inr ⟨range, ?_, ?_⟩⟩
    · rw [if_pos h₃]
      norm_cast
    · rw [hdm, hdg, cutAll_meetRegion hgap hskip (not_le.mp h₁) h₂ h₃]
  · have hlast : j < b.nrRegions := by
      by_contra hge
      rw [gapStop_last (not_lt.mp hge) (by omega)] at h₃
      omega
    refine ⟨(i, j + 1), ⟨hi, hlast⟩, by dsimp only; omega, Or.inr ⟨range, ?_, ?_⟩⟩
    · rw [if_neg h₃]
      norm_cast
    · rw [hdm, hdg, cutAll_meetGap hord hskip (not_le.mp h₁) h₂ (not_le.mp h₃)]


/-- **One round downwards**, with `i` regions and `j` gaps to go. -/
theorem nextMemRangeRevStep_cases (ha : WellFormed a) (hb : WellFormed b)
    (hsb : b.nrRegions < 2 ^ 31) {i j : ℕ} (hi : i ≤ a.nrRegions) (hj : j ≤ b.nrRegions + 1) :
    (nextMemRangeRevStep nid flags a (some b) (i - 1, j - 1) = .ok (.inr (ullongMax, none)) ∧
      rangesUpto nid flags a b i j = []) ∨
    ∃ p : ℕ × ℕ, (p.1 ≤ a.nrRegions ∧ p.2 ≤ b.nrRegions + 1) ∧ p.1 + p.2 < i + j ∧
      ((nextMemRangeRevStep nid flags a (some b) (i - 1, j - 1) = .ok (.inl (p.1 - 1, p.2 - 1)) ∧
          rangesUpto nid flags a b i j = rangesUpto nid flags a b p.1 p.2) ∨
        ∃ x, nextMemRangeRevStep nid flags a (some b) (i - 1, j - 1)
            = .ok (.inr (packIdx (p.1 - 1) (p.2 - 1), some x)) ∧ 1 ≤ p.2 ∧
          rangesUpto nid flags a b i j = rangesUpto nid flags a b p.1 p.2 ++ [x]) := by
  simp only [nextMemRangeRevStep]
  rcases i with _ | i
  · exact Or.inl ⟨by rw [if_neg (by omega)], by simp [rangesUpto, cutAll]⟩
  right
  have hpred : ((i + 1 : ℕ) : ℤ) - 1 = i := by omega
  rw [hpred, if_pos (by omega), Int.toNat_natCast]
  have htm := take_regions hi
  have hord := ha.inOrder.sublist (List.take_sublist (i + 1) _)
  rw [htm] at hord
  simp only [rangesUpto]
  by_cases hskip : skipRegion nid flags (a.region i) = true
  · refine ⟨(i, j), ⟨by omega, hj⟩, by dsimp only; omega, Or.inl ⟨?_, ?_⟩⟩
    · rw [if_pos hskip]
    · rw [htm, cutAll_skip_last hskip]
  rw [if_neg hskip]
  rcases j with _ | j
  · refine ⟨(i, 0), ⟨by omega, by omega⟩, by dsimp only; omega, Or.inl ⟨?_, ?_⟩⟩
    · rw [if_neg (by omega)]
    · rw [List.take_zero, htm, cutAll_append, cutAll_singleton, List.flatMap_nil, ite_self,
        List.append_nil]
  have hpredj : ((j + 1 : ℕ) : ℤ) - 1 = j := by omega
  have htg := take_gaps (by omega : j ≤ b.nrRegions) hsb
  have hgap := hb.gapsInOrder.sublist (List.take_sublist (j + 1) _)
  rw [htg] at hgap
  rw [hpredj, if_pos (by omega)]
  by_cases h₁ : gapStop b j ≤ (a.region i).base
  · refine ⟨(i, j + 1), ⟨by omega, hj⟩, by dsimp only; omega, Or.inl ⟨?_, ?_⟩⟩
    · rw [if_pos h₁, hpredj]
    · rw [htm, htg, cutAll_passRegion_last hgap h₁]
  rw [if_neg h₁]
  by_cases h₂ : (a.region i).stop > gapStart b j
  swap
  · refine ⟨(i + 1, j), ⟨hi, by omega⟩, by dsimp only; omega, Or.inl ⟨?_, ?_⟩⟩
    · rw [if_neg h₂, hpred]
    · rw [htm, htg, cutAll_passGap_last hord (not_lt.mp h₂)]
  rw [if_pos h₂]
  let range : FreeRange :=
    ⟨max (a.region i).base (gapStart b j), min (a.region i).stop (gapStop b j), (a.region i).nid⟩
  by_cases h₃ : (a.region i).base ≥ gapStart b j
  · refine ⟨(i, j + 1), ⟨by omega, hj⟩, by dsimp only; omega,
      Or.inr ⟨range, ?_, by dsimp only; omega, ?_⟩⟩
    · rw [if_pos h₃, hpredj]
    · rw [htm, htg, cutAll_meetRegion_last hgap hskip h₂ (not_le.mp h₁) h₃]
  · -- the first gap begins at `0`, so this is not the first one
    have hfirst : 1 ≤ j := by
      by_contra hlt
      rw [show j = 0 by omega] at h₃
      exact h₃ (Nat.zero_le _)
    refine ⟨(i + 1, j), ⟨hi, by omega⟩, by dsimp only; omega, Or.inr ⟨range, ?_, hfirst, ?_⟩⟩
    · rw [if_neg h₃, hpred]
    · rw [htm, htg, cutAll_meetGap_last hord hskip h₂ (not_le.mp h₁) (not_le.mp h₃)]

/-- The upward walk. -/
def upWalk (ha : WellFormed a) (hb : WellFormed b)
    (hsa : a.nrRegions < 2 ^ 31) (hsb : b.nrRegions < 2 ^ 31) :
    Walk (nextMemRangeStep nid flags a (some b)) where
  enc p := (p.1, p.2)
  rest p := rangesFrom nid flags a b p.1 p.2
  variant p := a.nrRegions + b.nrRegions - (p.1 + p.2)
  valid p := p.1 ≤ a.nrRegions ∧ p.2 ≤ b.nrRegions
  packable _ := True
  round := by
    rintro ⟨i, j⟩ ⟨hi, hj⟩
    rcases nextMemRangeStep_cases nid flags ha hb hsa hsb hi hj with
      hend | ⟨p, hp, hlt, hmove | ⟨x, hs, hcons⟩⟩
    · exact Or.inl hend
    · exact Or.inr ⟨p, hp, by dsimp only at hp ⊢; omega, Or.inl hmove⟩
    · exact Or.inr ⟨p, hp, by dsimp only at hp ⊢; omega, Or.inr ⟨x, hs, trivial, hcons⟩⟩

/-- The downward walk: it stands one below the counts of what is left. -/
def downWalk (ha : WellFormed a) (hb : WellFormed b)
    (hsb : b.nrRegions < 2 ^ 31) : Walk (nextMemRangeRevStep nid flags a (some b)) where
  enc p := ((p.1 : ℤ) - 1, (p.2 : ℤ) - 1)
  rest p := (rangesUpto nid flags a b p.1 p.2).reverse
  variant p := p.1 + p.2
  valid p := p.1 ≤ a.nrRegions ∧ p.2 ≤ b.nrRegions + 1
  packable p := 1 ≤ p.2
  round := by
    rintro ⟨i, j⟩ ⟨hi, hj⟩
    rcases nextMemRangeRevStep_cases nid flags ha hb hsb hi hj with
      ⟨hs, hnil⟩ | ⟨p, hp, hlt, ⟨hs, hsame⟩ | ⟨x, hs, hone, hcons⟩⟩
    · exact Or.inl ⟨hs, by rw [hnil]; rfl⟩
    · exact Or.inr ⟨p, hp, hlt, Or.inl ⟨hs, by rw [hsame]⟩⟩
    · exact Or.inr ⟨p, hp, hlt, Or.inr ⟨x, hs, hone, by rw [hcons]; simp⟩⟩

/-- **`for_each_mem_range` yields the free ranges.** -/
theorem forEachMemRange_eq (ha : WellFormed a) (hb : WellFormed b)
    (hsa : a.nrRegions < 2 ^ 31) (hsb : b.nrRegions < 2 ^ 31) :
    forEachMemRange nid flags a (some b) = .ok (freeRanges nid flags a b) := by
  refine (upWalk nid flags ha hb hsa hsb).forEach (p := (0, 0)) ⟨Nat.zero_le _, Nat.zero_le _⟩ ?_
    rfl ?_
  · simp only [upWalk, rangeFuel, Option.elim_some]
    omega
  · rintro ⟨i, j⟩ ⟨hi, hj⟩ -
    dsimp only at hi hj
    refine ⟨packIdx_ne (by dsimp only [upWalk]; omega) (by dsimp only [upWalk]; omega), ?_⟩
    simp only [nextMemRange, Walk.idx, upWalk]
    rw [idxLow_packIdx (by omega) (by omega) (by omega) (by omega),
      idxHigh_packIdx (by omega) (by omega)]

/-- **`for_each_mem_range_rev` yields them the other way round.** -/
theorem forEachMemRangeRev_eq (ha : WellFormed a) (hb : WellFormed b)
    (hsa : a.nrRegions < 2 ^ 31) (hsb : b.nrRegions < 2 ^ 31 - 1) :
    forEachMemRangeRev nid flags a (some b) = .ok (freeRanges nid flags a b).reverse := by
  have hall : rangesUpto nid flags a b a.nrRegions (b.nrRegions + 1) = freeRanges nid flags a b := by
    rw [rangesUpto, freeRanges, MemblockType.nrRegions, MemblockType.nrRegions, List.take_length,
      ← length_gapsFrom b.regions 0, List.take_length]
  rw [← hall]
  refine (downWalk nid flags ha hb (by omega)).forEach (p := (a.nrRegions, b.nrRegions + 1))
    ⟨le_rfl, le_rfl⟩ ?_ ?_ ?_
  · simp only [downWalk, rangeFuel, Option.elim_some]
    omega
  · simp only [nextMemRangeRev, downWalk, if_true]
    congr 2
    omega
  · rintro ⟨i, j⟩ ⟨hi, hj⟩ hone
    dsimp only [downWalk] at hi hj hone
    have hne : (downWalk nid flags ha hb (by omega)).idx (i, j) ≠ ullongMax :=
      packIdx_ne (by dsimp only [downWalk]; omega) (by dsimp only [downWalk]; omega)
    refine ⟨hne, ?_⟩
    rw [nextMemRangeRev, if_neg hne]
    simp only [Walk.idx, downWalk]
    rw [idxLow_packIdx (by omega) (by omega) (by omega) (by omega),
      idxHigh_packIdx (by omega) (by omega)]

end TwoWalks

/-- `r` passes the filter: on a node asked for (`NUMA_NO_NODE`, or its deprecated spelling
`MAX_NR_NODES`, ask for every node), mirrored if mirrored memory is asked for, and mapped unless
unmapped memory is. -/
def MatchesFilter (nid : ℤ) (flags : ℕ) (r : MemblockRegion) : Prop :=
  (nid = numaNoNode ∨ nid = maxNrNodes ∨ r.nid = nid) ∧
  (flags &&& memblockMirror ≠ 0 → r.flags &&& memblockMirror ≠ 0) ∧
  (r.flags &&& memblockNomap ≠ 0 → flags &&& memblockNomap ≠ 0)

theorem skipRegion_eq_false_iff {nid : ℤ} {flags : ℕ} {r : MemblockRegion} :
    skipRegion nid flags r = false ↔ MatchesFilter nid flags r := by
  by_cases h₁ : nid = maxNrNodes <;> by_cases h₂ : nid = numaNoNode <;>
    simp [skipRegion, selectNode, MatchesFilter, h₁, h₂] <;> tauto

/-- An array of 16-byte regions that fits the 32-bit address space. -/
def MemblockType.Fits (t : MemblockType) : Prop := 16 * t.max < 2 ^ 32

/-- **The free-memory iterators**: both loops end; the upward one yields, in ascending order and
each once, the maximal parts of the matching regions of `memory` that hold nothing reserved, and the
downward one yields the same list reversed. -/
theorem forEachFreeMemRange_maximal (m : Memblock) (nid : ℤ) (flags : ℕ)
    (hmem : WellFormed m.memory) (hres : WellFormed m.reserved) (hmemFits : m.memory.Fits)
    (hresFits : m.reserved.Fits) (hadj : m.reserved.NoneAdjacent) :
    ∃ ranges, forEachFreeMemRange m nid flags = .ok ranges ∧
      forEachFreeMemRangeReverse m nid flags = .ok ranges.reverse ∧
      Ascending FreeRange.start FreeRange.stop 0 ranges ∧
      ∀ x, x ∈ ranges ↔ ∃ r ∈ m.memory.regions, MatchesFilter nid flags r ∧
        x.nid = r.nid ∧ MaximalFree r m.reserved x.start x.stop := by
  have hmax := hmem.le_max
  have hmax' := hres.le_max
  rw [MemblockType.Fits] at hmemFits hresFits
  simp only [← skipRegion_eq_false_iff]
  refine ⟨freeRanges nid flags m.memory m.reserved, ?_, ?_, ?_, mem_freeRanges_iff hmem hres hadj⟩
  · exact forEachMemRange_eq nid flags hmem hres (by omega) (by omega)
  · exact forEachMemRangeRev_eq nid flags hmem hres (by omega) (by omega)
  · refine ascending_iff.mpr ⟨fun x hx => ?_, freeRanges_pairwise hmem hres⟩
    obtain ⟨r, -, -, -, hfree⟩ := (mem_freeRanges_iff hmem hres hadj x).mp hx
    exact ⟨Nat.zero_le _, hfree.nonempty⟩

/-- A small machine: low memory and one megabyte above it, with a reservation in each. -/
def smallMemblock : Memblock :=
  { initMemblock with
    memory := ⟨128, 0x1a0000, [⟨0, 0xa0000, 0, 0⟩, ⟨0x100000, 0x100000, 0, 0⟩]⟩
    reserved := ⟨128, 0x2000, [⟨0, 0x1000, 0, 1⟩, ⟨0x110000, 0x1000, 0, 1⟩]⟩ }

theorem smallMemblock_memory : WellFormed smallMemblock.memory where
  one_le := by decide
  le_max := by decide
  noWrap := by decide
  sorted := by decide
  nonempty := Or.inl (by decide)

theorem smallMemblock_reserved : WellFormed smallMemblock.reserved where
  one_le := by decide
  le_max := by decide
  noWrap := by decide
  sorted := by decide
  nonempty := Or.inl (by decide)

theorem forEachFreeMemRange_maximal_small :
    ∃ ranges, forEachFreeMemRange smallMemblock numaNoNode 0 = .ok ranges ∧
      forEachFreeMemRangeReverse smallMemblock numaNoNode 0 = .ok ranges.reverse ∧
      Ascending FreeRange.start FreeRange.stop 0 ranges ∧
      ∀ x, x ∈ ranges ↔ ∃ r ∈ smallMemblock.memory.regions, MatchesFilter numaNoNode 0 r ∧
        x.nid = r.nid ∧ MaximalFree r smallMemblock.reserved x.start x.stop :=
  forEachFreeMemRange_maximal smallMemblock numaNoNode 0 smallMemblock_memory
    smallMemblock_reserved (by unfold MemblockType.Fits; decide)
    (by unfold MemblockType.Fits; decide)
    (by unfold MemblockType.NoneAdjacent; decide)

end Sandix