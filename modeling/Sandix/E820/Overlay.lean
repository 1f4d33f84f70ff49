import Sandix.E820.Sanitize
import Sandix.Machinery.Interval

/-!
# E820/Overlay — the sanitized map is the priority overlay of the input

`IsOverlay es out`: `out` is sorted, disjoint and non-empty, covers what an entry of `es` of non-zero
type covers, and gives every address the largest type of the entries covering it.

The sweep is followed without its limit first (`Built`, `buildStep`): `BuiltInv` says, after any
prefix of the sorted change points, that the overlap list holds the entries open at the current
address and that what has been built is exact below it.  The code's sweep builds the same list, cut at
`max_nr_map` (`sweep_eq_take`).
-/

namespace Sandix

open Machinery

/-- The entry covers the address. -/
def E820Entry.Has (x : E820Entry) (a : ℕ) : Prop := x.addr ≤ a ∧ a < x.addr + x.size

/-- The end of an entry, as a number. -/
abbrev E820Entry.limit (x : E820Entry) : ℕ := x.addr + x.size

/-- **The priority overlay**: sorted, disjoint and non-empty entries that cover what the entries of
non-zero type cover, each address with the largest type among the entries covering it. -/
structure IsOverlay (es out : List E820Entry) : Prop where
  ascending : Ascending E820Entry.addr E820Entry.limit 0 out
  covers : ∀ a, (∃ y ∈ out, y.Has a) ↔ ∃ x ∈ es, x.Has a ∧ x.type ≠ 0
  type : ∀ y ∈ out, ∀ a, y.Has a → IsGreatest {t | ∃ x ∈ es, x.Has a ∧ x.type = t} y.type

section

variable (biosmap : ℕ → E820Entry)

/-! ## The overlap list -/

/-- The largest type on the list is one of its types, or `0`. -/
theorem overlapType_spec (l : List ℕ) : (∀ q ∈ l, (biosmap q).type ≤ overlapType biosmap l) ∧
    (overlapType biosmap l = 0 ∨ ∃ q ∈ l, (biosmap q).type = overlapType biosmap l) := by
  induction l using List.reverseRecOn with
  | nil => exact ⟨by simp, Or.inl rfl⟩
  | append_singleton l x ih =>
    obtain ⟨hle, hmem⟩ := ih
    have hstep : overlapType biosmap (l ++ [x])
        = if (biosmap x).type > overlapType biosmap l then (biosmap x).type
          else overlapType biosmap l := by
      simp [overlapType, List.foldl_append]
    rw [hstep]
    split
    · refine ⟨fun q hq => ?_, Or.inr ⟨x, by simp, rfl⟩⟩
      rcases List.mem_append.mp hq with hq | hq
      · have := hle q hq
        omega
      · rw [List.mem_singleton.mp hq]
    · refine ⟨fun q hq => ?_, hmem.imp_right fun ⟨q, hq, ht⟩ => ⟨q, by simp [hq], ht⟩⟩
      rcases List.mem_append.mp hq with hq | hq
      · exact hle q hq
      · rw [List.mem_singleton.mp hq]
        omega

/-- A non-zero type is the largest one exactly when it is there and none is larger. -/
theorem overlapType_eq_iff {l : List ℕ} {t : ℕ} (ht : t ≠ 0) : overlapType biosmap l = t ↔
    (∃ q ∈ l, (biosmap q).type = t) ∧ ∀ q ∈ l, (biosmap q).type ≤ t := by
  obtain ⟨hle, hmem⟩ := overlapType_spec biosmap l
  constructor
  · rintro rfl
    exact ⟨hmem.resolve_left ht, hle⟩
  · rintro ⟨⟨q, hq, rfl⟩, hmax⟩
    have h₁ := hle q hq
    rcases hmem with h₀ | ⟨q', hq', h₂⟩
    · omega
    · have := hmax q' hq'
      omega

/-- Deletion by swapping with the last member removes exactly the entry. -/
theorem removeOverlap_spec {l : List ℕ} {p : ℕ} (hl : l.Nodup) (hp : p ∈ l) :
    (removeOverlap l p).Nodup ∧ ∀ q, q ∈ removeOverlap l p ↔ q ∈ l ∧ q ≠ p := by
  obtain ⟨l', z, rfl⟩ : ∃ l' z, l = l' ++ [z] :=
    ⟨l.dropLast, l.getLast (List.ne_nil_of_mem hp), (List.dropLast_append_getLast _).symm⟩
  have heq : removeOverlap (l' ++ [z]) p = l'.map fun q => if q = p then z else q := by
    simp [removeOverlap]
  rw [List.nodup_append] at hl
  obtain ⟨hl', -, hz⟩ := hl
  have hz' : z ∉ l' := fun h => hz z h z (by simp) rfl
  rw [heq]
  constructor
  · refine (List.nodup_map_iff_inj_on hl').mpr fun x hx y hy hxy => ?_
    split at hxy <;> split at hxy
    · omega
    · exact absurd (hxy ▸ hy) hz'
    · exact absurd (hxy ▸ hx) hz'
    · exact hxy
  · intro q
    simp only [List.mem_map, List.mem_append, List.mem_singleton]
    constructor
    · rintro ⟨x, hx, rfl⟩
      split
      · rename_i hxp
        exact ⟨Or.inr rfl, fun h => hz' (by rw [h, ← hxp]; exact hx)⟩
      · rename_i hxp
        exact ⟨Or.inl hx, hxp⟩
    · rintro ⟨hq | rfl, hne⟩
      · exact ⟨q, hq, if_neg hne⟩
      · rcases List.mem_append.mp hp with hp | hp
        · exact ⟨p, hp, if_pos rfl⟩
        · exact absurd (List.mem_singleton.mp hp).symm hne

/-! ## The sweep without its limit -/

/-- What the sweep has built: the finished entries, and the type and start of the open one. -/
structure Built where
  overlapList : List ℕ
  out : List E820Entry
  lastType : ℕ
  lastAddr : ℕ

/-- The finished entries after closing the open one at `addr`. -/
def Built.closed (b : Built) (addr : ℕ) : List E820Entry :=
  if b.lastType ≠ 0 ∧ b.lastAddr ≠ addr then b.out ++ [⟨b.lastAddr, addr - b.lastAddr, b.lastType⟩]
  else b.out

/-- One change point. -/
def buildStep (b : Built) (c : ChangeMember) : Built :=
  let overlapList := updateOverlap biosmap b.overlapList c
  let currentType := overlapType biosmap overlapList
  if currentType ≠ b.lastType ∨ currentType = e820Pram then
    ⟨overlapList, b.closed c.addr, currentType, if currentType ≠ 0 then c.addr else b.lastAddr⟩
  else { b with overlapList }

/-- The list that a sweep with room for everything builds. -/
def build (cs : List ChangeMember) (b : Built) : Built := cs.foldl (buildStep biosmap) b

theorem buildStep_out_grows (b : Built) (c : ChangeMember) :
    b.out <+: (buildStep biosmap b c).out := by
  simp only [buildStep]
  split
  · simp only [Built.closed]
    split
    · exact List.prefix_append _ _
    · exact List.prefix_refl _
  · exact List.prefix_refl _

theorem build_out_grows (cs : List ChangeMember) (b : Built) :
    b.out <+: (build biosmap cs b).out := by
  induction cs generalizing b with
  | nil => exact List.prefix_refl _
  | cons c cs ih => exact (buildStep_out_grows biosmap b c).trans (ih _)

/-! ## The code's sweep builds the same list -/

/-- The entries finished so far, as they stand in `new_bios`. -/
def Sweep.entries (s : Sweep) : List E820Entry := (List.range s.newBiosEntry).map s.newBios

/-- The array holds what has been built, and the open entry is begun in the next slot. -/
structure Sim (s : Sweep) (b : Built) : Prop where
  overlap : s.overlapList = b.overlapList
  entries : s.entries = b.out
  type : s.lastType = b.lastType
  addr : s.lastAddr = b.lastAddr
  begun : b.lastType ≠ 0 → (s.newBios s.newBiosEntry).addr = b.lastAddr ∧
    (s.newBios s.newBiosEntry).type = b.lastType

theorem Sim.length {s : Sweep} {b : Built} (h : Sim s b) : b.out.length = s.newBiosEntry := by
  rw [← h.entries, Sweep.entries, List.length_map, List.length_range]

/-- Changing the slot after the finished entries does not change them. -/
theorem map_range_update {f : ℕ → E820Entry} {n : ℕ} {x : E820Entry} :
    (List.range n).map (Function.update f n x) = (List.range n).map f := by
  refine List.map_congr_left fun i hi => ?_
  rw [Function.update_of_ne (by have := List.mem_range.mp hi; omega)]

/-- Closing the open entry. -/
theorem closeEntry_entries {s : Sweep} {b : Built} (h : Sim s b) {addr : ℕ} (ht : b.lastType ≠ 0)
    (hle : b.lastAddr ≤ addr) (haddr : addr < 2 ^ 64) :
    (closeEntry s addr).entries = b.closed addr ∧
      ((closeEntry s addr).newBiosEntry = s.newBiosEntry ∨
        (closeEntry s addr).newBiosEntry = s.newBiosEntry + 1) := by
  have hsize : sub64 addr s.lastAddr = addr - b.lastAddr := by
    rw [h.addr, sub64_of_le haddr hle]
  obtain ⟨hbegun, htype⟩ := h.begun ht
  simp only [closeEntry, hsize, Sweep.entries, Built.closed]
  by_cases hne : b.lastAddr = addr
  · rw [if_neg (by omega), if_neg (by simp [hne]), map_range_update]
    exact ⟨h.entries, Or.inl rfl⟩
  · rw [if_pos (by omega), if_pos ⟨ht, hne⟩, List.range_succ, List.map_append, map_range_update,
      List.map_singleton, Function.update_self, hbegun, htype]
    exact ⟨by rw [← h.entries, Sweep.entries], Or.inr rfl⟩

/-- The open entry closed, when there is one. -/
def closeIfOpen (s : Sweep) (addr : ℕ) : Sweep := if s.lastType ≠ 0 then closeEntry s addr else s

theorem closeIfOpen_entries {s : Sweep} {b : Built} (h : Sim s b) {addr : ℕ}
    (hle : b.lastAddr ≤ addr) (haddr : addr < 2 ^ 64) :
    (closeIfOpen s addr).entries = b.closed addr ∧
      ((closeIfOpen s addr).newBiosEntry = s.newBiosEntry ∨
        (closeIfOpen s addr).newBiosEntry = s.newBiosEntry + 1) ∧
      (closeIfOpen s addr).overlapList = s.overlapList ∧
      (closeIfOpen s addr).lastAddr = s.lastAddr := by
  rw [closeIfOpen, h.type]
  split
  · rename_i ht
    obtain ⟨h₁, h₂⟩ := closeEntry_entries h ht hle haddr
    exact ⟨h₁, h₂, rfl, rfl⟩
  · rename_i ht
    rw [Built.closed, if_neg fun h => ht h.1]
    exact ⟨h.entries, Or.inl rfl, rfl, rfl⟩

/-- **One round**: the code builds what `buildStep` builds, or has just filled the last slot and
leaves. -/
theorem sweepStep_sim {maxNrMap : ℤ} {s : Sweep} {b : Built} {c : ChangeMember} (h : Sim s b)
    (hlt : (s.newBiosEntry : ℤ) < maxNrMap) (hle : b.lastAddr ≤ c.addr) (haddr : c.addr < 2 ^ 64) :
    (∃ s', sweepStep biosmap maxNrMap s c = (s', false) ∧ Sim s' (buildStep biosmap b c) ∧
      (s'.newBiosEntry : ℤ) < maxNrMap) ∨
    ∃ s', sweepStep biosmap maxNrMap s c = (s', true) ∧
      s'.entries = (buildStep biosmap b c).out ∧ (s'.newBiosEntry : ℤ) = maxNrMap := by
  have hsim : Sim { s with overlapList := updateOverlap biosmap s.overlapList c }
      { b with overlapList := updateOverlap biosmap b.overlapList c } :=
    ⟨by rw [h.overlap], h.entries, h.type, h.addr, h.begun⟩
  have hstep : sweepStep biosmap maxNrMap s c =
      (let s := { s with overlapList := updateOverlap biosmap s.overlapList c }
       let currentType := overlapType biosmap (updateOverlap biosmap b.overlapList c)
       if currentType ≠ b.lastType ∨ currentType = e820Pram then
         if (closeIfOpen s c.addr).newBiosEntry ≠ s.newBiosEntry ∧
             ((closeIfOpen s c.addr).newBiosEntry : ℤ) ≥ maxNrMap then
           (closeIfOpen s c.addr, true)
         else
           ({ (if currentType ≠ 0 then openEntry (closeIfOpen s c.addr) c.addr currentType
                else closeIfOpen s c.addr) with lastType := currentType }, false)
       else (s, false)) := by
    rw [← h.type, ← h.overlap]
    rfl
  rw [hstep]
  simp only [buildStep]
  split
  swap
  · exact Or.inl ⟨_, rfl, hsim, hlt⟩
  obtain ⟨hent, hcount, hover, hlast⟩ := closeIfOpen_entries hsim hle haddr
  have hclosed : Built.closed { b with overlapList := updateOverlap biosmap b.overlapList c } c.addr
      = b.closed c.addr := rfl
  rw [hclosed] at hent
  dsimp only at hcount hover hlast ⊢
  split
  · rename_i hfull
    exact Or.inr ⟨_, rfl, hent, by omega⟩
  · rename_i hroom
    refine Or.inl ⟨_, rfl, ?_, ?_⟩
    · split
      · refine ⟨by rw [← h.overlap]; exact hover, ?_, rfl, rfl, fun _ => ?_⟩
        · rw [← hent]
          exact map_range_update
        · simp [openEntry]
      · rename_i hzero
        refine ⟨by rw [← h.overlap]; exact hover, hent, rfl, hlast.trans h.addr, fun hne => ?_⟩
        exact absurd hne hzero
    · have hlt' : ((closeIfOpen { s with overlapList := updateOverlap biosmap s.overlapList c }
          c.addr).newBiosEntry : ℤ) < maxNrMap := by
        rcases hcount with hc | hc <;> omega
      split
      · exact hlt'
      · exact hlt'

/-- **The code's sweep builds the unlimited list cut at `max_nr_map`.** -/
theorem sweep_eq_take (maxNrMap : ℤ) : ∀ {cs : List ChangeMember} {s : Sweep} {b : Built},
    Sim s b → (s.newBiosEntry : ℤ) < maxNrMap → cs.Pairwise (fun c d => c.addr ≤ d.addr) →
    (∀ c ∈ cs, b.lastAddr ≤ c.addr ∧ c.addr < 2 ^ 64) →
    (sweep biosmap maxNrMap cs s).entries = (build biosmap cs b).out.take maxNrMap.toNat
  | [], s, b, h, hlt, _, _ => by
      have hlen := h.length
      rw [sweep, build, List.foldl_nil, h.entries, List.take_of_length_le (by omega)]
  | c :: cs, s, b, h, hlt, hsort, hbound => by
      obtain ⟨hfirst, hsort⟩ := List.pairwise_cons.mp hsort
      obtain ⟨hle, haddr⟩ := hbound c (by simp)
      have hbuild : build biosmap (c :: cs) b = build biosmap cs (buildStep biosmap b c) := rfl
      rw [sweep, hbuild]
      rcases sweepStep_sim biosmap h hlt hle haddr with ⟨s', hs, hsim, hlt'⟩ | ⟨s', hs, hent, hfull⟩
      · rw [hs]
        refine sweep_eq_take maxNrMap hsim hlt' hsort fun d hd => ⟨?_, (hbound d (by simp [hd])).2⟩
        have h₁ := (hbound d (by simp [hd])).1
        have h₂ := hfirst d hd
        simp only [buildStep]
        split
        · dsimp only
          split <;> assumption
        · exact h₁
      · rw [hs]
        have hlen : s'.entries.length = maxNrMap.toNat := by
          rw [Sweep.entries, List.length_map, List.length_range]
          omega
        have hpre := build_out_grows biosmap cs (buildStep biosmap b c)
        rw [← hent] at hpre
        exact hlen ▸ List.prefix_iff_eq_take.mp hpre

/-! ## What the sweep has built is exact -/

/-- `t` is the largest type of the first `n` entries that cover `a`. -/
def IsTop (n a t : ℕ) : Prop :=
  (∃ i < n, (biosmap i).Has a ∧ (biosmap i).type = t) ∧
    ∀ i < n, (biosmap i).Has a → (biosmap i).type ≤ t

/-- The change points of the first `n` entries, in order of their addresses. -/
structure SortedPoints (n : ℕ) (cs : List ChangeMember) : Prop where
  mem : ∀ c, c ∈ cs ↔ ∃ i < n, (biosmap i).size ≠ 0 ∧
    (c = ⟨i, (biosmap i).addr⟩ ∨ c = ⟨i, (biosmap i).limit⟩)
  nodup : cs.Nodup
  sorted : cs.Pairwise fun c d => c.addr ≤ d.addr

/-- **After the change points `done`, up to the address `p`**: the overlap list holds the entries
whose start has been seen and whose end has not, its largest type is the type of the open entry, and
below `p` the finished entries together with the open one are the overlay. -/
structure BuiltInv (n : ℕ) (done rest : List ChangeMember) (p : ℕ) (b : Built) : Prop where
  overlap_nodup : b.overlapList.Nodup
  overlap_mem : ∀ i, i ∈ b.overlapList ↔ (i < n ∧ (biosmap i).size ≠ 0) ∧
    ⟨i, (biosmap i).addr⟩ ∈ done ∧ ⟨i, (biosmap i).limit⟩ ∉ done
  type_eq : b.lastType = overlapType biosmap b.overlapList
  done_le : ∀ c ∈ done, c.addr ≤ p
  le_rest : ∀ c ∈ rest, p ≤ c.addr
  lastAddr_le : b.lastAddr ≤ p
  ascending : Ascending E820Entry.addr E820Entry.limit 0 b.out
  out_le : ∀ x ∈ b.out, x.limit ≤ p
  out_le_last : b.lastType ≠ 0 → ∀ x ∈ b.out, x.limit ≤ b.lastAddr
  out_type : ∀ x ∈ b.out, x.type ≠ 0
  exact : ∀ a t, a < p → t ≠ 0 → (((∃ x ∈ b.out, x.Has a ∧ x.type = t) ∨
    (b.lastType = t ∧ b.lastAddr ≤ a)) ↔ IsTop biosmap n a t)

variable {biosmap} {n : ℕ} {done rest : List ChangeMember} {p : ℕ} {b : Built} {c : ChangeMember}

theorem E820Entry.Has.size_ne {x : E820Entry} {a : ℕ} (h : x.Has a) : x.size ≠ 0 := by
  unfold E820Entry.Has at h
  omega

namespace BuiltInv

/-- Between two change points the overlap list is the entries covering the address. -/
theorem overlap_covers (h : BuiltInv biosmap n done rest p b)
    (hpts : SortedPoints biosmap n (done ++ rest)) {a : ℕ} (hpa : p ≤ a)
    (har : ∀ c ∈ rest, a < c.addr) (i : ℕ) :
    i ∈ b.overlapList ↔ i < n ∧ (biosmap i).Has a := by
  have hsplit : ∀ c, c ∈ done ++ rest → (c ∈ done ↔ c.addr ≤ a) := by
    intro c hc
    constructor
    · intro hd
      exact (h.done_le c hd).trans hpa
    · intro hle
      rcases List.mem_append.mp hc with hd | hr
      · exact hd
      · have := har c hr
        omega
  rw [h.overlap_mem, E820Entry.Has]
  constructor
  · rintro ⟨⟨hi, hsize⟩, hs, he⟩
    have h₁ := (hsplit _ (List.mem_append_left _ hs)).mp hs
    rw [hsplit _ ((hpts.mem _).mpr ⟨i, hi, hsize, Or.inr rfl⟩)] at he
    exact ⟨hi, h₁, not_le.mp he⟩
  · rintro ⟨hi, ha⟩
    have hsize : (biosmap i).size ≠ 0 := E820Entry.Has.size_ne ha
    rw [hsplit _ ((hpts.mem _).mpr ⟨i, hi, hsize, Or.inl rfl⟩),
      hsplit _ ((hpts.mem _).mpr ⟨i, hi, hsize, Or.inr rfl⟩)]
    exact ⟨⟨hi, hsize⟩, ha.1, not_le.mpr ha.2⟩

/-- So its largest type is the overlay there. -/
theorem lastType_iff (h : BuiltInv biosmap n done rest p b)
    (hpts : SortedPoints biosmap n (done ++ rest)) {a t : ℕ} (ht : t ≠ 0) (hpa : p ≤ a)
    (har : ∀ c ∈ rest, a < c.addr) : b.lastType = t ↔ IsTop biosmap n a t := by
  rw [h.type_eq, overlapType_eq_iff biosmap ht, IsTop]
  simp only [h.overlap_covers hpts hpa har, and_assoc, and_imp]

/-- Nothing changes before the next change point. -/
theorem exact_upto (h : BuiltInv biosmap n done (c :: rest) p b)
    (hpts : SortedPoints biosmap n (done ++ c :: rest)) {a t : ℕ} (ha : a < c.addr) (ht : t ≠ 0) :
    ((∃ x ∈ b.out, x.Has a ∧ x.type = t) ∨ (b.lastType = t ∧ b.lastAddr ≤ a)) ↔
      IsTop biosmap n a t := by
  rcases Nat.lt_or_ge a p with hap | hpa
  · exact h.exact a t hap ht
  · have hrest : ∀ d ∈ c :: rest, a < d.addr := by
      intro d hd
      rcases List.mem_cons.mp hd with rfl | hd
      · exact ha
      · have hsort := (List.pairwise_append.mp hpts.sorted).2.1
        have := (List.pairwise_cons.mp hsort).1 d hd
        omega
    rw [← h.lastType_iff hpts ht hpa hrest, and_iff_left (h.lastAddr_le.trans hpa), or_iff_right]
    rintro ⟨x, hx, hxa, -⟩
    have := h.out_le x hx
    unfold E820Entry.Has at hxa
    unfold E820Entry.limit at this
    omega

/-- The overlap list after one more change point. -/
theorem overlap_step (h : BuiltInv biosmap n done (c :: rest) p b)
    (hpts : SortedPoints biosmap n (done ++ c :: rest)) :
    (updateOverlap biosmap b.overlapList c).Nodup ∧
      ∀ i, i ∈ updateOverlap biosmap b.overlapList c ↔ (i < n ∧ (biosmap i).size ≠ 0) ∧
        ⟨i, (biosmap i).addr⟩ ∈ done ++ [c] ∧ ⟨i, (biosmap i).limit⟩ ∉ done ++ [c] := by
  obtain ⟨j, hj, hsize, hcj⟩ := (hpts.mem c).mp (by simp)
  have hnew : c ∉ done := fun hc =>
    (List.nodup_append.mp hpts.nodup).2.2 c hc c (by simp) rfl
  obtain ⟨hdone, hlater⟩ : (∀ d ∈ done, d.addr ≤ c.addr) ∧ ∀ d ∈ rest, c.addr ≤ d.addr := by
    obtain ⟨-, hrest, hcross⟩ := List.pairwise_append.mp hpts.sorted
    exact ⟨fun d hd => hcross d hd c (by simp), (List.pairwise_cons.mp hrest).1⟩
  simp only [List.mem_append, List.mem_singleton, not_or]
  rcases hcj with rfl | rfl
  · -- the start of entry `j`
    have hend : (⟨j, (biosmap j).limit⟩ : ChangeMember) ∉ done := fun hd => by
      have := hdone _ hd
      dsimp only [E820Entry.limit] at this
      omega
    have hstart : ChangeMember.isStart biosmap ⟨j, (biosmap j).addr⟩ = true := by
      simp [ChangeMember.isStart]
    have hjno : j ∉ b.overlapList := fun hj => hnew ((h.overlap_mem j).mp hj).2.1
    rw [updateOverlap, if_pos hstart]
    refine ⟨List.nodup_append.mpr ⟨h.overlap_nodup, by simp, ?_⟩, fun i => ?_⟩
    · rintro x hx y hy rfl
      rw [List.mem_singleton.mp hy] at hx
      exact hjno hx
    · rw [List.mem_append, List.mem_singleton, h.overlap_mem]
      by_cases hij : i = j
      · subst hij
        refine iff_of_true (Or.inr rfl) ⟨⟨hj, hsize⟩, Or.inr rfl, hend, ?_⟩
        rw [ChangeMember.mk.injEq]
        unfold E820Entry.limit
        omega
      · simp [hij]
  · -- the end of entry `j`
    have hstart : ¬ChangeMember.isStart biosmap ⟨j, (biosmap j).limit⟩ = true := by
      simp [ChangeMember.isStart, E820Entry.limit, hsize]
    have hbegun : (⟨j, (biosmap j).addr⟩ : ChangeMember) ∈ done := by
      rcases List.mem_append.mp ((hpts.mem _).mpr ⟨j, hj, hsize, Or.inl rfl⟩) with hd | hr
      · exact hd
      · rcases List.mem_cons.mp hr with heq | hr
        · rw [ChangeMember.mk.injEq] at heq
          unfold E820Entry.limit at heq
          omega
        · have := hlater _ hr
          dsimp only [E820Entry.limit] at this
          omega
    have hjin : j ∈ b.overlapList := (h.overlap_mem j).mpr ⟨⟨hj, hsize⟩, hbegun, hnew⟩
    obtain ⟨hnodup, hmem⟩ := removeOverlap_spec h.overlap_nodup hjin
    rw [updateOverlap, if_neg hstart]
    refine ⟨hnodup, fun i => ?_⟩
    rw [hmem, h.overlap_mem]
    by_cases hij : i = j
    · subst hij
      refine iff_of_false (fun h => h.2 rfl) fun h => h.2.2.2 rfl
    · have hne : ∀ a, (⟨i, a⟩ : ChangeMember) ≠ ⟨j, (biosmap j).limit⟩ := fun a heq =>
        hij (ChangeMember.mk.inj heq).1
      rw [or_iff_left (hne _), and_iff_left hij]
      refine and_congr_right fun _ => and_congr_right fun _ => ?_
      exact (and_iff_left (hne _)).symm

/-- **One change point.** -/
theorem step (h : BuiltInv biosmap n done (c :: rest) p b)
    (hpts : SortedPoints biosmap n (done ++ c :: rest)) :
    BuiltInv biosmap n (done ++ [c]) rest c.addr (buildStep biosmap b c) := by
  obtain ⟨hnodup, hmem⟩ := h.overlap_step hpts
  have hpc : p ≤ c.addr := h.le_rest c (by simp)
  have hdone : ∀ d ∈ done ++ [c], d.addr ≤ c.addr := by
    intro d hd
    rcases List.mem_append.mp hd with hd | hd
    · exact (h.done_le d hd).trans hpc
    · rw [List.mem_singleton.mp hd]
  have hrest : ∀ d ∈ rest, c.addr ≤ d.addr :=
    (List.pairwise_cons.mp (List.pairwise_append.mp hpts.sorted).2.1).1
  have hlast := h.lastAddr_le.trans hpc
  have hexact := fun a t => h.exact_upto hpts (a := a) (t := t)
  simp only [buildStep]
  split
  · have hout : ∀ x ∈ b.closed c.addr, x.limit ≤ c.addr := by
      intro x hx
      rw [Built.closed] at hx
      split at hx
      · rcases List.mem_append.mp hx with hx | hx
        · exact (h.out_le x hx).trans hpc
        · rw [List.mem_singleton.mp hx]
          dsimp only [E820Entry.limit]
          omega
      · exact (h.out_le x hx).trans hpc
    refine ⟨hnodup, hmem, rfl, hdone, hrest, ?_, ?_, hout, ?_, ?_, fun a t ha ht => ?_⟩
    · dsimp only
      split
      · exact le_rfl
      · exact hlast
    · dsimp only
      rw [Built.closed]
      split
      · rename_i hopen
        refine Ascending.append_iff.mpr ⟨h.ascending, ⟨Nat.zero_le _, ?_, trivial⟩, fun x hx y hy => ?_⟩
        · dsimp only [E820Entry.limit]
          omega
        · rw [List.mem_singleton.mp hy]
          exact h.out_le_last hopen.1 x hx
      · exact h.ascending
    · intro hne x hx
      dsimp only at hne hx ⊢
      rw [if_pos hne]
      exact hout x hx
    · intro x hx
      dsimp only at hx
      rw [Built.closed] at hx
      split at hx
      · rename_i hopen
        rcases List.mem_append.mp hx with hx | hx
        · exact h.out_type x hx
        · rw [List.mem_singleton.mp hx]
          exact hopen.1
      · exact h.out_type x hx
    · dsimp only
      rw [← hexact a t ha ht, or_iff_left]
      · rw [Built.closed]
        split
        · rename_i hopen
          constructor
          · rintro ⟨x, hx, hxa, hxt⟩
            rcases List.mem_append.mp hx with hx | hx
            · exact Or.inl ⟨x, hx, hxa, hxt⟩
            · rw [List.mem_singleton.mp hx] at hxa hxt
              exact Or.inr ⟨hxt, hxa.1⟩
          · rintro (⟨x, hx, hxa, hxt⟩ | ⟨hlt, hla⟩)
            · exact ⟨x, List.mem_append_left _ hx, hxa, hxt⟩
            · refine ⟨_, List.mem_append_right _ (List.mem_singleton_self _), ⟨hla, ?_⟩, hlt⟩
              dsimp only
              omega
        · rename_i hclosed
          rw [or_iff_left]
          rintro ⟨rfl, hla⟩
          exact hclosed ⟨ht, by omega⟩
      · rintro ⟨rfl, hle⟩
        rw [if_pos ht] at hle
        omega
  · rename_i hsame
    rw [not_or, not_not] at hsame
    exact ⟨hnodup, hmem, hsame.1.symm, hdone, hrest, hlast, h.ascending,
      fun x hx => (h.out_le x hx).trans hpc, h.out_le_last, h.out_type, fun a t ha ht => hexact a t ha ht⟩

end BuiltInv

/-- The sweep begins with nothing built. -/
theorem builtInv_init (cs : List ChangeMember) : BuiltInv biosmap n [] cs 0 ⟨[], [], 0, 0⟩ where
  overlap_nodup := List.nodup_nil
  overlap_mem := by simp
  type_eq := rfl
  done_le := by simp
  le_rest _ _ := Nat.zero_le _
  lastAddr_le := le_rfl
  ascending := trivial
  out_le := by simp
  out_le_last h := absurd rfl h
  out_type := by simp
  exact a t ha := absurd ha (Nat.not_lt_zero a)

/-- **The whole sweep.** -/
theorem BuiltInv.run : ∀ {rest done : List ChangeMember} {p : ℕ} {b : Built},
    BuiltInv biosmap n done rest p b → SortedPoints biosmap n (done ++ rest) →
    ∃ p', BuiltInv biosmap n (done ++ rest) [] p' (build biosmap rest b)
  | [], done, p, b, h, _ => ⟨p, by rw [List.append_nil]; exact h⟩
  | c :: rest, done, p, b, h, hpts => by
      have hassoc : done ++ c :: rest = (done ++ [c]) ++ rest := by simp
      rw [hassoc]
      exact (h.step hpts).run (hassoc ▸ hpts)

/-- **At the end the list is the overlay.** -/
theorem BuiltInv.isOverlay {cs : List ChangeMember} (h : BuiltInv biosmap n cs [] p b)
    (hpts : SortedPoints biosmap n cs) : IsOverlay ((List.range n).map biosmap) b.out := by
  have hclosed : b.lastType = 0 := by
    have hnil : b.overlapList = [] := by
      refine List.eq_nil_iff_forall_not_mem.mpr fun i hi => ?_
      obtain ⟨⟨hin, hsize⟩, -, hend⟩ := (h.overlap_mem i).mp hi
      exact hend ((hpts.mem _).mpr ⟨i, hin, hsize, Or.inr rfl⟩)
    rw [h.type_eq, hnil]
    rfl
  have htop : ∀ a t, t ≠ 0 → ((∃ x ∈ b.out, x.Has a ∧ x.type = t) ↔ IsTop biosmap n a t) := by
    intro a t ht
    rcases Nat.lt_or_ge a p with hap | hpa
    · rw [← h.exact a t hap ht, or_iff_left]
      rintro ⟨rfl, -⟩
      exact ht hclosed
    · refine iff_of_false ?_ ?_
      · rintro ⟨x, hx, hxa, -⟩
        have := h.out_le x hx
        unfold E820Entry.Has at hxa
        unfold E820Entry.limit at this
        omega
      · rintro ⟨⟨i, hi, hia, -⟩, -⟩
        have := h.done_le _ ((hpts.mem _).mpr ⟨i, hi, hia.size_ne, Or.inr rfl⟩)
        unfold E820Entry.Has at hia
        dsimp only [E820Entry.limit] at this
        omega
  refine ⟨h.ascending, fun a => ⟨?_, ?_⟩, fun y hy a hya => ?_⟩
  · rintro ⟨y, hy, hya⟩
    obtain ⟨⟨i, hi, hia, hit⟩, -⟩ := (htop a y.type (h.out_type y hy)).mp ⟨y, hy, hya, rfl⟩
    exact ⟨biosmap i, List.mem_map.mpr ⟨i, List.mem_range.mpr hi, rfl⟩, hia,
      hit ▸ h.out_type y hy⟩
  · rintro ⟨x, hx, hxa, hxt⟩
    obtain ⟨i, hi, rfl⟩ := List.mem_map.mp hx
    rw [List.mem_range] at hi
    classical
    -- the largest type of the entries that cover `a`
    let cover := (List.range n).filter fun i => (biosmap i).Has a
    have hcover : ∀ j, j ∈ cover ↔ j < n ∧ (biosmap j).Has a := fun j => by
      simp [cover]
    have hne : overlapType biosmap cover ≠ 0 := by
      have := (overlapType_spec biosmap cover).1 i ((hcover i).mpr ⟨hi, hxa⟩)
      omega
    obtain ⟨⟨j, hj, hjt⟩, hmax⟩ := (overlapType_eq_iff biosmap hne).mp rfl
    obtain ⟨y, hy, hya, -⟩ := (htop a _ hne).mpr
      ⟨⟨j, ((hcover j).mp hj).1, ((hcover j).mp hj).2, hjt⟩,
        fun k hk hka => hmax k ((hcover k).mpr ⟨hk, hka⟩)⟩
    exact ⟨y, hy, hya⟩
  · obtain ⟨⟨i, hi, hia, hit⟩, hmax⟩ :=
      (htop a y.type (h.out_type y hy)).mp ⟨y, hy, hya, rfl⟩
    refine ⟨⟨biosmap i, List.mem_map.mpr ⟨i, List.mem_range.mpr hi, rfl⟩, hia, hit⟩, ?_⟩
    rintro t ⟨x, hx, hxa, rfl⟩
    obtain ⟨j, hj, rfl⟩ := List.mem_map.mp hx
    exact hmax j (List.mem_range.mp hj) hxa

/-! ## Sorting the change points -/

theorem cpcompare_preorder (biosmap : ℕ → E820Entry) : CmpPreorder (cpcompare biosmap) where
  flip a b := by
    unfold cpcompare
    split_ifs <;> omega
  trans a b c := by
    unfold cpcompare
    split_ifs <;> omega

/-- Sorting the pointers sorts the change points they point to. -/
theorem changePoint_view (biosmap : ℕ → E820Entry) (points : List ChangeMember) (num : ℕ) :
    SortView (changePointOps biosmap points) 4 num id
      (fun i j => cpcompare biosmap (points.getD i ⟨0, 0⟩) (points.getD j ⟨0, 0⟩)) where
  cmp_eq s i j _ _ := by simp [changePointOps]
  cmp_get _ _ _ _ _ := rfl
  swap_eq s i j _ _ := by simp [changePointOps]

section Points

/-- No entry wraps around through zero. -/
def NoneWraps (biosmap : ℕ → E820Entry) (n : ℕ) : Prop := ∀ i < n, (biosmap i).limit < 2 ^ 64

theorem E820Entry.stop_eq {x : E820Entry} (h : x.limit < 2 ^ 64) : x.stop = x.limit :=
  Nat.mod_eq_of_lt h

theorem mem_changePointList (hw : NoneWraps biosmap n) : c ∈ changePointList biosmap n ↔
    ∃ i < n, (biosmap i).size ≠ 0 ∧
      (c = ⟨i, (biosmap i).addr⟩ ∨ c = ⟨i, (biosmap i).limit⟩) := by
  simp only [changePointList, List.mem_flatMap, List.mem_range]
  refine exists_congr fun i => and_congr_right fun hi => ?_
  rw [E820Entry.stop_eq (hw i hi)]
  split <;> simp_all

theorem changePointList_nodup (hw : NoneWraps biosmap n) : (changePointList biosmap n).Nodup := by
  rw [changePointList, List.nodup_flatMap]
  constructor
  · intro i hi
    split
    · rename_i hsize
      rw [E820Entry.stop_eq (hw i (List.mem_range.mp hi))]
      simp [E820Entry.limit, hsize]
    · exact List.nodup_nil
  · refine List.nodup_range.imp fun {i j} hij => List.disjoint_left.mpr fun c hc hc' => hij ?_
    have hpb : ∀ k, (c ∈ if (biosmap k).size ≠ 0 then
        [⟨k, (biosmap k).addr⟩, ⟨k, (biosmap k).stop⟩] else []) → c.pbios = k := by
      intro k hk
      split at hk
      · simp only [List.mem_cons, List.not_mem_nil, or_false] at hk
        rcases hk with rfl | rfl <;> rfl
      · simp at hk
    rw [← hpb i hc, hpb j hc']

/-- **The sorted change points.** -/
theorem sortedPoints (hw : NoneWraps biosmap n) (hn : n ≤ 128) :
    ∃ changePoint, sort (changePointOps biosmap (changePointList biosmap n)) 4
        (changePointList biosmap n).length id = .ok changePoint ∧
      SortedPoints biosmap n ((List.range (changePointList biosmap n).length).map fun i =>
        (changePointList biosmap n).getD (changePoint i) ⟨0, 0⟩) := by
  have hlen : (changePointList biosmap n).length ≤ 2 * n := by
    rw [changePointList, List.length_flatMap]
    refine (List.sum_le_card_nsmul _ 2 ?_).trans (by simp [Nat.mul_comm])
    intro x hx
    obtain ⟨i, -, rfl⟩ := List.mem_map.mp hx
    split <;> simp
  set points := changePointList biosmap n with hpoints
  have hcmp : CmpPreorder fun i j =>
      cpcompare biosmap (points.getD i ⟨0, 0⟩) (points.getD j ⟨0, 0⟩) :=
    ⟨fun _ _ => (cpcompare_preorder biosmap).flip _ _,
      fun _ _ _ => (cpcompare_preorder biosmap).trans _ _ _⟩
  have hview := changePoint_view biosmap points points.length
  obtain ⟨s', hs', hsw, hsorted⟩ :=
    sort_sorted hview hcmp (by omega) (by omega) (by omega) id
  obtain ⟨π, hfix, hget⟩ := hsw.perm hview le_rfl
  have hs'π : s' = π := hget
  subst hs'π
  refine ⟨π, hs', ?_, ?_, ?_⟩
  · intro c
    rw [← mem_changePointList hw, ← hpoints, List.mem_map]
    constructor
    · rintro ⟨i, hi, rfl⟩
      have hlt := perm_lt hfix (List.mem_range.mp hi)
      rw [List.getD_eq_getElem?_getD, List.getElem?_eq_getElem hlt]
      exact List.getElem_mem hlt
    · intro hc
      obtain ⟨i, hi, rfl⟩ := List.mem_iff_getElem.mp hc
      have hinv : π.symm i < points.length := by
        by_contra hge
        have := hfix _ (not_lt.mp hge)
        rw [Equiv.apply_symm_apply] at this
        omega
      refine ⟨π.symm i, List.mem_range.mpr hinv, ?_⟩
      rw [Equiv.apply_symm_apply, List.getD_eq_getElem?_getD, List.getElem?_eq_getElem hi]
      rfl
  · refine (List.nodup_map_iff_inj_on List.nodup_range).mpr fun i hi j hj hij => ?_
    have hi' := perm_lt hfix (List.mem_range.mp hi)
    have hj' := perm_lt hfix (List.mem_range.mp hj)
    simp only [List.getD_eq_getElem?_getD, List.getElem?_eq_getElem hi',
      List.getElem?_eq_getElem hj', Option.getD_some] at hij
    exact π.injective ((changePointList_nodup hw).getElem_inj_iff.mp hij)
  · refine List.pairwise_map.mpr (List.pairwise_lt_range.imp_of_mem fun {i j} hi hj hij => ?_)
    have hle := hsorted i j hij.le (List.mem_range.mp hj)
    dsimp only [id] at hle
    unfold cpcompare at hle
    split_ifs at hle <;> omega

end Points

end

/-- **`sanitize_e820_map` computes the priority overlay.**  Fewer than two entries, or an entry that
wraps around, are refused with the map left alone; otherwise the new entries are the overlay of the
old ones, cut at `max_nr_map`. -/
theorem sanitizeE820Map_overlay (newBios biosmap : ℕ → E820Entry) (maxNrMap : ℤ) (nrMap : ℕ)
    (hu64 : ∀ i, (biosmap i).addr < 2 ^ 64 ∧ (biosmap i).size < 2 ^ 64) :
    (nrMap < 2 → sanitizeE820Map newBios biosmap maxNrMap nrMap = .ok (-1, biosmap, nrMap)) ∧
    (2 ≤ nrMap → (nrMap : ℤ) ≤ maxNrMap → maxNrMap ≤ e820Max →
      ((∃ i < nrMap, (biosmap i).stop < (biosmap i).addr) →
        sanitizeE820Map newBios biosmap maxNrMap nrMap = .ok (-1, biosmap, nrMap)) ∧
      ((∀ i < nrMap, (biosmap i).addr ≤ (biosmap i).stop) →
        ∃ map' nr' overlay, sanitizeE820Map newBios biosmap maxNrMap nrMap = .ok (0, map', nr') ∧
          IsOverlay ((List.range nrMap).map biosmap) overlay ∧
          (List.range nr').map map' = overlay.take maxNrMap.toNat)) := by
  refine ⟨fun h => if_pos h, fun hnr hle hmax => ?_⟩
  rw [e820Max] at hmax
  have hint : int32 nrMap = nrMap := int32_of_lt (by omega)
  simp only [sanitizeE820Map]
  rw [if_neg (not_lt.mpr hnr), hint, if_neg (not_lt.mpr hle), Int.toNat_natCast]
  refine ⟨fun hwrap => if_pos hwrap, fun hok => ?_⟩
  have hwraps : NoneWraps biosmap nrMap := by
    intro i hi
    have h₁ := hok i hi
    have h₂ := hu64 i
    unfold E820Entry.stop at h₁
    unfold E820Entry.limit
    omega
  obtain ⟨changePoint, hsort, hpts⟩ := sortedPoints hwraps (by omega)
  rw [if_neg (by rintro ⟨i, hi, hlt⟩; exact absurd (hok i hi) (not_le.mpr hlt)), hsort, Exec.ok_bind]
  obtain ⟨p, hbuilt⟩ := (builtInv_init _).run hpts
  refine ⟨_, _, _, rfl, hbuilt.isOverlay hpts, ?_⟩
  have haddr : ∀ c ∈ (List.range (changePointList biosmap nrMap).length).map (fun i =>
      (changePointList biosmap nrMap).getD (changePoint i) ⟨0, 0⟩), 0 ≤ c.addr ∧ c.addr < 2 ^ 64 := by
    intro c hc
    obtain ⟨i, hi, -, rfl | rfl⟩ := (hpts.mem c).mp hc
    · exact ⟨Nat.zero_le _, (hu64 i).1⟩
    · exact ⟨Nat.zero_le _, hwraps i hi⟩
  have hsweep := sweep_eq_take biosmap maxNrMap (s := ⟨[], newBios, 0, 0, 0⟩)
    (b := ⟨[], [], 0, 0⟩) ⟨rfl, rfl, rfl, rfl, fun h => absurd rfl h⟩ (by dsimp only; omega) hpts.sorted
    haddr
  rw [← hsweep]
  refine List.map_congr_left fun i hi => ?_
  rw [if_pos (List.mem_range.mp hi)]

/-- A BIOS map with nested, overlapping, empty and out-of-order entries. -/
def sampleMap (i : ℕ) : E820Entry :=
  [⟨0x9000, 0x8000, 12⟩, ⟨0x1000, 0x9000, 1⟩, ⟨0x4000, 0x2000, 2⟩, ⟨0, 0, 5⟩].getD i ⟨0, 0, 0⟩

theorem sanitizeE820Map_overlay_sample :
    ∃ map' nr' overlay, sanitizeE820Map (fun _ => ⟨0, 0, 0⟩) sampleMap 128 4 = .ok (0, map', nr') ∧
      IsOverlay ((List.range 4).map sampleMap) overlay ∧
      (List.range nr').map map' = overlay.take 128 := by
  refine ((sanitizeE820Map_overlay (fun _ => ⟨0, 0, 0⟩) sampleMap 128 4 fun i => ?_).2 (by decide)
    (by decide) (by decide)).2 (by decide)
  rcases i with _ | _ | _ | _ | i
  all_goals simp [sampleMap]

end Sandix
