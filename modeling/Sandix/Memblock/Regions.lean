import Sandix.Machinery.Interval
import Sandix.Memblock.Basic

/-!
# Memblock/Regions — what the in-place editors leave in the array

Each scan of `mm/memblock.c` walks an array it is editing.  Read at the moment the walk stands at
index `idx`, the array is `pre ++ rest` with `pre.length = idx`: the walk has finished with `pre`
and has not touched `rest`.  Along that split every loop is a recursion over `rest`:

* `memblockMergeRegions` leaves `mergeFrom` of the array (`memblockMergeRegions_eq`);
* a pass of `memblockAddRange` finds `missing` pieces, and the inserting pass leaves `fill`
  (`addPass_false`, `addPass_true`).

Neither runs into a `BUG_ON` or out of budget.
-/

namespace Sandix

open Machinery

namespace MemblockRegion

/-- The region ends inside the address space: `base + size` does not wrap. -/
def NoWrap (r : MemblockRegion) : Prop := r.base + r.size < 2 ^ 32

theorem NoWrap.stop_eq {r : MemblockRegion} (h : r.NoWrap) : r.stop = r.base + r.size :=
  Nat.mod_eq_of_lt h

/-- The region below the address `cut`. -/
def below (r : MemblockRegion) (cut : ℕ) : MemblockRegion := { r with size := cut - r.base }

end MemblockRegion

/-- The sizes of the regions, added up. -/
def regionBytes (rs : List MemblockRegion) : ℕ := (rs.map MemblockRegion.size).sum

@[simp] theorem regionBytes_nil : regionBytes [] = 0 := rfl

@[simp] theorem regionBytes_cons (r : MemblockRegion) (rs : List MemblockRegion) :
    regionBytes (r :: rs) = r.size + regionBytes rs := by
  simp [regionBytes]

@[simp] theorem regionBytes_append (rs rs' : List MemblockRegion) :
    regionBytes (rs ++ rs') = regionBytes rs + regionBytes rs' := by
  simp [regionBytes]

/-- Regions in order from `lo` on, none of them empty or wrapping: the content of a non-empty
array. -/
structure RegionsFrom (lo : ℕ) (rs : List MemblockRegion) : Prop where
  asc : Ascending (·.base) (fun r => r.base + r.size) lo rs
  noWrap : ∀ r ∈ rs, r.NoWrap

namespace RegionsFrom

variable {lo : ℕ} {r : MemblockRegion} {rs rs' : List MemblockRegion}

theorem cons_iff : RegionsFrom lo (r :: rs) ↔
    lo ≤ r.base ∧ 0 < r.size ∧ r.NoWrap ∧ RegionsFrom (r.base + r.size) rs := by
  constructor
  · rintro ⟨⟨h₁, h₂, h₃⟩, hw⟩
    dsimp only at h₂
    exact ⟨h₁, by omega, hw r (by simp), h₃, fun x hx => hw x (by simp [hx])⟩
  · rintro ⟨h₁, h₂, h₃, h₄⟩
    refine ⟨⟨h₁, by dsimp only; omega, h₄.asc⟩, fun x hx => ?_⟩
    rcases List.mem_cons.mp hx with rfl | hx
    · exact h₃
    · exact h₄.noWrap x hx

theorem nil : RegionsFrom lo [] := ⟨trivial, by simp⟩

theorem sublist (h : RegionsFrom lo rs) (hs : rs'.Sublist rs) : RegionsFrom lo rs' :=
  ⟨h.asc.sublist hs, fun x hx => h.noWrap x (hs.subset hx)⟩

theorem weaken {lo' : ℕ} (h : RegionsFrom lo rs) (hlo : lo' ≤ lo) : RegionsFrom lo' rs :=
  ⟨h.asc.weaken hlo, h.noWrap⟩

theorem from_head (h : RegionsFrom lo (r :: rs)) : RegionsFrom r.base (r :: rs) :=
  cons_iff.mpr ⟨le_rfl, (cons_iff.mp h).2⟩

theorem base_ge (h : RegionsFrom lo rs) (hr : r ∈ rs) : lo ≤ r.base := h.asc.start_ge hr

theorem size_pos (h : RegionsFrom lo rs) (hr : r ∈ rs) : 0 < r.size := by
  have := h.asc.start_lt_stop hr
  omega

end RegionsFrom

/-! ## The array at a point of a walk -/

namespace MemblockType

variable {t : MemblockType} {pre rest : List MemblockRegion} {r r' : MemblockRegion}

theorem region_at (h : t.regions = pre ++ r :: rest) : t.region pre.length = r := by
  simp [region, h]

theorem region_at_succ (h : t.regions = pre ++ r :: r' :: rest) :
    t.region (pre.length + 1) = r' := by
  simp [region, h, List.getD_eq_getElem?_getD]

theorem nrRegions_eq (h : t.regions = pre ++ rest) : t.nrRegions = pre.length + rest.length := by
  simp [nrRegions, h]

end MemblockType

theorem insertIdx_length_append {α : Type} (x : α) (rest : List α) :
    ∀ pre : List α, (pre ++ rest).insertIdx pre.length x = pre ++ x :: rest
  | [] => by simp
  | y :: pre => by simp [insertIdx_length_append x rest pre]

theorem eraseIdx_length_append {α : Type} (x : α) (rest : List α) :
    ∀ pre : List α, (pre ++ x :: rest).eraseIdx pre.length = pre ++ rest
  | [] => by simp
  | y :: pre => by simp [eraseIdx_length_append x rest pre]

/-- `memblock_insert_region` at the point of the walk: the new region is put between what is done
and what is left. -/
theorem memblockInsertRegion_at {t : MemblockType} {pre rest : List MemblockRegion}
    (h : t.regions = pre ++ rest) (hmax : t.nrRegions < t.max) (base size : ℕ) (nid : ℤ)
    (flags : ℕ) :
    memblockInsertRegion t pre.length base size nid flags = .ok { t with
      regions := pre ++ ⟨base, size, flags, nid⟩ :: rest
      totalSize := (t.totalSize + size) % 2 ^ 32 } := by
  have hins : t.regions.insertIdx pre.length ⟨base, size, flags, nid⟩
      = pre ++ ⟨base, size, flags, nid⟩ :: rest := by
    rw [h, insertIdx_length_append]
  rw [memblockInsertRegion, if_neg (by omega), hins]

/-! ## Merging -/

/-- The array after merging: `this` grows over every neighbour that touches it and agrees in node
and flags. -/
def mergeFrom (this : MemblockRegion) : List MemblockRegion → List MemblockRegion
  | [] => [this]
  | next :: rs =>
    if this.stop ≠ next.base ∨ this.nid ≠ next.nid ∨ this.flags ≠ next.flags then
      this :: mergeFrom next rs
    else mergeFrom { this with size := (this.size + next.size) % 2 ^ 32 } rs

/-- Growing over a neighbour that touches keeps the rest of the array in order. -/
theorem RegionsFrom.grow {lo : ℕ} {this next : MemblockRegion} {rs : List MemblockRegion}
    (h : RegionsFrom lo (this :: next :: rs)) (ht : this.stop = next.base) :
    RegionsFrom lo ({ this with size := (this.size + next.size) % 2 ^ 32 } :: rs) := by
  obtain ⟨h₁, h₂, h₃, h₄⟩ := cons_iff.mp h
  obtain ⟨h₅, h₆, h₇, h₈⟩ := cons_iff.mp h₄
  rw [h₃.stop_eq] at ht
  have hnext : next.base + next.size < 2 ^ 32 := h₇
  have hsum : (this.size + next.size) % 2 ^ 32 = this.size + next.size :=
    Nat.mod_eq_of_lt (by omega)
  rw [hsum]
  refine cons_iff.mpr ⟨h₁, by dsimp only; omega, ?_, h₈.weaken (by dsimp only; omega)⟩
  change this.base + (this.size + next.size) < 2 ^ 32
  omega

theorem regionsFrom_mergeFrom : ∀ {rs : List MemblockRegion} {lo : ℕ} {this : MemblockRegion},
    RegionsFrom lo (this :: rs) → RegionsFrom lo (mergeFrom this rs)
  | [], _, _, h => h
  | next :: rs, lo, this, h => by
      rw [mergeFrom]
      split
      · obtain ⟨h₁, h₂, h₃, h₄⟩ := RegionsFrom.cons_iff.mp h
        exact RegionsFrom.cons_iff.mpr ⟨h₁, h₂, h₃, regionsFrom_mergeFrom h₄⟩
      · rename_i hc
        push Not at hc
        exact regionsFrom_mergeFrom (h.grow hc.1)

theorem length_mergeFrom : ∀ (rs : List MemblockRegion) (this : MemblockRegion),
    1 ≤ (mergeFrom this rs).length ∧ (mergeFrom this rs).length ≤ rs.length + 1
  | [], _ => by simp [mergeFrom]
  | next :: rs, this => by
      rw [mergeFrom]
      split
      · have := length_mergeFrom rs next
        simp only [List.length_cons]
        omega
      · have := length_mergeFrom rs { this with size := (this.size + next.size) % 2 ^ 32 }
        simp only [List.length_cons]
        omega

/-- **The merging scan, from any point on**: what is left of the array is merged into `this`. -/
theorem mergeLoop_eq : ∀ {rs : List MemblockRegion} {lo : ℕ} {this : MemblockRegion}
    (pre : List MemblockRegion) (t : MemblockType) (fuel : ℕ),
    t.regions = pre ++ this :: rs → RegionsFrom lo (this :: rs) → rs.length < fuel →
    Exec.loop memblockMergeStep fuel (t, pre.length)
      = .ok { t with regions := pre ++ mergeFrom this rs }
  | [], _, this, pre, t, fuel + 1, ht, _, _ => by
      refine Exec.loop_done (b := { t with regions := pre ++ mergeFrom this [] }) ?_
      rw [memblockMergeStep, if_neg (by simp [MemblockType.nrRegions, ht]), mergeFrom, ← ht]
  | next :: rs, lo, this, pre, t, fuel + 1, ht, h, hfuel => by
      have hlt : pre.length + 1 < t.nrRegions := by simp [MemblockType.nrRegions, ht]
      obtain ⟨_, _, hw, hrest⟩ := RegionsFrom.cons_iff.mp h
      have hle : this.stop ≤ next.base := by
        rw [hw.stop_eq]
        exact (RegionsFrom.cons_iff.mp hrest).1
      by_cases hc : this.stop ≠ next.base ∨ this.nid ≠ next.nid ∨ this.flags ≠ next.flags
      · have hstep : memblockMergeStep (t, pre.length) = .ok (.inl (t, pre.length + 1)) := by
          simp only [memblockMergeStep, if_pos hlt, MemblockType.region_at ht,
            MemblockType.region_at_succ ht, if_pos hc]
          rw [if_neg (by omega)]
        rw [Exec.loop_next hstep, mergeFrom, if_pos hc]
        have := mergeLoop_eq (pre ++ [this]) t fuel (by simpa using ht)
          hrest (by simpa using hfuel)
        simpa using this
      · have hstep : memblockMergeStep (t, pre.length) = .ok (.inl ({ t with regions :=
            pre ++ { this with size := (this.size + next.size) % 2 ^ 32 } :: rs }, pre.length)) := by
          simp only [memblockMergeStep, if_pos hlt, MemblockType.region_at ht,
            MemblockType.region_at_succ ht, if_neg hc, ht]
          simp [List.eraseIdx_append]
        rw [Exec.loop_next hstep, mergeFrom, if_neg hc]
        push Not at hc
        exact mergeLoop_eq _ _ _ rfl (h.grow hc.1) (by simp only [List.length_cons] at hfuel; omega)

/-- **`memblock_merge_regions` merges the whole array** and meets no overlap on the way. -/
theorem memblockMergeRegions_eq {t : MemblockType} {this : MemblockRegion}
    {rs : List MemblockRegion} {lo : ℕ} (ht : t.regions = this :: rs)
    (h : RegionsFrom lo (this :: rs)) :
    memblockMergeRegions t = .ok { t with regions := mergeFrom this rs } := by
  have := mergeLoop_eq [] t (t.nrRegions + 1) ht h
    (by simp [MemblockType.nrRegions, ht])
  simpa [memblockMergeRegions] using this

/-! ## Adding -/

section Fill

variable (stop : ℕ) (nid : ℤ) (flags : ℕ)

/-- The piece `[base, upto)` that `memblock_add_range` inserts; nothing when it is empty. -/
def piece (base upto : ℕ) : List MemblockRegion :=
  if base < upto then [⟨base, upto - base, flags, nid⟩] else []

/-- The array after the inserting pass: every gap of the array inside `[base, stop)` is filled. -/
def fill : ℕ → List MemblockRegion → List MemblockRegion
  | base, [] => piece nid flags base stop
  | base, r :: rs =>
    if r.base ≥ stop then piece nid flags base stop ++ r :: rs
    else if r.stop ≤ base then r :: fill base rs
    else piece nid flags base r.base ++ r :: fill (min r.stop stop) rs

/-- The number of gaps the counting pass finds. -/
def missing : ℕ → List MemblockRegion → ℕ
  | base, [] => if base < stop then 1 else 0
  | base, r :: rs =>
    if r.base ≥ stop then if base < stop then 1 else 0
    else if r.stop ≤ base then missing base rs
    else (if base < r.base then 1 else 0) + missing (min r.stop stop) rs

theorem length_piece (base upto : ℕ) :
    (piece nid flags base upto).length = if base < upto then 1 else 0 := by
  rw [piece]
  split <;> rfl

theorem length_fill : ∀ (rs : List MemblockRegion) (base : ℕ),
    (fill stop nid flags base rs).length = rs.length + missing stop base rs
  | [], base => by simp [fill, missing, length_piece]
  | r :: rs, base => by
      rw [fill, missing]
      split
      · simp only [List.length_append, length_piece, List.length_cons]
        omega
      · split
        · simp only [List.length_cons, length_fill rs base]
          omega
        · simp only [List.length_append, length_piece, List.length_cons, length_fill rs]
          omega

variable {stop nid flags}

/-- A piece in front of an ordered list, when it ends before the list starts. -/
theorem RegionsFrom.piece_append {lo base upto : ℕ} {rs : List MemblockRegion} (hlo : lo ≤ base)
    (hupto : upto < 2 ^ 32) (h : RegionsFrom lo rs) (hrs : ∀ r ∈ rs, upto ≤ r.base) :
    RegionsFrom lo (piece nid flags base upto ++ rs) := by
  rw [piece]
  split
  · refine RegionsFrom.cons_iff.mpr ⟨hlo, by dsimp only; omega, ?_, ?_⟩
    · change base + (upto - base) < 2 ^ 32
      omega
    · refine ⟨h.asc.raise fun x hx => ?_, h.noWrap⟩
      have := hrs x hx
      dsimp only
      omega
  · simpa using h

/-- **Filling keeps the array in order.**  `base` is where the part of the range that is still to be
covered starts; once it has reached `stop` nothing more is inserted. -/
theorem regionsFrom_fill (hstop : stop < 2 ^ 32) : ∀ {rs : List MemblockRegion} {lo base : ℕ},
    RegionsFrom lo rs → lo ≤ base ∨ stop ≤ base → RegionsFrom lo (fill stop nid flags base rs)
  | [], lo, base, h, hlo => by
      rw [fill, piece]
      split
      · refine RegionsFrom.cons_iff.mpr ⟨by dsimp only; omega, by dsimp only; omega, ?_, .nil⟩
        change base + (stop - base) < 2 ^ 32
        omega
      · exact h
  | r :: rs, lo, base, h, hlo => by
      obtain ⟨h₁, h₂, h₃, h₄⟩ := RegionsFrom.cons_iff.mp h
      have hr : r.base + r.size < 2 ^ 32 := h₃
      rw [fill, h₃.stop_eq]
      split
      · rename_i hbr
        rcases hlo with hlo | hlo
        · refine h.piece_append hlo hstop fun x hx => ?_
          rcases List.mem_cons.mp hx with rfl | hx
          · exact hbr
          · have := h₄.base_ge hx
            omega
        · rw [piece, if_neg (by omega)]
          simpa using h
      · split
        · exact RegionsFrom.cons_iff.mpr ⟨h₁, h₂, h₃, regionsFrom_fill hstop h₄ (Or.inl ‹_›)⟩
        · have hrec : RegionsFrom (r.base + r.size) (fill stop nid flags
              (min (r.base + r.size) stop) rs) :=
            regionsFrom_fill hstop h₄ (by omega)
          have hcons : RegionsFrom lo (r :: fill stop nid flags (min (r.base + r.size) stop) rs) :=
            RegionsFrom.cons_iff.mpr ⟨h₁, h₂, h₃, hrec⟩
          by_cases hb : base < r.base
          · refine hcons.piece_append (by omega) (by omega) fun x hx => ?_
            rcases List.mem_cons.mp hx with rfl | hx
            · exact le_rfl
            · have := hrec.base_ge hx
              omega
          · rw [piece, if_neg hb]
            simpa using hcons

variable (stop nid flags)

/-- **The counting pass** finds `missing` gaps and changes nothing. -/
theorem countLoop_eq : ∀ {rs : List MemblockRegion} (pre : List MemblockRegion) (t : MemblockType)
    (base n fuel : ℕ), t.regions = pre ++ rs → rs.length < fuel →
    ∃ s, (Exec.loop (addScanStep false stop nid flags) fuel ⟨t, pre.length, base, n⟩ >>= fun s =>
        if s.base < stop then addPiece false nid flags s stop else pure s) = .ok s ∧
      s.type = t ∧ s.nrNew = n + missing stop base rs
  | [], pre, t, base, n, fuel + 1, ht, _ => by
      have hstep : addScanStep false stop nid flags ⟨t, pre.length, base, n⟩
          = .ok (.inr ⟨t, pre.length, base, n⟩) := by
        simp [addScanStep, MemblockType.nrRegions_eq ht]
      rw [Exec.loop_done hstep, Exec.ok_bind, missing]
      split <;> simp [addPiece]
  | r :: rs, pre, t, base, n, fuel + 1, ht, hfuel => by
      have hlt : pre.length < t.nrRegions := by simp [MemblockType.nrRegions_eq ht]
      have hrec := fun base' n' => countLoop_eq (pre ++ [r]) t base' n' fuel (by simpa using ht)
        (by simpa using hfuel)
      rw [missing]
      by_cases hb : r.base ≥ stop
      · have hstep : addScanStep false stop nid flags ⟨t, pre.length, base, n⟩
            = .ok (.inr ⟨t, pre.length, base, n⟩) := by
          simp only [addScanStep, if_pos hlt, MemblockType.region_at ht, if_pos hb]
        rw [Exec.loop_done hstep, Exec.ok_bind, if_pos hb]
        split <;> simp [addPiece]
      · rw [if_neg hb]
        by_cases hr : r.stop ≤ base
        · have hstep : addScanStep false stop nid flags ⟨t, pre.length, base, n⟩
              = .ok (.inl ⟨t, pre.length + 1, base, n⟩) := by
            simp only [addScanStep, if_pos hlt, MemblockType.region_at ht, if_neg hb, if_pos hr]
          rw [Exec.loop_next hstep, if_pos hr]
          simpa using hrec base n
        · have hstep : addScanStep false stop nid flags ⟨t, pre.length, base, n⟩
              = .ok (.inl ⟨t, pre.length + 1, min r.stop stop,
                n + if base < r.base then 1 else 0⟩) := by
            simp only [addScanStep, if_pos hlt, MemblockType.region_at ht, if_neg hb, if_neg hr]
            split <;> simp_all [addPiece]
          rw [Exec.loop_next hstep, if_neg hr, ← Nat.add_assoc]
          simpa using hrec (min r.stop stop) (n + if base < r.base then 1 else 0)

theorem addPass_false (t : MemblockType) (base : ℕ) :
    ∃ s, addPass false stop nid flags t base = .ok s ∧ s.type = t ∧
      s.nrNew = missing stop base t.regions := by
  simpa [addPass] using countLoop_eq stop nid flags [] t base 0 (t.nrRegions + 1) rfl
    (by simp [MemblockType.nrRegions])

/-- `addPiece` of the inserting pass, at the point of the walk. -/
theorem addPiece_true_at {t : MemblockType} {pre rs : List MemblockRegion} {base upto : ℕ} (n : ℕ)
    (ht : t.regions = pre ++ rs) (hmax : t.nrRegions < t.max) (hb : base < upto) :
    ∃ t', addPiece true nid flags ⟨t, pre.length, base, n⟩ upto
        = .ok ⟨t', pre.length + 1, base, n + 1⟩ ∧
      t'.regions = pre ++ piece nid flags base upto ++ rs ∧ t'.max = t.max := by
  refine ⟨{ t with
    regions := pre ++ ⟨base, upto - base, flags, nid⟩ :: rs
    totalSize := (t.totalSize + (upto - base)) % 2 ^ 32 }, ?_, ?_, rfl⟩
  · simp only [addPiece, if_true, memblockInsertRegion_at ht hmax, Exec.ok_bind, Exec.pure_eq_ok]
  · simp [piece, if_pos hb]

/-- **The inserting pass** leaves the filled array: it finds the gaps the counting pass found, so
the room checked after the counting pass is enough for every insertion. -/
theorem fillLoop_eq : ∀ {rs : List MemblockRegion} (pre : List MemblockRegion) (t : MemblockType)
    (base n fuel : ℕ), t.regions = pre ++ rs → rs.length < fuel →
    t.nrRegions + missing stop base rs ≤ t.max →
    ∃ s, (Exec.loop (addScanStep true stop nid flags) fuel ⟨t, pre.length, base, n⟩ >>= fun s =>
        if s.base < stop then addPiece true nid flags s stop else pure s) = .ok s ∧
      s.type.regions = pre ++ fill stop nid flags base rs ∧ s.type.max = t.max
  | [], pre, t, base, n, fuel + 1, ht, _, hmax => by
      have hstep : addScanStep true stop nid flags ⟨t, pre.length, base, n⟩
          = .ok (.inr ⟨t, pre.length, base, n⟩) := by
        simp [addScanStep, MemblockType.nrRegions_eq ht]
      rw [Exec.loop_done hstep, Exec.ok_bind, fill]
      rw [missing] at hmax
      by_cases hb : base < stop
      · rw [if_pos hb] at hmax ⊢
        obtain ⟨t', h, hreg, hm⟩ := addPiece_true_at nid flags n ht
          (by omega) hb
        exact ⟨_, h, by simpa using hreg, hm⟩
      · rw [if_neg hb]
        exact ⟨_, rfl, by simp [piece, if_neg hb, ht], rfl⟩
  | r :: rs, pre, t, base, n, fuel + 1, ht, hfuel, hmax => by
      have hlt : pre.length < t.nrRegions := by simp [MemblockType.nrRegions_eq ht]
      rw [missing] at hmax
      rw [fill]
      by_cases hb : r.base ≥ stop
      · have hstep : addScanStep true stop nid flags ⟨t, pre.length, base, n⟩
            = .ok (.inr ⟨t, pre.length, base, n⟩) := by
          simp only [addScanStep, if_pos hlt, MemblockType.region_at ht, if_pos hb]
        rw [if_pos hb] at hmax ⊢
        rw [Exec.loop_done hstep, Exec.ok_bind]
        by_cases hbs : base < stop
        · rw [if_pos hbs] at hmax ⊢
          obtain ⟨t', h, hreg, hm⟩ := addPiece_true_at nid flags n ht
            (by omega) hbs
          exact ⟨_, h, by simpa using hreg, hm⟩
        · rw [if_neg hbs]
          exact ⟨_, rfl, by simp [piece, if_neg hbs, ht], rfl⟩
      · rw [if_neg hb] at hmax ⊢
        by_cases hr : r.stop ≤ base
        · have hstep : addScanStep true stop nid flags ⟨t, pre.length, base, n⟩
              = .ok (.inl ⟨t, pre.length + 1, base, n⟩) := by
            simp only [addScanStep, if_pos hlt, MemblockType.region_at ht, if_neg hb, if_pos hr]
          rw [if_pos hr] at hmax ⊢
          rw [Exec.loop_next hstep]
          simpa using fillLoop_eq (pre ++ [r]) t base n fuel (by simpa using ht)
            (by simpa using hfuel) hmax
        · rw [if_neg hr] at hmax ⊢
          by_cases hbr : base < r.base
          · rw [if_pos hbr] at hmax
            obtain ⟨t', h, hreg, hm⟩ := addPiece_true_at nid flags n ht
              (by omega) hbr
            have hstep : addScanStep true stop nid flags ⟨t, pre.length, base, n⟩
                = .ok (.inl ⟨t', pre.length + 2, min r.stop stop, n + 1⟩) := by
              simp only [addScanStep, if_pos hlt, MemblockType.region_at ht, if_neg hb, if_neg hr,
                if_pos hbr, h, Exec.ok_bind, Exec.pure_eq_ok]
            have hlen : t'.nrRegions = t.nrRegions + 1 := by
              simp [MemblockType.nrRegions, hreg, ht, length_piece, if_pos hbr]
              omega
            rw [Exec.loop_next hstep]
            have := fillLoop_eq (pre ++ piece nid flags base r.base ++ [r]) t' (min r.stop stop)
              (n + 1) fuel (by simpa using hreg) (by simpa using hfuel) (by omega)
            simpa [length_piece, if_pos hbr, hm] using this
          · have hstep : addScanStep true stop nid flags ⟨t, pre.length, base, n⟩
                = .ok (.inl ⟨t, pre.length + 1, min r.stop stop, n⟩) := by
              simp only [addScanStep, if_pos hlt, MemblockType.region_at ht, if_neg hb, if_neg hr]
              rw [if_neg (by omega)]
              rfl
            rw [Exec.loop_next hstep]
            have := fillLoop_eq (pre ++ [r]) t (min r.stop stop) n fuel (by simpa using ht)
              (by simpa using hfuel) (by omega)
            simpa [piece, if_neg hbr] using this

theorem addPass_true {t : MemblockType} {base : ℕ}
    (hmax : t.nrRegions + missing stop base t.regions ≤ t.max) :
    ∃ s, addPass true stop nid flags t base = .ok s ∧
      s.type.regions = fill stop nid flags base t.regions ∧ s.type.max = t.max := by
  simpa [addPass] using fillLoop_eq stop nid flags [] t base 0 (t.nrRegions + 1) rfl
    (by simp [MemblockType.nrRegions]) hmax

end Fill

end Sandix
