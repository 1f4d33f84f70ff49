import Sandix.E820.Overlay
import Sandix.Memblock.Trim

/-!
# E820/Fill — the firmware map reaches the allocator

`memblock_x86_fill` walks the sanitized map, hands every RAM entry that ends below 4 GiB to
`memblock_add`, and trims the result to whole pages.  An entry that ends at or above 4 GiB is filtered
out as a whole.

`UsableRam` is the union of the entries that pass the filter.  Each entry grows `memblock.memory` by
its own range (`FillInv.add`) and the regions never touch, so that trimming leaves exactly the whole
pages of `UsableRam` (`memblockX86Fill_covers`).
-/

namespace Sandix

open Machinery

/-- `E820_RAM`. -/
abbrev e820Ram : ℕ := 1

/-- The body of the loop of `memblock_x86_fill`: `end != (resource_size_t)end` filters what 32 bits
cannot address, and the arguments of `memblock_add` are converted to `phys_addr_t`. -/
def x86FillStep (m : Memblock) (ei : E820Entry) : Exec Memblock :=
  if ei.stop ≠ ei.stop % 2 ^ 32 then .ok m
  else if ei.type ≠ e820Ram then .ok m
  else do
    let (_, m) ← memblockAdd m (ei.addr % 2 ^ 32) (ei.size % 2 ^ 32)
    pure m

/-- `memblock_x86_fill`, on the map `e820`. -/
def memblockX86Fill (map : ℕ → E820Entry) (nrEntries : ℕ) (m : Memblock) : Exec Memblock := do
  let m ← ((List.range nrEntries).map map).foldlM x86FillStep m
  memblockTrimMemory m pageSize

/-! ## What it is for -/

/-- A map as `sanitize_e820_map` leaves it: in order, without overlaps, no entry wrapping around. -/
structure Sanitized (es : List E820Entry) : Prop where
  sorted : es.Pairwise fun x y => x.limit ≤ y.addr
  noWrap : ∀ x ∈ es, x.limit < 2 ^ 64
  length_le : (es.length : ℤ) ≤ e820Max

/-- The entry is RAM that 32 bits can address. -/
def E820Entry.Usable (x : E820Entry) : Prop := x.type = e820Ram ∧ x.limit < 2 ^ 32

/-- The address `a` lies in usable RAM. -/
def UsableRam (es : List E820Entry) (a : ℕ) : Prop := ∃ x ∈ es, x.Usable ∧ x.Has a

theorem usableRam_concat {es : List E820Entry} {x : E820Entry} {a : ℕ} :
    UsableRam (es ++ [x]) a ↔ UsableRam es a ∨ x.Usable ∧ x.Has a := by
  simp only [UsableRam, List.mem_append, List.mem_singleton, or_and_right, exists_or, exists_eq_left]

/-! ## One entry -/

/-- `memblock.memory` after the entries `es`: it covers their usable RAM, in regions of one kind that
do not touch, and it has at most one region an entry. -/
structure FillInv (es : List E820Entry) (t : MemblockType) : Prop where
  wellFormed : WellFormed t
  max_eq : t.max = initMemblockRegions
  content : ∀ a k f, RegionAt t.regions a k f ↔ UsableRam es a ∧ k = maxNrNodes ∧ f = 0
  separated : t.regions.Pairwise fun r r' => r.base + r.size < r'.base
  count : t.nrRegions ≤ max 1 es.length

/-- Merging regions of one node and one set of flags leaves none that touch. -/
theorem separated_mergeFrom {k : ℤ} {f : ℕ} : ∀ {rs : List MemblockRegion} {lo : ℕ}
    {this : MemblockRegion}, RegionsFrom lo (this :: rs) →
    (∀ r ∈ this :: rs, r.nid = k ∧ r.flags = f) →
    (mergeFrom this rs).Pairwise fun r r' => r.base + r.size < r'.base
  | [], _, this, _, _ => List.pairwise_singleton _ this
  | next :: rs, lo, this, h, hkind => by
      obtain ⟨hk, hf⟩ := hkind this (by simp)
      obtain ⟨hk', hf'⟩ := hkind next (by simp)
      obtain ⟨-, -, hw, hrest⟩ := RegionsFrom.cons_iff.mp h
      rw [mergeFrom]
      split_ifs with hcut
      · have hne : this.stop ≠ next.base := by
          rcases hcut with hne | hne | hne
          · exact hne
          · exact absurd (hk.trans hk'.symm) hne
          · exact absurd (hf.trans hf'.symm) hne
        rw [hw.stop_eq] at hne
        refine List.pairwise_cons.mpr ⟨fun r hr => ?_, separated_mergeFrom hrest fun r hr =>
          hkind r (List.mem_cons_of_mem _ hr)⟩
        have h₁ := (regionsFrom_mergeFrom hrest.from_head).base_ge hr
        have h₂ := hrest.base_ge (List.mem_cons_self)
        omega
      · have htouch : this.stop = next.base := not_not.mp (not_or.mp hcut).1
        refine separated_mergeFrom (k := k) (f := f) (h.grow htouch) fun r hr => ?_
        rcases List.mem_cons.mp hr with rfl | hr
        · exact ⟨hk, hf⟩
        · exact hkind r (by simp [hr])

/-- A range above every region has at most one gap. -/
theorem missing_le_one {stop base : ℕ} : ∀ {rs : List MemblockRegion}, (∀ r ∈ rs, r.stop ≤ base) →
    missing stop base rs ≤ 1
  | [], _ => by
      rw [missing]
      split <;> omega
  | r :: rs, h => by
      rw [missing, if_pos (h r (by simp))]
      split_ifs
      · exact le_rfl
      · exact Nat.zero_le _
      · exact missing_le_one fun r hr => h r (List.mem_cons_of_mem _ hr)

namespace FillInv

variable {es : List E820Entry} {x : E820Entry} {t : MemblockType}

theorem covers_iff (h : FillInv es t) {a : ℕ} : t.Covers a ↔ UsableRam es a := by
  rw [MemblockType.Covers, regionCovers_iff]
  simp [h.content]

/-- An entry that is filtered out changes nothing. -/
theorem skip (h : FillInv es t) (hx : ¬x.Usable) : FillInv (es ++ [x]) t where
  wellFormed := h.wellFormed
  max_eq := h.max_eq
  content a k f := by
    rw [h.content, usableRam_concat, or_iff_left fun hu => hx hu.1]
  separated := h.separated
  count := h.count.trans (by simp)

/-- Every region ends where the next entry may begin. -/
theorem stop_le (h : FillInv es t) (habove : ∀ y ∈ es, y.limit ≤ x.addr) {r : MemblockRegion}
    (hr : r ∈ t.regions) (hpos : 0 < r.size) : r.base + r.size ≤ x.addr := by
  have hlast : RegionAt t.regions (r.base + r.size - 1) r.nid r.flags :=
    ⟨r, hr, ⟨by omega, by omega⟩, rfl, rfl⟩
  obtain ⟨⟨y, hy, -, hhas⟩, -⟩ := (h.content _ _ _).mp hlast
  have hlimit : y.addr + y.size ≤ x.addr := habove y hy
  have := hhas.2
  omega

/-- A region that is not the dummy stems from an entry. -/
theorem one_le (h : FillInv es t) (hreg : RegionsFrom 0 t.regions) : 1 ≤ es.length := by
  obtain ⟨r, rs, hrs⟩ := List.exists_cons_of_length_pos h.wellFormed.one_le
  have hr : r ∈ t.regions := by simp [hrs]
  have hpos := hreg.size_pos hr
  obtain ⟨⟨y, hy, -⟩, -⟩ := (h.content r.base r.nid r.flags).mp
    ⟨r, hr, ⟨le_rfl, by omega⟩, rfl, rfl⟩
  exact List.length_pos_of_mem hy

/-- The next entry adds at most one region, for which there is room. -/
theorem room (h : FillInv es t) (habove : ∀ y ∈ es, y.limit ≤ x.addr) (hreg : RegionsFrom 0 t.regions)
    (stop : ℕ) : missing stop x.addr t.regions ≤ 1 := by
  refine missing_le_one fun r hr => ?_
  have hw : r.NoWrap := hreg.noWrap r hr
  rw [hw.stop_eq]
  exact h.stop_le habove hr (hreg.size_pos hr)

/-- The regions after one usable entry: they do not touch, and there is at most one more. -/
theorem shape (h : FillInv es t) (habove : ∀ y ∈ es, y.limit ≤ x.addr) {ret : ℤ} {t' : MemblockType}
    (hadd : memblockAddRange t x.addr x.size maxNrNodes 0 = .ok (ret, t')) :
    (t'.regions.Pairwise fun r r' => r.base + r.size < r'.base) ∧
      t'.nrRegions ≤ es.length + 1 := by
  have hcount := h.count
  rcases memblockAddRange_cases x.addr x.size maxNrNodes 0 h.wellFormed with
    ⟨-, heq⟩ | ⟨hsize, ⟨r, -, -, heq⟩ | ⟨hreg, ⟨-, heq⟩ | ⟨-, this, rs, t'', hfill, heq, -, hmerge⟩⟩⟩
  · cases hadd.symm.trans heq
    exact ⟨h.separated, by omega⟩
  · cases hadd.symm.trans heq
    exact ⟨List.pairwise_singleton _ _, Nat.le_add_left 1 _⟩
  · cases hadd.symm.trans heq
    exact ⟨h.separated, by omega⟩
  · cases hadd.symm.trans heq
    obtain ⟨-, hlt, -⟩ := stop_of_cap hsize
    have hord : RegionsFrom 0 (this :: rs) :=
      hfill ▸ regionsFrom_fill hlt hreg (Or.inl (Nat.zero_le _))
    constructor
    · rw [hmerge]
      refine separated_mergeFrom (k := maxNrNodes) (f := 0) hord fun r hr => ?_
      have hpos := hord.size_pos hr
      have hat : RegionAt (this :: rs) r.base r.nid r.flags :=
        ⟨r, hr, ⟨le_rfl, by omega⟩, rfl, rfl⟩
      rw [← hfill, regionAt_fill hreg, h.content] at hat
      rcases hat with ⟨-, hk, hf⟩ | ⟨-, hk, hf⟩
      · exact ⟨hk, hf⟩
      · exact ⟨hk.symm, hf.symm⟩
    · have hlen := (length_mergeFrom rs this).2
      have hfl := length_fill (x.addr + memblockCapSize x.addr x.size) maxNrNodes 0 t.regions x.addr
      have hroom := h.room habove hreg (x.addr + memblockCapSize x.addr x.size)
      rw [hfill, List.length_cons] at hfl
      have hsome : 1 ≤ es.length := h.one_le hreg
      rw [MemblockType.nrRegions] at hcount ⊢
      rw [hmerge]
      omega

/-- **One usable entry**, above all those before it. -/
theorem add (h : FillInv es t) (hx : x.Usable) (hlen : es.length < initMemblockRegions)
    (habove : ∀ y ∈ es, y.limit ≤ x.addr) :
    ∃ ret t', memblockAddRange t x.addr x.size maxNrNodes 0 = .ok (ret, t') ∧
      FillInv (es ++ [x]) t' := by
  have hcap : memblockCapSize x.addr x.size = x.size := by
    have : x.addr + x.size < 2 ^ 32 := hx.2
    rw [memblockCapSize, physMax]
    omega
  obtain ⟨ret, t', hadd, hcontent⟩ := memblockAddRange_content h.wellFormed x.addr x.size maxNrNodes 0
  obtain ⟨ret', t'', hadd', hwf, hmax⟩ :=
    memblockAddRange_wellFormed h.wellFormed maxNrNodes 0
  cases hadd'.symm.trans hadd
  obtain ⟨hsep, hcount⟩ := h.shape habove hadd
  have hle := h.count
  refine ⟨ret, t', hadd, hwf, hmax.trans h.max_eq, ?_, hsep, ?_⟩
  · rcases hcontent with ⟨-, hcontent⟩ | ⟨-, -, hreg, hfull⟩
    · intro a k f
      rw [hcontent, h.content, h.covers_iff, hcap, usableRam_concat]
      constructor
      · rintro (⟨hu, hk, hf⟩ | ⟨⟨hhas, -⟩, rfl, rfl⟩)
        · exact ⟨Or.inl hu, hk, hf⟩
        · exact ⟨Or.inr ⟨hx, hhas⟩, rfl, rfl⟩
      · rintro ⟨hu | ⟨-, hhas⟩, rfl, rfl⟩
        · exact Or.inl ⟨hu, rfl, rfl⟩
        · by_cases hu : UsableRam es a
          · exact Or.inl ⟨hu, rfl, rfl⟩
          · exact Or.inr ⟨⟨hhas, hu⟩, rfl, rfl⟩
    · have hroom := h.room habove hreg (x.addr + memblockCapSize x.addr x.size)
      rw [h.max_eq] at hfull
      rw [initMemblockRegions] at hfull hlen
      omega
  · rw [List.length_append, List.length_singleton]
    omega

/-- **One round of the loop.** -/
theorem step {m : Memblock} (h : FillInv es m.memory) (hlen : es.length < initMemblockRegions)
    (habove : ∀ y ∈ es, y.limit ≤ x.addr) (hw : x.limit < 2 ^ 64) :
    ∃ t, x86FillStep m x = .ok { m with memory := t } ∧ FillInv (es ++ [x]) t := by
  have hstop : x.stop = x.limit := Nat.mod_eq_of_lt hw
  rw [x86FillStep, hstop]
  by_cases hlim : x.limit < 2 ^ 32
  · rw [if_neg (not_not.mpr (Nat.mod_eq_of_lt hlim).symm)]
    by_cases htype : x.type = e820Ram
    · have hsum : x.addr + x.size < 2 ^ 32 := hlim
      have haddr : x.addr % 2 ^ 32 = x.addr := Nat.mod_eq_of_lt (by omega)
      have hsize : x.size % 2 ^ 32 = x.size := Nat.mod_eq_of_lt (by omega)
      obtain ⟨ret, t', hadd, hinv⟩ := h.add ⟨htype, hlim⟩ hlen habove
      refine ⟨t', ?_, hinv⟩
      rw [if_neg (not_not.mpr htype), haddr, hsize, memblockAdd, Memblock.onMemory, hadd]
      rfl
    · exact ⟨m.memory, if_pos htype, h.skip fun hu => htype hu.1⟩
  · have hne : x.limit ≠ x.limit % 2 ^ 32 := by omega
    exact ⟨m.memory, if_pos hne, h.skip fun hu => hlim hu.2⟩

/-- **The loop**, from the entries `es` on. -/
theorem run : ∀ (rest : List E820Entry) {es : List E820Entry} {m : Memblock},
    FillInv es m.memory → Sanitized (es ++ rest) →
    ∃ t, rest.foldlM x86FillStep m = .ok { m with memory := t } ∧ FillInv (es ++ rest) t
  | [], es, m, h, _ => ⟨m.memory, rfl, by simpa using h⟩
  | x :: rest, es, m, h, hs => by
      have hlen := hs.length_le
      rw [List.length_append, List.length_cons, e820Max] at hlen
      have hpair := List.pairwise_append.mp hs.sorted
      obtain ⟨t, hstep, hinv⟩ := h.step (x := x) (by rw [initMemblockRegions]; omega)
        (fun y hy => hpair.2.2 y hy x (by simp)) (hs.noWrap x (by simp))
      obtain ⟨t', hrun, hinv'⟩ := run rest (m := { m with memory := t }) hinv (by simpa using hs)
      refine ⟨t', ?_, by simpa using hinv'⟩
      rw [List.foldlM_cons, hstep, Exec.ok_bind, hrun]

/-- An empty `memblock.memory`, before the first entry. -/
theorem init {m : Memblock} (hm : MemblockOk m) (hempty : ∀ a, ¬m.memory.Covers a) :
    FillInv [] m.memory := by
  have hnone : ∀ a k f, ¬RegionAt m.memory.regions a k f := fun a k f hat => hempty a hat.covers
  obtain ⟨r, hr⟩ : ∃ r, m.memory.regions = [r] := by
    rcases hm.memory.nonempty with hpos | ⟨r, hr, -⟩
    · obtain ⟨r, rs, hrs⟩ := List.exists_cons_of_length_pos hm.memory.one_le
      have hmem : r ∈ m.memory.regions := by simp [hrs]
      have := hpos r hmem
      exact absurd ⟨r, hmem, ⟨le_rfl, by omega⟩, rfl, rfl⟩ (hnone r.base r.nid r.flags)
    · exact ⟨r, hr⟩
  refine ⟨hm.memory, hm.memory_max, fun a k f => iff_of_false (hnone a k f) ?_, ?_, ?_⟩
  · rintro ⟨⟨y, hy, -⟩, -⟩
    exact absurd hy List.not_mem_nil
  · rw [hr]
    exact List.pairwise_singleton _ r
  · rw [MemblockType.nrRegions, hr]
    exact le_rfl

/-- No region begins inside the last page when no run of usable RAM does. -/
theorem base_le (h : FillInv es t)
    (hlast : ∀ a, 0xfffff000 ≤ a → UsableRam es (a + 1) → UsableRam es a) {r : MemblockRegion}
    (hr : r ∈ t.regions) : r.base ≤ 0xfffff000 := by
  by_contra hlt
  rcases h.wellFormed.nonempty with hpos | ⟨r', hr', hb, -⟩
  · have hsize := hpos r hr
    have hbase : t.Covers (r.base - 1 + 1) := ⟨r, hr, by omega, by dsimp only; omega⟩
    obtain ⟨r', hr', hlo, hhi⟩ := h.covers_iff.mpr (hlast _ (by omega) (h.covers_iff.mp hbase))
    dsimp only at hhi
    have hne : r ≠ r' := by
      rintro rfl
      omega
    have : Std.Symm fun x y : MemblockRegion => x.base + x.size < y.base ∨ y.base + y.size < x.base :=
      ⟨fun _ _ => Or.symm⟩
    rcases (h.separated.imp (S := fun x y => x.base + x.size < y.base ∨ y.base + y.size < x.base)
      Or.inl).forall hr hr' hne with h' | h'
    · omega
    · omega
  · rw [hr', List.mem_singleton] at hr
    subst hr
    omega

end FillInv

/-- **Usable RAM reaches the allocator.**  From a sanitized map, and with no run of usable RAM that
begins inside the last page, `memblock.memory` covers exactly the whole pages of usable RAM. -/
theorem memblockX86Fill_covers {map : ℕ → E820Entry} {nrEntries : ℕ} {m : Memblock}
    (hs : Sanitized ((List.range nrEntries).map map)) (hm : MemblockOk m)
    (hempty : ∀ a, ¬m.memory.Covers a)
    (hlast : ∀ a, 0xfffff000 ≤ a → UsableRam ((List.range nrEntries).map map) (a + 1) →
      UsableRam ((List.range nrEntries).map map) a) :
    ∃ t, memblockX86Fill map nrEntries m = .ok { m with memory := t } ∧
      ∀ a, t.Covers a ↔ a < 0xfffff000 ∧
        ∀ b, b / pageSize = a / pageSize → UsableRam ((List.range nrEntries).map map) b := by
  obtain ⟨t, hrun, hinv⟩ := FillInv.run _ (FillInv.init hm hempty) hs
  rw [List.nil_append] at hinv
  obtain ⟨t', htrim, hcovers⟩ := memblockTrimMemory_covers (m := { m with memory := t })
    hinv.wellFormed hinv.separated fun r hr => hinv.base_le hlast hr
  refine ⟨t', ?_, fun a => ?_⟩
  · rw [memblockX86Fill, hrun, Exec.ok_bind, htrim]
  · rw [hcovers, forall₂_congr fun b _ => hinv.covers_iff, iff_and_self]
    intro hpage
    -- the last address of the page is below the end of an entry, hence below the last byte
    obtain ⟨x, -, ⟨-, hlim⟩, hhas⟩ := hpage (a / pageSize * pageSize + 4095) (by rw [pageSize]; omega)
    have h₁ : x.addr + x.size < 2 ^ 32 := hlim
    have h₂ := hhas.2
    rw [pageSize] at h₂
    omega

/-- RAM, a reserved hole and more RAM in two entries that touch in the middle of a page. -/
def sampleRam (i : ℕ) : E820Entry :=
  [⟨0, 0x9fc00, 1⟩, ⟨0x9fc00, 0x60400, 2⟩, ⟨0x100000, 0x800, 1⟩, ⟨0x100800, 0x2900, 1⟩].getD i ⟨0, 0, 0⟩

theorem memblockX86Fill_covers_sample :
    ∃ t, memblockX86Fill sampleRam 4 initMemblock = .ok { initMemblock with memory := t } ∧
      ∀ a, t.Covers a ↔ a < 0xfffff000 ∧
        ∀ b, b / pageSize = a / pageSize → UsableRam ((List.range 4).map sampleRam) b := by
  refine memblockX86Fill_covers ⟨by decide, by decide, by decide⟩ memblockOk_init ?_ ?_
  · rintro a ⟨r, hr, ha⟩
    rw [List.mem_singleton.mp hr] at ha
    exact absurd ha.2 (Nat.not_lt_zero a)
  · rintro a ha ⟨x, hx, -, hhas⟩
    have hlow : ∀ x ∈ (List.range 4).map sampleRam, x.limit ≤ 0x200000 := by decide
    have h₁ : x.addr + x.size ≤ 0x200000 := hlow x hx
    have h₂ := hhas.2
    omega

/-- RAM that crosses the 4 GiB line is filtered out as a whole. -/
theorem memblockX86Fill_straddling : ¬∀ (map : ℕ → E820Entry) (nrEntries : ℕ) (m' : Memblock),
    Sanitized ((List.range nrEntries).map map) →
    memblockX86Fill map nrEntries initMemblock = .ok m' →
    ∀ a, m'.memory.Covers a ↔ a < 0xfffff000 ∧
      ∃ x ∈ (List.range nrEntries).map map, x.type = e820Ram ∧
        ∀ b, b / pageSize = a / pageSize → x.Has b := by
  intro h
  have hfill : memblockX86Fill (fun _ => ⟨0x100000, 0x13ff00000, 1⟩) 1 initMemblock
      = .ok initMemblock := rfl
  have hpage : ∀ b, b / pageSize = 0x100000 / pageSize →
      E820Entry.Has ⟨0x100000, 0x13ff00000, 1⟩ b := by
    intro b hb
    rw [pageSize] at hb
    exact ⟨by dsimp only; omega, by dsimp only; omega⟩
  obtain ⟨r, hr, ha⟩ := (h _ 1 _ ⟨by decide, by decide, by decide⟩ hfill 0x100000).mpr
    ⟨by decide, _, List.mem_singleton.mpr rfl, rfl, hpage⟩
  rw [List.mem_singleton.mp hr] at ha
  exact absurd ha.2 (Nat.not_lt_zero _)

end Sandix
