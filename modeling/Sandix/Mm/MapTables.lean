import Sandix.Mm.MapRanges

/-!
# Mm/MapTables — page tables come from mapped memory

While `memory_map_top_down` runs, `alloc_low_pages` takes pages of RAM between `min_pfn_mapped` and
`max_pfn_mapped`.  That these are mapped is nowhere checked; it follows from the order of the calls.
`MapView` is the part of the state the argument is about, and `ViewOk` what has to hold whenever a page
may be taken: all RAM between the watermarks is mapped.

`RangeInv` describes one call of `init_range_memory_mapping` when a part of the regions is done.  Inside
a step downwards the pieces lie below `min_pfn_mapped`, so that raising `max_pfn_mapped` to their ends
changes nothing; in the last call, upwards from `real_end`, everything below the end of the last piece
is mapped.  `memoryMapTopDown_taken` is the result over whole runs, also those that end in a `panic`.
-/

namespace Sandix

open Machinery Proc

/-- The address `a` lies in one of the ranges. -/
def MappedAt (mapped : List (ℕ × ℕ)) (a : ℕ) : Prop := ∃ r ∈ mapped, r.1 ≤ a ∧ a < r.2

/-- What is mapped, and the watermarks. -/
structure MapView where
  mapped : List (ℕ × ℕ)
  minPfn : ℕ
  maxPfn : ℕ

/-- The view of a state. -/
def MapState.view (s : MapState) : MapView := ⟨s.mapped, s.env.minPfnMapped, s.env.maxPfnMapped⟩

/-- Pages may be taken: all RAM between the watermarks is mapped. -/
structure ViewOk (ram : MemblockType) (v : MapView) : Prop where
  aligned : ∀ r ∈ v.mapped, pageSize ∣ r.1 ∧ pageSize ∣ r.2
  min_le : v.minPfn ≤ 0xfffff
  max_le : v.maxPfn ≤ 0xfffff
  safe : ∀ a, ram.Covers a → v.minPfn * pageSize ≤ a → a < v.maxPfn * pageSize →
    MappedAt v.mapped a

/-- **Every page taken so far is RAM inside a range that had been mapped before.** -/
def TakenOk (ram : MemblockType) (taken : List (ℕ × List (ℕ × ℕ))) : Prop :=
  ∀ x ∈ taken,
    (∃ rgn ∈ ram.regions, rgn.base ≤ x.1 ∧ x.1 + pageSize ≤ rgn.base + rgn.size) ∧
    ∃ r ∈ x.2, r.1 ≤ x.1 ∧ x.1 + pageSize ≤ r.2

/-- What every procedure keeps. -/
structure MapCore (ram : MemblockType) (s : MapState) : Prop where
  ok : MemblockOk s.memblock
  memory : s.memblock.memory = ram
  taken : TakenOk ram s.taken

/-! ## Taking a page -/

section Alloc

variable {ram : MemblockType} {v : MapView}

/-- `alloc_low_pages(1)` on its memblock path: it panics, or returns what it found. -/
theorem allocLowPages_memblock {env : BootEnv} {m : Memblock} (h : MemblockOk m)
    (hpath : env.usesMemblock 1 = true) :
    allocLowPages env m 1 = .error .panic ∨
    ∃ r m', allocLowPages env m 1 = .ok (physToVirt r, m', env.pgtBufEnd) ∧
      env.minPfnMapped < env.maxPfnMapped ∧
      Found m pageSize pageSize ((env.minPfnMapped <<< pageShift) % 2 ^ 32)
        ((env.maxPfnMapped <<< pageShift) % 2 ^ 32) r ∧
      MemblockOk m' ∧ m'.memory = m.memory := by
  have hsize : pageSize * 1 % 2 ^ 32 = pageSize := by decide
  simp only [allocLowPages, hpath, if_true, memblockFindInRange, hsize]
  by_cases hmin : env.minPfnMapped ≥ env.maxPfnMapped
  · exact Or.inl (if_pos hmin)
  · obtain ⟨r, hr, hfound⟩ := memblockFindInRangeNode_found h pageSize pageSize
      ((env.minPfnMapped <<< pageShift) % 2 ^ 32) ((env.maxPfnMapped <<< pageShift) % 2 ^ 32)
      numaNoNode 0
    rw [if_neg hmin, hr, Exec.ok_bind]
    by_cases hzero : r = 0
    · exact Or.inl (if_pos hzero)
    · have hfound := hfound.resolve_left hzero
      obtain ⟨ret, m', hres, hok, -⟩ := memblockReserve_spec h r pageSize
      refine Or.inr ⟨r, m', ?_, not_le.mp hmin, hfound, hok, memblockReserve_memory hres⟩
      obtain ⟨x, hx⟩ := hfound.aligned
      have hpfn : physToVirt (((r >>> pageShift) <<< pageShift) % 2 ^ 32) = physToVirt r := by
        rw [hx, roundDown_page, physToVirt, physToVirt]
        omega
      rw [if_neg hzero, hres, Exec.ok_bind]
      dsimp only
      rw [hpfn]
      rfl

theorem shiftLeft_page {pfn : ℕ} (h : pfn ≤ 0xfffff) :
    (pfn <<< pageShift) % 2 ^ 32 = pfn * pageSize := by
  rw [Nat.shiftLeft_eq, show 2 ^ pageShift = pageSize from rfl, pageSize]
  omega

/-- A page found between the watermarks of a good view is one that may be taken. -/
theorem Found.takenOk (hv : ViewOk ram v) {m : Memblock} (hm : m.memory = ram)
    (hw : WellFormed ram) (hlt : v.minPfn < v.maxPfn) {r : ℕ}
    (hfound : Found m pageSize pageSize ((v.minPfn <<< pageShift) % 2 ^ 32)
      ((v.maxPfn <<< pageShift) % 2 ^ 32) r) :
    r < 2 ^ 32 ∧ TakenOk ram [(r, v.mapped)] := by
  rw [shiftLeft_page hv.min_le, shiftLeft_page hv.max_le] at hfound
  obtain ⟨rgn, hrgn, hbase, hend⟩ := hfound.ram (by decide)
  rw [hm] at hrgn
  have hwrap : rgn.base + rgn.size < 2 ^ 32 := hw.noWrap rgn hrgn
  have hstart := hfound.start_le
  have hstop := hfound.le_stop (by rw [pageSize]; omega)
  have hcov : ram.Covers r := ⟨rgn, hrgn, hbase, by dsimp only; rw [pageSize] at hend; omega⟩
  obtain ⟨x, hx⟩ := hfound.aligned
  have hdvd : pageSize ∣ r := hx ▸ dvd_roundDown (k := 12) (by decide)
  have hmax : r < v.maxPfn * pageSize := by
    rw [pageSize] at hstart hstop ⊢
    omega
  obtain ⟨p, hp, hlo, hhi⟩ := hv.safe r hcov (by omega) hmax
  refine ⟨by rw [pageSize] at hend; omega, fun y hy => ?_⟩
  rw [List.mem_singleton.mp hy]
  refine ⟨⟨rgn, hrgn, hbase, hend⟩, p, hp, hlo, ?_⟩
  -- both the page and the end of the range are aligned
  obtain ⟨c, hc⟩ := hdvd
  obtain ⟨d, hd⟩ := (hv.aligned p hp).2
  dsimp only
  rw [pageSize] at *
  omega

theorem TakenOk.append {l l' : List (ℕ × List (ℕ × ℕ))} (h : TakenOk ram l) (h' : TakenOk ram l') :
    TakenOk ram (l ++ l') := by
  intro x hx
  rcases List.mem_append.mp hx with hx | hx
  · exact h x hx
  · exact h' x hx

/-- **`alloc_low_page`**: whatever it takes may be taken, and the view stays. -/
theorem allocLowPage_triple (hv : ViewOk ram v) :
    Triple (fun s => MapCore ram s ∧ s.view = v) allocLowPage
      (fun _ s => MapCore ram s ∧ s.view = v) fun s => TakenOk ram s.taken := by
  refine Triple.read fun s₀ hs₀ => ?_
  obtain ⟨hcore, rfl⟩ := hs₀
  by_cases hpath : s₀.env.usesMemblock 1 = true
  · rcases allocLowPages_memblock hcore.ok hpath with herr | ⟨r, m', halloc, hlt, hfound, hok, hmem⟩
    · rw [herr]
      rintro s rfl
      exact hcore.taken
    · rw [halloc, Proc.ofExec_ok_bind]
      rintro s rfl
      obtain ⟨hr, htaken⟩ := hfound.takenOk hv hcore.memory (hcore.memory ▸ hcore.ok.memory) hlt
      refine ⟨⟨hok, hmem.trans hcore.memory, ?_⟩, rfl⟩
      change TakenOk ram (if s.env.usesMemblock 1 then _ else _)
      rw [if_pos hpath, virtToPhys_physToVirt hr]
      exact hcore.taken.append htaken
  · have halloc : allocLowPages s₀.env s₀.memblock 1
        = .ok (physToVirt ((s₀.env.pgtBufEnd <<< pageShift) % 2 ^ 32), s₀.memblock,
          (s₀.env.pgtBufEnd + 1) % 2 ^ 32) := if_neg hpath
    rw [halloc, Proc.ofExec_ok_bind]
    rintro s rfl
    refine ⟨⟨hcore.ok, hcore.memory, ?_⟩, rfl⟩
    change TakenOk ram (if s.env.usesMemblock 1 then _ else _)
    rw [if_neg hpath]
    exact hcore.taken

end Alloc

/-! ## Mapping a piece -/

section Piece

variable {ram : MemblockType} {v : MapView} (newTables : MapState → ℕ → ℕ → ℕ)

theorem kernelPhysicalMappingInit_triple (hv : ViewOk ram v) (start stop : ℕ) :
    Triple (fun s => MapCore ram s ∧ s.view = v) (kernelPhysicalMappingInit newTables start stop)
      (fun ret s => ret = stop ∧ MapCore ram s ∧ s.view = v) fun s => TakenOk ram s.taken := by
  refine Triple.read fun s₀ hs₀ => ?_
  refine Triple.bind (Q := fun _ s => MapCore ram s ∧ s.view = v) ?_ fun _ =>
    Triple.pure _ fun s hs => ⟨rfl, hs⟩
  refine (Triple.foldlM (fun _ _ s => MapCore ram s ∧ s.view = v) fun _ _ _ _ _ => ?_).conseq
    (fun s hs => hs ▸ hs₀) fun _ _ hs => hs
  exact allocLowPage_triple hv

/-- The view after `init_memory_mapping(start, stop)`. -/
def MapView.add (v : MapView) (start stop : ℕ) : MapView :=
  if pfnDown start < pfnUp stop then
    { v with
      mapped := v.mapped ++ [(pfnPhys (pfnDown start), pfnPhys (pfnUp stop))]
      maxPfn := max v.maxPfn (pfnPhys (pfnUp stop) >>> pageShift) }
  else v

/-- **`init_memory_mapping`.** -/
theorem initMemoryMapping_triple (hv : ViewOk ram v) (start stop : ℕ) :
    Triple (fun s => MapCore ram s ∧ s.view = v) (initMemoryMapping newTables start stop)
      (fun _ s => MapCore ram s ∧ s.view = v.add start stop) fun s => TakenOk ram s.taken := by
  unfold initMemoryMapping splitMemRange saveMr MapView.add
  split_ifs with h₁ h₂
  · exact absurd h₂ (by decide)
  · rw [Proc.ofExec_ok_bind, List.nil_append, List.foldlM_cons]
    refine Triple.bind (Q := fun ret s => ret = pfnPhys (pfnUp stop) ∧ MapCore ram s ∧ s.view = v)
      (Triple.bind (kernelPhysicalMappingInit_triple newTables hv _ _) fun ret =>
        Triple.pure _ fun _ h => h) fun ret => ?_
    refine Triple.update (R := fun s => MapCore ram s ∧ s.view = _) (Triple.pure _ fun _ h => h) ?_
    rintro s ⟨rfl, hcore, rfl⟩
    exact ⟨⟨hcore.ok, hcore.memory, hcore.taken⟩, rfl⟩
  · rw [Proc.ofExec_ok_bind, List.foldlM_nil, pure_bind]
    refine Triple.update (R := fun s => MapCore ram s ∧ s.view = v) (Triple.pure _ fun _ h => h) ?_
    rintro s ⟨hcore, rfl⟩
    refine ⟨⟨hcore.ok, hcore.memory, hcore.taken⟩, ?_⟩
    change (⟨s.mapped ++ [], s.env.minPfnMapped, max s.env.maxPfnMapped 0⟩ : MapView) = _
    rw [List.append_nil, Nat.max_zero]
    rfl

/-- The view after one round of `init_range_memory_mapping`. -/
def MapView.piece (rStart rEnd : ℕ) (v : MapView) (x : PfnRange) : MapView :=
  let start := clamp (pfnPhys x.start) rStart rEnd
  let stop := clamp (pfnPhys x.stop) rStart rEnd
  if start ≥ stop then v else v.add start stop

theorem mapPiece_triple (hv : ViewOk ram v) (rStart rEnd size : ℕ) (x : PfnRange) :
    Triple (fun s => MapCore ram s ∧ s.view = v) (mapPiece newTables rStart rEnd size x)
      (fun _ s => MapCore ram s ∧ s.view = v.piece rStart rEnd x) fun s => TakenOk ram s.taken := by
  unfold mapPiece MapView.piece
  dsimp only
  generalize clamp (pfnPhys x.start) rStart rEnd = start
  generalize clamp (pfnPhys x.stop) rStart rEnd = stop
  by_cases hempty : start ≥ stop
  · rw [if_pos hempty, if_pos hempty]
    exact Triple.pure _ fun _ h => h
  · rw [if_neg hempty, if_neg hempty]
    -- `can_use_brk_pgt` is not part of the view
    refine Triple.update (R := fun s => MapCore ram s ∧ s.view = v) ?_ fun s hs =>
      ⟨⟨hs.1.ok, hs.1.memory, hs.1.taken⟩, hs.2⟩
    refine Triple.bind (initMemoryMapping_triple newTables hv _ _) fun _ => ?_
    refine Triple.update (R := fun s => MapCore ram s ∧ s.view = v.add start stop)
      (Triple.pure _ fun _ h => h) fun s hs => ⟨⟨hs.1.ok, hs.1.memory, hs.1.taken⟩, hs.2⟩

/-- The view after the pieces `done`. -/
def MapView.pieces (v : MapView) (rStart rEnd : ℕ) (done : List PfnRange) : MapView :=
  done.foldl (MapView.piece rStart rEnd) v

theorem MapView.pieces_append (v : MapView) (rStart rEnd : ℕ) (done : List PfnRange) (x : PfnRange) :
    v.pieces rStart rEnd (done ++ [x]) = (v.pieces rStart rEnd done).piece rStart rEnd x := by
  simp only [MapView.pieces, List.foldl_append, List.foldl_cons, List.foldl_nil]

/-- **`init_range_memory_mapping`**, when pages may be taken after every piece. -/
theorem initRangeMemoryMapping_triple (hlen : ram.nrRegions < 2 ^ 32) {rStart rEnd : ℕ}
    (hviews : ∀ done rest, ram.regions.filterMap (pfnRange maxNrNodes) = done ++ rest →
      ViewOk ram (v.pieces rStart rEnd done)) :
    Triple (fun s => MapCore ram s ∧ s.view = v) (initRangeMemoryMapping newTables rStart rEnd)
      (fun _ s => MapCore ram s ∧
        s.view = v.pieces rStart rEnd (ram.regions.filterMap (pfnRange maxNrNodes)))
      fun s => TakenOk ram s.taken := by
  refine Triple.read fun s₀ hs₀ => ?_
  rw [hs₀.1.memory, forEachMemPfnRange_eq hlen, Proc.ofExec_ok_bind]
  refine (Triple.foldlM (fun done _ s => MapCore ram s ∧ s.view = v.pieces rStart rEnd done)
    fun done x rest hsplit size => ?_).conseq (fun s hs => hs ▸ hs₀) fun _ _ hs => hs
  rw [MapView.pieces_append]
  exact mapPiece_triple newTables (hviews done _ hsplit) rStart rEnd size x

end Piece

/-! ## Page-aligned memory -/

/-- Every region starts and ends at a page. -/
def PageAligned (ram : MemblockType) : Prop := ∀ r ∈ ram.regions, pageSize ∣ r.base ∧ pageSize ∣ r.size

/-- The page frames of `ram`: below the last page, in order, and all of it. -/
structure Frames (ram : MemblockType) (xs : List PfnRange) : Prop where
  bounds : ∀ x ∈ xs, x.start < x.stop ∧ x.stop ≤ 0xfffff
  sorted : xs.Pairwise fun x y => x.stop ≤ y.start
  covers : ∀ a, ram.Covers a → ∃ x ∈ xs, x.start * pageSize ≤ a ∧ a < x.stop * pageSize

section Aligned

variable {ram : MemblockType}

/-- The range of a page-aligned region is the region. -/
theorem pfnRange_of_aligned {r : MemblockRegion} (hr : r.NoWrap) (hb : pageSize ∣ r.base)
    (hs : pageSize ∣ r.size) :
    pfnUp r.base * pageSize = r.base ∧ pfnDown r.stop * pageSize = r.base + r.size := by
  have hwrap : r.base + r.size < 2 ^ 32 := hr
  obtain ⟨b, hb⟩ := hb
  obtain ⟨n, hn⟩ := hs
  rw [MemblockRegion.pfnDown_stop hr, pfnUp, Nat.shiftRight_eq_div_pow, pageShift]
  rw [pageSize] at *
  omega

theorem mem_frames {x : PfnRange} (hw : WellFormed ram) (halign : PageAligned ram)
    (hx : x ∈ ram.regions.filterMap (pfnRange maxNrNodes)) :
    x.start < x.stop ∧
      ∃ r ∈ ram.regions, x.start * pageSize = r.base ∧ x.stop * pageSize = r.base + r.size := by
  obtain ⟨r, hr, hx⟩ := List.mem_filterMap.mp hx
  obtain ⟨hb, hs⟩ := halign r hr
  rw [pfnRange] at hx
  split_ifs at hx with hlt
  cases hx
  exact ⟨hlt.1, r, hr, pfnRange_of_aligned (hw.noWrap r hr) hb hs⟩

theorem frames_of_aligned (hw : WellFormed ram) (halign : PageAligned ram) :
    Frames ram (ram.regions.filterMap (pfnRange maxNrNodes)) where
  bounds x hx := by
    obtain ⟨hlt, r, hr, -, hstop⟩ := mem_frames hw halign hx
    have := hw.noWrap r hr
    rw [pageSize] at hstop
    omega
  sorted := by
    refine List.Pairwise.filterMap _ ?_ (hw.sorted.imp_of_mem (S := fun r r' =>
      r ∈ ram.regions ∧ r' ∈ ram.regions ∧ r.base + r.size ≤ r'.base) fun hr hr' h => ⟨hr, hr', h.2⟩)
    rintro r r' ⟨hr, hr', hle⟩ x hx y hy
    rw [pfnRange] at hx hy
    split_ifs at hx hy
    cases hx
    cases hy
    have h := pfnRange_of_aligned (hw.noWrap r hr) (halign r hr).1 (halign r hr).2
    have h' := pfnRange_of_aligned (hw.noWrap r' hr') (halign r' hr').1 (halign r' hr').2
    dsimp only
    rw [pageSize] at *
    omega
  covers a ha := by
    obtain ⟨r, hr, hlo, hhi⟩ := ha
    dsimp only at hlo hhi
    obtain ⟨hstart, hstop⟩ := pfnRange_of_aligned (hw.noWrap r hr) (halign r hr).1 (halign r hr).2
    refine ⟨⟨pfnUp r.base, pfnDown r.stop, r.nid⟩, List.mem_filterMap.mpr ⟨r, hr, ?_⟩, ?_⟩
    · refine if_pos ⟨?_, Or.inl rfl⟩
      rw [pageSize] at *
      omega
    · dsimp only
      omega

end Aligned

/-! ## The pieces of a range -/

/-- The address `a` is in a page of `x` that `[rStart, rEnd)` reaches. -/
def InPiece (rStart rEnd : ℕ) (x : PfnRange) (a : ℕ) : Prop :=
  x.start * pageSize ≤ a ∧ a < x.stop * pageSize ∧ rStart ≤ a ∧ a / pageSize * pageSize < rEnd

/-- After the pieces `done`, from the view `v₀`: they are mapped, and `max_pfn_mapped` is what it was or
not above the end of one of them. -/
structure RangeInv (v₀ : MapView) (rStart rEnd : ℕ) (done : List PfnRange) (v : MapView) : Prop where
  minPfn : v.minPfn = v₀.minPfn
  aligned : ∀ r ∈ v.mapped, pageSize ∣ r.1 ∧ pageSize ∣ r.2
  mono : ∀ a, MappedAt v₀.mapped a → MappedAt v.mapped a
  pieces : ∀ x ∈ done, ∀ a, InPiece rStart rEnd x a → MappedAt v.mapped a
  maxPfn : v.maxPfn = v₀.maxPfn ∨
    ∃ x ∈ done, v.maxPfn ≤ x.stop ∧ v.maxPfn * pageSize < rEnd + pageSize

section Range

variable {v₀ v : MapView} {rStart rEnd : ℕ} {x : PfnRange}

/-- The view after `init_memory_mapping` of a piece that starts at a page. -/
theorem MapView.add_eq (v : MapView) {lo stop : ℕ} (hlt : lo * pageSize < stop)
    (hstop : stop ≤ 0xfffff000) :
    v.add (lo * pageSize) stop =
      { v with
        mapped := v.mapped ++ [(lo * pageSize, (stop + 4095) / pageSize * pageSize)]
        maxPfn := max v.maxPfn ((stop + 4095) / pageSize) } := by
  have hlo : pfnDown (lo * pageSize) = lo := by
    rw [pfnDown, Nat.shiftRight_eq_div_pow]
    exact Nat.mul_div_left lo (by decide)
  have hhi : pfnUp stop = (stop + 4095) / pageSize := by
    rw [pfnUp, Nat.shiftRight_eq_div_pow, pageSize, pageShift]
    omega
  obtain ⟨hi, hhi'⟩ : ∃ hi, hi = (stop + 4095) / pageSize := ⟨_, rfl⟩
  rw [← hhi'] at hhi ⊢
  have hle : lo < hi ∧ hi ≤ 0xfffff := by
    rw [pageSize] at *
    omega
  have hphys : ∀ pfn ≤ 0xfffff, pfnPhys pfn = pfn * pageSize := fun _ h => shiftLeft_page h
  have hback : (hi * pageSize) >>> pageShift = hi := by
    rw [Nat.shiftRight_eq_div_pow]
    exact Nat.mul_div_left hi (by decide)
  rw [MapView.add, hlo, hhi, if_pos hle.1, hphys lo (by omega), hphys hi hle.2, hback]

/-- The page of `a` starts below `stop`, so that rounding `stop` up goes past `a`. -/
theorem lt_of_page_lt {a stop : ℕ} (h : a / pageSize * pageSize < stop) :
    a < (stop + 4095) / pageSize * pageSize := by
  have hq : a / pageSize + 1 ≤ (stop + 4095) / pageSize := by
    have hpage : pageSize = 4096 := rfl
    rw [Nat.le_div_iff_mul_le (by decide), Nat.add_mul]
    omega
  calc a < (a / pageSize + 1) * pageSize := by
        rw [Nat.add_mul, Nat.one_mul]
        exact Nat.lt_div_mul_add (by decide)
    _ ≤ (stop + 4095) / pageSize * pageSize := Nat.mul_le_mul_right _ hq

/-- One piece: nothing of `x` is in the range, or it is mapped from a page to a page. -/
theorem MapView.piece_cases (v : MapView) (hrs : pageSize ∣ rStart) (hle : rStart ≤ rEnd)
    (hx : x.start < x.stop) (hx' : x.stop ≤ 0xfffff) :
    (v.piece rStart rEnd x = v ∧ ∀ a, ¬InPiece rStart rEnd x a) ∨
    ∃ lo hi, v.piece rStart rEnd x =
        { v with
          mapped := v.mapped ++ [(lo * pageSize, hi * pageSize)]
          maxPfn := max v.maxPfn hi } ∧
      hi ≤ x.stop ∧ hi * pageSize < rEnd + pageSize ∧
      ∀ a, InPiece rStart rEnd x a → lo * pageSize ≤ a ∧ a < hi * pageSize := by
  have hphys : ∀ pfn ≤ 0xfffff, pfnPhys pfn = pfn * pageSize := fun _ h => shiftLeft_page h
  simp only [MapView.piece, InPiece]
  rw [hphys x.start (by omega), hphys x.stop hx', clamp, clamp]
  obtain ⟨first, rfl⟩ := hrs
  by_cases hempty : min (max (x.start * pageSize) (pageSize * first)) rEnd
      ≥ min (max (x.stop * pageSize) (pageSize * first)) rEnd
  · rw [if_pos hempty]
    refine Or.inl ⟨rfl, fun a ha => ?_⟩
    rw [pageSize] at *
    omega
  · rw [if_neg hempty]
    have hfirst : pageSize * first < x.stop * pageSize := by
      by_contra hge
      rw [not_lt] at hge
      rw [max_eq_right hge, max_eq_right ((Nat.mul_le_mul_right _ hx.le).trans hge)] at hempty
      exact hempty le_rfl
    have hlo : min (max (x.start * pageSize) (pageSize * first)) rEnd
        = max x.start first * pageSize := by
      rw [pageSize] at *
      omega
    rw [hlo, max_eq_left hfirst.le] at hempty ⊢
    have hstop : min (x.stop * pageSize) rEnd ≤ 0xfffff000 := by
      rw [pageSize]
      omega
    rw [MapView.add_eq v (not_le.mp hempty) hstop]
    refine Or.inr ⟨_, _, rfl, ?_, ?_, ?_⟩
    · rw [pageSize]
      omega
    · rw [pageSize]
      omega
    · rintro a ⟨hxa, hax, hra, har⟩
      refine ⟨?_, lt_of_page_lt (lt_min ((Nat.div_mul_le_self a _).trans_lt hax) har)⟩
      rcases max_choice x.start first with hmax | hmax
      · rwa [hmax]
      · rwa [hmax, Nat.mul_comm]

theorem MappedAt.append {mapped : List (ℕ × ℕ)} {a : ℕ} (h : MappedAt mapped a) (r : ℕ × ℕ) :
    MappedAt (mapped ++ [r]) a := by
  obtain ⟨p, hp, hpa⟩ := h
  exact ⟨p, List.mem_append_left _ hp, hpa⟩

/-- One more piece. -/
theorem RangeInv.piece {done : List PfnRange} (h : RangeInv v₀ rStart rEnd done v)
    (hrs : pageSize ∣ rStart) (hle : rStart ≤ rEnd) (hx : x.start < x.stop)
    (hx' : x.stop ≤ 0xfffff) :
    RangeInv v₀ rStart rEnd (done ++ [x]) (v.piece rStart rEnd x) := by
  have hmax : ∀ {n}, (n = v₀.maxPfn ∨ ∃ y ∈ done, n ≤ y.stop ∧ n * pageSize < rEnd + pageSize) →
      n = v₀.maxPfn ∨ ∃ y ∈ done ++ [x], n ≤ y.stop ∧ n * pageSize < rEnd + pageSize :=
    fun h => h.imp_right fun ⟨y, hy, hny⟩ => ⟨y, List.mem_append_left _ hy, hny⟩
  rcases v.piece_cases hrs hle hx hx' with ⟨heq, hnone⟩ | ⟨lo, hi, heq, hstop, hend, hin⟩
  · rw [heq]
    refine ⟨h.minPfn, h.aligned, h.mono, fun y hy a ha => ?_, hmax h.maxPfn⟩
    rcases List.mem_append.mp hy with hy | hy
    · exact h.pieces y hy a ha
    · rw [List.mem_singleton.mp hy] at ha
      exact absurd ha (hnone a)
  · rw [heq]
    refine ⟨h.minPfn, fun r hr => ?_, fun a ha => (h.mono a ha).append _, fun y hy a ha => ?_, ?_⟩
    · rcases List.mem_append.mp hr with hr | hr
      · exact h.aligned r hr
      · rw [List.mem_singleton.mp hr]
        exact ⟨Dvd.intro_left _ rfl, Dvd.intro_left _ rfl⟩
    · rcases List.mem_append.mp hy with hy | hy
      · exact (h.pieces y hy a ha).append _
      · rw [List.mem_singleton.mp hy] at ha
        exact ⟨_, List.mem_append_right _ (List.mem_singleton_self _), hin a ha⟩
    · dsimp only
      rcases max_choice v.maxPfn hi with hmax' | hmax'
      · rw [hmax']
        exact hmax h.maxPfn
      · rw [hmax']
        exact Or.inr ⟨x, by simp, hstop, hend⟩

/-- **All the pieces of a range.** -/
theorem rangeInv_pieces {ram : MemblockType} {xs : List PfnRange} (hxs : Frames ram xs)
    (hrs : pageSize ∣ rStart) (hle : rStart ≤ rEnd)
    (haligned : ∀ r ∈ v₀.mapped, pageSize ∣ r.1 ∧ pageSize ∣ r.2) (done : List PfnRange) :
    ∀ rest, xs = done ++ rest → RangeInv v₀ rStart rEnd done (v₀.pieces rStart rEnd done) := by
  induction done using List.reverseRecOn with
  | nil => exact fun _ _ => ⟨rfl, haligned, fun _ h => h, fun _ h => absurd h (by simp), Or.inl rfl⟩
  | append_singleton done x ih =>
    intro rest hsplit
    have hx := hxs.bounds x (by rw [hsplit]; simp)
    rw [MapView.pieces_append]
    exact (ih (x :: rest) (by simp [hsplit])).piece hrs hle hx.1 hx.2

end Range

/-! ## The walk -/

/-- Between two steps downwards: `pos` is `min_pfn_mapped`, and all RAM from there to `realEnd` is
mapped. -/
structure DownInv (ram : MemblockType) (realEnd pos : ℕ) (v : MapView) : Prop where
  aligned : ∀ r ∈ v.mapped, pageSize ∣ r.1 ∧ pageSize ∣ r.2
  minPfn : v.minPfn * pageSize = pos
  pos_le : pos ≤ realEnd
  maxPfn : v.maxPfn * pageSize ≤ realEnd
  mapped : ∀ a, ram.Covers a → pos ≤ a → a < realEnd → MappedAt v.mapped a

section Walk

variable {ram : MemblockType} {xs done rest : List PfnRange} {realEnd pos start : ℕ} {v : MapView}

/-- While the range below `pos` is mapped, pages come from above `pos`. -/
theorem DownInv.viewOk (h : DownInv ram realEnd pos v) (hxs : Frames ram xs) (hlt : realEnd < 2 ^ 32)
    (hdvd : pageSize ∣ realEnd) (hstart : pageSize ∣ start) (hle : start ≤ pos)
    (hsplit : xs = done ++ rest) : ViewOk ram (v.pieces start pos done) := by
  have hinv := rangeInv_pieces hxs hstart hle h.aligned done rest hsplit
  have hmin := hinv.minPfn
  have hpos := h.minPfn
  have hreal := h.maxPfn
  have hposle := h.pos_le
  have hmax := hinv.maxPfn
  refine ⟨hinv.aligned, ?_, ?_, fun a ha hlo hhi => ?_⟩
  all_goals rw [hmin] at *
  all_goals rw [pageSize] at *
  · omega
  · rcases hmax with heq | ⟨x, -, -, hend⟩ <;> omega
  · rcases hmax with heq | ⟨x, -, -, hend⟩
    · rw [heq] at hhi
      exact hinv.mono a (h.mapped a ha (by omega) (by omega))
    · -- the watermarks have not passed each other
      omega

/-- A step downwards. -/
theorem DownInv.step (h : DownInv ram realEnd pos v) (hxs : Frames ram xs) (hdvd : pageSize ∣ realEnd)
    (hstart : pageSize ∣ start) (hle : start ≤ pos) :
    DownInv ram realEnd start { v.pieces start pos xs with minPfn := start >>> pageShift } := by
  have hinv := rangeInv_pieces hxs hstart hle h.aligned xs [] (by simp)
  have hposle := h.pos_le
  refine ⟨hinv.aligned, ?_, hle.trans h.pos_le, ?_, fun a ha hlo hhi => ?_⟩
  · dsimp only
    rw [Nat.shiftRight_eq_div_pow]
    exact Nat.div_mul_cancel hstart
  · rcases hinv.maxPfn with heq | ⟨x, -, -, hend⟩
    · exact heq ▸ h.maxPfn
    · have hmin := h.minPfn
      dsimp only
      rw [pageSize] at *
      omega
  · by_cases hpos : pos ≤ a
    · exact hinv.mono a (h.mapped a ha hpos hhi)
    · obtain ⟨x, hx, hxa, hax⟩ := hxs.covers a ha
      have hpage : a / pageSize * pageSize ≤ a := Nat.div_mul_le_self a _
      exact hinv.pieces x hx a ⟨hxa, hax, hlo, by omega⟩

/-- In the call upwards from `realEnd`, everything below the end of a piece that is done is mapped. -/
theorem DownInv.viewOk_up (h : DownInv ram realEnd pos v) (hxs : Frames ram xs)
    (hlt : realEnd < 2 ^ 32) (hdvd : pageSize ∣ realEnd) {mapEnd : ℕ} (hle : realEnd ≤ mapEnd)
    (hsplit : xs = done ++ rest) : ViewOk ram (v.pieces realEnd mapEnd done) := by
  have hinv := rangeInv_pieces hxs hdvd hle h.aligned done rest hsplit
  have hmin := hinv.minPfn
  have hpos := h.minPfn
  have hreal := h.maxPfn
  have hposle := h.pos_le
  have hmax := hinv.maxPfn
  refine ⟨hinv.aligned, ?_, ?_, fun a ha hlo hhi => ?_⟩
  all_goals rw [pageSize] at *
  · omega
  · rcases hmax with heq | ⟨x, hx, hstop, -⟩
    · omega
    · have := hxs.bounds x (by rw [hsplit]; exact List.mem_append_left _ hx)
      omega
  · by_cases hbelow : a < realEnd
    · exact hinv.mono a (h.mapped a ha (by omega) hbelow)
    · rcases hmax with heq | ⟨x, hx, hstop, hend⟩
      · omega
      · obtain ⟨y, hy, hya, hay⟩ := hxs.covers a ha
        -- a frame that starts below the end of `x` is not after it
        have hdone : y ∈ done := by
          rw [hsplit] at hy
          refine (List.mem_append.mp hy).resolve_right fun hrest => ?_
          have hsorted := hxs.sorted
          rw [hsplit, List.pairwise_append] at hsorted
          have hxy := hsorted.2.2 x hx y hrest
          rw [pageSize] at hya
          omega
        have hpage : a / 4096 + 1 ≤ (v.pieces realEnd mapEnd done).maxPfn :=
          Nat.div_lt_of_lt_mul (by omega)
        refine hinv.pieces y hdone a ⟨hya, hay, not_lt.mp hbelow, ?_⟩
        have hnext := (Nat.mul_le_mul_right 4096 hpage).trans_lt hend
        rw [Nat.add_mul, Nat.one_mul] at hnext
        exact Nat.lt_of_add_lt_add_right hnext

/-- A step starts at a page. -/
theorem dvd_topDownStart {mapStart stepSize : ℕ} (lastStart : ℕ) (hstep : IsStep stepSize)
    (hm : pageSize ∣ mapStart) : pageSize ∣ topDownStart mapStart lastStart stepSize := by
  have hround : pageSize ∣ roundDown (lastStart - 1) stepSize := by
    rcases hstep with rfl | ⟨k, hpage, hk, rfl⟩
    · rw [roundDown_zero]
      exact dvd_zero _
    · exact (Nat.pow_dvd_pow 2 hpage).trans (dvd_roundDown hk)
  simp only [topDownStart]
  split_ifs
  · exact hm
  · exact hround
  · exact hm

variable (newTables : MapState → ℕ → ℕ → ℕ)

/-- A call of `init_range_memory_mapping` by the walker; the record of the calls is not looked at. -/
theorem callInitRange_taken (hlen : ram.nrRegions < 2 ^ 32) {rStart rEnd : ℕ}
    (hviews : ∀ done rest, ram.regions.filterMap (pfnRange maxNrNodes) = done ++ rest →
      ViewOk ram (v.pieces rStart rEnd done)) :
    Triple (fun s => MapCore ram s ∧ s.view = v)
      (callInitRange (initRangeMemoryMapping newTables) rStart rEnd)
      (fun _ s => MapCore ram s ∧
        s.view = v.pieces rStart rEnd (ram.regions.filterMap (pfnRange maxNrNodes)))
      fun s => TakenOk ram s.taken :=
  Triple.update (initRangeMemoryMapping_triple newTables hlen hviews)
    fun _ hs => ⟨⟨hs.1.ok, hs.1.memory, hs.1.taken⟩, hs.2⟩

/-- One step of `memory_map_top_down`. -/
theorem topDownStep_taken (hlen : ram.nrRegions < 2 ^ 32)
    (hxs : Frames ram (ram.regions.filterMap (pfnRange maxNrNodes))) (hlt : realEnd < 2 ^ 32)
    (hdvd : pageSize ∣ realEnd) {mapStart : ℕ} (hm : pageSize ∣ mapStart) {w : MapWalk}
    (hw : IsStep w.stepSize) (hgt : mapStart < w.pos) (hinv : DownInv ram realEnd w.pos v) :
    Triple (fun s => MapCore ram s ∧ s.view = v)
      (topDownStep (initRangeMemoryMapping newTables) mapStart w)
      (fun r s => ∃ w' : MapWalk, r = .inl w' ∧ mapStart ≤ w'.pos ∧ w'.pos < w.pos ∧
        IsStep w'.stepSize ∧ MapCore ram s ∧ DownInv ram realEnd w'.pos s.view)
      fun s => TakenOk ram s.taken := by
  obtain ⟨hge, hstart⟩ := topDownStart_lt w.stepSize hgt
  have hpage := dvd_topDownStart w.pos hw hm
  rw [topDownStep, if_pos hgt]
  refine Triple.bind (callInitRange_taken newTables hlen fun done rest hsplit =>
    hinv.viewOk hxs hlt hdvd hpage hstart.le hsplit) fun size => ?_
  refine Triple.update (R := fun s => MapCore ram s ∧
    DownInv ram realEnd (topDownStart mapStart w.pos w.stepSize) s.view)
    (Triple.pure _ fun _ hs => ⟨_, rfl, hge, hstart, hw.next _ _, hs.1, hs.2⟩) ?_
  rintro s ⟨hcore, hview⟩
  refine ⟨⟨hcore.ok, hcore.memory, hcore.taken⟩, ?_⟩
  have hnext := hinv.step hxs hdvd hpage hstart.le
  rw [← hview] at hnext
  exact hnext

/-- **The loop**, down to `mapStart`. -/
theorem topDownLoop_taken (hlen : ram.nrRegions < 2 ^ 32)
    (hxs : Frames ram (ram.regions.filterMap (pfnRange maxNrNodes))) (hlt : realEnd < 2 ^ 32)
    (hdvd : pageSize ∣ realEnd) {mapStart : ℕ} (hm : pageSize ∣ mapStart) (hle : mapStart ≤ realEnd)
    {w : MapWalk} (hw : w.pos = realEnd) (hstep : IsStep w.stepSize) :
    Triple (fun s => MapCore ram s ∧ DownInv ram realEnd realEnd s.view)
      (Proc.loop (topDownStep (initRangeMemoryMapping newTables) mapStart) (realEnd + 1) w)
      (fun _ s => MapCore ram s ∧ DownInv ram realEnd mapStart s.view)
      fun s => TakenOk ram s.taken := by
  refine (Triple.loop (fun k w s => w.pos = k ∧ mapStart ≤ k ∧ IsStep w.stepSize ∧ MapCore ram s ∧
    DownInv ram realEnd k s.view) ?_ (Nat.lt_succ_self realEnd)).conseq
    (fun s hs => ⟨hw, hle, hstep, hs⟩) fun _ _ hs => hs
  rintro k w s ⟨rfl, hlo, hw, hcore, hinv⟩
  by_cases hgt : mapStart < w.pos
  · refine (topDownStep_taken newTables hlen hxs hlt hdvd hm hw hgt hinv).conseq (fun _ h => h) ?_ s
      ⟨hcore, rfl⟩
    rintro r s ⟨w', rfl, hge, hlt', hw', hcore', hinv'⟩
    exact ⟨w'.pos, hlt', rfl, hge, hw', hcore', hinv'⟩
  · have heq : w.pos = mapStart := by omega
    rw [topDownStep, if_neg hgt]
    exact ⟨hcore, heq ▸ hinv⟩

end Walk

/-- The state with nothing recorded yet. -/
def MapState.fresh (s : MapState) : MapState := { s with ranges := [], mapped := [], taken := [] }

/-- **Page tables come from mapped memory**: in every run of `memory_map_top_down`, also one that ends
in a `panic`, each page `alloc_low_pages` takes from memblock is RAM inside a range that an earlier,
completed call of `init_memory_mapping` has mapped. -/
theorem memoryMapTopDown_taken (newTables : MapState → ℕ → ℕ → ℕ) (s : MapState)
    (hm : MemblockOk s.memblock) (halign : PageAligned s.memblock.memory) (mapEnd : ℕ) :
    TakenOk s.memblock.memory ((memoryMapTopDown (initRangeMemoryMapping newTables) isaEndAddress
      mapEnd).after s.fresh).taken := by
  obtain ⟨ram, hram⟩ : ∃ ram, s.memblock.memory = ram := ⟨_, rfl⟩
  obtain ⟨addr, haddr, hfound⟩ := memblockFindInRangeNode_found hm pmdSize pmdSize isaEndAddress
    mapEnd numaNoNode 0
  rw [hram] at halign ⊢
  have hxs := frames_of_aligned (hram ▸ hm.memory) halign
  have hlen : ram.nrRegions < 2 ^ 32 := by
    have := hm.memory.le_max
    rw [hm.memory_max, initMemblockRegions, hram] at this
    omega
  have hreal : isaEndAddress ≤ addr + pmdSize ∧ addr + pmdSize < 2 ^ 32 ∧
      pageSize ∣ addr + pmdSize := by
    have hpmd : isaEndAddress ≤ pmdSize ∧ pageSize ∣ pmdSize := by decide
    refine ⟨hpmd.1.trans (Nat.le_add_left _ _), ?_⟩
    rcases hfound with rfl | hfound
    · exact ⟨by decide, by decide⟩
    · obtain ⟨rgn, hrgn, -, hend⟩ := hfound.ram (by decide)
      obtain ⟨x, hx⟩ := hfound.aligned
      have hdvd : pmdSize ∣ addr := hx ▸ dvd_roundDown (by decide)
      exact ⟨hend.trans_lt (hm.memory.noWrap rgn hrgn), (hpmd.2.trans hdvd).add hpmd.2⟩
  suffices h : Triple (fun s' => s' = s.fresh)
      (memoryMapTopDown (initRangeMemoryMapping newTables) isaEndAddress mapEnd)
      (fun _ s' => MapCore ram s') fun s' => TakenOk ram s'.taken from
    h.after rfl (fun _ _ hcore => hcore.taken) fun _ htaken => htaken
  refine Triple.read fun s₀ hs₀ => ?_
  rw [hs₀, show s.fresh.memblock = s.memblock from rfl, memblockFindInRange, haddr,
    Proc.ofExec_ok_bind, Nat.mod_eq_of_lt hreal.2.1]
  generalize addr + pmdSize = realEnd at hreal ⊢
  refine Triple.update (R := fun s' => MapCore ram s' ∧ DownInv ram realEnd realEnd s'.view) ?_ ?_
  · refine Triple.bind (topDownLoop_taken newTables hlen hxs hreal.2.1 hreal.2.2 (by decide) hreal.1
      rfl IsStep.pmdSize) fun _ => ?_
    refine Triple.ite (fun hlast => ?_) fun hlast => Triple.pure _ fun s' h => h.1
    refine Triple.bind (Q := fun _ s' => MapCore ram s') ?_ fun _ => Triple.pure _ fun _ h => h
    rintro s' ⟨hcore, hinv⟩
    exact (callInitRange_taken newTables hlen fun done rest hsplit =>
      hinv.viewOk_up hxs hreal.2.1 hreal.2.2 hlast.le hsplit).conseq (fun _ h => h)
      (fun _ _ h => h.1) s' ⟨hcore, rfl⟩
  · rintro s' rfl
    refine ⟨⟨hm, hram, fun x hx => absurd hx (by simp [MapState.fresh])⟩, ?_⟩
    refine ⟨fun r hr => absurd hr (by simp [MapState.fresh, MapState.view]), ?_, le_rfl, ?_,
      fun a _ hlo hhi => absurd hlo (not_le.mpr hhi)⟩
    · simp only [MapState.view]
      rw [Nat.shiftRight_eq_div_pow]
      exact Nat.div_mul_cancel hreal.2.2
    · simp [MapState.view]

/-- 127 MiB of RAM above the first MiB, with the kernel reserved and one page left in the BRK
buffer. -/
def sampleMapState : MapState :=
  { emptyMapState with
    memblock :=
      { initMemblock with
        memory := { initMemblock.memory with regions := [⟨0x100000, 0x7f00000, 0, 0⟩] }
        reserved := { initMemblock.reserved with regions := [⟨0x1000000, 0x400000, 0, 0⟩] } }
    env := ⟨false, 0x1300, 0x1301, true, 0, 0⟩ }

/-- The page table of the first step is the BRK page; that of the second is taken from what the first
step mapped. -/
theorem memoryMapTopDown_taken_sample :
    MemblockOk sampleMapState.memblock ∧ PageAligned sampleMapState.memblock.memory ∧
    ((memoryMapTopDown (initRangeMemoryMapping fun _ _ _ => 1) isaEndAddress 0x8000000).after
      sampleMapState.fresh).taken = [(0x7fff000, [(0x7c00000, 0x8000000)])] ∧
    TakenOk sampleMapState.memblock.memory ((memoryMapTopDown (initRangeMemoryMapping
      fun _ _ _ => 1) isaEndAddress 0x8000000).after sampleMapState.fresh).taken := by
  have hok : MemblockOk sampleMapState.memblock :=
    ⟨⟨by decide, by decide, by decide, by decide, Or.inl (by decide)⟩,
      ⟨by decide, by decide, by decide, by decide, Or.inl (by decide)⟩, rfl, rfl⟩
  have halign : PageAligned sampleMapState.memblock.memory := by
    intro r hr
    rw [List.mem_singleton.mp hr]
    decide
  exact ⟨hok, halign, by decide +kernel,
    memoryMapTopDown_taken _ sampleMapState hok halign 0x8000000⟩

end Sandix
