import Sandix.Memblock.Alloc
import Sandix.Memblock.Union

/-!
# Boot/Brk — the area behind the kernel

`extend_brk` and `memblock_reserve_brk` of `arch/x86/kernel/setup.c`, and `early_alloc_pgt_buf` of
`arch/x86/mm/init.c`.  Until the allocators are up the kernel takes memory from the `.brk` section behind
its image: `_brk_end` moves up, block by block, until `memblock_reserve_brk` reserves what was taken and
closes the area.

The sums wrap around at `2 ^ 32`, and the limit is compared with the wrapped sum; a request is `Modest`
when it cannot reach that far.

* `brkThenReserve_spec` — along any sequence of modest requests the blocks are aligned, zero, inside the
  area and apart from one another, and nothing else in memory changes; in the end they are reserved,
  unless the array has no room for them, which `memblock_reserve_brk` does not notice.
-/

namespace Sandix

open Machinery

/-! ## The area -/

/-- `_brk_start` and `_brk_end`, with the memory the area lies in. -/
structure Brk where
  start : ℕ
  stop : ℕ
  mem : ℕ → UInt8

/-- `memset(a, 0, n)`. -/
def zeroFill (mem : ℕ → UInt8) (a : ℕ) : ℕ → ℕ → UInt8
  | 0 => mem
  | n + 1 => zeroFill (Function.update mem (a % 2 ^ 32) 0) (a + 1) n

/-- `extend_brk`, with the area ending at `limit`: the block, and the area behind it. -/
def extendBrk (limit : ℕ) (s : Brk) (size align : ℕ) : Exec (ℕ × Brk) :=
  let mask := sub32 align 1
  if s.start = 0 then .error .bug
  else if align &&& mask ≠ 0 then .error .bug
  else
    let stop := roundDown ((s.stop + mask) % 2 ^ 32) align
    if (stop + size) % 2 ^ 32 > limit then .error .bug
    else .ok (stop,
      { s with stop := (stop + size) % 2 ^ 32, mem := zeroFill s.mem stop size })

/-- `memblock_reserve_brk`. -/
def memblockReserveBrk (s : Brk) (m : Memblock) : Exec (Brk × Memblock) := do
  let m ← if s.stop > s.start then do
      let (_, m) ← memblockReserve m (virtToPhys s.start) (sub32 s.stop s.start)
      pure m
    else pure m
  pure ({ s with start := 0 }, m)

/-- A sequence of requests, each a size and an alignment: the blocks, oldest first. -/
def runBrk (limit : ℕ) : List (ℕ × ℕ) → Brk → Exec (List (ℕ × ℕ) × Brk)
  | [], s => .ok ([], s)
  | (size, align) :: rest, s => do
    let (ret, s) ← extendBrk limit s size align
    let (blocks, s) ← runBrk limit rest s
    pure ((ret, size) :: blocks, s)

/-! ## One request -/

/-- A request that does not reach around the top of the address space. -/
def Modest (limit : ℕ) (req : ℕ × ℕ) : Prop := 0 < req.2 ∧ limit + req.2 + req.1 ≤ 2 ^ 32

theorem zeroFill_eq : ∀ {n a : ℕ} {mem : ℕ → UInt8}, a + n ≤ 2 ^ 32 → ∀ x,
    zeroFill mem a n x = if a ≤ x ∧ x < a + n then 0 else mem x
  | 0, a, mem, _, x => by rw [zeroFill, if_neg (by omega)]
  | n + 1, a, mem, h, x => by
      rw [zeroFill, zeroFill_eq (by omega), Nat.mod_eq_of_lt (by omega)]
      by_cases hx : x = a
      · subst hx
        rw [if_neg (by omega), Function.update_self, if_pos (by omega)]
      · rw [Function.update_of_ne hx]
        exact if_congr (by omega) rfl rfl

/-- An area that is open. -/
structure BrkOpen (limit : ℕ) (s : Brk) : Prop where
  start_ne : s.start ≠ 0
  start_le : s.start ≤ s.stop
  stop_le : s.stop ≤ limit

/-- The block `b` at the request `req`, between `lo` and `hi`. -/
structure Carved (lo hi : ℕ) (b req : ℕ × ℕ) : Prop where
  size_eq : b.2 = req.1
  aligned : req.2 ∣ b.1
  lo_le : lo ≤ b.1
  le_hi : b.1 + b.2 ≤ hi

section Request

variable {limit size align : ℕ} {s : Brk}

/-- **One request**: refused, or the next aligned block, cleared. -/
theorem extendBrk_cases (h : BrkOpen limit s) (hreq : Modest limit (size, align)) :
    extendBrk limit s size align = .error .bug ∨
    ∃ ret s', extendBrk limit s size align = .ok (ret, s') ∧ BrkOpen limit s' ∧
      s'.start = s.start ∧ s'.stop = ret + size ∧ Carved s.stop s'.stop (ret, size) (size, align) ∧
      ∀ x, s'.mem x = if ret ≤ x ∧ x < ret + size then 0 else s.mem x := by
  obtain ⟨hpos, hfit⟩ := hreq
  dsimp only at hpos hfit
  have hstop := h.stop_le
  have hmask : sub32 align 1 = align - 1 := by
    rw [sub32]
    omega
  simp only [extendBrk, if_neg h.start_ne, hmask]
  by_cases hpow : align &&& (align - 1) = 0
  · rw [if_neg (not_not.mpr hpow)]
    obtain ⟨k, rfl⟩ := (Nat.and_sub_one_eq_zero_iff_isPowerOfTwo hpos.ne').mp hpow
    have hk : k < 32 := by
      by_contra hge
      have : 2 ^ 32 ≤ 2 ^ k := Nat.pow_le_pow_right (by decide) (not_lt.mp hge)
      have hstart := Nat.pos_of_ne_zero h.start_ne
      have hle := h.start_le
      omega
    have hmod : (s.stop + (2 ^ k - 1)) % 2 ^ 32 = s.stop + (2 ^ k - 1) := Nat.mod_eq_of_lt (by omega)
    obtain ⟨⟨hdvd, hdown⟩, hbest⟩ := roundDown_isGreatest
      (x := s.stop + (2 ^ k - 1)) (k := k) (by omega) hk
    have hup : s.stop ≤ roundDown (s.stop + (2 ^ k - 1)) (2 ^ k) := by
      have hceil := hbest (a := (s.stop + (2 ^ k - 1)) / 2 ^ k * 2 ^ k)
        ⟨Nat.dvd_mul_left _ _, Nat.div_mul_le_self _ _⟩
      have hdiv := Nat.div_add_mod (s.stop + (2 ^ k - 1)) (2 ^ k)
      have hlt := Nat.mod_lt (s.stop + (2 ^ k - 1)) hpos
      rw [Nat.mul_comm] at hdiv
      omega
    rw [hmod]
    generalize roundDown (s.stop + (2 ^ k - 1)) (2 ^ k) = ret at hdvd hdown hup
    rw [Nat.mod_eq_of_lt (show ret + size < 2 ^ 32 by omega)]
    by_cases hlim : ret + size > limit
    · exact Or.inl (if_pos hlim)
    · rw [if_neg hlim]
      have hle := h.start_le
      exact Or.inr ⟨ret, _, rfl, ⟨h.start_ne, by dsimp only; omega, not_lt.mp hlim⟩, rfl, rfl,
        ⟨rfl, hdvd, hup, le_rfl⟩, zeroFill_eq (by omega)⟩
  · exact Or.inl (if_pos hpow)

end Request

/-! ## A sequence of requests -/

/-- What a sequence of requests leaves: blocks at the requests, in order and apart from one another, all
of them zero, and nothing else changed. -/
structure BrkRun (limit : ℕ) (reqs : List (ℕ × ℕ)) (s : Brk) (r : List (ℕ × ℕ) × Brk) : Prop where
  isOpen : BrkOpen limit r.2
  start_eq : r.2.start = s.start
  stop_le : s.stop ≤ r.2.stop
  carved : List.Forall₂ (Carved s.stop r.2.stop) r.1 reqs
  apart : r.1.Pairwise fun b b' => b.1 + b.2 ≤ b'.1
  mem_eq : ∀ x, r.2.mem x = if ∃ b ∈ r.1, b.1 ≤ x ∧ x < b.1 + b.2 then 0 else s.mem x

theorem Carved.mono {lo lo' hi hi' : ℕ} {b req : ℕ × ℕ} (h : Carved lo hi b req) (hlo : lo' ≤ lo)
    (hhi : hi ≤ hi') : Carved lo' hi' b req :=
  ⟨h.size_eq, h.aligned, hlo.trans h.lo_le, h.le_hi.trans hhi⟩

theorem BrkRun.exists_carved {limit : ℕ} {reqs : List (ℕ × ℕ)} {s : Brk} {r : List (ℕ × ℕ) × Brk}
    (h : BrkRun limit reqs s r) {b : ℕ × ℕ} (hb : b ∈ r.1) :
    ∃ req ∈ reqs, Carved s.stop r.2.stop b req := by
  obtain ⟨i, hi, rfl⟩ := List.mem_iff_getElem.mp hb
  have hlen := h.carved.length_eq
  exact ⟨_, List.getElem_mem (hlen ▸ hi), h.carved.get hi (hlen ▸ hi)⟩

/-- **Along any sequence of modest requests** the area is cut into blocks, or the kernel stops. -/
theorem runBrk_blocks {limit : ℕ} : ∀ {reqs : List (ℕ × ℕ)} {s : Brk}, BrkOpen limit s →
    (∀ req ∈ reqs, Modest limit req) → Exec.Safe (runBrk limit reqs s) (BrkRun limit reqs s)
  | [], s, h, _ => .ok ⟨h, rfl, le_rfl, .nil, .nil, fun x => by simp⟩
  | (size, align) :: reqs, s, h, hreqs => by
      rw [runBrk]
      rcases extendBrk_cases h (hreqs _ List.mem_cons_self) with
        hbug | ⟨ret, s₁, hok, h₁, hstart, hstop, hcarved, hmem⟩
      · rw [hbug]
        exact .bug
      · rw [hok, Exec.ok_bind]
        refine (runBrk_blocks h₁ fun req hreq => hreqs req (List.mem_cons_of_mem _ hreq)).bind ?_
        rintro ⟨blocks, s₂⟩ hr
        have hle : s.stop ≤ s₁.stop := by
          have h₁ := hcarved.lo_le
          have h₂ := hcarved.le_hi
          dsimp only at h₁ h₂
          omega
        have hlater : ∀ b ∈ blocks, ret + size ≤ b.1 := by
          intro b hb
          obtain ⟨req, -, hbr⟩ := hr.exists_carved hb
          exact hstop ▸ hbr.lo_le
        refine .ok ⟨hr.isOpen, hr.start_eq.trans hstart, hle.trans hr.stop_le,
          .cons (hcarved.mono le_rfl hr.stop_le) (hr.carved.imp fun _ _ hc => hc.mono hle le_rfl),
          .cons hlater hr.apart, fun x => ?_⟩
        rw [hr.mem_eq, hmem]
        simp only [List.exists_mem_cons_iff]
        by_cases hrest : ∃ b ∈ blocks, b.1 ≤ x ∧ x < b.1 + b.2
        · rw [if_pos hrest, if_pos (Or.inr hrest)]
        · rw [if_neg hrest]
          exact if_congr (by rw [or_iff_left hrest]) rfl rfl

/-! ## Reserving the area -/

/-- A range has at most one gap more than there are regions. -/
theorem missing_le (stop : ℕ) : ∀ (rs : List MemblockRegion) (base : ℕ),
    missing stop base rs ≤ rs.length + 1
  | [], base => by
      rw [missing]
      split <;> simp
  | r :: rs, base => by
      have h₁ := missing_le stop rs base
      have h₂ := missing_le stop rs (min r.stop stop)
      rw [missing, List.length_cons]
      split_ifs <;> omega

/-- An array that is not more than half full has room for every gap there can be. -/
theorem not_lacksRoom {t : MemblockType} (h : WellFormed t) (hroom : 2 * t.nrRegions < t.max)
    (base size : ℕ) : ¬t.LacksRoom base size := by
  rintro ⟨⟨a, ha⟩, hlt⟩
  rcases h.content with hreg | ⟨r, hr, -, hr0⟩
  · have hle := missing_le (base + memblockCapSize base size) t.regions base
    rw [missing_eq_ncard hreg] at hle
    rw [MemblockType.gapCount] at hlt
    rw [MemblockType.nrRegions] at hlt hroom
    omega
  · exact not_covers_empty hr hr0 a ha

/-- `memblock_reserve`, as far as there is room. -/
theorem memblockReserve_cases {m : Memblock} (h : MemblockOk m) (base size : ℕ) :
    ∃ ret m', memblockReserve m base size = .ok (ret, m') ∧ MemblockOk m' ∧ m'.memory = m.memory ∧
      (∀ a, m.reserved.Covers a → m'.reserved.Covers a) ∧
      (m.reserved.LacksRoom base size → ret = enomem ∧ m' = m) ∧
      (¬m.reserved.LacksRoom base size → ret = 0 ∧
        ∀ a, base ≤ a → a < base + size → a < physMax → m'.reserved.Covers a) := by
  obtain ⟨ret, m', hres, hok, hkeep, hcov, -⟩ := memblockReserve_spec h base size
  obtain ⟨ret', t', hadd, hcontent⟩ := memblockAddRange_content h.reserved base size maxNrNodes 0
  have hroom := memblockAddRange_enomem_iff h.reserved hadd
  have heq : memblockReserve m base size = .ok (ret', { m with reserved := t' }) := by
    rw [memblockReserve, Memblock.onReserved, hadd]
    rfl
  cases hres.symm.trans heq
  refine ⟨ret, _, hres, hok, rfl, hkeep, fun hlack => ?_, fun hno => ?_⟩
  · rcases hcontent with ⟨rfl, -⟩ | ⟨hret, rfl, -⟩
    · exact absurd (hroom.mpr hlack) (by decide)
    · exact ⟨hret, rfl⟩
  · rcases hcontent with ⟨hret, -⟩ | ⟨hret, -⟩
    · exact ⟨hret, hcov hret⟩
    · exact absurd (hroom.mp hret) hno

/-- With room for every gap there can be, a reservation succeeds. -/
theorem memblockReserve_roomy {m : Memblock} (h : MemblockOk m)
    (hroom : 2 * m.reserved.nrRegions < m.reserved.max) (base size : ℕ) :
    ∃ m', memblockReserve m base size = .ok (0, m') ∧ MemblockOk m' ∧ m'.memory = m.memory ∧
      (∀ a, m.reserved.Covers a → m'.reserved.Covers a) ∧
      ∀ a, base ≤ a → a < base + size → a < physMax → m'.reserved.Covers a := by
  obtain ⟨ret, m', hres, hok, hmem, hkeep, -, hfits⟩ := memblockReserve_cases h base size
  obtain ⟨rfl, hcov⟩ := hfits (not_lacksRoom h.reserved hroom base size)
  exact ⟨m', hres, hok, hmem, hkeep, hcov⟩

/-- There is no room to reserve `[start, stop)`, by virtual addresses. -/
def BrkLacksRoom (m : Memblock) (start stop : ℕ) : Prop :=
  m.reserved.LacksRoom (virtToPhys start) (stop - start)

/-- **The area is reserved** as far as it has been used and there is room, and closed. -/
theorem memblockReserveBrk_cases {limit : ℕ} {s : Brk} {m : Memblock} (h : BrkOpen limit s)
    (hlimit : limit < 2 ^ 32) (hkernel : pageOffset ≤ s.start) (hm : MemblockOk m) :
    ∃ m', memblockReserveBrk s m = .ok ({ s with start := 0 }, m') ∧ MemblockOk m' ∧
      m'.memory = m.memory ∧ (∀ a, m.reserved.Covers a → m'.reserved.Covers a) ∧
      (BrkLacksRoom m s.start s.stop → m' = m) ∧
      (¬BrkLacksRoom m s.start s.stop →
        ∀ x, s.start ≤ x → x < s.stop → m'.reserved.Covers (virtToPhys x)) := by
  have hle := h.start_le
  have hstop := h.stop_le
  rw [memblockReserveBrk]
  by_cases hused : s.stop > s.start
  · have hsize : sub32 s.stop s.start = s.stop - s.start := by
      rw [sub32]
      omega
    obtain ⟨ret, m', hres, hok, hmem, hkeep, hlack, hcov⟩ :=
      memblockReserve_cases hm (virtToPhys s.start) (s.stop - s.start)
    refine ⟨m', by rw [if_pos hused, hsize, hres]; rfl, hok, hmem, hkeep, fun hno => (hlack hno).2,
      fun hroom x hx hx' => ?_⟩
    have hphys : ∀ y, pageOffset ≤ y → y < 2 ^ 32 → virtToPhys y = y - pageOffset := by
      intro y hy hy'
      rw [virtToPhys, sub32, pageOffset] at *
      omega
    rw [pageOffset] at hkernel
    have hcov' := (hcov hroom).2
    rw [hphys s.start hkernel (by omega)] at hcov'
    rw [hphys x (by rw [pageOffset]; omega) (by omega)]
    rw [pageOffset] at hcov' ⊢
    exact hcov' _ (by omega) (by omega) (by rw [physMax]; omega)
  · exact ⟨m, by rw [if_neg hused]; rfl, hm, rfl, fun _ ha => ha, fun _ => rfl,
      fun _ x hx hx' => by omega⟩

theorem memblockReserveBrk_spec {limit : ℕ} {s : Brk} {m : Memblock} (h : BrkOpen limit s)
    (hlimit : limit < 2 ^ 32) (hkernel : pageOffset ≤ s.start) (hm : MemblockOk m)
    (hroom : 2 * m.reserved.nrRegions < m.reserved.max) :
    ∃ m', memblockReserveBrk s m = .ok ({ s with start := 0 }, m') ∧ MemblockOk m' ∧
      m'.memory = m.memory ∧ (∀ a, m.reserved.Covers a → m'.reserved.Covers a) ∧
      ∀ x, s.start ≤ x → x < s.stop → m'.reserved.Covers (virtToPhys x) := by
  obtain ⟨m', hres, hok, hmem, hkeep, -, hcov⟩ := memblockReserveBrk_cases h hlimit hkernel hm
  exact ⟨m', hres, hok, hmem, hkeep, hcov (not_lacksRoom hm.reserved hroom _ _)⟩

/-- A sequence of requests, and then the area is reserved. -/
def brkThenReserve (limit : ℕ) (reqs : List (ℕ × ℕ)) (s : Brk) (m : Memblock) :
    Exec (List (ℕ × ℕ) × Brk × Memblock) := do
  let (blocks, s) ← runBrk limit reqs s
  let (s, m) ← memblockReserveBrk s m
  pure (blocks, s, m)

/-- Every request has its block, at its alignment; the blocks follow one another inside the area and are
zero in the end; memory outside them is unchanged, and the area is closed.  The blocks are reserved if
there is room for that, and `memblock` is as it was otherwise. -/
structure BrkReserved (limit : ℕ) (reqs : List (ℕ × ℕ)) (s : Brk) (m : Memblock)
    (r : List (ℕ × ℕ) × Brk × Memblock) : Prop where
  carved : List.Forall₂ (Carved s.stop limit) r.1 reqs
  apart : r.1.Pairwise fun b b' => b.1 + b.2 ≤ b'.1
  mem_eq : ∀ x, r.2.1.mem x = if ∃ b ∈ r.1, b.1 ≤ x ∧ x < b.1 + b.2 then 0 else s.mem x
  reserved : ¬BrkLacksRoom m s.start r.2.1.stop →
    ∀ b ∈ r.1, ∀ x, b.1 ≤ x → x < b.1 + b.2 → r.2.2.reserved.Covers (virtToPhys x)
  refused : BrkLacksRoom m s.start r.2.1.stop → r.2.2 = m
  ok : MemblockOk r.2.2
  closed : ∀ size align, extendBrk limit r.2.1 size align = .error .bug

/-- **The brk area over its whole life**, along any sequence of modest requests none of which is
refused. -/
theorem brkThenReserve_spec {limit : ℕ} {reqs : List (ℕ × ℕ)} {s : Brk} {m : Memblock}
    (h : BrkOpen limit s) (hlimit : limit < 2 ^ 32) (hkernel : pageOffset ≤ s.start)
    (hreqs : ∀ req ∈ reqs, Modest limit req) (hm : MemblockOk m) :
    Exec.Safe (brkThenReserve limit reqs s m) (BrkReserved limit reqs s m) := by
  refine (runBrk_blocks h hreqs).bind ?_
  rintro ⟨blocks, s₁⟩ hr
  have hstart : s₁.start = s.start := hr.start_eq
  obtain ⟨m', hres, hok, -, -, hlack, hcov⟩ := memblockReserveBrk_cases (m := m) hr.isOpen hlimit
    (hstart ▸ hkernel) hm
  dsimp only at hres hlack hcov ⊢
  rw [hstart] at hlack hcov
  rw [hres]
  refine .ok ⟨hr.carved.imp fun _ _ hc => hc.mono le_rfl hr.isOpen.stop_le, hr.apart, hr.mem_eq,
    fun hroom b hb x hx hx' => ?_, hlack, hok, fun size align => by simp [extendBrk]⟩
  obtain ⟨req, -, hc⟩ := hr.exists_carved hb
  have h₁ := h.start_le
  have h₂ := hc.lo_le
  have h₃ := hc.le_hi
  dsimp only at h₃
  exact hcov hroom x (by omega) (by omega)

/-- Two pages at a page boundary, and a word behind them.  Nothing is reserved yet, so there is room. -/
theorem brkThenReserve_spec_buffer :
    (brkThenReserve 0xc1010000 [(0x2000, 0x1000), (4, 4)]
      ⟨0xc1000000, 0xc1000010, fun _ => 0xff⟩ initMemblock).map Prod.fst =
      .ok [(0xc1001000, 0x2000), (0xc1003000, 4)] ∧
    Exec.Safe (brkThenReserve 0xc1010000 [(0x2000, 0x1000), (4, 4)]
      ⟨0xc1000000, 0xc1000010, fun _ => 0xff⟩ initMemblock)
      (BrkReserved 0xc1010000 [(0x2000, 0x1000), (4, 4)] ⟨0xc1000000, 0xc1000010, fun _ => 0xff⟩
        initMemblock) ∧
    ¬BrkLacksRoom initMemblock 0xc1000000 0xc1003004 := by
  refine ⟨by decide +kernel,
    brkThenReserve_spec ⟨by decide, by decide, by decide⟩ (by decide) (by decide) ?_ memblockOk_init,
    not_lacksRoom memblockOk_init.reserved (by decide) _ _⟩
  intro req hreq
  rcases List.mem_cons.mp hreq with rfl | hreq
  · exact ⟨by decide, by decide⟩
  · rw [List.mem_singleton.mp hreq]
    exact ⟨by decide, by decide⟩

end Sandix
