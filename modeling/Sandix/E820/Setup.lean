import Sandix.E820.Overlay

/-!
# E820/Setup — the memory map, from the BIOS to the kernel

`detect_memory_e820` of `arch/x86/boot/memory.c` asks the BIOS for its map, entry by entry, and
`setup_memory_map` of `arch/x86/kernel/e820.c` sanitizes it in place and copies it into `e820`.  The
BIOS is a parameter: what an `int 0x15` does is a function of a state of its own, of `%ebx` and of the
buffer, which it may change in part.

A map that sanitizing refuses is copied as it is, and so is refused there: with fewer than two entries,
and at the first entry that wraps around.

* `setupMemoryMap_overlay` — whatever the BIOS answers, `setup_memory_map` meets no `BUG_ON`; it panics
  exactly on a map that wraps around or whose overlay has fewer than two entries, and else leaves the
  overlay in `e820`, cut at `E820MAX`.
-/

namespace Sandix

open Machinery

/-! ## Asking the BIOS -/

/-- `SMAP`. -/
abbrev smap : ℕ := 0x534d4150

/-- What an `int 0x15` leaves: the BIOS, the buffer, and the registers `detect_memory_e820` reads. -/
structure BiosReply (β : Type) where
  bios : β
  buf : E820Entry
  eax : ℕ
  ebx : ℕ
  carry : Bool

section Detect

variable {β : Type} (int15 : β → ℕ → E820Entry → BiosReply β)

/-- The loop of `detect_memory_e820`, with room for `room` more entries: the entries stored at `desc`,
and `count`. -/
def detectLoop : ℕ → β → ℕ → E820Entry → List E820Entry → List E820Entry × ℕ
  | 0, _, _, _, desc => (desc, desc.length)
  | room + 1, bios, ebx, buf, desc =>
    let r := int15 bios ebx buf
    if r.carry then (desc, desc.length)
    -- the entries stored so far stay, but do not count
    else if r.eax ≠ smap then (desc, 0)
    else if r.ebx ≠ 0 then detectLoop room r.bios r.ebx r.buf (desc ++ [r.buf])
    else (desc ++ [r.buf], (desc ++ [r.buf]).length)

/-- `detect_memory_e820`: what it leaves in `boot_params.e820_map`, zeroed before, and in
`boot_params.e820_nr_entries`. -/
def detectMemoryE820 (bios : β) : (ℕ → E820Entry) × ℕ :=
  let (desc, count) := detectLoop int15 e820Max.toNat bios 0 ⟨0, 0, 0⟩ []
  (fun i => desc.getD i ⟨0, 0, 0⟩, count)

end Detect

/-! ## The copy -/

/-- `struct e820map`. -/
structure E820Map where
  nrEntries : ℕ
  map : ℕ → E820Entry

/-- `__e820_add_region`. -/
def e820AddRegion (e : E820Map) (start size type : ℕ) : E820Map :=
  if (e.nrEntries : ℤ) ≥ e820Max then e
  else
    { map := Function.update e.map e.nrEntries ⟨start, size, type⟩
      nrEntries := e.nrEntries + 1 }

/-- `__append_e820_map`, on the entries of its array. -/
def appendEntries : List E820Entry → E820Map → ℤ × E820Map
  | [], e => (0, e)
  | ei :: es, e =>
    if ei.addr > ei.stop then (-1, e)
    else appendEntries es (e820AddRegion e ei.addr ei.size ei.type)

/-- `append_e820_map`. -/
def appendE820Map (biosmap : ℕ → E820Entry) (nrMap : ℤ) (e : E820Map) : ℤ × E820Map :=
  if nrMap < 2 then (-1, e) else appendEntries ((List.range nrMap.toNat).map biosmap) e

/-- `boot_params.e820_map` with `boot_params.e820_nr_entries`, `e820` and `e820_bios`. -/
structure BootE820 where
  params : ℕ → E820Entry
  nrParams : ℕ
  e820 : E820Map
  e820Bios : E820Map

/-- `setup_memory_map`; `newBios` is what the static array of `sanitize_e820_map` holds. -/
def setupMemoryMap (newBios : ℕ → E820Entry) (s : BootE820) : Exec BootE820 := do
  -- the return value of `sanitize_e820_map` is dropped
  let (_, params, newNr) ← sanitizeE820Map newBios s.params e820Max s.nrParams
  let r := appendE820Map params (int32 newNr) s.e820
  if r.1 < 0 then .error .panic
  else pure { params, nrParams := newNr, e820 := r.2, e820Bios := r.2 }

/-- The kernel's variables before `setup_memory_map`, with the map that was detected. -/
def detected (map : (ℕ → E820Entry) × ℕ) : BootE820 :=
  ⟨map.1, map.2, ⟨0, fun _ => ⟨0, 0, 0⟩⟩, ⟨0, fun _ => ⟨0, 0, 0⟩⟩⟩

/-! ## What the BIOS reports -/

/-- The fields fit their 64 bits. -/
def E820Entry.Fits (x : E820Entry) : Prop := x.addr < 2 ^ 64 ∧ x.size < 2 ^ 64

section Detect

variable {β : Type} {int15 : β → ℕ → E820Entry → BiosReply β}

theorem detectLoop_spec (hfit : ∀ bios ebx buf, buf.Fits → (int15 bios ebx buf).buf.Fits) :
    ∀ (room : ℕ) (bios : β) (ebx : ℕ) {buf : E820Entry} {desc : List E820Entry}, buf.Fits →
      (∀ x ∈ desc, x.Fits) → (detectLoop int15 room bios ebx buf desc).2 ≤ desc.length + room ∧
        ∀ x ∈ (detectLoop int15 room bios ebx buf desc).1, x.Fits
  | 0, _, _, _, _, _, hdesc => ⟨le_rfl, hdesc⟩
  | room + 1, bios, ebx, buf, desc, hbuf, hdesc => by
      have hnext := hfit bios ebx buf hbuf
      have hall : ∀ x ∈ desc ++ [(int15 bios ebx buf).buf], x.Fits := by
        intro x hx
        rcases List.mem_append.mp hx with hx | hx
        · exact hdesc x hx
        · exact List.mem_singleton.mp hx ▸ hnext
      have hlen : (desc ++ [(int15 bios ebx buf).buf]).length = desc.length + 1 := by
        rw [List.length_append, List.length_singleton]
      simp only [detectLoop]
      split_ifs
      · exact ⟨Nat.le_add_right _ _, hdesc⟩
      · exact ⟨Nat.zero_le _, hdesc⟩
      · have hrec := detectLoop_spec hfit room (int15 bios ebx buf).bios (int15 bios ebx buf).ebx
          hnext hall
        rw [hlen, Nat.add_assoc, Nat.add_comm 1] at hrec
        exact hrec
      · exact ⟨by dsimp only; omega, hall⟩

/-- **Whatever the BIOS answers**: at most `E820MAX` entries. -/
theorem detectMemoryE820_spec (hfit : ∀ bios ebx buf, buf.Fits → (int15 bios ebx buf).buf.Fits)
    (bios : β) : (detectMemoryE820 int15 bios).2 ≤ 128 ∧
      ∀ i, ((detectMemoryE820 int15 bios).1 i).Fits := by
  have hzero : E820Entry.Fits ⟨0, 0, 0⟩ := ⟨by decide, by decide⟩
  obtain ⟨hlen, hall⟩ :=
    detectLoop_spec hfit e820Max.toNat bios 0 hzero (List.forall_mem_nil E820Entry.Fits)
  refine ⟨hlen.trans (by decide), fun i => ?_⟩
  simp only [detectMemoryE820, List.getD_eq_getElem?_getD]
  rcases h : (detectLoop int15 e820Max.toNat bios 0 ⟨0, 0, 0⟩ []).1[i]? with _ | x
  · exact hzero
  · exact hall x (List.mem_of_getElem? h)

end Detect

/-! ## The copy is exact -/

/-- The valid entries. -/
def E820Map.entries (e : E820Map) : List E820Entry := (List.range e.nrEntries).map e.map

@[simp] theorem E820Map.length_entries (e : E820Map) : e.entries.length = e.nrEntries := by
  simp [entries]

theorem e820AddRegion_entries {e : E820Map} (h : e.nrEntries < 128) (start size type : ℕ) :
    (e820AddRegion e start size type).entries = e.entries ++ [⟨start, size, type⟩] := by
  have hroom : ¬(e.nrEntries : ℤ) ≥ e820Max := by
    rw [e820Max]
    omega
  rw [e820AddRegion, if_neg hroom]
  simp only [E820Map.entries, List.range_succ, List.map_append, map_range_update, List.map_cons,
    List.map_nil, Function.update_self]

/-- With room for all of them the entries are copied, unless one wraps around. -/
theorem appendEntries_eq : ∀ {es : List E820Entry} {e : E820Map}, (∀ x ∈ es, x.addr ≤ x.stop) →
    e.nrEntries + es.length ≤ 128 →
    ∃ e', appendEntries es e = (0, e') ∧ e'.entries = e.entries ++ es
  | [], e, _, _ => ⟨e, rfl, (List.append_nil _).symm⟩
  | ei :: es, e, hok, hroom => by
      rw [List.length_cons] at hroom
      have hadd := e820AddRegion_entries (e := e) (by omega) ei.addr ei.size ei.type
      have hlen : (e820AddRegion e ei.addr ei.size ei.type).nrEntries = e.nrEntries + 1 := by
        rw [← E820Map.length_entries, hadd, List.length_append, E820Map.length_entries,
          List.length_singleton]
      obtain ⟨e', happ, hent⟩ := appendEntries_eq (e := e820AddRegion e ei.addr ei.size ei.type)
        (fun x hx => hok x (List.mem_cons_of_mem _ hx)) (by omega)
      refine ⟨e', ?_, by rw [hent, hadd, List.append_assoc]; rfl⟩
      rw [appendEntries, if_neg (not_lt.mpr (hok ei List.mem_cons_self)), happ]

theorem appendEntries_wraps : ∀ {es : List E820Entry} {e : E820Map}, (∃ x ∈ es, x.stop < x.addr) →
    (appendEntries es e).1 = -1
  | [], _, h => by simp at h
  | ei :: es, e, h => by
      rw [appendEntries]
      split_ifs with hwrap
      · rfl
      · obtain ⟨x, hx, hlt⟩ := h
        rcases List.mem_cons.mp hx with rfl | hx
        · exact absurd hlt hwrap
        · exact appendEntries_wraps ⟨x, hx, hlt⟩

/-! ## The overlay and its length -/

section Overlay

variable {biosmap : ℕ → E820Entry} {n : ℕ}

theorem length_buildStep_le (b : Built) (c : ChangeMember) :
    (buildStep biosmap b c).out.length ≤ b.out.length + 1 := by
  simp only [buildStep, Built.closed]
  split_ifs <;> simp

theorem length_build_le (cs : List ChangeMember) (b : Built) :
    (build biosmap cs b).out.length ≤ b.out.length + cs.length := by
  induction cs generalizing b with
  | nil => exact le_rfl
  | cons c cs ih =>
    refine (ih (buildStep biosmap b c)).trans ?_
    rw [List.length_cons]
    have hstep := @length_buildStep_le biosmap b c
    omega

/-- **Sanitizing**: the overlay, of at most two entries for each old one, cut at `E820MAX`. -/
theorem sanitizeE820Map_built (newBios : ℕ → E820Entry) (hfit : ∀ i, (biosmap i).Fits) (h₂ : 2 ≤ n)
    (hn : n ≤ 128) (hok : ∀ i < n, (biosmap i).addr ≤ (biosmap i).stop) :
    ∃ map' nr' overlay, sanitizeE820Map newBios biosmap e820Max n = .ok (0, map', nr') ∧
      IsOverlay ((List.range n).map biosmap) overlay ∧ overlay.length ≤ 2 * n ∧
      (List.range nr').map map' = overlay.take 128 := by
  have hint : int32 n = n := int32_of_lt (by omega)
  have hle : ¬((n : ℤ) > e820Max) := by
    rw [e820Max]
    omega
  have hwraps : NoneWraps biosmap n := by
    intro i hi
    have h₁ := hok i hi
    have h₂ := hfit i
    unfold E820Entry.stop at h₁
    unfold E820Entry.Fits at h₂
    unfold E820Entry.limit
    omega
  obtain ⟨changePoint, hsort, hpts⟩ := sortedPoints hwraps hn
  simp only [sanitizeE820Map]
  rw [if_neg (not_lt.mpr h₂), hint, if_neg hle, Int.toNat_natCast,
    if_neg (by rintro ⟨i, hi, hlt⟩; exact absurd (hok i hi) (not_le.mpr hlt)), hsort, Exec.ok_bind]
  set points := (List.range (changePointList biosmap n).length).map fun i =>
    (changePointList biosmap n).getD (changePoint i) ⟨0, 0⟩ with hpoints
  obtain ⟨p, hbuilt⟩ := (builtInv_init _).run hpts
  refine ⟨_, _, _, rfl, hbuilt.isOverlay hpts, ?_, ?_⟩
  · refine (length_build_le points _).trans ?_
    rw [List.length_nil, Nat.zero_add, hpoints, List.length_map, List.length_range, changePointList,
      List.length_flatMap]
    refine (List.sum_le_card_nsmul _ 2 ?_).trans (by simp [Nat.mul_comm])
    intro x hx
    obtain ⟨i, -, rfl⟩ := List.mem_map.mp hx
    split <;> simp
  · have haddr : ∀ c ∈ points, 0 ≤ c.addr ∧ c.addr < 2 ^ 64 := by
      intro c hc
      obtain ⟨i, hi, -, rfl | rfl⟩ := (hpts.mem c).mp hc
      · exact ⟨Nat.zero_le _, (hfit i).1⟩
      · exact ⟨Nat.zero_le _, hwraps i hi⟩
    have hsweep := sweep_eq_take biosmap e820Max (s := ⟨[], newBios, 0, 0, 0⟩)
      (b := ⟨[], [], 0, 0⟩) ⟨rfl, rfl, rfl, rfl, fun h => absurd rfl h⟩
      (show (0 : ℤ) < e820Max by decide) hpts.sorted haddr
    refine Eq.trans (List.map_congr_left fun i hi => ?_) hsweep
    rw [if_pos (List.mem_range.mp hi)]

/-- An address the overlay covers is covered by an old entry. -/
theorem IsOverlay.limit_lt {es overlay : List E820Entry} (h : IsOverlay es overlay)
    (hes : ∀ x ∈ es, x.limit < 2 ^ 64) {y : E820Entry} (hy : y ∈ overlay) : y.limit < 2 ^ 64 := by
  have hlt : y.addr < y.limit := h.ascending.start_lt_stop hy
  have hlast : y.Has (y.limit - 1) := ⟨Nat.le_sub_one_of_lt hlt, Nat.sub_one_lt (by omega)⟩
  obtain ⟨x, hx, ⟨-, hhas⟩, -⟩ := (h.covers _).mp ⟨y, hy, hlast⟩
  have hle : y.limit ≤ x.limit := Nat.le_of_pred_lt hhas
  exact hle.trans_lt (hes x hx)

end Overlay

/-! ## The whole setup -/

variable {newBios : ℕ → E820Entry} {s : BootE820}

/-- A map that sanitizing leaves alone is copied entry by entry until one is refused. -/
theorem setupMemoryMap_refused (hn : s.nrParams ≤ 128)
    (hbad : s.nrParams < 2 ∨ ∃ i < s.nrParams, (s.params i).stop < (s.params i).addr) :
    setupMemoryMap newBios s = .error .panic := by
  have hint : int32 s.nrParams = s.nrParams := int32_of_lt (by omega)
  have hsan : sanitizeE820Map newBios s.params e820Max s.nrParams =
      .ok (-1, s.params, s.nrParams) := by
    by_cases h₂ : s.nrParams < 2
    · exact if_pos h₂
    · have hle : ¬((s.nrParams : ℤ) > e820Max) := by
        rw [e820Max]
        omega
      simp only [sanitizeE820Map]
      rw [if_neg h₂, hint, if_neg hle, Int.toNat_natCast, if_pos (hbad.resolve_left h₂)]
  have happ : (appendE820Map s.params (int32 s.nrParams) s.e820).1 = -1 := by
    rw [appendE820Map, hint]
    split_ifs with h₂
    · rfl
    · refine appendEntries_wraps ?_
      obtain ⟨i, hi, hlt⟩ := hbad.resolve_left (by omega)
      exact ⟨_, List.mem_map_of_mem (List.mem_range.mpr hi), hlt⟩
  rw [setupMemoryMap, hsan, Exec.ok_bind]
  dsimp only
  rw [happ, if_pos (by decide)]

/-- **Any map of at most `E820MAX` entries.** -/
theorem setupMemoryMap_cases (hfit : ∀ i, (s.params i).Fits) (h₂ : 2 ≤ s.nrParams)
    (hn : s.nrParams ≤ 128) (hok : ∀ i < s.nrParams, (s.params i).addr ≤ (s.params i).stop)
    (hempty : s.e820.nrEntries = 0) : ∃ overlay,
      IsOverlay ((List.range s.nrParams).map s.params) overlay ∧ overlay.length ≤ 2 * s.nrParams ∧
      (overlay.length < 2 → setupMemoryMap newBios s = .error .panic) ∧
      (2 ≤ overlay.length → ∃ s', setupMemoryMap newBios s = .ok s' ∧
        s'.e820.entries = overlay.take 128 ∧ s'.e820Bios = s'.e820) := by
  obtain ⟨map', nr', overlay, hsan, hover, hlen, htake⟩ :=
    sanitizeE820Map_built newBios hfit h₂ hn hok
  have hnr : nr' = min 128 overlay.length := by
    have := congrArg List.length htake
    rwa [List.length_map, List.length_range, List.length_take] at this
  have hint : int32 nr' = nr' := int32_of_lt (by omega)
  refine ⟨overlay, hover, hlen, fun hshort => ?_, fun hlong => ?_⟩
  · have happ : appendE820Map map' nr' s.e820 = (-1, s.e820) := if_pos (by omega)
    rw [setupMemoryMap, hsan, Exec.ok_bind]
    dsimp only
    rw [hint, happ, if_pos (show (-1 : ℤ) < 0 by decide)]
  · have hwrap : ∀ x ∈ (List.range nr').map map', x.addr ≤ x.stop := by
      intro x hx
      rw [htake] at hx
      have hlim : x.limit < 2 ^ 64 := hover.limit_lt (fun y hy => ?_) (List.mem_of_mem_take hx)
      · rw [E820Entry.stop_eq hlim]
        exact Nat.le_add_right _ _
      · obtain ⟨i, hi, rfl⟩ := List.mem_map.mp hy
        have h₁ := hok i (List.mem_range.mp hi)
        have h₂ := hfit i
        unfold E820Entry.stop at h₁
        unfold E820Entry.Fits at h₂
        unfold E820Entry.limit
        omega
    obtain ⟨e', hcopy, hent⟩ := appendEntries_eq (e := s.e820) hwrap (by simp; omega)
    have happ : appendE820Map map' nr' s.e820 = (0, e') := by
      rw [appendE820Map, if_neg (by omega), Int.toNat_natCast, hcopy]
    refine ⟨⟨map', nr', e', e'⟩, ?_, ?_, rfl⟩
    · rw [setupMemoryMap, hsan, Exec.ok_bind]
      dsimp only
      rw [hint, happ, if_neg (show ¬(0 : ℤ) < 0 by decide)]
      rfl
    · have hnil : s.e820.entries = [] := by
        rw [E820Map.entries, hempty]
        rfl
      rw [hent, hnil, List.nil_append, htake]

/-- **From the BIOS to `e820`.**  Whatever the BIOS answers, what was detected is at most `E820MAX`
entries.  When they are fewer than two, or one of them wraps around, the kernel panics.  Otherwise it has
their overlay: it panics when that has fewer than two entries, and else `e820` and `e820_bios` are the
overlay, cut at `E820MAX`, and nothing is cut when the BIOS reported at most 64 entries. -/
theorem setupMemoryMap_overlay {β : Type} (int15 : β → ℕ → E820Entry → BiosReply β)
    (hfit : ∀ bios ebx buf, buf.Fits → (int15 bios ebx buf).buf.Fits) (bios : β)
    (newBios : ℕ → E820Entry) :
    ∃ params nr, detectMemoryE820 int15 bios = (params, nr) ∧ nr ≤ 128 ∧
      ((nr < 2 ∨ ∃ i < nr, (params i).stop < (params i).addr) →
        setupMemoryMap newBios (detected (params, nr)) = .error .panic) ∧
      (2 ≤ nr → (∀ i < nr, (params i).addr ≤ (params i).stop) →
        ∃ overlay, IsOverlay ((List.range nr).map params) overlay ∧ (nr ≤ 64 → overlay.length ≤ 128) ∧
          (overlay.length < 2 → setupMemoryMap newBios (detected (params, nr)) = .error .panic) ∧
          (2 ≤ overlay.length → ∃ s', setupMemoryMap newBios (detected (params, nr)) = .ok s' ∧
            s'.e820.entries = overlay.take 128 ∧ s'.e820Bios = s'.e820)) := by
  obtain ⟨hlen, hall⟩ := detectMemoryE820_spec hfit bios
  refine ⟨_, _, rfl, hlen, fun hbad => ?_, fun h₂ hok => ?_⟩
  · exact setupMemoryMap_refused (s := detected (detectMemoryE820 int15 bios)) hlen hbad
  · obtain ⟨overlay, hover, hle, hshort, hlong⟩ :=
      setupMemoryMap_cases (s := detected (detectMemoryE820 int15 bios)) hall h₂ hlen hok rfl
    exact ⟨overlay, hover, fun hnr => hle.trans (Nat.mul_le_mul_left 2 hnr), hshort, hlong⟩

/-- A BIOS that reports a list. -/
def listBios (es : List E820Entry) (i _ebx : ℕ) (_buf : E820Entry) : BiosReply ℕ :=
  ⟨i + 1, es.getD i ⟨0, 0, 0⟩, smap, if i + 1 < es.length then 1 else 0, false⟩

/-- Low memory, a reserved range inside the next one, and that one. -/
theorem setupMemoryMap_overlay_small :
    ∃ params nr overlay, detectMemoryE820
        (listBios [⟨0, 0x9f000, 1⟩, ⟨0xf0000, 0x10000, 2⟩, ⟨0xe0000, 0x30000, 1⟩]) 0 = (params, nr) ∧
      IsOverlay ((List.range nr).map params) overlay ∧
      (2 ≤ overlay.length → ∃ s', setupMemoryMap (fun _ => ⟨0, 0, 0⟩) (detected (params, nr)) = .ok s' ∧
        s'.e820.entries = overlay.take 128 ∧ s'.e820Bios = s'.e820) := by
  obtain ⟨params, nr, hdet, -, -, hover⟩ := setupMemoryMap_overlay
    (listBios [⟨0, 0x9f000, 1⟩, ⟨0xf0000, 0x10000, 2⟩, ⟨0xe0000, 0x30000, 1⟩]) (fun i _ _ _ => by
      rcases i with _ | _ | _ | i
      all_goals simp [listBios, E820Entry.Fits]) 0 fun _ => ⟨0, 0, 0⟩
  have hnr : nr = 3 := (congrArg Prod.snd hdet).symm
  have hparams : ∀ i < 3, (params i).addr ≤ (params i).stop := by
    rw [show params = _ from (congrArg Prod.fst hdet).symm]
    decide
  obtain ⟨overlay, hover, -, -, hlong⟩ := hover (by omega) (by rwa [hnr])
  exact ⟨params, nr, overlay, hdet, hover, hlong⟩

end Sandix
