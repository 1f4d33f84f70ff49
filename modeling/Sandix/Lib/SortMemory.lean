import Sandix.Lib.Sort
import Sandix.Machinery.Bytes

/-!
# Lib/SortMemory — `sort` on the bytes of memory

`sort` with the swap functions of `lib/sort.c`, over byte memory with a log of the addresses that are
read or stored to: a comparison reads its two elements, and a swap reads and stores two.  Each swap
function exchanges the elements it is given (`defaultSwap_eq`), so memory is a `SortView` of its elements
(`byteOps_view`) and two memories that agree on the array are sorted alike (`byteOps_sim`).

With no elements `i = n - size` is negative only as long as `size` fits an `int`.

* `sort_sorts_iff` — `sort` sorts, and reads and stores to no byte but those of the array, exactly when
  there is an element or `size` is at most `2 ^ 31`.
-/

namespace Sandix

open Machinery Function

/-- The bytes of an element. -/
abbrev Element (size : ℕ) := Fin size → UInt8

/-- The element at `a`. -/
def elementAt (size : ℕ) (mem : ℕ → UInt8) (a : ℕ) : Element size := fun k => mem ((a + k) % 2 ^ 32)

/-- Memory, and the addresses that were read or stored to. -/
structure LoggedMemory where
  mem : ℕ → UInt8
  log : List ℕ

/-- `n` bytes from `a` on are read, or stored to. -/
def LoggedMemory.touch (s : LoggedMemory) (a n : ℕ) : LoggedMemory :=
  { s with log := s.log ++ (List.range n).map fun k => (a + k) % 2 ^ 32 }

/-! ## The swap functions -/

/-- `alignment_ok`. -/
def alignmentOk (base align : ℕ) : Bool := base &&& (align - 1) = 0

/-- A word of `n` bytes is loaded from each of `a` and `b` and stored at the other. -/
def wordSwap (n : ℕ) (s : LoggedMemory) (a b : ℕ) : LoggedMemory :=
  let t := load s.mem a n
  let mem := store s.mem a (load s.mem b n) n
  { (s.touch a n).touch b n with mem := store mem b t n }

/-- `u32_swap`. -/
def u32Swap (s : LoggedMemory) (a b : ℕ) (_size : ℤ) : LoggedMemory := wordSwap 4 s a b

/-- `u64_swap`. -/
def u64Swap (s : LoggedMemory) (a b : ℕ) (_size : ℤ) : LoggedMemory := wordSwap 8 s a b

/-- One round of `generic_swap`. -/
def swapByte (s : LoggedMemory) (a b : ℕ) : LoggedMemory :=
  let t := s.mem (a % 2 ^ 32)
  let mem := update s.mem (a % 2 ^ 32) (s.mem (b % 2 ^ 32))
  { (s.touch a 1).touch b 1 with mem := update mem (b % 2 ^ 32) t }

/-- A round of `generic_swap`, and `n` more. -/
def swapBytes (s : LoggedMemory) (a b : ℕ) : ℕ → LoggedMemory
  | 0 => swapByte s a b
  | n + 1 => swapBytes (swapByte s a b) (a + 1) (b + 1) n

/-- `generic_swap`: the loop runs once, and once more for each positive value of `--size`. -/
def genericSwap (s : LoggedMemory) (a b : ℕ) (size : ℤ) : LoggedMemory :=
  swapBytes s a b (size - 1).toNat

/-- The `swap_func` of `sort`, where it is given none. -/
def defaultSwap (base size : ℕ) : LoggedMemory → ℕ → ℕ → ℤ → LoggedMemory :=
  if size = 4 ∧ alignmentOk base 4 then u32Swap
  else if size = 8 ∧ alignmentOk base 8 then u64Swap
  else genericSwap

/-- The calls `sort` makes, for an array at `base` and a comparison of elements, which reads both. -/
def byteOps (base size : ℕ) (cmp : Element size → Element size → ℤ) : SortOps LoggedMemory where
  cmp s x y := (cmp (elementAt size s.mem (base + x)) (elementAt size s.mem (base + y)),
    (s.touch (base + x) size).touch (base + y) size)
  swap s x y := defaultSwap base size s (base + x) (base + y) (int32 size)

/-- `sort(base, num, size, cmp, NULL)`. -/
def sortBytes (fuel base num size : ℕ) (cmp : Element size → Element size → ℤ) (mem : ℕ → UInt8) :
    Exec LoggedMemory := sortWithin (byteOps base size cmp) size fuel num ⟨mem, []⟩

/-! ## A swap is an exchange -/

/-- Since `s`, nothing was read or stored to but `n` bytes from `a` on and `n` from `b` on. -/
def Touches (s s' : LoggedMemory) (a b n : ℕ) : Prop :=
  ∀ x ∈ s'.log, x ∈ s.log ∨ (a ≤ x ∧ x < a + n) ∨ (b ≤ x ∧ x < b + n)

section Exchange

variable {s : LoggedMemory} {a b n : ℕ}

theorem mem_touch (ha : a + n ≤ 2 ^ 32) {x : ℕ} (hx : x ∈ (s.touch a n).log) :
    x ∈ s.log ∨ (a ≤ x ∧ x < a + n) := by
  rcases List.mem_append.mp hx with hx | hx
  · exact Or.inl hx
  · obtain ⟨k, hk, rfl⟩ := List.mem_map.mp hx
    have hlt := List.mem_range.mp hk
    rw [Nat.mod_eq_of_lt (by omega)]
    omega

theorem touches_touch (ha : a + n ≤ 2 ^ 32) (hb : b + n ≤ 2 ^ 32) :
    Touches s ((s.touch a n).touch b n) a b n := by
  intro x hx
  rcases mem_touch hb hx with hx | hx
  · exact (mem_touch ha hx).imp_right Or.inl
  · exact Or.inr (Or.inr hx)

theorem swapByte_eq (ha : a < 2 ^ 32) (hb : b < 2 ^ 32) :
    (swapByte s a b).mem = exchange s.mem a b 1 := by
  rw [swapByte, exchange, @overwrite_one s.mem s.mem a b ha hb,
    @overwrite_one (overwrite s.mem a s.mem b 1) s.mem b a hb ha]

theorem swapBytes_eq : ∀ {n : ℕ} {s : LoggedMemory} {a b : ℕ}, a + (n + 1) ≤ 2 ^ 32 →
    b + (n + 1) ≤ 2 ^ 32 → (a = b ∨ a + (n + 1) ≤ b ∨ b + (n + 1) ≤ a) →
    (swapBytes s a b n).mem = exchange s.mem a b (n + 1) ∧ Touches s (swapBytes s a b n) a b (n + 1)
  | 0, _, _, _, ha, hb, _ => ⟨swapByte_eq (by omega) (by omega), touches_touch ha hb⟩
  | n + 1, s, a, b, ha, hb, hab => by
      have hone : Touches s (swapByte s a b) a b 1 :=
        @touches_touch s a b 1 (by omega) (by omega)
      obtain ⟨hmem, hlog⟩ := @swapBytes_eq n (swapByte s a b) (a + 1) (b + 1) (by omega) (by omega)
        (by omega)
      refine ⟨?_, fun x hx => ?_⟩
      · rw [swapBytes, hmem, swapByte_eq (by omega) (by omega), exchange_succ hab]
      · rcases hlog x hx with hx | hx
        · rcases hone x hx with hx | hx
          · exact Or.inl hx
          · omega
        · omega

theorem wordSwap_eq (ha : a + n ≤ 2 ^ 32) (hb : b + n ≤ 2 ^ 32) :
    (wordSwap n s a b).mem = exchange s.mem a b n ∧ Touches s (wordSwap n s a b) a b n := by
  refine ⟨?_, touches_touch ha hb⟩
  rw [wordSwap]
  dsimp only
  rw [store_load s.mem n ha hb, store_load s.mem n hb ha, exchange]

/-- **Each of the swap functions exchanges the elements**, and touches nothing else. -/
theorem defaultSwap_eq {base size : ℕ} (hsize : 0 < size) (hsize' : size < 2 ^ 31)
    (ha : a + size ≤ 2 ^ 32) (hb : b + size ≤ 2 ^ 32) (hab : a = b ∨ a + size ≤ b ∨ b + size ≤ a) :
    (defaultSwap base size s a b (int32 size)).mem = exchange s.mem a b size ∧
      Touches s (defaultSwap base size s a b (int32 size)) a b size := by
  unfold defaultSwap
  split_ifs with h4 h8
  · rw [h4.1] at ha hb ⊢
    exact wordSwap_eq ha hb
  · rw [h8.1] at ha hb ⊢
    exact wordSwap_eq ha hb
  · obtain ⟨k, rfl⟩ := Nat.exists_eq_succ_of_ne_zero hsize.ne'
    rw [genericSwap, int32_of_lt hsize', show (((k + 1 : ℕ) : ℤ) - 1).toNat = k by omega]
    exact swapBytes_eq ha hb hab

end Exchange

/-! ## Memory as an array -/

section Array

variable {mem mem' : ℕ → UInt8} {base num size i j k : ℕ} {cmp : Element size → Element size → ℤ}

theorem scaled_add_le (hi : i < num) : size * i + size ≤ size * num := by
  rw [← Nat.mul_succ]
  exact Nat.mul_le_mul_left _ hi

theorem scaled_apart (h : i ≠ j) : size * i + size ≤ size * j ∨ size * j + size ≤ size * i := by
  rcases Nat.lt_or_gt_of_ne h with h | h
  · exact Or.inl (scaled_add_le h)
  · exact Or.inr (scaled_add_le h)

/-- The element `k` of the array; there is none from `num` on. -/
def arrayGet (base num size : ℕ) (mem : ℕ → UInt8) (k : ℕ) : Element size :=
  if k < num then elementAt size mem (base + size * k) else fun _ => 0

theorem arrayGet_of_lt (hk : k < num) :
    arrayGet base num size mem k = elementAt size mem (base + size * k) := if_pos hk

variable (hbase : base + size * num ≤ 2 ^ 32)

include hbase

theorem elementAt_exchange (hi : i < num) (hj : j < num) (hk : k < num) :
    elementAt size (exchange mem (base + size * i) (base + size * j) size) (base + size * k) =
      elementAt size mem (base + size * Equiv.swap i j k) := by
  have hile := @scaled_add_le num size i hi
  have hjle := @scaled_add_le num size j hj
  have hkle := @scaled_add_le num size k hk
  have hab : base + size * i = base + size * j ∨ base + size * i + size ≤ base + size * j ∨
      base + size * j + size ≤ base + size * i := by
    by_cases hij : i = j
    · exact Or.inl (by rw [hij])
    · have := @scaled_apart size i j hij
      omega
  funext t
  have ht := t.isLt
  rw [elementAt, elementAt, Nat.mod_eq_of_lt (by omega)]
  by_cases hki : k = i
  · subst hki
    rw [Equiv.swap_apply_left, Nat.mod_eq_of_lt (by omega), exchange_of_mem_left hab (by omega)]
    congr 1
    omega
  · by_cases hkj : k = j
    · subst hkj
      rw [Equiv.swap_apply_right, Nat.mod_eq_of_lt (by omega), exchange_of_mem_right (by omega)]
      congr 1
      omega
    · have hapi := @scaled_apart size k i hki
      have hapj := @scaled_apart size k j hkj
      rw [Equiv.swap_apply_of_ne_of_ne hki hkj, Nat.mod_eq_of_lt (by omega),
        exchange_of_notMem (by omega) (by omega)]

variable (hsize : 0 < size) (hnum : size * num < 2 ^ 31)

include hsize hnum

/-- A swap of two elements of the array. -/
theorem byteOps_swap (s : LoggedMemory) (hi : i < num) (hj : j < num) :
    ((byteOps base size cmp).swap s (size * i) (size * j)).mem =
        exchange s.mem (base + size * i) (base + size * j) size ∧
      Touches s ((byteOps base size cmp).swap s (size * i) (size * j)) (base + size * i)
        (base + size * j) size := by
  have hile := @scaled_add_le num size i hi
  have hjle := @scaled_add_le num size j hj
  refine defaultSwap_eq hsize (by omega) (by omega) (by omega) ?_
  by_cases hij : i = j
  · exact Or.inl (by rw [hij])
  · have := @scaled_apart size i j hij
    omega

/-- **Memory is an array of elements.** -/
theorem byteOps_view :
    SortView (byteOps base size cmp) size num (fun s => arrayGet base num size s.mem) cmp where
  cmp_eq s i j hi hj := by
    rw [arrayGet_of_lt hi, arrayGet_of_lt hj]
    rfl
  cmp_get _ _ _ _ _ := rfl
  swap_eq s i j hi hj := by
    funext k
    rw [(byteOps_swap hbase hsize hnum s hi hj).1, comp_apply]
    by_cases hk : k < num
    · have hswap : Equiv.swap i j k < num := by
        rw [Equiv.swap_apply_def]
        split_ifs <;> assumption
      rw [arrayGet_of_lt hk, arrayGet_of_lt hswap, elementAt_exchange hbase hi hj hk]
    · rw [Equiv.swap_apply_of_ne_of_ne (by omega) (by omega), arrayGet, arrayGet, if_neg hk, if_neg hk]

/-- **Two memories that agree on the array** are sorted alike, keep what differs, and do not touch it. -/
theorem byteOps_sim (mem₀ mem₁ : ℕ → UInt8) :
    SortSim (byteOps base size cmp) (byteOps base size cmp) size num (fun s s' =>
      (∀ k < num, elementAt size s.mem (base + size * k) = elementAt size s'.mem (base + size * k)) ∧
      (∀ x, ¬(base ≤ x ∧ x < base + size * num) → s.mem x = mem₀ x ∧ s'.mem x = mem₁ x) ∧
      ∀ x ∈ s'.log, base ≤ x ∧ x < base + size * num) where
  cmp_eq s s' i j h hi hj := by
    change cmp _ _ = cmp _ _
    rw [h.1 i hi, h.1 j hj]
  cmp s s' i j h hi hj := by
    have hile := @scaled_add_le num size i hi
    have hjle := @scaled_add_le num size j hj
    refine ⟨h.1, h.2.1, fun x hx => ?_⟩
    rcases @touches_touch s' (base + size * i) (base + size * j) size (by omega) (by omega) x hx with
      hx | hx
    · exact h.2.2 x hx
    · omega
  swap s s' i j h hi hj := by
    have hile := @scaled_add_le num size i hi
    have hjle := @scaled_add_le num size j hj
    obtain ⟨hmem, -⟩ := @byteOps_swap base num size i j cmp hbase hsize hnum s hi hj
    obtain ⟨hmem', hlog'⟩ := @byteOps_swap base num size i j cmp hbase hsize hnum s' hi hj
    rw [hmem, hmem']
    refine ⟨fun k hk => ?_, fun x hx => ?_, fun x hx => ?_⟩
    · have hswap : Equiv.swap i j k < num := by
        rw [Equiv.swap_apply_def]
        split_ifs <;> assumption
      rw [elementAt_exchange hbase hi hj hk, elementAt_exchange hbase hi hj hk, h.1 _ hswap]
    · rw [exchange_of_notMem (by omega) (by omega), exchange_of_notMem (by omega) (by omega)]
      exact h.2.1 x hx
    · rcases hlog' x hx with hx | hx
      · exact h.2.2 x hx
      · omega

end Array

/-! ## What `sort` is for -/

/-- The elements of the array. -/
def elements (base num size : ℕ) (mem : ℕ → UInt8) : List (Element size) :=
  (List.range num).map fun k => elementAt size mem (base + size * k)

/-- The array is sorted: whatever memory holds outside of it, `sort` returns, leaves in it the same
elements in order, and reads and stores to no byte outside. -/
def SortsArray (base num size : ℕ) (cmp : Element size → Element size → ℤ) (mem : ℕ → UInt8) : Prop :=
  ∃ out : List (Element size), out.Perm (elements base num size mem) ∧
    out.IsChain (fun a b => cmp a b ≤ 0) ∧
    ∀ mem₁, (∀ x, base ≤ x ∧ x < base + size * num → mem₁ x = mem x) →
      ∃ fuel s', sortBytes fuel base num size cmp mem₁ = .ok s' ∧
        elements base num size s'.mem = out ∧
        (∀ x ∈ s'.log, base ≤ x ∧ x < base + size * num) ∧
        ∀ x, ¬(base ≤ x ∧ x < base + size * num) → s'.mem x = mem₁ x

section Sorts

variable {mem : ℕ → UInt8} {base num size : ℕ} {cmp : Element size → Element size → ℤ}

theorem elements_eq_map (base num size : ℕ) (mem : ℕ → UInt8) :
    elements base num size mem = (List.range num).map (arrayGet base num size mem) :=
  List.map_congr_left fun _ hk => (arrayGet_of_lt (List.mem_range.mp hk)).symm

/-- A permutation of the positions permutes the list. -/
theorem range_map_perm {α : Type} (f : ℕ → α) {π : Equiv.Perm ℕ} (hfix : ∀ k, num ≤ k → π k = k) :
    ((List.range num).map (f ∘ π)).Perm ((List.range num).map f) := by
  have hrange : ((List.range num).map π).Perm (List.range num) := by
    refine (List.perm_ext_iff_of_nodup (List.nodup_range.map π.injective) List.nodup_range).mpr ?_
    intro a
    rw [List.mem_map, List.mem_range]
    constructor
    · rintro ⟨k, hk, rfl⟩
      exact perm_lt hfix (List.mem_range.mp hk)
    · intro ha
      refine ⟨π.symm a, List.mem_range.mpr ?_, π.apply_symm_apply a⟩
      by_contra hge
      have hself := hfix _ (not_lt.mp hge)
      rw [π.apply_symm_apply] at hself
      omega
  have hmap := hrange.map f
  rwa [List.map_map] at hmap

theorem sortsArray_of_pos (hcmp : CmpPreorder cmp) (hbase : base + size * num ≤ 2 ^ 32)
    (hsize : 0 < size) (hnum : size * num < 2 ^ 31) (hpos : 0 < num) :
    SortsArray base num size cmp mem := by
  have hsize' : size < 2 ^ 31 := lt_of_le_of_lt (Nat.le_mul_of_pos_right size hpos) hnum
  have v := @byteOps_view base num size cmp hbase hsize hnum
  obtain ⟨s', hrun, hswaps, hsorted⟩ := sort_sorted v hcmp hsize hsize' hnum ⟨mem, []⟩
  obtain ⟨π, hfix, hget⟩ := hswaps.perm v le_rfl
  refine ⟨elements base num size s'.mem, ?_, ?_, fun mem₁ hsame => ?_⟩
  · rw [elements_eq_map, elements_eq_map, hget]
    exact range_map_perm _ hfix
  · rw [elements_eq_map, List.isChain_iff_getElem]
    intro k hk
    rw [List.length_map, List.length_range] at hk
    simp only [List.getElem_map, List.getElem_range]
    exact hsorted k (k + 1) (by omega) hk
  · have helem : ∀ k < num, elementAt size mem (base + size * k) =
        elementAt size mem₁ (base + size * k) := fun k hk => by
      have hkle := @scaled_add_le num size k hk
      funext t
      have ht := t.isLt
      rw [elementAt, elementAt, Nat.mod_eq_of_lt (by omega), hsame _ (by omega)]
    obtain ⟨t', hrun', hsame', hout, hlog⟩ := @sort_sim LoggedMemory LoggedMemory _ _ size num _
      (@byteOps_sim base num size cmp hbase hsize hnum mem mem₁) hsize hnum hsize' ⟨mem, []⟩ s'
      ⟨mem₁, []⟩ ⟨helem, fun x _ => ⟨rfl, rfl⟩, List.forall_mem_nil _⟩ hrun
    refine ⟨num + 1, t', hrun', ?_, hlog, fun x hx => (hout x hx).2⟩
    exact List.map_congr_left fun k hk => (hsame' k (List.mem_range.mp hk)).symm

/-- No elements are no bytes. -/
theorem no_bytes (size : ℕ) : int32 (u32 ((0 : ℕ) * (size : ℤ))) = 0 := by
  rw [Nat.cast_zero, zero_mul]
  decide

/-- No elements, of a size that fits: neither loop is entered. -/
theorem sortsArray_zero (hsize : 0 < size) (hsize' : size ≤ 2 ^ 31) : SortsArray base 0 size cmp mem := by
  refine ⟨[], List.Perm.refl _, List.isChain_nil, fun mem₁ _ => ⟨1, ⟨mem₁, []⟩, ?_, rfl,
    List.forall_mem_nil _, fun _ _ => rfl⟩⟩
  have hi : int32 (u32 (((0 / 2 : ℕ) - 1) * (size : ℤ))) = -size := by
    rw [show (((0 / 2 : ℕ) : ℤ) - 1) * size = -size by simp]
    exact int32_u32 (by omega) (by omega)
  have hi' : int32 (u32 ((0 : ℤ) - size)) = -size := by
    rw [zero_sub]
    exact int32_u32 (by omega) (by omega)
  rw [sortBytes, sortWithin, no_bytes, hi, hi', Exec.loop_done (b := ⟨mem₁, []⟩), Exec.ok_bind,
    Exec.loop_done (b := ⟨mem₁, []⟩)]
  · rw [sortStep, if_neg (by omega)]
  · rw [heapifyStep, if_neg (by omega)]

/-! ## No elements of a size above `INT_MAX` -/

/-- An element without children is left where it is. -/
theorem sift_childless {σ : Type} {ops : SortOps σ} {fuel : ℕ} {n r : ℤ} {s s' : σ}
    (hr : ¬u32 (r * 2 + size) < u32 n) (h : sift ops size fuel n s r = .ok s') : s' = s := by
  cases fuel with
  | zero => cases h
  | succ fuel =>
    have hstep : siftStep ops size n (s, r) = .ok (.inr s) := if_neg hr
    rw [sift, Exec.loop_done hstep] at h
    exact (Except.ok.inj h).symm

/-- The heapify loop of an empty array compares and swaps nothing. -/
theorem heapifyLoop_empty {σ : Type} {ops : SortOps σ} {fuel fuel' : ℕ} {s s' : σ} {i : ℤ}
    (h : Exec.loop (heapifyStep ops size fuel 0) fuel' (s, i) = .ok s') : s' = s := by
  refine Exec.loop_inv (fun p => p.1 = s) (fun s' => s' = s) ?_ ?_ rfl h
  · rintro ⟨s₁, i⟩ ⟨s₂, i'⟩ rfl hstep
    rw [heapifyStep] at hstep
    split_ifs at hstep
    · obtain ⟨s₃, hsift, hnext⟩ := Exec.bind_eq_ok.mp hstep
      cases hnext
      exact sift_childless (by rw [show u32 0 = 0 by decide]; exact Nat.not_lt_zero _) hsift
    · cases hstep
  · rintro ⟨s₁, i⟩ b rfl hstep
    rw [heapifyStep] at hstep
    split_ifs at hstep
    · obtain ⟨s₃, -, hnext⟩ := Exec.bind_eq_ok.mp hstep
      cases hnext
    · cases hstep
      rfl

section Huge

variable (hsize : 2 ^ 31 < size) (hsize' : size < 2 ^ 32)

include hsize hsize'

/-- A swap of elements of a negative size: one byte each. -/
theorem byteOps_swap_huge (s : LoggedMemory) (x : ℕ) :
    (byteOps base size cmp).swap s 0 x = swapByte s base (base + x) := by
  have hneg : (int32 size - 1).toNat = 0 := by
    unfold int32
    split_ifs <;> omega
  change defaultSwap base size s (base + 0) (base + x) (int32 size) = _
  rw [defaultSwap, if_neg (by omega), if_neg (by omega), genericSwap, hneg, swapBytes, Nat.add_zero]

/-- One round of the sort loop: nothing is sifted. -/
theorem sortStep_huge {fuel : ℕ} {s : LoggedMemory} {i : ℤ} {p : LoggedMemory × ℤ} (hi : 0 < i)
    (hi' : i < 2 ^ 31) (h : sortStep (byteOps base size cmp) size fuel (s, i) = .ok (.inl p)) :
    p = (swapByte s base (base + i.toNat), int32 (u32 (i - size))) := by
  have hu : u32 i = i.toNat := by
    rw [u32]
    omega
  have hr : ¬u32 ((0 : ℤ) * 2 + size) < u32 i := by
    rw [zero_mul, zero_add, hu, u32_natCast hsize']
    omega
  rw [sortStep, if_pos hi] at h
  obtain ⟨s₁, hsift, hnext⟩ := Exec.bind_eq_ok.mp h
  rw [sift_childless hr hsift, hu, byteOps_swap_huge hsize hsize'] at hnext
  exact (Sum.inl.inj (Except.ok.inj hnext)).symm

/-- **The sort loop of an empty array**, where `n - size` is positive: it starts with a swap of the byte
at `base` and the one `2 ^ 32 - size` above it. -/
theorem sortLoop_huge (hbase : base < 2 ^ 32) {d : ℕ} (hd : d + size = 2 ^ 32) {fuel fuel' : ℕ}
    {s s' : LoggedMemory}
    (h : Exec.loop (sortStep (byteOps base size cmp) size fuel) fuel' (s, (d : ℤ)) = .ok s') :
    s'.mem ((base + d) % 2 ^ 32) = s.mem base := by
  have hnext : ∀ i : ℤ, d ≤ i → i < 2 ^ 31 →
      ((d : ℤ) < int32 (u32 (i - size)) ∧ int32 (u32 (i - size)) < 2 ^ 31) ∨
        int32 (u32 (i - size)) < 0 := by
    intro i hi hi'
    unfold int32 u32
    split_ifs <;> omega
  refine Exec.loop_inv (fun p => (p.2 = (d : ℤ) ∧ p.1 = s) ∨
      (((d : ℤ) < p.2 ∧ p.2 < 2 ^ 31 ∨ p.2 < 0) ∧ p.1.mem ((base + d) % 2 ^ 32) = s.mem base))
    (fun s' => s'.mem ((base + d) % 2 ^ 32) = s.mem base) ?_ ?_ (Or.inl ⟨rfl, rfl⟩) h
  · rintro ⟨s₁, i⟩ p hI hstep
    right
    rcases hI with ⟨hi, hs⟩ | ⟨⟨hi, hi'⟩ | hi, hs⟩
    · dsimp only at hi hs
      subst hi hs
      rw [sortStep_huge hsize hsize' (by omega) (by omega) hstep]
      dsimp only
      refine ⟨hnext d le_rfl (by omega), ?_⟩
      rw [swapByte, Int.toNat_natCast]
      dsimp only
      rw [update_self, Nat.mod_eq_of_lt hbase]
    · dsimp only at hi hi' hs
      rw [sortStep_huge hsize hsize' (by omega) hi' hstep]
      dsimp only
      refine ⟨hnext i (by omega) hi', ?_⟩
      rw [swapByte]
      dsimp only
      rw [update_of_ne (by omega), update_of_ne (by omega), hs]
    · dsimp only at hi
      rw [sortStep, if_neg (by omega)] at hstep
      cases hstep
  · rintro ⟨s₁, i⟩ b hI hstep
    dsimp only at hI
    rw [sortStep] at hstep
    split_ifs at hstep with hpos
    · obtain ⟨s₂, -, hnext⟩ := Exec.bind_eq_ok.mp hstep
      cases hnext
    · cases hstep
      rcases hI with ⟨hi, -⟩ | ⟨-, hs⟩
      · omega
      · exact hs

/-- Bytes outside the empty array are exchanged. -/
theorem not_sortsArray_huge (hbase : base < 2 ^ 32) : ¬SortsArray base 0 size cmp mem := by
  rintro ⟨out, -, -, hall⟩
  obtain ⟨fuel, s', hrun, -, -, hout⟩ := hall (fun x => if x = base then 1 else 0) fun x hx => by omega
  rw [sortBytes, sortWithin, Exec.bind_eq_ok] at hrun
  obtain ⟨s, hheap, hsort⟩ := hrun
  obtain ⟨d, hd⟩ : ∃ d, d + size = 2 ^ 32 := ⟨2 ^ 32 - size, Nat.sub_add_cancel hsize'.le⟩
  have hi : int32 (u32 ((0 : ℤ) - size)) = d := by
    unfold int32 u32
    split_ifs <;> omega
  rw [no_bytes] at hheap hsort
  rw [hi, heapifyLoop_empty hheap] at hsort
  have hmoved := sortLoop_huge hsize hsize' hbase hd hsort
  rw [hout _ (by omega), if_neg (by omega)] at hmoved
  dsimp only at hmoved
  rw [if_pos rfl] at hmoved
  exact absurd hmoved (by decide)

end Huge

end Sorts

/-- **When `sort` sorts.**  For every array of at most `INT_MAX` bytes and every comparison that is a
total preorder: the array ends in order, a permutation of what it was, and no byte outside of it is read
or stored to — unless there is no element and the size of one is above `2 ^ 31`. -/
theorem sort_sorts_iff {base num size : ℕ} {cmp : Element size → Element size → ℤ}
    (hcmp : CmpPreorder cmp) (hsize : 0 < size) (hsize' : size < 2 ^ 32) (hnum : num * size ≤ 2 ^ 31 - 1)
    (hbase : base < 2 ^ 32) (hend : base + num * size ≤ 2 ^ 32) (mem : ℕ → UInt8) :
    SortsArray base num size cmp mem ↔ num ≠ 0 ∨ size ≤ 2 ^ 31 := by
  rw [Nat.mul_comm] at hnum hend
  constructor
  · intro h
    by_contra hcon
    rw [not_or, not_not, not_le] at hcon
    obtain ⟨rfl, hhuge⟩ := hcon
    exact not_sortsArray_huge hhuge hsize' hbase h
  · intro h
    rcases Nat.eq_zero_or_pos num with rfl | hpos
    · exact sortsArray_zero hsize (h.resolve_left fun hne => hne rfl)
    · exact sortsArray_of_pos hcmp hend hsize (by omega) hpos

/-- Two bytes, ordered by their values. -/
theorem sort_sorts_two :
    SortsArray 0x1000 2 1 (fun a b => ((a 0).toNat : ℤ) - (b 0).toNat) fun x => UInt8.ofNat (0x1001 - x) :=
  (sort_sorts_iff ⟨fun a b => by omega, fun a b c h₁ h₂ => by omega⟩ (by decide) (by decide) (by decide)
    (by decide) (by decide) _).mpr (Or.inl (by decide))

/-- No elements of `2 ^ 31 + 1` bytes: the byte at `base` changes places with the one `INT_MAX` above. -/
theorem sort_sorts_none_huge :
    CmpPreorder (fun _ _ : Element (2 ^ 31 + 1) => 0) ∧ 0 * (2 ^ 31 + 1) ≤ 2 ^ 31 - 1 ∧
      ¬SortsArray 0 0 (2 ^ 31 + 1) (fun _ _ => 0) fun _ => 0 :=
  ⟨⟨fun _ _ => Iff.rfl, fun _ _ _ _ _ => le_rfl⟩, by decide,
    not_sortsArray_huge (by decide) (by decide) (by decide)⟩

end Sandix
