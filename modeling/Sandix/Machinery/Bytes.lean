import Mathlib.Tactic

/-!
# Machinery/Bytes — byte memory of a 32-bit machine

Memory maps an address to a byte; addresses are reduced modulo `2 ^ 32` where they are used.  A word is
loaded and stored little-endian.  A block copied out of one memory into another is an `overwrite`, and
so is a word that is loaded and then stored (`store_load`): copies of words, of bytes and of whole
blocks are compared as overwrites, which glue together when they meet or overlap (`overwrite_glue`,
`overwrite_glue_front`).  Two blocks that change places are an `exchange`, two overwrites out of the same
memory.
-/

namespace Machinery

open Function

/-- The `count` bytes at `a`. -/
def bytesAt (mem : ℕ → UInt8) (a count : ℕ) : List UInt8 :=
  (List.range count).map fun i => mem ((a + i) % 2 ^ 32)

theorem length_bytesAt (mem : ℕ → UInt8) (a count : ℕ) : (bytesAt mem a count).length = count := by
  rw [bytesAt, List.length_map, List.length_range]

/-- The little-endian value of the `n` bytes at `a`. -/
def load (m : ℕ → UInt8) (a : ℕ) : ℕ → ℕ
  | 0 => 0
  | n + 1 => (m (a % 2 ^ 32)).toNat + 256 * load m (a + 1) n

/-- The low `n` bytes of `v`, stored little-endian at `a`. -/
def store (m : ℕ → UInt8) (a v : ℕ) : ℕ → ℕ → UInt8
  | 0 => m
  | n + 1 => store (update m (a % 2 ^ 32) (UInt8.ofNat v)) (a + 1) (v / 256) n

theorem load_lt (m : ℕ → UInt8) : ∀ (n a : ℕ), load m a n < 256 ^ n
  | 0, _ => by simp [load]
  | n + 1, a => by
      have hbyte := (m (a % 2 ^ 32)).toNat_lt
      have hrest := load_lt m n (a + 1)
      have hpow : 256 ^ (n + 1) = 256 ^ n * 256 := pow_succ _ _
      rw [load, hpow]
      omega

/-- The `n` bytes at `a` and the `n'` bytes at `b` have none in common. -/
def BlocksApart (a n b n' : ℕ) : Prop := n = 0 ∨ n' = 0 ∨ a + n ≤ b ∨ b + n' ≤ a

instance (a n b n' : ℕ) : Decidable (BlocksApart a n b n') := inferInstanceAs (Decidable (_ ∨ _))

/-! ## Overwriting a block -/

/-- `m` with the `n` bytes at `d` taken from those of `src` at `s`. -/
def overwrite (m : ℕ → UInt8) (d : ℕ) (src : ℕ → UInt8) (s n : ℕ) : ℕ → UInt8 := fun x =>
  if d ≤ x ∧ x < d + n then src (s + (x - d)) else m x

section Overwrite

variable {m src : ℕ → UInt8} {d s n : ℕ}

@[simp] theorem overwrite_zero (m : ℕ → UInt8) (d : ℕ) (src : ℕ → UInt8) (s : ℕ) :
    overwrite m d src s 0 = m := by
  funext x
  rw [overwrite, if_neg (by omega)]

theorem overwrite_of_mem {x : ℕ} (h : d ≤ x ∧ x < d + n) :
    overwrite m d src s n x = src (s + (x - d)) := if_pos h

theorem overwrite_of_notMem {x : ℕ} (h : ¬(d ≤ x ∧ x < d + n)) : overwrite m d src s n x = m x :=
  if_neg h

/-- A block and one that goes on where it ends, or before. -/
theorem overwrite_glue (m : ℕ → UInt8) (d : ℕ) (src : ℕ → UInt8) (s : ℕ) {j k l : ℕ} (hj : j ≤ k)
    (hk : k ≤ j + l) :
    overwrite (overwrite m d src s k) (d + j) src (s + j) l = overwrite m d src s (j + l) := by
  funext x
  by_cases hlast : d + j ≤ x ∧ x < d + j + l
  · rw [overwrite_of_mem hlast, overwrite_of_mem (by omega)]
    congr 1
    omega
  · rw [overwrite_of_notMem hlast]
    by_cases hfirst : d ≤ x ∧ x < d + k
    · rw [overwrite_of_mem hfirst, overwrite_of_mem (by omega)]
    · rw [overwrite_of_notMem hfirst, overwrite_of_notMem (by omega)]

/-- …and one that ends where it starts, or after. -/
theorem overwrite_glue_front (m : ℕ → UInt8) (d : ℕ) (src : ℕ → UInt8) (s : ℕ) {j k l : ℕ}
    (hj : j ≤ k) (hk : k ≤ j + l) :
    overwrite (overwrite m (d + j) src (s + j) l) d src s k = overwrite m d src s (j + l) := by
  funext x
  by_cases hfirst : d ≤ x ∧ x < d + k
  · rw [overwrite_of_mem hfirst, overwrite_of_mem (by omega)]
  · rw [overwrite_of_notMem hfirst]
    by_cases hlast : d + j ≤ x ∧ x < d + j + l
    · rw [overwrite_of_mem hlast, overwrite_of_mem (by omega)]
      congr 1
      omega
    · rw [overwrite_of_notMem hlast, overwrite_of_notMem (by omega)]

/-- Only the bytes copied matter. -/
theorem overwrite_congr {src' : ℕ → UInt8} {s' : ℕ} (h : ∀ i < n, src (s + i) = src' (s' + i)) :
    overwrite m d src s n = overwrite m d src' s' n := by
  funext x
  by_cases hx : d ≤ x ∧ x < d + n
  · rw [overwrite_of_mem hx, overwrite_of_mem hx, h _ (by omega)]
  · rw [overwrite_of_notMem hx, overwrite_of_notMem hx]

/-- Nothing changes when the bytes are there already. -/
theorem overwrite_eq_self_iff : overwrite m d src s n = m ↔ ∀ i < n, m (d + i) = src (s + i) := by
  refine ⟨fun h i hi => ?_, fun h => funext fun x => ?_⟩
  · have hx := congrFun h (d + i)
    rw [overwrite_of_mem (by omega), Nat.add_sub_cancel_left] at hx
    exact hx.symm
  · by_cases hx : d ≤ x ∧ x < d + n
    · rw [overwrite_of_mem hx, ← h _ (by omega), Nat.add_sub_cancel' hx.1]
    · rw [overwrite_of_notMem hx]

/-- **Copying downwards in memory**, piece by piece from the front: what is still to be read is not yet
overwritten. -/
theorem overwrite_forward (h : d ≤ s) (k l : ℕ) :
    overwrite (overwrite m d m s k) (d + k) (overwrite m d m s k) (s + k) l =
      overwrite m d m s (k + l) := by
  have hread : ∀ i < l, overwrite m d m s k (s + k + i) = m (s + k + i) :=
    fun i _ => overwrite_of_notMem (by omega)
  rw [overwrite_congr hread, overwrite_glue m d m s le_rfl (by omega)]

/-- **Copying upwards**, piece by piece from the back. -/
theorem overwrite_backward (h : s ≤ d) (k l : ℕ) :
    overwrite (overwrite m (d + k) m (s + k) l) d (overwrite m (d + k) m (s + k) l) s k =
      overwrite m d m s (k + l) := by
  have hread : ∀ i < k, overwrite m (d + k) m (s + k) l (s + i) = m (s + i) :=
    fun i _ => overwrite_of_notMem (by omega)
  rw [overwrite_congr hread, overwrite_glue_front m d m s le_rfl (by omega)]

/-- One more byte. -/
theorem overwrite_succ (m : ℕ → UInt8) (d : ℕ) (src : ℕ → UInt8) (s k : ℕ) :
    update (overwrite m d src s k) (d + k) (src (s + k)) = overwrite m d src s (k + 1) := by
  funext x
  by_cases hx : x = d + k
  · rw [hx, update_self, overwrite_of_mem (by omega), Nat.add_sub_cancel_left]
  · rw [update_of_ne hx]
    by_cases hx' : d ≤ x ∧ x < d + k
    · rw [overwrite_of_mem hx', overwrite_of_mem (by omega)]
    · rw [overwrite_of_notMem hx', overwrite_of_notMem (by omega)]

/-- One byte. -/
theorem overwrite_one (hd : d < 2 ^ 32) (hs : s < 2 ^ 32) :
    update m (d % 2 ^ 32) (src (s % 2 ^ 32)) = overwrite m d src s 1 := by
  rw [Nat.mod_eq_of_lt hd, Nat.mod_eq_of_lt hs]
  funext x
  by_cases hx : x = d
  · rw [hx, update_self, overwrite_of_mem (by omega), Nat.sub_self, Nat.add_zero]
  · rw [update_of_ne hx, overwrite_of_notMem (by omega)]

/-- **A word that is loaded and then stored is a copied block.** -/
theorem store_load (src : ℕ → UInt8) : ∀ (n : ℕ) {m : ℕ → UInt8} {d s : ℕ}, d + n ≤ 2 ^ 32 →
    s + n ≤ 2 ^ 32 → store m d (load src s n) n = overwrite m d src s n
  | 0, _, _, _, _, _ => by rw [store, overwrite_zero]
  | n + 1, m, d, s, hd, hs => by
      have hbyte := (src (s % 2 ^ 32)).toNat_lt
      have hlow : UInt8.ofNat (load src s (n + 1)) = src (s % 2 ^ 32) := by
        rw [load]
        apply UInt8.toNat_inj.mp
        rw [UInt8.toNat_ofNat']
        omega
      have hrest : load src s (n + 1) / 256 = load src (s + 1) n := by
        rw [load]
        omega
      rw [store, hlow, hrest, overwrite_one (by omega) (by omega),
        store_load src n (by omega) (by omega), overwrite_glue m d src s le_rfl (by omega), Nat.add_comm]

/-- Two words, the lower first. -/
theorem store_load_pair (src : ℕ → UInt8) {n : ℕ} (hd : d + 2 * n ≤ 2 ^ 32) (hs : s + 2 * n ≤ 2 ^ 32) :
    store (store m d (load src s n) n) (d + n) (load src (s + n) n) n =
      overwrite m d src s (2 * n) := by
  rw [store_load src n (by omega) (by omega), store_load src n (by omega) (by omega),
    overwrite_glue m d src s le_rfl (by omega), Nat.two_mul]

/-- …and the higher first. -/
theorem store_load_pair_front (src : ℕ → UInt8) {n : ℕ} (hd : d + 2 * n ≤ 2 ^ 32)
    (hs : s + 2 * n ≤ 2 ^ 32) :
    store (store m (d + n) (load src (s + n) n) n) d (load src s n) n =
      overwrite m d src s (2 * n) := by
  rw [store_load src n (by omega) (by omega), store_load src n (by omega) (by omega),
    overwrite_glue_front m d src s le_rfl (by omega), Nat.two_mul]

/-- Only the low bytes of the value are stored. -/
theorem store_add_mul (hi : ℕ) : ∀ (n : ℕ) {m : ℕ → UInt8} {a v : ℕ},
    store m a (hi * 256 ^ n + v) n = store m a v n
  | 0, _, _, _ => rfl
  | n + 1, m, a, v => by
      have hpow : hi * 256 ^ (n + 1) + v = 256 * (hi * 256 ^ n) + v := by ring
      have hlow : UInt8.ofNat (hi * 256 ^ (n + 1) + v) = UInt8.ofNat v := by
        apply UInt8.toNat_inj.mp
        rw [UInt8.toNat_ofNat', UInt8.toNat_ofNat', hpow]
        omega
      have hdiv : (hi * 256 ^ (n + 1) + v) / 256 = hi * 256 ^ n + v / 256 := by
        rw [hpow]
        omega
      rw [store, store, hlow, hdiv, store_add_mul hi n]

/-- What a load sees. -/
theorem load_congr {m m' : ℕ → UInt8} : ∀ {n a : ℕ}, a + n ≤ 2 ^ 32 →
    (∀ x, a ≤ x → x < a + n → m x = m' x) → load m a n = load m' a n
  | 0, _, _, _ => rfl
  | n + 1, a, ha, hsame => by
      rw [load, load, Nat.mod_eq_of_lt (by omega), hsame a le_rfl (by omega),
        load_congr (by omega) fun x hx hx' => hsame x (by omega) (by omega)]

/-- A load does not see a block it does not meet. -/
theorem load_overwrite {a k : ℕ} (ha : a + k ≤ 2 ^ 32) (hapart : a + k ≤ d ∨ d + n ≤ a) :
    load (overwrite m d src s n) a k = load m a k :=
  load_congr ha fun x hx hx' => overwrite_of_notMem (by omega)

end Overwrite

/-! ## Exchanging two blocks -/

/-- `m` with the `n` bytes at `a` and those at `b` exchanged. -/
def exchange (m : ℕ → UInt8) (a b n : ℕ) : ℕ → UInt8 := overwrite (overwrite m a m b n) b m a n

section Exchange

variable {m : ℕ → UInt8} {a b n x : ℕ}

theorem exchange_of_mem_right (h : b ≤ x ∧ x < b + n) : exchange m a b n x = m (a + (x - b)) :=
  overwrite_of_mem h

theorem exchange_of_mem_left (hab : a = b ∨ a + n ≤ b ∨ b + n ≤ a) (h : a ≤ x ∧ x < a + n) :
    exchange m a b n x = m (b + (x - a)) := by
  rcases hab with rfl | hab
  · exact overwrite_of_mem h
  · rw [exchange, overwrite_of_notMem (by omega), overwrite_of_mem h]

theorem exchange_of_notMem (ha : ¬(a ≤ x ∧ x < a + n)) (hb : ¬(b ≤ x ∧ x < b + n)) :
    exchange m a b n x = m x := by rw [exchange, overwrite_of_notMem hb, overwrite_of_notMem ha]

/-- The first byte, then the others. -/
theorem exchange_succ (hab : a = b ∨ a + (n + 1) ≤ b ∨ b + (n + 1) ≤ a) :
    exchange (exchange m a b 1) (a + 1) (b + 1) n = exchange m a b (n + 1) := by
  funext x
  by_cases hb : b ≤ x ∧ x < b + (n + 1)
  · rw [exchange_of_mem_right hb]
    by_cases hx : x = b
    · rw [exchange_of_notMem (by omega) (by omega), exchange_of_mem_right (by omega)]
    · rw [exchange_of_mem_right (by omega), exchange_of_notMem (by omega) (by omega)]
      congr 1
      omega
  · by_cases ha : a ≤ x ∧ x < a + (n + 1)
    · rw [exchange_of_mem_left hab ha]
      by_cases hx : x = a
      · rw [exchange_of_notMem (by omega) (by omega), exchange_of_mem_left (by omega) (by omega)]
      · rw [exchange_of_mem_left (by omega) (by omega), exchange_of_notMem (by omega) (by omega)]
        congr 1
        omega
    · rw [exchange_of_notMem ha hb, exchange_of_notMem (by omega) (by omega),
        exchange_of_notMem (by omega) (by omega)]

end Exchange

end Machinery
