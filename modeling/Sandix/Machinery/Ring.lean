import Mathlib.Data.List.Cycle
import Mathlib.Tactic

/-!
# Machinery/Ring — circular doubly linked lists

The links of a store are two functions, the successor and the predecessor of each node.  A list of nodes
is a `Ring` when each is joined to the next, and the last to the first.  Where a ring starts is of no
matter (`ring_append_comm`), so an edit at a node is proved with that node in front: a node is put
behind it (`Ring.insert`), it is taken out (`Ring.remove`), another takes its place (`Ring.replace`).
-/

namespace Machinery

open List

/-- The successor and the predecessor of each node. -/
structure Links (α : Type) where
  next : α → α
  prev : α → α

namespace Links

variable {α : Type} {m m' : Links α} {x y : α} {l : List α}

/-- `y` follows `x`, seen from both. -/
def Joined (m : Links α) (x y : α) : Prop := m.next x = y ∧ m.prev y = x

/-- The nodes are joined in turn, the last to the first. -/
def Ring (m : Links α) (l : List α) : Prop := Cycle.Chain m.Joined (l : Cycle α)

/-- The same links, the other way round. -/
def flip (m : Links α) : Links α := ⟨m.prev, m.next⟩

theorem ring_nil (m : Links α) : m.Ring [] := Cycle.Chain.nil _

theorem ring_cons : m.Ring (x :: l) ↔ IsChain m.Joined (x :: (l ++ [x])) := Cycle.chain_coe_cons _ _ _

theorem ring_rotated {l' : List α} (h : l ~r l') : m.Ring l ↔ m.Ring l' := by
  rw [Ring, Ring, Cycle.coe_eq_coe.mpr h]

theorem ring_append_comm {a b : List α} : m.Ring (a ++ b) ↔ m.Ring (b ++ a) :=
  ring_rotated isRotated_append

/-- A chain is kept as long as its nodes but the last keep their successors, and its nodes but the
first their predecessors. -/
theorem isChain_congr : ∀ {l : List α}, (∀ a ∈ l.dropLast, m'.next a = m.next a) →
    (∀ b ∈ l.tail, m'.prev b = m.prev b) → IsChain m.Joined l → IsChain m'.Joined l
  | [], _, _, _ => isChain_nil
  | [a], _, _, _ => isChain_singleton a
  | a :: b :: l, hn, hp, h => by
      rw [isChain_cons_cons] at h ⊢
      refine ⟨⟨(hn a (by simp)).trans h.1.1, (hp b (by simp)).trans h.1.2⟩, ?_⟩
      refine isChain_congr (fun c hc => hn c ?_) (fun c hc => hp c (mem_cons_of_mem b hc)) h.2
      rw [dropLast_cons_cons]
      exact mem_cons_of_mem a hc

/-- Only the nodes of the ring matter. -/
theorem Ring.congr (h : m.Ring l) (hsame : ∀ a ∈ l, m'.next a = m.next a ∧ m'.prev a = m.prev a) :
    m'.Ring l := by
  cases l with
  | nil => exact ring_nil m'
  | cons x l =>
    have hmem : ∀ a ∈ x :: (l ++ [x]), a ∈ x :: l := fun a ha => by
      rw [mem_cons, mem_append, mem_singleton] at ha
      rw [mem_cons]
      tauto
    refine ring_cons.mpr (isChain_congr (fun a ha => ?_) (fun a ha => ?_) (ring_cons.mp h))
    · exact (hsame a (hmem a (mem_of_mem_dropLast ha))).1
    · exact (hsame a (hmem a (mem_of_mem_tail ha))).2

/-- Backwards, the ring is its own reverse. -/
theorem Ring.flip (h : m.Ring (x :: l)) : m.flip.Ring (x :: l.reverse) := by
  have hchain := isChain_reverse.mpr (ring_cons.mp h)
  rw [ring_cons]
  simp only [reverse_cons, reverse_append, reverse_nil, nil_append, cons_append] at hchain
  exact hchain.imp fun a b hab => ⟨hab.2, hab.1⟩

theorem ring_singleton : m.Ring [x] ↔ m.next x = x ∧ m.prev x = x := Cycle.chain_singleton _ _

/-- The neighbours of a node that is not alone. -/
theorem Ring.neighbours (h : m.Ring (x :: l)) (hne : l ≠ []) :
    (∃ r, l = m.next x :: r) ∧ ∃ r, l = r ++ [m.prev x] := by
  rw [ring_cons] at h
  constructor
  · obtain ⟨n, r, rfl⟩ := exists_cons_of_ne_nil hne
    rw [cons_append, isChain_cons_cons] at h
    exact ⟨r, by rw [h.1.1]⟩
  · obtain ⟨r, p, rfl⟩ := (eq_nil_or_concat l).resolve_left hne
    rw [concat_eq_append, append_assoc, singleton_append, ← cons_append, isChain_append_cons_cons] at h
    exact ⟨r, by rw [h.2.1.2, concat_eq_append]⟩

theorem Ring.next_mem (h : m.Ring (x :: l)) : m.next x ∈ x :: l := by
  by_cases hne : l = []
  · subst hne
    rw [(ring_singleton.mp h).1]
    exact mem_singleton_self x
  · obtain ⟨⟨r, hr⟩, -⟩ := h.neighbours hne
    rw [hr]
    exact mem_cons_of_mem x mem_cons_self

theorem Ring.prev_mem (h : m.Ring (x :: l)) : m.prev x ∈ x :: l := by
  by_cases hne : l = []
  · subst hne
    rw [(ring_singleton.mp h).2]
    exact mem_singleton_self x
  · obtain ⟨-, r, hr⟩ := h.neighbours hne
    rw [hr]
    exact mem_cons_of_mem x (mem_append_right r (mem_singleton_self _))

/-- **A node put behind `x`.** -/
theorem Ring.insert (h : m.Ring (x :: l)) (hnd : (x :: l).Nodup) (hx : m'.next x = y)
    (hyn : m'.next y = m.next x) (hn : m'.prev (m.next x) = y) (hyp : m'.prev y = x)
    (hnext : ∀ a ∈ l, m'.next a = m.next a) (hprev : ∀ a ∈ x :: l, a ≠ m.next x → m'.prev a = m.prev a) :
    m'.Ring (x :: y :: l) := by
  rw [ring_cons] at h ⊢
  have hnd' : (l ++ [x]).Nodup := by
    rw [← List.singleton_append] at hnd
    exact nodup_append_comm.mp hnd
  obtain ⟨n, r, hr⟩ := exists_cons_of_ne_nil (append_ne_nil_of_right_ne_nil l (cons_ne_nil x []))
  rw [cons_append]
  have hdrop : (l ++ [x]).dropLast = l := dropLast_concat
  have hmem : ∀ a ∈ l ++ [x], a ∈ x :: l := fun a ha => by simpa [or_comm] using ha
  rw [hr] at h hnd' hdrop hmem ⊢
  rw [isChain_cons_cons] at h
  obtain ⟨⟨hxn, -⟩, hchain⟩ := h
  rw [hxn] at hyn hn hprev
  rw [isChain_cons_cons, isChain_cons_cons]
  refine ⟨⟨hx, hyp⟩, ⟨hyn, hn⟩, isChain_congr (fun a ha => hnext a (hdrop ▸ ha)) (fun a ha => ?_) hchain⟩
  refine hprev a (hmem a (mem_cons_of_mem n ha)) ?_
  rintro rfl
  exact (nodup_cons.mp hnd').1 ha

/-- **A node put before `x`**: behind it, the other way round. -/
theorem Ring.insert_before (h : m.Ring (x :: l)) (hnd : (x :: l).Nodup) (hx : m'.prev x = y)
    (hyp : m'.prev y = m.prev x) (hp : m'.next (m.prev x) = y) (hyn : m'.next y = x)
    (hprev : ∀ a ∈ l, m'.prev a = m.prev a) (hnext : ∀ a ∈ x :: l, a ≠ m.prev x → m'.next a = m.next a) :
    m'.Ring (y :: x :: l) := by
  have hnd' : (x :: l.reverse).Nodup := by
    rw [nodup_cons, mem_reverse, nodup_reverse]
    exact nodup_cons.mp hnd
  have hback : m'.flip.Ring (x :: y :: l.reverse) := by
    refine Ring.insert h.flip hnd' hx hyp hp hyn (fun a ha => hprev a (mem_reverse.mp ha))
      fun a ha hne => ?_
    rw [mem_cons, mem_reverse, ← mem_cons] at ha
    exact hnext a ha hne
  have hring := hback.flip
  rw [reverse_cons, reverse_reverse, ← cons_append] at hring
  exact ring_append_comm.mp hring

/-- The inside of a list whose ends are rejoined. -/
theorem isChain_inside {n p : α} {l a b : List α} (ha : l = n :: a) (hb : l = b ++ [p]) (hnd : l.Nodup)
    (h : IsChain m.Joined l) (hnext : ∀ c ∈ l, c ≠ p → m'.next c = m.next c)
    (hprev : ∀ c ∈ l, c ≠ n → m'.prev c = m.prev c) : IsChain m'.Joined l := by
  refine isChain_congr (fun c hc => hnext c (mem_of_mem_dropLast hc) ?_)
    (fun c hc => hprev c (mem_of_mem_tail hc) ?_) h
  · rintro rfl
    rw [hb, dropLast_concat] at hc
    rw [hb] at hnd
    exact disjoint_of_nodup_append hnd hc (mem_singleton_self c)
  · rintro rfl
    rw [ha, tail_cons] at hc
    rw [ha] at hnd
    exact (nodup_cons.mp hnd).1 hc

/-- **`x` taken out.** -/
theorem Ring.remove (h : m.Ring (x :: l)) (hnd : (x :: l).Nodup) (hp : m'.next (m.prev x) = m.next x)
    (hn : m'.prev (m.next x) = m.prev x) (hnext : ∀ a ∈ l, a ≠ m.prev x → m'.next a = m.next a)
    (hprev : ∀ a ∈ l, a ≠ m.next x → m'.prev a = m.prev a) : m'.Ring l := by
  by_cases hne : l = []
  · rw [hne]
    exact ring_nil m'
  obtain ⟨⟨a, ha⟩, b, hb⟩ := h.neighbours hne
  have hchain := isChain_inside ha hb (nodup_cons.mp hnd).2
    (isChain_append.mp (isChain_cons.mp (ring_cons.mp h)).2).1 hnext hprev
  have hring : m'.Ring (m.next x :: a) := by
    rw [ring_cons, ← cons_append, ← ha, hb, append_assoc, singleton_append, isChain_append_cons_cons]
    rw [hb] at hchain
    exact ⟨hchain, ⟨hp, hn⟩, isChain_singleton _⟩
  rwa [ha]

/-- **Another node in the place of `x`**, which is not alone. -/
theorem Ring.replace (h : m.Ring (x :: l)) (hnd : (x :: l).Nodup) (hne : l ≠ [])
    (hp : m'.next (m.prev x) = y) (hn : m'.prev (m.next x) = y) (hyn : m'.next y = m.next x)
    (hyp : m'.prev y = m.prev x) (hnext : ∀ a ∈ l, a ≠ m.prev x → m'.next a = m.next a)
    (hprev : ∀ a ∈ l, a ≠ m.next x → m'.prev a = m.prev a) : m'.Ring (y :: l) := by
  obtain ⟨⟨a, ha⟩, b, hb⟩ := h.neighbours hne
  have hchain := isChain_inside ha hb (nodup_cons.mp hnd).2
    (isChain_append.mp (isChain_cons.mp (ring_cons.mp h)).2).1 hnext hprev
  have hend : IsChain m'.Joined (l ++ [y]) := by
    rw [hb, append_assoc, singleton_append, isChain_append_cons_cons]
    rw [hb] at hchain
    exact ⟨hchain, ⟨hp, hyp⟩, isChain_singleton _⟩
  rw [ring_cons]
  rw [ha, cons_append] at hend ⊢
  exact isChain_cons_cons.mpr ⟨⟨hyn, hn⟩, hend⟩

end Links

end Machinery
