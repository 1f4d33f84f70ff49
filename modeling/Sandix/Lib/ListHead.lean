import Sandix.Machinery.Exec
import Sandix.Machinery.Ring

/-!
# Lib/ListHead — the circular lists of `include/sandix/list.h`

A `struct list_head` is a node, named by its address; memory holds its `next` and `prev`.  A family of
lists is a family of rings, each written from its head on (`Rings`); the operations are edits of these
sequences.

`list_replace` stores to the neighbours of `old` before it reads them for `new`.  Where `old` is alone its
neighbours are `old` itself, and `new` is left with `old` before it.

* `list_refines_iff` — an operation is its edit of the sequences, traversed either way, unless it
  replaces a node that is alone in its ring.
-/

namespace Sandix

open Machinery Function

/-! ## The operations -/

section Model

variable {α β : Type} [DecidableEq α] (m : Links α)

/-- `x->next = v`. -/
def setNext (x v : α) : Links α := { m with next := update m.next x v }

/-- `x->prev = v`. -/
def setPrev (x v : α) : Links α := { m with prev := update m.prev x v }

/-- `INIT_LIST_HEAD`. -/
def initListHead (list : α) : Links α := setPrev (setNext m list list) list list

/-- `__list_add`. -/
def rawListAdd (new prev next : α) : Links α :=
  let m := setNext m prev new
  let m := setPrev m next new
  let m := setNext m new next
  setPrev m new prev

/-- `__list_del`. -/
def rawListDel (prev next : α) : Links α := setPrev (setNext m prev next) next prev

/-- `list_add`. -/
def listAdd (new head : α) : Links α := rawListAdd m new head (m.next head)

/-- `list_add_tail`. -/
def listAddTail (new head : α) : Links α := rawListAdd m new (m.prev head) head

/-- `list_del`. -/
def listDel (entry : α) : Links α := rawListDel m (m.prev entry) (m.next entry)

/-- `list_del_init`. -/
def listDelInit (entry : α) : Links α :=
  initListHead (rawListDel m (m.prev entry) (m.next entry)) entry

/-- `list_replace`. -/
def listReplace (old new : α) : Links α :=
  let m := setNext m (m.prev old) new
  let m := setPrev m (m.next old) new
  let m := setPrev m new (m.prev old)
  setNext m new (m.next old)

/-- `list_replace_init`. -/
def listReplaceInit (old new : α) : Links α := initListHead (listReplace m old new) old

/-- `list_move`. -/
def listMove (list head : α) : Links α := listAdd (listDel m list) list head

/-- `list_move_tail`. -/
def listMoveTail (list head : α) : Links α := listAddTail (listDel m list) list head

/-- One round of a traversal: `link` leads on, `entry` is `list_entry` and `member` its inverse, the
address of the node in the structure. -/
def listVisitStep (link : α → α) (entry : α → β) (member : β → α) (head : α) :
    β × List β → Exec (β × List β ⊕ List β)
  | (pos, seen) =>
    if member pos ≠ head then .ok (.inl (entry (link (member pos)), seen ++ [pos]))
    else .ok (.inr seen)

/-- `list_for_each_entry`: the structures visited. -/
def listForEachEntry (entry : α → β) (member : β → α) (head : α) (fuel : ℕ) : Exec (List β) :=
  Exec.loop (listVisitStep m.next entry member head) fuel (entry (m.next head), [])

/-- `list_for_each_entry_reverse`. -/
def listForEachEntryReverse (entry : α → β) (member : β → α) (head : α) (fuel : ℕ) : Exec (List β) :=
  Exec.loop (listVisitStep m.prev entry member head) fuel (entry (m.prev head), [])

/-- `list_for_each`. -/
def listForEach (head : α) (fuel : ℕ) : Exec (List α) := listForEachEntry m id id head fuel

/-- `list_for_each_prev`. -/
def listForEachPrev (head : α) (fuel : ℕ) : Exec (List α) := listForEachEntryReverse m id id head fuel

end Model

/-! ## Traversal -/

section Traversal

variable {α β : Type} [DecidableEq α] {m : Links α} {entry : α → β} {member : β → α} {head : α}

/-- The rest of the ring is visited, up to the head. -/
theorem listVisitLoop (hentry : ∀ a, member (entry a) = a) : ∀ {seq : List α} {x : α} {seen : List β}
    {fuel : ℕ}, List.IsChain m.Joined (x :: (seq ++ [head])) → head ∉ seq → seq.length < fuel →
    Exec.loop (listVisitStep m.next entry member head) fuel (entry (m.next x), seen) =
      .ok (seen ++ seq.map entry)
  | [], x, seen, fuel + 1, h, _, _ => by
      rw [List.nil_append, List.isChain_pair] at h
      rw [h.1, List.map_nil, List.append_nil]
      refine Exec.loop_done ?_
      rw [listVisitStep, hentry, if_neg (not_not.mpr rfl)]
  | y :: seq, x, seen, fuel + 1, h, hhead, hfuel => by
      rw [List.mem_cons, not_or] at hhead
      rw [List.cons_append, List.isChain_cons_cons] at h
      have hstep : listVisitStep m.next entry member head (entry (m.next x), seen) =
          .ok (.inl (entry (m.next y), seen ++ [entry y])) := by
        rw [listVisitStep, hentry, h.1.1, if_pos (Ne.symm hhead.1)]
      rw [Exec.loop_next hstep, listVisitLoop hentry h.2 hhead.2 (Nat.lt_of_succ_lt_succ hfuel),
        List.map_cons, List.append_assoc, List.singleton_append]

/-- **A ring is traversed in order.** -/
theorem listForEachEntry_ring (hentry : ∀ a, member (entry a) = a) {seq : List α} {fuel : ℕ}
    (h : m.Ring (head :: seq)) (hnd : (head :: seq).Nodup) (hfuel : seq.length < fuel) :
    listForEachEntry m entry member head fuel = .ok (seq.map entry) :=
  (listVisitLoop hentry (Links.ring_cons.mp h) (List.nodup_cons.mp hnd).1 hfuel).trans
    (by rw [List.nil_append])

/-- …and backwards in the reverse order. -/
theorem listForEachEntryReverse_ring (hentry : ∀ a, member (entry a) = a) {seq : List α} {fuel : ℕ}
    (h : m.Ring (head :: seq)) (hnd : (head :: seq).Nodup) (hfuel : seq.length < fuel) :
    listForEachEntryReverse m entry member head fuel = .ok (seq.reverse.map entry) := by
  have hnd' : (head :: seq.reverse).Nodup := by
    rw [List.nodup_cons, List.mem_reverse, List.nodup_reverse]
    exact List.nodup_cons.mp hnd
  exact listForEachEntry_ring hentry h.flip hnd' (by rwa [List.length_reverse])

end Traversal

/-! ## What the stores change -/

section Stores

variable {α : Type} [DecidableEq α] {m : Links α} {new x p n : α}

/-- The links of a node are left. -/
def SameLinks (m m' : Links α) (a : α) : Prop := m'.next a = m.next a ∧ m'.prev a = m.prev a

theorem rawListAdd_next (a : α) : (rawListAdd m new p n).next a =
    if a = new then n else if a = p then new else m.next a := by
  simp only [rawListAdd, setNext, setPrev, update_apply]

theorem rawListAdd_prev (a : α) : (rawListAdd m new p n).prev a =
    if a = new then p else if a = n then new else m.prev a := by
  simp only [rawListAdd, setNext, setPrev, update_apply]

theorem rawListDel_next (a : α) : (rawListDel m p n).next a = if a = p then n else m.next a := by
  simp only [rawListDel, setNext, setPrev, update_apply]

theorem rawListDel_prev (a : α) : (rawListDel m p n).prev a = if a = n then p else m.prev a := by
  simp only [rawListDel, setNext, setPrev, update_apply]

/-- Where `old` is not its own neighbour, `list_replace` joins `new` to the neighbours it had. -/
theorem listReplace_next {old : α} (hp : m.prev old ≠ old) (a : α) : (listReplace m old new).next a =
    if a = new then m.next old else if a = m.prev old then new else m.next a := by
  simp only [listReplace, setNext, setPrev, update_apply, if_neg (Ne.symm hp)]

theorem listReplace_prev {old : α} (hp : m.prev old ≠ old) (hn : m.next old ≠ old) (a : α) :
    (listReplace m old new).prev a =
      if a = new then m.prev old else if a = m.next old then new else m.prev a := by
  simp only [listReplace, setNext, setPrev, update_apply, if_neg (Ne.symm hp), if_neg (Ne.symm hn)]

/-- …and where it is, `new` is left with `old` before it. -/
theorem listReplace_alone {old : α} (hp : m.prev old = old) (hne : old ≠ new) :
    (listReplace m old new).prev new = old := by
  simp only [listReplace, setNext, setPrev, update_apply, hp, if_true, if_neg hne]

theorem initListHead_self (m : Links α) (x : α) :
    (initListHead m x).next x = x ∧ (initListHead m x).prev x = x := by
  simp only [initListHead, setNext, setPrev, update_self, and_self]

theorem initListHead_of_ne {a : α} (h : a ≠ x) : SameLinks m (initListHead m x) a := by
  simp only [SameLinks, initListHead, setNext, setPrev, update_of_ne h, and_self]

end Stores

/-! ## One ring -/

section OneRing

variable {α : Type} [DecidableEq α] {m : Links α} {new x : α} {l : List α}

section Add

variable (h : m.Ring (x :: l)) (hnd : (x :: l).Nodup) (hnew : new ∉ x :: l)

include h hnd hnew

theorem listAdd_ring : (listAdd m new x).Ring (x :: new :: l) ∧
    ∀ a, a ∉ x :: l → a ≠ new → SameLinks m (listAdd m new x) a := by
  have hxn : x ≠ new := ne_of_mem_of_not_mem List.mem_cons_self hnew
  have hnn : m.next x ≠ new := ne_of_mem_of_not_mem h.next_mem hnew
  refine ⟨h.insert hnd ?_ ?_ ?_ ?_ (fun a ha => ?_) fun a ha hne => ?_, fun a ha hne => ⟨?_, ?_⟩⟩
  · rw [listAdd, rawListAdd_next, if_neg hxn, if_pos rfl]
  · rw [listAdd, rawListAdd_next, if_pos rfl]
  · rw [listAdd, rawListAdd_prev, if_neg hnn, if_pos rfl]
  · rw [listAdd, rawListAdd_prev, if_pos rfl]
  · have hax : a ≠ x := ne_of_mem_of_not_mem ha (List.nodup_cons.mp hnd).1
    have han : a ≠ new := ne_of_mem_of_not_mem (List.mem_cons_of_mem x ha) hnew
    rw [listAdd, rawListAdd_next, if_neg han, if_neg hax]
  · rw [listAdd, rawListAdd_prev, if_neg (ne_of_mem_of_not_mem ha hnew), if_neg hne]
  · rw [listAdd, rawListAdd_next, if_neg hne, if_neg (ne_of_mem_of_not_mem List.mem_cons_self ha).symm]
  · rw [listAdd, rawListAdd_prev, if_neg hne, if_neg (ne_of_mem_of_not_mem h.next_mem ha).symm]

theorem listAddTail_ring : (listAddTail m new x).Ring (new :: x :: l) ∧
    ∀ a, a ∉ x :: l → a ≠ new → SameLinks m (listAddTail m new x) a := by
  have hxn : x ≠ new := ne_of_mem_of_not_mem List.mem_cons_self hnew
  have hpn : m.prev x ≠ new := ne_of_mem_of_not_mem h.prev_mem hnew
  refine ⟨h.insert_before hnd ?_ ?_ ?_ ?_ (fun a ha => ?_) fun a ha hne => ?_, fun a ha hne => ⟨?_, ?_⟩⟩
  · rw [listAddTail, rawListAdd_prev, if_neg hxn, if_pos rfl]
  · rw [listAddTail, rawListAdd_prev, if_pos rfl]
  · rw [listAddTail, rawListAdd_next, if_neg hpn, if_pos rfl]
  · rw [listAddTail, rawListAdd_next, if_pos rfl]
  · have hax : a ≠ x := ne_of_mem_of_not_mem ha (List.nodup_cons.mp hnd).1
    have han : a ≠ new := ne_of_mem_of_not_mem (List.mem_cons_of_mem x ha) hnew
    rw [listAddTail, rawListAdd_prev, if_neg han, if_neg hax]
  · rw [listAddTail, rawListAdd_next, if_neg (ne_of_mem_of_not_mem ha hnew), if_neg hne]
  · rw [listAddTail, rawListAdd_next, if_neg hne, if_neg (ne_of_mem_of_not_mem h.prev_mem ha).symm]
  · rw [listAddTail, rawListAdd_prev, if_neg hne, if_neg (ne_of_mem_of_not_mem List.mem_cons_self ha).symm]

theorem listReplace_ring (hne : l ≠ []) : (listReplace m x new).Ring (new :: l) ∧
    ∀ a, a ∉ x :: l → a ≠ new → SameLinks m (listReplace m x new) a := by
  obtain ⟨⟨r, hr⟩, r', hr'⟩ := h.neighbours hne
  have hxl := (List.nodup_cons.mp hnd).1
  have hnl : m.next x ∈ l := by
    rw [hr]
    exact List.mem_cons_self
  have hpl : m.prev x ∈ l := by
    rw [hr']
    exact List.mem_append_right r' (List.mem_singleton_self _)
  have hn : m.next x ≠ x := ne_of_mem_of_not_mem hnl hxl
  have hp : m.prev x ≠ x := ne_of_mem_of_not_mem hpl hxl
  have hlnew : ∀ a ∈ l, a ≠ new := fun a ha =>
    ne_of_mem_of_not_mem (List.mem_cons_of_mem x ha) hnew
  refine ⟨h.replace hnd hne ?_ ?_ ?_ ?_ (fun a ha hap => ?_) fun a ha han => ?_, fun a ha hne => ⟨?_, ?_⟩⟩
  · rw [listReplace_next hp, if_neg (hlnew _ hpl), if_pos rfl]
  · rw [listReplace_prev hp hn, if_neg (hlnew _ hnl), if_pos rfl]
  · rw [listReplace_next hp, if_pos rfl]
  · rw [listReplace_prev hp hn, if_pos rfl]
  · rw [listReplace_next hp, if_neg (hlnew a ha), if_neg hap]
  · rw [listReplace_prev hp hn, if_neg (hlnew a ha), if_neg han]
  · rw [listReplace_next hp, if_neg hne, if_neg (ne_of_mem_of_not_mem h.prev_mem ha).symm]
  · rw [listReplace_prev hp hn, if_neg hne, if_neg (ne_of_mem_of_not_mem h.next_mem ha).symm]

end Add

theorem listDel_ring (h : m.Ring (x :: l)) (hnd : (x :: l).Nodup) :
    (listDel m x).Ring l ∧ ∀ a, a ∉ x :: l → SameLinks m (listDel m x) a := by
  refine ⟨h.remove hnd ?_ ?_ (fun a ha hap => ?_) fun a ha han => ?_, fun a ha => ⟨?_, ?_⟩⟩
  · rw [listDel, rawListDel_next, if_pos rfl]
  · rw [listDel, rawListDel_prev, if_pos rfl]
  · rw [listDel, rawListDel_next, if_neg hap]
  · rw [listDel, rawListDel_prev, if_neg han]
  · rw [listDel, rawListDel_next, if_neg (ne_of_mem_of_not_mem h.prev_mem ha).symm]
  · rw [listDel, rawListDel_prev, if_neg (ne_of_mem_of_not_mem h.next_mem ha).symm]

end OneRing

/-! ## Sequences -/

section Sequences

variable {α : Type} [DecidableEq α]

/-- `new` behind `x`. -/
def insertAfter (new x : α) : List α → List α
  | [] => []
  | y :: l => if y = x then y :: new :: l else y :: insertAfter new x l

/-- `new` before `x`. -/
def insertBefore (new x : α) : List α → List α
  | [] => []
  | y :: l => if y = x then new :: y :: l else y :: insertBefore new x l

/-- `new` before `x` in a list written from its head on: before the head is at the end. -/
def insertRound (new x : α) : List α → List α
  | [] => []
  | y :: l => if y = x then y :: (l ++ [new]) else y :: insertBefore new x l

variable {new x : α}

theorem insertAfter_of_notMem : ∀ {l : List α}, x ∉ l → insertAfter new x l = l
  | [], _ => rfl
  | y :: l, h => by
      rw [List.mem_cons, not_or] at h
      rw [insertAfter, if_neg (Ne.symm h.1), insertAfter_of_notMem h.2]

theorem insertAfter_append {b : List α} : ∀ {a : List α}, x ∉ a →
    insertAfter new x (a ++ x :: b) = a ++ x :: new :: b
  | [], _ => if_pos rfl
  | y :: a, h => by
      rw [List.mem_cons, not_or] at h
      rw [List.cons_append, insertAfter, if_neg (Ne.symm h.1), insertAfter_append h.2, List.cons_append]

theorem insertBefore_of_notMem : ∀ {l : List α}, x ∉ l → insertBefore new x l = l
  | [], _ => rfl
  | y :: l, h => by
      rw [List.mem_cons, not_or] at h
      rw [insertBefore, if_neg (Ne.symm h.1), insertBefore_of_notMem h.2]

theorem insertBefore_append {b : List α} : ∀ {a : List α}, x ∉ a →
    insertBefore new x (a ++ x :: b) = a ++ new :: x :: b
  | [], _ => if_pos rfl
  | y :: a, h => by
      rw [List.mem_cons, not_or] at h
      rw [List.cons_append, insertBefore, if_neg (Ne.symm h.1), insertBefore_append h.2, List.cons_append]

theorem insertRound_of_notMem {l : List α} (h : x ∉ l) : insertRound new x l = l := by
  cases l with
  | nil => rfl
  | cons y l =>
    rw [List.mem_cons, not_or] at h
    rw [insertRound, if_neg (Ne.symm h.1), insertBefore_of_notMem h.2]

/-- Going round, it is `new` before `x`. -/
theorem insertRound_append {a b : List α} (h : x ∉ a) :
    insertRound new x (a ++ x :: b) ~r (new :: x :: (b ++ a)) := by
  cases a with
  | nil =>
    rw [List.nil_append, insertRound, if_pos rfl, List.append_nil]
    exact (List.isRotated_append : (x :: b) ++ [new] ~r [new] ++ (x :: b))
  | cons y a =>
    have hy : y ≠ x := fun he => h (he ▸ List.mem_cons_self)
    rw [List.cons_append, insertRound, if_neg hy, insertBefore_append fun hx => h (List.mem_cons_of_mem y hx)]
    exact (List.isRotated_append : (y :: a) ++ (new :: x :: b) ~r (new :: x :: b) ++ (y :: a))

end Sequences

/-! ## Families of lists -/

section Families

variable {α ι : Type} {m m' : Links α} {F : ι → List α}

/-- The lists are disjoint rings, each written from its head on.  The empty sequence is no list. -/
structure Rings (m : Links α) (F : ι → List α) : Prop where
  ring : ∀ i, m.Ring (F i)
  nodup : ∀ i, (F i).Nodup
  apart : ∀ i j x, x ∈ F i → x ∈ F j → i = j

/-- **The list of `x` is edited**, with nodes `fresh` that were in none, and nothing else is touched. -/
theorem Rings.edit (h : Rings m F) {f : List α → List α} {x : α} {L : List α} {i : ι} (fresh : α → Prop)
    (hx : x ∈ F i) (hfix : ∀ {l}, x ∉ l → f l = l) (hrot : f (F i) ~r L) (hring : m'.Ring L)
    (hnd : L.Nodup) (hsub : ∀ y ∈ L, y ∈ F i ∨ fresh y) (hfresh : ∀ y, fresh y → ∀ j, y ∉ F j)
    (hframe : ∀ y, y ∉ F i → ¬fresh y → SameLinks m m' y) : Rings m' fun j => f (F j) := by
  have hother : ∀ j, j ≠ i → f (F j) = F j := fun j hj => hfix fun hxj => hj (h.apart j i x hxj hx)
  have hmem : ∀ j y, y ∈ f (F j) → y ∈ F j ∨ fresh y ∧ j = i := by
    intro j y hy
    by_cases hj : j = i
    · subst hj
      exact (hsub y (hrot.mem_iff.mp hy)).imp_right fun hyf => ⟨hyf, rfl⟩
    · rw [hother j hj] at hy
      exact Or.inl hy
  refine ⟨fun j => ?_, fun j => ?_, fun j k y hyj hyk => ?_⟩
  · by_cases hj : j = i
    · rw [hj]
      exact (Links.ring_rotated hrot).mpr hring
    · rw [hother j hj]
      exact (h.ring j).congr fun y hy => hframe y (fun hyi => hj (h.apart j i y hy hyi)) fun hyf =>
        hfresh y hyf j hy
  · by_cases hj : j = i
    · rw [hj]
      exact hrot.nodup_iff.mpr hnd
    · rw [hother j hj]
      exact h.nodup j
  · rcases hmem j y hyj with hyj | ⟨hyf, hj⟩
    · rcases hmem k y hyk with hyk | ⟨hyf, -⟩
      · exact h.apart j k y hyj hyk
      · exact absurd hyj (hfresh y hyf j)
    · rcases hmem k y hyk with hyk | ⟨-, hk⟩
      · exact absurd hyk (hfresh y hyf k)
      · exact hj.trans hk.symm

/-- A node of a ring, in front. -/
theorem Rings.in_front (h : Rings m F) {x : α} {i : ι} (hx : x ∈ F i) :
    ∃ a b, F i = a ++ x :: b ∧ x ∉ a ∧ m.Ring (x :: (b ++ a)) ∧ (x :: (b ++ a)).Nodup ∧
      ∀ y, y ∈ x :: (b ++ a) ↔ y ∈ F i := by
  obtain ⟨a, b, hab⟩ := List.append_of_mem hx
  have hrot : (a ++ x :: b) ~r (x :: (b ++ a)) :=
    (List.isRotated_append : a ++ (x :: b) ~r (x :: b) ++ a)
  have hring := h.ring i
  have hnd := h.nodup i
  rw [hab] at hring hnd ⊢
  have hxab := (List.nodup_cons.mp (hrot.nodup_iff.mp hnd)).1
  exact ⟨a, b, rfl, fun hxa => hxab (List.mem_append_right b hxa), (Links.ring_rotated hrot).mp hring,
    hrot.nodup_iff.mp hnd, fun y => hrot.mem_iff.symm⟩

variable [DecidableEq α] {new x : α} (h : Rings m F) {i : ι} (hx : x ∈ F i)

section Insert

variable (hnew : ∀ j, new ∉ F j)

include h hx hnew

theorem Rings.listAdd : Rings (listAdd m new x) (fun j => insertAfter new x (F j)) ∧
    ∀ a, a ∉ F i → a ≠ new → SameLinks m (listAdd m new x) a := by
  obtain ⟨a, b, hab, hxa, hring, hnd, hmem⟩ := h.in_front hx
  have hnew' : new ∉ x :: (b ++ a) := fun hm => hnew i ((hmem new).mp hm)
  obtain ⟨hring', hframe⟩ := listAdd_ring hring hnd hnew'
  simp only [hmem] at hframe
  have hrot : insertAfter new x (F i) ~r (x :: new :: (b ++ a)) := by
    rw [hab, insertAfter_append hxa]
    exact (List.isRotated_append : a ++ (x :: new :: b) ~r (x :: new :: b) ++ a)
  refine ⟨h.edit (· = new) hx insertAfter_of_notMem hrot hring' ?_ (fun y hy => ?_) ?_ hframe, hframe⟩
  · rw [(List.Perm.swap new x _).nodup_iff, List.nodup_cons]
    exact ⟨hnew', hnd⟩
  · rw [(List.Perm.swap new x _).mem_iff, List.mem_cons, hmem] at hy
    exact hy.symm
  · rintro y rfl
    exact hnew

theorem Rings.listAddTail : Rings (listAddTail m new x) (fun j => insertRound new x (F j)) ∧
    ∀ a, a ∉ F i → a ≠ new → SameLinks m (listAddTail m new x) a := by
  obtain ⟨a, b, hab, hxa, hring, hnd, hmem⟩ := h.in_front hx
  have hnew' : new ∉ x :: (b ++ a) := fun hm => hnew i ((hmem new).mp hm)
  obtain ⟨hring', hframe⟩ := listAddTail_ring hring hnd hnew'
  simp only [hmem] at hframe
  have hrot : insertRound new x (F i) ~r (new :: x :: (b ++ a)) := by
    rw [hab]
    exact insertRound_append hxa
  refine ⟨h.edit (· = new) hx insertRound_of_notMem hrot hring' (List.nodup_cons.mpr ⟨hnew', hnd⟩)
    (fun y hy => ?_) ?_ hframe, hframe⟩
  · rw [List.mem_cons, hmem] at hy
    exact hy.symm
  · rintro y rfl
    exact hnew

theorem Rings.listReplace (hne : F i ≠ [x]) :
    Rings (listReplace m x new) (fun j => (F j).replace x new) ∧
      ∀ a, a ∉ F i → a ≠ new → SameLinks m (listReplace m x new) a := by
  obtain ⟨a, b, hab, hxa, hring, hnd, hmem⟩ := h.in_front hx
  have hnew' : new ∉ x :: (b ++ a) := fun hm => hnew i ((hmem new).mp hm)
  have hne' : b ++ a ≠ [] := fun hba => hne (by
    rw [List.append_eq_nil_iff] at hba
    rw [hab, hba.1, hba.2, List.nil_append])
  obtain ⟨hring', hframe⟩ := listReplace_ring hring hnd hnew' hne'
  simp only [hmem] at hframe
  have hrot : (F i).replace x new ~r (new :: (b ++ a)) := by
    rw [hab, List.replace_append_right hxa, List.replace_cons_self]
    exact (List.isRotated_append : a ++ (new :: b) ~r (new :: b) ++ a)
  refine ⟨h.edit (· = new) hx List.replace_of_not_mem hrot hring' ?_ (fun y hy => ?_) ?_ hframe, hframe⟩
  · exact List.nodup_cons.mpr ⟨fun hm => hnew' (List.mem_cons_of_mem x hm), (List.nodup_cons.mp hnd).2⟩
  · rcases List.mem_cons.mp hy with hy | hy
    · exact Or.inr hy
    · exact Or.inl ((hmem y).mp (List.mem_cons_of_mem x hy))
  · rintro y rfl
    exact hnew

end Insert

include h hx in
theorem Rings.listDel : Rings (listDel m x) (fun j => (F j).erase x) ∧
    ∀ a, a ∉ F i → SameLinks m (listDel m x) a := by
  obtain ⟨a, b, hab, hxa, hring, hnd, hmem⟩ := h.in_front hx
  obtain ⟨hring', hframe⟩ := listDel_ring hring hnd
  simp only [hmem] at hframe
  have hrot : (F i).erase x ~r (b ++ a) := by
    rw [hab, List.erase_append_right _ hxa, List.erase_cons_head]
    exact List.isRotated_append
  exact ⟨h.edit (fun _ => False) hx List.erase_of_not_mem hrot hring' (List.nodup_cons.mp hnd).2
    (fun y hy => Or.inl ((hmem y).mp (List.mem_cons_of_mem x hy))) (fun y hy => hy.elim)
    fun y hy _ => hframe y hy, hframe⟩

/-- A node of no list becomes an empty list of its own. -/
theorem Rings.initListHead (h : Rings m F) (hx : ∀ j, x ∉ F j) :
    Rings (initListHead m x) fun j : Option ι => j.elim [x] F := by
  have hring : ∀ j, (Sandix.initListHead m x).Ring (F j) := fun j => (h.ring j).congr fun y hy =>
    initListHead_of_ne (ne_of_mem_of_not_mem hy (hx j))
  refine ⟨fun j => ?_, fun j => ?_, fun j k y hyj hyk => ?_⟩
  · cases j with
    | none => exact Links.ring_singleton.mpr (initListHead_self m x)
    | some j => exact hring j
  · cases j with
    | none => exact List.nodup_singleton x
    | some j => exact h.nodup j
  · cases j with
    | none =>
      cases k with
      | none => rfl
      | some k =>
        rw [List.mem_singleton.mp hyj] at hyk
        exact absurd hyk (hx k)
    | some j =>
      cases k with
      | none =>
        rw [List.mem_singleton.mp hyk] at hyj
        exact absurd hyj (hx j)
      | some k => rw [h.apart j k y hyj hyk]

omit [DecidableEq α] in
/-- …or no list is added. -/
theorem Rings.withNone (h : Rings m F) : Rings m fun j : Option ι => j.elim [] F := by
  refine ⟨fun j => ?_, fun j => ?_, fun j k y hyj hyk => ?_⟩
  · cases j with
    | none => exact Links.ring_nil m
    | some j => exact h.ring j
  · cases j with
    | none => exact List.nodup_nil
    | some j => exact h.nodup j
  · cases j with
    | none => exact absurd hyj List.not_mem_nil
    | some j =>
      cases k with
      | none => exact absurd hyk List.not_mem_nil
      | some k => rw [h.apart j k y hyj hyk]

end Families

/-! ## The operations as edits -/

/-- A call. -/
inductive ListOp (α : Type)
  | add (new head : α)
  | addTail (new head : α)
  | del (entry : α)
  | delInit (entry : α)
  | replace (old new : α)
  | replaceInit (old new : α)
  | move (list head : α)
  | moveTail (list head : α)
deriving DecidableEq, Repr

namespace ListOp

variable {α ι : Type} [DecidableEq α]

/-- The call. -/
def run (m : Links α) : ListOp α → Links α
  | add new head => listAdd m new head
  | addTail new head => listAddTail m new head
  | del entry => listDel m entry
  | delInit entry => listDelInit m entry
  | replace old new => listReplace m old new
  | replaceInit old new => listReplaceInit m old new
  | move list head => listMove m list head
  | moveTail list head => listMoveTail m list head

/-- What it does to a sequence. -/
def editList (l : List α) : ListOp α → List α
  | add new head => insertAfter new head l
  | addTail new head => insertRound new head l
  | del entry => l.erase entry
  | delInit entry => l.erase entry
  | replace old new => l.replace old new
  | replaceInit old new => l.replace old new
  | move list head => insertAfter list head (l.erase list)
  | moveTail list head => insertRound list head (l.erase list)

/-- The list it adds, if any. -/
def added : ListOp α → List α
  | delInit entry => [entry]
  | replaceInit old _ => [old]
  | _ => []

/-- What it does to a family, with the list it adds. -/
def edit (op : ListOp α) (F : ι → List α) (j : Option ι) : List α :=
  j.elim op.added fun i => op.editList (F i)

/-- The nodes it is called with. -/
def nodes : ListOp α → List α
  | add new head => [new, head]
  | addTail new head => [new, head]
  | del entry => [entry]
  | delInit entry => [entry]
  | replace old new => [old, new]
  | replaceInit old new => [old, new]
  | move list head => [list, head]
  | moveTail list head => [list, head]

/-- What the comments ask for: a new entry is in no list, the others are in one, and no entry is moved
next to itself. -/
def Allowed (F : ι → List α) : ListOp α → Prop
  | add new head => (∃ i, head ∈ F i) ∧ ∀ i, new ∉ F i
  | addTail new head => (∃ i, head ∈ F i) ∧ ∀ i, new ∉ F i
  | del entry => ∃ i, entry ∈ F i
  | delInit entry => ∃ i, entry ∈ F i
  | replace old new => (∃ i, old ∈ F i) ∧ ∀ i, new ∉ F i
  | replaceInit old new => (∃ i, old ∈ F i) ∧ ∀ i, new ∉ F i
  | move list head => list ≠ head ∧ (∃ i, list ∈ F i) ∧ ∃ i, head ∈ F i
  | moveTail list head => list ≠ head ∧ (∃ i, list ∈ F i) ∧ ∃ i, head ∈ F i

/-- A node is replaced that is alone in its ring. -/
def ReplacesAlone (F : ι → List α) : ListOp α → Prop
  | replace old _ => ∃ i, F i = [old]
  | replaceInit old _ => ∃ i, F i = [old]
  | _ => False

end ListOp

section Refines

variable {α ι : Type} [DecidableEq α] {m : Links α} {F : ι → List α}

/-- The call refines the edit: it leaves rings, in which each list is traversed in order and backwards in
the reverse order; a list with none of its nodes is left, in sequence and in memory. -/
structure ListRefines (m : Links α) (F : ι → List α) (op : ListOp α) : Prop where
  rings : Rings (op.run m) (op.edit F)
  forward : ∀ j head seq, op.edit F j = head :: seq → ∀ fuel, seq.length < fuel →
    listForEach (op.run m) head fuel = .ok seq ∧
    ∀ (β : Type) (entry : α → β) member, (∀ a, member (entry a) = a) →
      listForEachEntry (op.run m) entry member head fuel = .ok (seq.map entry)
  backward : ∀ j head seq, op.edit F j = head :: seq → ∀ fuel, seq.length < fuel →
    listForEachPrev (op.run m) head fuel = .ok seq.reverse ∧
    ∀ (β : Type) (entry : α → β) member, (∀ a, member (entry a) = a) →
      listForEachEntryReverse (op.run m) entry member head fuel = .ok (seq.reverse.map entry)
  other : ∀ i, (∀ x ∈ op.nodes, x ∉ F i) → op.edit F (some i) = F i
  frame : ∀ a, (∀ i, a ∈ F i → ∀ x ∈ op.nodes, x ∉ F i) → a ∉ op.nodes → SameLinks m (op.run m) a

omit [DecidableEq α] in
theorem SameLinks.trans {m₁ m₂ m₃ : Links α} {a : α} (h : SameLinks m₁ m₂ a) (h' : SameLinks m₂ m₃ a) :
    SameLinks m₁ m₃ a := ⟨h'.1.trans h.1, h'.2.trans h.2⟩

/-- A replaced node is gone. -/
theorem notMem_replace {l : List α} {old new : α} (hnd : l.Nodup) (hne : old ≠ new) :
    old ∉ l.replace old new := by
  by_cases hold : old ∈ l
  · obtain ⟨a, b, rfl⟩ := List.append_of_mem hold
    rw [List.nodup_append, List.nodup_cons] at hnd
    have ha : old ∉ a := fun hm => hnd.2.2 old hm old List.mem_cons_self rfl
    rw [List.replace_append_right ha, List.replace_cons_self, List.mem_append, List.mem_cons]
    rintro (hm | hm | hm)
    · exact ha hm
    · exact hne hm
    · exact hnd.2.1.1 hm
  · rw [List.replace_of_not_mem hold]
    exact hold

/-- **Moving an entry** is deleting it and adding it. -/
theorem listMove_rings (h : Rings m F) {list head : α} (hne : list ≠ head) (hlist : ∃ i, list ∈ F i)
    (hhead : ∃ i, head ∈ F i) :
    Rings (listDel m list) (fun j => (F j).erase list) ∧ (∃ i, head ∈ (F i).erase list) ∧
      (∀ j, list ∉ (F j).erase list) ∧
      ∀ a, (∀ i, a ∈ F i → ∀ x ∈ [list, head], x ∉ F i) → SameLinks m (listDel m list) a ∧
        ∀ j, head ∈ (F j).erase list → a ∉ (F j).erase list := by
  obtain ⟨i, hi⟩ := hlist
  obtain ⟨k, hk⟩ := hhead
  obtain ⟨hrings, hframe⟩ := h.listDel hi
  refine ⟨hrings, ⟨k, (List.mem_erase_of_ne hne.symm).mpr hk⟩, fun j => (h.nodup j).not_mem_erase,
    fun a ha => ⟨hframe a fun hai => ha i hai list List.mem_cons_self hi, fun j hj haj => ?_⟩⟩
  exact ha j (List.mem_of_mem_erase haj) head (by simp) (List.mem_of_mem_erase hj)

/-- **Every call but one leaves the rings of its edit.** -/
theorem Rings.run (h : Rings m F) {op : ListOp α} (hop : op.Allowed F) (halone : ¬op.ReplacesAlone F) :
    Rings (op.run m) (op.edit F) ∧ ∀ a, (∀ i, a ∈ F i → ∀ x ∈ op.nodes, x ∉ F i) → a ∉ op.nodes →
      SameLinks m (op.run m) a := by
  cases op with
  | add new head =>
    obtain ⟨⟨i, hi⟩, hnew⟩ := hop
    obtain ⟨hrings, hframe⟩ := h.listAdd hi hnew
    refine ⟨hrings.withNone, fun a ha hne => hframe a (fun hai => ha i hai head ?_ hi) fun he => hne ?_⟩
    · simp [ListOp.nodes]
    · simp [ListOp.nodes, he]
  | addTail new head =>
    obtain ⟨⟨i, hi⟩, hnew⟩ := hop
    obtain ⟨hrings, hframe⟩ := h.listAddTail hi hnew
    refine ⟨hrings.withNone, fun a ha hne => hframe a (fun hai => ha i hai head ?_ hi) fun he => hne ?_⟩
    · simp [ListOp.nodes]
    · simp [ListOp.nodes, he]
  | del entry =>
    obtain ⟨i, hi⟩ := hop
    obtain ⟨hrings, hframe⟩ := h.listDel hi
    exact ⟨hrings.withNone, fun a ha _ => hframe a fun hai => ha i hai entry List.mem_cons_self hi⟩
  | delInit entry =>
    obtain ⟨i, hi⟩ := hop
    obtain ⟨hrings, hframe⟩ := h.listDel hi
    refine ⟨hrings.initListHead fun j => (h.nodup j).not_mem_erase, fun a ha hne => ?_⟩
    refine (hframe a fun hai => ha i hai entry List.mem_cons_self hi).trans (initListHead_of_ne fun he => ?_)
    exact hne (by simp [ListOp.nodes, he])
  | replace old new =>
    obtain ⟨⟨i, hi⟩, hnew⟩ := hop
    obtain ⟨hrings, hframe⟩ := h.listReplace hi hnew fun hal => halone ⟨i, hal⟩
    refine ⟨hrings.withNone, fun a ha hne => hframe a (fun hai => ha i hai old ?_ hi) fun he => hne ?_⟩
    · simp [ListOp.nodes]
    · simp [ListOp.nodes, he]
  | replaceInit old new =>
    obtain ⟨⟨i, hi⟩, hnew⟩ := hop
    obtain ⟨hrings, hframe⟩ := h.listReplace hi hnew fun hal => halone ⟨i, hal⟩
    refine ⟨hrings.initListHead fun j => notMem_replace (h.nodup j) ?_, fun a ha hne => ?_⟩
    · exact fun he => hnew i (he ▸ hi)
    · rw [ListOp.nodes, List.mem_cons, List.mem_singleton, not_or] at hne
      exact (hframe a (fun hai => ha i hai old List.mem_cons_self hi) hne.2).trans
        (initListHead_of_ne hne.1)
  | move list head =>
    obtain ⟨hne, hlist, hhead⟩ := hop
    obtain ⟨hrings, ⟨i, hi⟩, hnew, hdel⟩ := listMove_rings h hne hlist hhead
    obtain ⟨hrings', hframe⟩ := hrings.listAdd hi hnew
    refine ⟨hrings'.withNone, fun a ha hna => ?_⟩
    obtain ⟨hsame, hnot⟩ := hdel a ha
    exact hsame.trans (hframe a (hnot i hi) fun he => hna (by simp [ListOp.nodes, he]))
  | moveTail list head =>
    obtain ⟨hne, hlist, hhead⟩ := hop
    obtain ⟨hrings, ⟨i, hi⟩, hnew, hdel⟩ := listMove_rings h hne hlist hhead
    obtain ⟨hrings', hframe⟩ := hrings.listAddTail hi hnew
    refine ⟨hrings'.withNone, fun a ha hna => ?_⟩
    obtain ⟨hsame, hnot⟩ := hdel a ha
    exact hsame.trans (hframe a (hnot i hi) fun he => hna (by simp [ListOp.nodes, he]))

/-- A list with none of the nodes of a call is left by its edit. -/
theorem ListOp.edit_other {op : ListOp α} {l : List α} (hl : ∀ x ∈ op.nodes, x ∉ l) :
    op.editList l = l := by
  cases op with
  | add new head => exact insertAfter_of_notMem (hl head (by simp [nodes]))
  | addTail new head => exact insertRound_of_notMem (hl head (by simp [nodes]))
  | del entry => exact List.erase_of_not_mem (hl entry (by simp [nodes]))
  | delInit entry => exact List.erase_of_not_mem (hl entry (by simp [nodes]))
  | replace old new => exact List.replace_of_not_mem (hl old (by simp [nodes]))
  | replaceInit old new => exact List.replace_of_not_mem (hl old (by simp [nodes]))
  | move list head =>
    rw [editList, List.erase_of_not_mem (hl list (by simp [nodes]))]
    exact insertAfter_of_notMem (hl head (by simp [nodes]))
  | moveTail list head =>
    rw [editList, List.erase_of_not_mem (hl list (by simp [nodes]))]
    exact insertRound_of_notMem (hl head (by simp [nodes]))

/-- Where the rings are those of the edit, the call refines it. -/
theorem ListRefines.of_rings {op : ListOp α} (h : Rings (op.run m) (op.edit F))
    (hframe : ∀ a, (∀ i, a ∈ F i → ∀ x ∈ op.nodes, x ∉ F i) → a ∉ op.nodes → SameLinks m (op.run m) a) :
    ListRefines m F op := by
  refine ⟨h, fun j head seq hj fuel hfuel => ?_, fun j head seq hj fuel hfuel => ?_,
    fun i hi => ListOp.edit_other hi, hframe⟩
  · have hring := h.ring j
    have hnd := h.nodup j
    rw [hj] at hring hnd
    refine ⟨?_, fun β entry member hentry => listForEachEntry_ring hentry hring hnd hfuel⟩
    exact (listForEachEntry_ring (fun _ => rfl) hring hnd hfuel).trans (by rw [List.map_id])
  · have hring := h.ring j
    have hnd := h.nodup j
    rw [hj] at hring hnd
    refine ⟨?_, fun β entry member hentry => listForEachEntryReverse_ring hentry hring hnd hfuel⟩
    exact (listForEachEntryReverse_ring (fun _ => rfl) hring hnd hfuel).trans (by rw [List.map_id])

/-- The replacement of a node that is alone leaves no ring. -/
theorem not_ring_of_replacesAlone {old new : α} (h : m.Ring [old]) (hne : old ≠ new) :
    ¬(listReplace m old new).Ring [new] := fun hring => by
  have hprev := (Links.ring_singleton.mp hring).2
  rw [listReplace_alone (Links.ring_singleton.mp h).2 hne] at hprev
  exact hne hprev

end Refines

/-- **When a list operation refines the edit of the sequences.**  For every family of disjoint rings and
every call its comments allow: always, unless it replaces a node that is alone in its ring. -/
theorem list_refines_iff {α ι : Type} [DecidableEq α] {m : Links α} {F : ι → List α} (h : Rings m F)
    {op : ListOp α} (hop : op.Allowed F) : ListRefines m F op ↔ ¬op.ReplacesAlone F := by
  constructor
  · intro href halone
    cases op with
    | replace old new =>
      obtain ⟨i, hi⟩ := halone
      have hne : old ≠ new := fun he => hop.2 i (by rw [hi, he]; exact List.mem_singleton_self new)
      have hring : (listReplace m old new).Ring ((F i).replace old new) := href.rings.ring (some i)
      have hold := h.ring i
      rw [hi] at hold hring
      rw [List.replace_cons_self] at hring
      exact not_ring_of_replacesAlone hold hne hring
    | replaceInit old new =>
      obtain ⟨i, hi⟩ := halone
      have hne : old ≠ new := fun he => hop.2 i (by rw [hi, he]; exact List.mem_singleton_self new)
      have hring : (listReplaceInit m old new).Ring ((F i).replace old new) := href.rings.ring (some i)
      have hold := h.ring i
      rw [hi] at hold hring
      rw [List.replace_cons_self] at hring
      have hprev := (Links.ring_singleton.mp hring).2
      rw [listReplaceInit, (initListHead_of_ne hne.symm).2,
        listReplace_alone (Links.ring_singleton.mp hold).2 hne] at hprev
      exact hne hprev
    | _ => exact halone
  · intro halone
    obtain ⟨hrings, hframe⟩ := h.run hop halone
    exact ListRefines.of_rings hrings hframe

/-- One list of a head and two entries. -/
theorem rings_sample :
    Rings ⟨fun n => (n + 1) % 3, fun n => (n + 2) % 3⟩ fun _ : Unit => [0, 1, 2] := by
  refine ⟨fun _ => Links.ring_cons.mpr ?_, fun _ => by decide, fun _ _ _ _ _ => rfl⟩
  simp [Links.Joined]

/-- Its first entry is replaced. -/
theorem list_refines_sample :
    ListRefines ⟨fun n => (n + 1) % 3, fun n => (n + 2) % 3⟩ (fun _ : Unit => [0, 1, 2]) (.replace 1 9) := by
  have hop : (ListOp.replace 1 9).Allowed (fun _ : Unit => [0, 1, 2]) := ⟨⟨(), by simp⟩, fun _ => by simp⟩
  refine (list_refines_iff rings_sample hop).mpr ?_
  rintro ⟨_, hi⟩
  simp at hi

/-- An empty list, whose head is replaced: the new head has the old one before it, and neither
replacement refines the edit. -/
theorem list_refines_alone :
    Rings ⟨id, id⟩ (fun _ : Unit => [0]) ∧ (ListOp.replace 0 1).Allowed (fun _ : Unit => [0]) ∧
      ¬ListRefines ⟨id, id⟩ (fun _ : Unit => [0]) (.replace 0 1) ∧
      ¬ListRefines ⟨id, id⟩ (fun _ : Unit => [0]) (.replaceInit 0 1) := by
  refine ⟨⟨fun _ => Links.ring_singleton.mpr ⟨rfl, rfl⟩, fun _ => by decide, fun _ _ _ _ _ => rfl⟩,
    ⟨⟨(), by simp⟩, fun _ => by simp⟩, fun h => ?_, fun h => ?_⟩
  · exact absurd (Links.ring_singleton.mp (h.rings.ring (some ()))).2 (by decide)
  · exact absurd (Links.ring_singleton.mp (h.rings.ring (some ()))).2 (by decide)

end Sandix
