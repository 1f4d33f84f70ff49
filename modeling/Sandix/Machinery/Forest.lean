import Mathlib.Tactic

/-!
# Machinery/Forest — forests as first child and next sibling

The shape a pointer structure with `child` and `sibling` links has in memory.  `append` runs along
the siblings, `ids` lists all the nodes, and `Anc a b` says that `b` is strictly below `a`.  `excise`
takes a node out, with the nodes below it or leaving them in its place.  Where siblings come in the order
of a key, `Anc` determines the forest (`eq_of_anc_iff`).
-/

namespace Machinery

/-- A list of trees: its first node, the trees below it, and the trees after it. -/
inductive Forest (α : Type)
  | nil
  | node (i : α) (child sibling : Forest α)

namespace Forest

variable {α : Type}

/-- The nodes of a forest. -/
def ids : Forest α → List α
  | nil => []
  | node i c s => i :: (c.ids ++ s.ids)

/-- The roots of the trees. -/
def tops : Forest α → List α
  | nil => []
  | node i _ s => i :: s.tops

/-- The first root, or `tail` when there is none. -/
def headOr (tail : Option α) : Forest α → Option α
  | nil => tail
  | node i _ _ => some i

/-- One forest after another. -/
def append : Forest α → Forest α → Forest α
  | nil, g => g
  | node i c s, g => node i c (s.append g)

instance : Append (Forest α) := ⟨append⟩

@[simp] theorem nil_append (g : Forest α) : nil ++ g = g := rfl

@[simp] theorem node_append (i : α) (c s g : Forest α) : node i c s ++ g = node i c (s ++ g) := rfl

@[simp] theorem append_nil : ∀ f : Forest α, f ++ nil = f
  | nil => rfl
  | node i c s => by rw [node_append, append_nil]

theorem append_assoc : ∀ f g k : Forest α, f ++ g ++ k = f ++ (g ++ k)
  | nil, _, _ => rfl
  | node i c s, g, k => by simp only [node_append, append_assoc s g k]

@[simp] theorem ids_append : ∀ f g : Forest α, (f ++ g).ids = f.ids ++ g.ids
  | nil, _ => rfl
  | node i c s, g => by
      rw [node_append, ids, ids, ids_append s g, List.cons_append, List.append_assoc]

@[simp] theorem tops_append : ∀ f g : Forest α, (f ++ g).tops = f.tops ++ g.tops
  | nil, _ => rfl
  | node i c s, g => by rw [node_append, tops, tops, tops_append s g, List.cons_append]

@[simp] theorem headOr_append (t : Option α) : ∀ f g : Forest α,
    (f ++ g).headOr t = f.headOr (g.headOr t)
  | nil, _ => rfl
  | node _ _ _, _ => rfl

theorem headOr_of_ne_nil (t t' : Option α) : ∀ {f : Forest α}, f ≠ nil → f.headOr t = f.headOr t'
  | nil, h => absurd rfl h
  | node _ _ _, _ => rfl

theorem tops_subset_ids : ∀ (f : Forest α), ∀ i ∈ f.tops, i ∈ f.ids
  | nil, _, h => h
  | node i c s, j, h => by
      rw [tops, List.mem_cons] at h
      rw [ids, List.mem_cons, List.mem_append]
      rcases h with rfl | h
      · exact Or.inl rfl
      · exact Or.inr (Or.inr (tops_subset_ids s j h))

theorem length_tops_le : ∀ f : Forest α, f.tops.length ≤ f.ids.length
  | nil => le_rfl
  | node i c s => by
      have hs := length_tops_le s
      simp only [tops, ids, List.length_cons, List.length_append]
      omega

/-- `b` is strictly below `a`. -/
def Anc : Forest α → α → α → Prop
  | nil, _, _ => False
  | node i c s, a, b => (a = i ∧ b ∈ c.ids) ∨ c.Anc a b ∨ s.Anc a b

theorem anc_append (a b : α) : ∀ f g : Forest α, (f ++ g).Anc a b ↔ f.Anc a b ∨ g.Anc a b
  | nil, _ => by simp [Anc]
  | node i c s, g => by
      rw [node_append, Anc, Anc, anc_append a b s g]
      simp only [or_assoc]

theorem mem_ids_of_anc {a b : α} : ∀ {f : Forest α}, f.Anc a b → a ∈ f.ids ∧ b ∈ f.ids
  | node i c s, h => by
      simp only [ids, List.mem_cons, List.mem_append]
      rcases h with ⟨rfl, hb⟩ | h | h
      · exact ⟨Or.inl rfl, Or.inr (Or.inl hb)⟩
      · exact ⟨Or.inr (Or.inl (mem_ids_of_anc h).1), Or.inr (Or.inl (mem_ids_of_anc h).2)⟩
      · exact ⟨Or.inr (Or.inr (mem_ids_of_anc h).1), Or.inr (Or.inr (mem_ids_of_anc h).2)⟩

theorem anc_irrefl {a : α} : ∀ {f : Forest α}, f.ids.Nodup → ¬f.Anc a a
  | nil, _, h => h
  | node i c s, hnd, h => by
      simp only [ids, List.nodup_cons, List.mem_append, List.nodup_append, not_or] at hnd
      rcases h with ⟨rfl, h⟩ | h | h
      · exact hnd.1.1 h
      · exact anc_irrefl hnd.2.1 h
      · exact anc_irrefl hnd.2.2.1 h

/-- A node is among the roots, or below one of them. -/
theorem mem_ids_split {x : α} : ∀ {f : Forest α}, x ∈ f.ids →
    (∃ a c s, f = a ++ node x c s) ∨ ∃ a i c s, f = a ++ node i c s ∧ x ∈ c.ids
  | node i c s, h => by
      rw [ids, List.mem_cons, List.mem_append] at h
      rcases h with rfl | h | h
      · exact Or.inl ⟨nil, c, s, rfl⟩
      · exact Or.inr ⟨nil, i, c, s, rfl, h⟩
      · rcases mem_ids_split h with ⟨a, c', s', rfl⟩ | ⟨a, j, c', s', rfl, hx⟩
        · exact Or.inl ⟨node i c a, c', s', rfl⟩
        · exact Or.inr ⟨node i c a, j, c', s', rfl, hx⟩

/-! ## Taking a node out -/

section Excise

variable [DecidableEq α] {x : α} {drop : Bool}

/-- The forest without the node `x`: the trees below it go too, or take its place. -/
def excise (drop : Bool) (x : α) : Forest α → Forest α
  | nil => nil
  | node i c s =>
    if i = x then if drop then s else c ++ s else node i (c.excise drop x) (s.excise drop x)

theorem excise_of_notMem : ∀ {f : Forest α}, x ∉ f.ids → f.excise drop x = f
  | nil, _ => rfl
  | node i c s, h => by
      simp only [ids, List.mem_cons, List.mem_append, not_or] at h
      rw [excise, if_neg (Ne.symm h.1), excise_of_notMem h.2.1, excise_of_notMem h.2.2]

theorem excise_append {g : Forest α} : ∀ {f : Forest α}, x ∉ f.ids →
    (f ++ g).excise drop x = f ++ g.excise drop x
  | nil, _ => rfl
  | node i c s, h => by
      simp only [ids, List.mem_cons, List.mem_append, not_or] at h
      rw [node_append, excise, if_neg (Ne.symm h.1), excise_of_notMem h.2.1, excise_append h.2.2,
        node_append]

theorem excise_ids_sublist : ∀ f : Forest α, (f.excise drop x).ids.Sublist f.ids
  | nil => List.Sublist.refl _
  | node i c s => by
      rw [excise]
      split_ifs
      · exact (List.sublist_append_right c.ids s.ids).cons i
      · rw [ids_append]
        exact List.sublist_cons_self i _
      · exact ((excise_ids_sublist c).append (excise_ids_sublist s)).cons_cons i

/-- **With the trees below it**: what stays is what was not below `x`. -/
theorem mem_excise_true_iff {j : α} : ∀ {f : Forest α}, f.ids.Nodup →
    (j ∈ (f.excise true x).ids ↔ j ∈ f.ids ∧ j ≠ x ∧ ¬f.Anc x j)
  | nil, _ => by simp [excise, ids]
  | node i c s, hnd => by
      simp only [ids, List.nodup_cons, List.mem_append, List.nodup_append, not_or] at hnd
      obtain ⟨⟨hic, his⟩, hndc, hnds, hdisj⟩ := hnd
      have hs : ∀ {k}, k ∈ s.ids → k ∉ c.ids := fun hk hc => hdisj _ hc _ hk rfl
      rw [excise]
      simp only [ids, Anc, List.mem_cons, List.mem_append]
      by_cases hix : i = x
      · subst hix
        have hanc : ¬c.Anc i j ∧ ¬s.Anc i j :=
          ⟨fun h => hic (mem_ids_of_anc h).1, fun h => his (mem_ids_of_anc h).1⟩
        simp only [if_true, hanc, true_and, or_false]
        constructor
        · intro hj
          exact ⟨Or.inr (Or.inr hj), fun hji => his (hji ▸ hj), hs hj⟩
        · rintro ⟨hj | hj | hj, hne, hnc⟩
          · exact absurd hj hne
          · exact absurd hj hnc
          · exact hj
      · rw [if_neg hix]
        simp only [ids, List.mem_cons, List.mem_append, mem_excise_true_iff hndc,
          mem_excise_true_iff hnds, Ne.symm hix, false_and, false_or, not_or]
        have hcs : c.Anc x j → j ∉ s.ids := fun h hj => hs hj (mem_ids_of_anc h).2
        have hsc : s.Anc x j → j ∉ c.ids := fun h => hs (mem_ids_of_anc h).2
        have hci : c.Anc x j → j ≠ i := fun h hj => hic (hj ▸ (mem_ids_of_anc h).2)
        have hsi : s.Anc x j → j ≠ i := fun h hj => his (hj ▸ (mem_ids_of_anc h).2)
        have hne : j = i → j ≠ x := fun hj hjx => hix (hj.symm.trans hjx)
        constructor
        · rintro (hj | ⟨hj, hjx, hna⟩ | ⟨hj, hjx, hna⟩)
          · exact ⟨Or.inl hj, hne hj, fun h => hci h hj, fun h => hsi h hj⟩
          · exact ⟨Or.inr (Or.inl hj), hjx, hna, fun h => hsc h hj⟩
          · exact ⟨Or.inr (Or.inr hj), hjx, fun h => hcs h hj, hna⟩
        · rintro ⟨hj | hj | hj, hjx, hnc, hns⟩
          · exact Or.inl hj
          · exact Or.inr (Or.inl ⟨hj, hjx, hnc⟩)
          · exact Or.inr (Or.inr ⟨hj, hjx, hns⟩)

/-- **Without them**: the nodes are the others, in the same order. -/
theorem ids_excise_false : ∀ f : Forest α, f.ids.Nodup → (f.excise false x).ids = f.ids.erase x
  | nil, _ => rfl
  | node i c s, hnd => by
      simp only [ids, List.nodup_cons, List.mem_append, List.nodup_append, not_or] at hnd
      obtain ⟨-, hndc, hnds, hdisj⟩ := hnd
      rw [excise]
      by_cases hix : i = x
      · subst hix
        simp [ids]
      · rw [if_neg hix, ids, ids, ids_excise_false c hndc, ids_excise_false s hnds,
          List.erase_cons_tail (by simpa using hix)]
        congr 1
        by_cases hc : x ∈ c.ids
        · rw [List.erase_append_left _ hc, List.erase_of_not_mem fun hs => hdisj x hc x hs rfl]
        · rw [List.erase_append_right _ hc, List.erase_of_not_mem hc]

/-- …and they descend from one another as before. -/
theorem anc_excise_false {a b : α} (ha : a ≠ x) (hb : b ≠ x) : ∀ {f : Forest α}, f.ids.Nodup →
    ((f.excise false x).Anc a b ↔ f.Anc a b)
  | nil, _ => Iff.rfl
  | node i c s, hnd => by
      simp only [ids, List.nodup_cons, List.mem_append, List.nodup_append, not_or] at hnd
      obtain ⟨-, hndc, hnds, -⟩ := hnd
      rw [excise]
      by_cases hix : i = x
      · simp [hix, anc_append, Anc, ha]
      · have hmem : b ∈ (c.excise false x).ids ↔ b ∈ c.ids := by
          rw [ids_excise_false c hndc]
          exact List.mem_erase_of_ne hb
        simp only [if_neg hix, Anc, hmem, anc_excise_false ha hb hndc, anc_excise_false ha hb hnds]

/-- With them: the nodes that stay descend from one another as before. -/
theorem anc_excise_true {a b : α} (ha : a ≠ x) (hb : b ≠ x) : ∀ {f : Forest α}, f.ids.Nodup →
    ¬f.Anc x b → ((f.excise true x).Anc a b ↔ f.Anc a b)
  | nil, _, _ => Iff.rfl
  | node i c s, hnd, hanc => by
      have hmem := mem_excise_true_iff (x := x) (j := b) (List.nodup_append.mp
        (List.nodup_cons.mp hnd).2).1
      simp only [ids, List.nodup_cons, List.mem_append, List.nodup_append, not_or] at hnd
      obtain ⟨-, hndc, hnds, -⟩ := hnd
      simp only [Anc, not_or, not_and] at hanc
      obtain ⟨hi, hc, hs⟩ := hanc
      rw [excise]
      by_cases hix : i = x
      · have hbc : ¬c.Anc a b := fun h => hi hix.symm (mem_ids_of_anc h).2
        simp [hix, Anc, ha, hbc]
      · rw [and_iff_left (And.intro hb hc)] at hmem
        simp only [if_neg hix, Anc, hmem, anc_excise_true ha hb hndc hc, anc_excise_true ha hb hnds hs]

end Excise

/-! ## Ordered siblings -/

section InOrder

variable {key : α → ℕ}

/-- Of two trees side by side, the nodes of the second have larger keys than the root of the first. -/
def InOrder (key : α → ℕ) : Forest α → Prop
  | nil => True
  | node i c s => (∀ j ∈ s.ids, key i < key j) ∧ c.InOrder key ∧ s.InOrder key

section Head

variable {a b i : α} {c s : Forest α} (hnd : (node i c s).ids.Nodup)

include hnd

/-- The first root has nothing above it. -/
theorem not_anc_head : ¬(node i c s).Anc a i := by
  rw [ids, List.nodup_cons, List.mem_append, not_or] at hnd
  rintro (⟨-, h⟩ | h | h)
  · exact hnd.1.1 h
  · exact hnd.1.1 (mem_ids_of_anc h).2
  · exact hnd.1.2 (mem_ids_of_anc h).2

theorem anc_head_iff : (node i c s).Anc i b ↔ b ∈ c.ids := by
  rw [ids, List.nodup_cons, List.mem_append, not_or] at hnd
  constructor
  · rintro (⟨-, h⟩ | h | h)
    · exact h
    · exact (mem_ids_of_anc h).2
    · exact absurd (mem_ids_of_anc h).1 hnd.1.2
  · exact fun h => Or.inl ⟨rfl, h⟩

theorem anc_child_iff : c.Anc a b ↔ (node i c s).Anc a b ∧ a ≠ i ∧ b ∈ c.ids := by
  simp only [ids, List.nodup_cons, List.mem_append, List.nodup_append, not_or] at hnd
  obtain ⟨⟨hic, -⟩, -, -, hcs⟩ := hnd
  constructor
  · exact fun h => ⟨Or.inr (Or.inl h), fun hai => hic (hai ▸ (mem_ids_of_anc h).1), (mem_ids_of_anc h).2⟩
  · rintro ⟨⟨hai, -⟩ | h | h, hne, hb⟩
    · exact absurd hai hne
    · exact h
    · exact absurd rfl (hcs b hb b (mem_ids_of_anc h).2)

theorem anc_sibling_iff : s.Anc a b ↔ (node i c s).Anc a b ∧ b ∈ s.ids := by
  simp only [ids, List.nodup_cons, List.mem_append, List.nodup_append, not_or] at hnd
  obtain ⟨-, -, -, hcs⟩ := hnd
  constructor
  · exact fun h => ⟨Or.inr (Or.inr h), (mem_ids_of_anc h).2⟩
  · rintro ⟨⟨-, hc⟩ | h | h, hb⟩
    · exact absurd rfl (hcs b hc b hb)
    · exact absurd rfl (hcs b (mem_ids_of_anc h).2 b hb)
    · exact h

end Head

/-- A node that is not below the first root has a larger key. -/
theorem InOrder.head_lt {i j : α} {c s : Forest α} (h : (node i c s).InOrder key) (hj : j ∈ (node i c s).ids)
    (hji : j ≠ i) (hanc : ¬(node i c s).Anc i j) : key i < key j := by
  rw [ids, List.mem_cons, List.mem_append] at hj
  rcases hj with hj | hj | hj
  · exact absurd hj hji
  · exact absurd (Or.inl ⟨rfl, hj⟩) hanc
  · exact h.1 j hj

/-- **A forest is determined by its nodes, what is above what, and the order of the siblings.** -/
theorem eq_of_anc_iff : ∀ {f g : Forest α}, f.InOrder key → g.InOrder key → f.ids.Nodup →
    f.ids.Perm g.ids → (∀ a b, f.Anc a b ↔ g.Anc a b) → f = g
  | nil, nil, _, _, _, _, _ => rfl
  | nil, node _ _ _, _, _, _, hperm, _ => by simp [ids] at hperm
  | node _ _ _, nil, _, _, _, hperm, _ => by simp [ids] at hperm
  | node i c s, node j d t, hf, hg, hnd, hperm, hanc => by
      have hnd' := hperm.nodup_iff.mp hnd
      have hij : i = j := by
        by_contra hne
        have hi : i ∈ (node j d t).ids := hperm.subset List.mem_cons_self
        have hj : j ∈ (node i c s).ids := hperm.symm.subset List.mem_cons_self
        have hlt := hf.head_lt hj (Ne.symm hne) fun h => not_anc_head hnd' ((hanc i j).mp h)
        have hgt := hg.head_lt hi hne fun h => not_anc_head hnd ((hanc j i).mpr h)
        omega
      subst hij
      have hbelow : ∀ b, b ∈ c.ids ↔ b ∈ d.ids := fun b => by
        rw [← anc_head_iff hnd, hanc i b, anc_head_iff hnd']
      have hcd : ∀ a b, c.Anc a b ↔ d.Anc a b := fun a b => by
        rw [anc_child_iff hnd, hanc a b, hbelow b, ← anc_child_iff hnd']
      have hcs := List.nodup_append'.mp (List.nodup_cons.mp hnd).2
      have hdt := List.nodup_append'.mp (List.nodup_cons.mp hnd').2
      have hbeside : ∀ b, b ∈ s.ids ↔ b ∈ t.ids := fun b => by
        have hb := hperm.cons_inv.mem_iff (a := b)
        have hs : b ∈ s.ids → b ∉ d.ids := fun hs hd => hcs.2.2 ((hbelow b).mpr hd) hs
        have ht : b ∈ t.ids → b ∉ d.ids := fun ht hd => hdt.2.2 hd ht
        rw [List.mem_append, List.mem_append, hbelow b] at hb
        tauto
      have hst : ∀ a b, s.Anc a b ↔ t.Anc a b := fun a b => by
        rw [anc_sibling_iff hnd, hanc a b, hbeside b, ← anc_sibling_iff hnd']
      rw [eq_of_anc_iff hf.2.1 hg.2.1 hcs.1 ((List.perm_ext_iff_of_nodup hcs.1 hdt.1).mpr hbelow) hcd,
        eq_of_anc_iff hf.2.2 hg.2.2 hcs.2.1
          ((List.perm_ext_iff_of_nodup hcs.2.1 hdt.2.1).mpr hbeside) hst]

end InOrder

end Forest

end Machinery
