import Sandix.Kernel.ResourceRun

/-!
# Kernel/StandardIo — the ports the kernel reserves for itself

`reserve_standard_io_resources` of `arch/x86/kernel/setup.c`: a table of ranges is requested one by one,
and a request that fails stops the machine.

* `reserveAll_spec` — it goes through exactly when the ranges are in the root and disjoint, in whatever
  order they stand; they are then the children of the root, in address order.
* `reserveStandardIoResources_ok` — the table of the kernel goes through.
-/

namespace Sandix

open Machinery Forest

/-- `BUG_ON(!!request_resource(root, …))`, over a table. -/
def reserveAll (fuel root : ℕ) : List ℕ → ResHeap → Exec ResHeap
  | [], h => .ok h
  | new :: news, h => do
    let (ret, h) ← (ResourceOp.request new).exec fuel root h
    if ret ≠ 0 then .error .bug else reserveAll fuel root news h

/-- `standard_io_resources`. -/
def standardIoResources : List (ℕ × ℕ) :=
  [(0x00, 0x1f), (0x20, 0x21), (0x40, 0x43), (0x50, 0x53), (0x60, 0x60), (0x64, 0x64), (0x80, 0x8f),
    (0xa0, 0xa1), (0xc0, 0xdf), (0xf0, 0xff)]

/-- `IO_SPACE_LIMIT`. -/
def ioSpaceLimit : ℕ := 0xffff

/-- The root `ioport_resource` at `root`, and the table at the addresses `news`. -/
structure StandardIo (h : ResHeap) (root : ℕ) (news : List ℕ) : Prop where
  untouched : Untouched h root
  root_eq : (h root).start = 0 ∧ (h root).stop = ioSpaceLimit
  table : news.map (fun i => ((h i).start, (h i).stop)) = standardIoResources
  nodup : (root :: news).Nodup

/-- `reserve_standard_io_resources`. -/
def reserveStandardIoResources (root : ℕ) (news : List ℕ) (h : ResHeap) : Exec ResHeap :=
  reserveAll (standardIoResources.length + 1) root news h

variable {h h' h₀ : ResHeap} {root fuel : ℕ} {kids : Forest ℕ} {s : Holdings} {news : List ℕ}

/-- The ranges lie in the root, and meet neither one another nor what is held. -/
structure Reservable (h : ResHeap) (root : ℕ) (held news : List ℕ) : Prop where
  inside : ∀ i ∈ news, LiesInside h i root
  disjoint : news.Pairwise fun i j => ¬Overlaps h i j
  apart : ∀ i ∈ news, ∀ c ∈ held, ¬Overlaps h c i

theorem reservable_cons {new : ℕ} {held : List ℕ} : Reservable h root held (new :: news) ↔
    (LiesInside h new root ∧ ∀ c ∈ held, ¬Overlaps h c new) ∧ Reservable h root (new :: held) news := by
  constructor
  · rintro ⟨hin, hdis, hap⟩
    rw [List.pairwise_cons] at hdis
    refine ⟨⟨hin new List.mem_cons_self, hap new List.mem_cons_self⟩,
      fun i hi => hin i (List.mem_cons_of_mem _ hi), hdis.2, fun i hi => ?_⟩
    exact List.forall_mem_cons.mpr ⟨hdis.1 i hi, hap i (List.mem_cons_of_mem _ hi)⟩
  · rintro ⟨⟨hnew, hfree⟩, hin, hdis, hap⟩
    refine ⟨List.forall_mem_cons.mpr ⟨hnew, hin⟩, List.pairwise_cons.mpr ⟨fun i hi => ?_, hdis⟩,
      List.forall_mem_cons.mpr ⟨hfree, fun i hi c hc => ?_⟩⟩
    · exact hap i hi new List.mem_cons_self
    · exact hap i hi c (List.mem_cons_of_mem _ hc)

theorem Keeps.reserveAll : ∀ {news : List ℕ} {h : ResHeap} {s : Holdings} {kids : Forest ℕ},
    Keeps h₀ h root s kids → (∀ i ∈ news, i ≠ root ∧ i ∉ s.held ∧ i ∉ s.spent) → news.Nodup →
    s.held.length + news.length < fuel →
    (Reservable h₀ root s.held news → ∃ h' kids', reserveAll fuel root news h = .ok h' ∧
      Keeps h₀ h' root { s with held := news.reverse ++ s.held } kids') ∧
    (¬Reservable h₀ root s.held news → reserveAll fuel root news h = .error .bug)
  | [], h, s, kids, hk, _, _, _ => by
      refine ⟨fun _ => ⟨h, kids, rfl, hk⟩, fun hno => absurd ?_ hno⟩
      exact ⟨fun _ hi => (nomatch hi), List.Pairwise.nil, fun _ hi => (nomatch hi)⟩
  | new :: news, h, s, kids, hk, hproper, hnd, hfuel => by
      obtain ⟨hnew, hnews⟩ := List.forall_mem_cons.mp hproper
      rw [List.nodup_cons] at hnd
      rw [List.length_cons] at hfuel
      obtain ⟨h₁, kids₁, hexec, hk₁⟩ :=
        @Keeps.exec h h₀ root fuel kids s hk (.request new) hnew (by omega)
      rw [reservable_cons]
      by_cases hfree : LiesInside h₀ new root ∧ ∀ c ∈ s.held, ¬Overlaps h₀ c new
      · rw [ResourceOp.next, if_pos hfree] at hexec hk₁
        have hstep : Sandix.reserveAll fuel root (new :: news) h = Sandix.reserveAll fuel root news h₁ := by
          rw [Sandix.reserveAll, hexec, Exec.ok_bind]
          rfl
        have hproper' : ∀ i ∈ news, i ≠ root ∧ i ∉ (s.grant new).held ∧ i ∉ (s.grant new).spent :=
          fun i hi => ⟨(hnews i hi).1, fun hm => (List.mem_cons.mp hm).elim
            (fun hin => hnd.1 (hin ▸ hi)) (hnews i hi).2.1, (hnews i hi).2.2⟩
        have hlen : (s.grant new).held.length + news.length < fuel := by
          rw [Holdings.grant, List.length_cons]
          omega
        rw [hstep, and_iff_right hfree, List.reverse_cons, List.append_assoc]
        exact Keeps.reserveAll hk₁ hproper' hnd.2 hlen
      · rw [ResourceOp.next, if_neg hfree] at hexec
        have hbusy : -EBUSY ≠ 0 := by decide
        refine ⟨fun hall => absurd hall.1 hfree, fun _ => ?_⟩
        rw [Sandix.reserveAll, hexec, Exec.ok_bind]
        exact if_pos hbusy

/-- Trees whose roots have nothing below them. -/
theorem tops_eq_ids_of_not_anc : ∀ {f : Forest ℕ}, (∀ a b, ¬f.Anc a b) → f.tops = f.ids
  | nil, _ => rfl
  | node i nil s, h => by
      rw [tops, ids, ids, List.nil_append,
        tops_eq_ids_of_not_anc fun a b hanc => h a b (Or.inr (Or.inr hanc))]
  | node i (node j d t) s, h => absurd (Or.inl ⟨rfl, List.mem_cons_self⟩) (h i j)

/-- Roots come one after the other. -/
theorem Ordered.tops_ascend : ∀ {f : Forest ℕ} {lo hi : ℕ}, Ordered h lo hi f →
    f.tops.Pairwise fun i j => (h i).stop < (h j).start
  | nil, _, _, _ => List.Pairwise.nil
  | node _ _ s, _, _, ⟨_, _, hs⟩ => List.pairwise_cons.mpr
      ⟨fun j hj => (hs.bounds j (tops_subset_ids s j hj)).1, hs.tops_ascend⟩

/-- What the table leaves: its ranges are the children of the root, in address order. -/
structure Reserved (h h' : ResHeap) (root : ℕ) (news : List ℕ) (kids : Forest ℕ) : Prop where
  tree : ResourceTree h' root kids
  nodes : kids.ids.Perm news
  flat : kids.tops = kids.ids
  ascend : kids.ids.Pairwise fun i j => (h i).stop < (h j).start

theorem Keeps.reserved (hk : Keeps h₀ h root s kids) (hnodes : s.held.Perm news)
    (hdis : news.Pairwise fun i j => ¬Overlaps h₀ i j) : Reserved h₀ h root news kids := by
  have hsymm : Std.Symm fun i j => ¬Overlaps h₀ i j := ⟨fun i j hij hji => hij ⟨hji.2, hji.1⟩⟩
  have hflat : kids.tops = kids.ids := tops_eq_ids_of_not_anc fun a b hanc => by
    have hin := hk.tree.ordered.within_of_anc hanc
    have hne : a ≠ b := by
      rintro rfl
      exact anc_irrefl hk.nodup hanc
    obtain ⟨ha, hb⟩ := mem_ids_of_anc hanc
    have hb' := (hk.tree.ordered.bounds b hb).2.1
    refine hdis.forall (hnodes.mem_iff.mp (hk.mem_iff.mp ha))
      (hnodes.mem_iff.mp (hk.mem_iff.mp hb)) hne (hk.range.overlaps.mp ?_)
    exact ⟨hin.1.trans hb', hb'.trans hin.2⟩
  refine ⟨hk.tree, hk.nodes.trans hnodes, hflat, ?_⟩
  have hasc := hk.tree.ordered.tops_ascend
  rw [hflat] at hasc
  exact hasc.imp fun hlt => by rwa [(hk.range _).2, (hk.range _).1] at hlt

/-- A table on a root that has granted nothing. -/
theorem Untouched.reserveAll (hu : Untouched h root) (hnd : (root :: news).Nodup)
    (hfuel : news.length < fuel) (hall : Reservable h root [] news) :
    ∃ h' kids, reserveAll fuel root news h = .ok h' ∧ Reserved h h' root news kids := by
  rw [List.nodup_cons] at hnd
  have hproper : ∀ i ∈ news, i ≠ root ∧ i ∉ Holdings.empty.held ∧ i ∉ Holdings.empty.spent := fun i hi =>
    ⟨fun hir => hnd.1 (hir ▸ hi), List.not_mem_nil, List.not_mem_nil⟩
  have hlen : Holdings.empty.held.length + news.length < fuel := by simpa [Holdings.empty] using hfuel
  obtain ⟨h', kids, hrun, hk⟩ := (hu.keeps.reserveAll hproper hnd.2 hlen).1 hall
  refine ⟨h', kids, hrun, hk.reserved ?_ hall.disjoint⟩
  rw [show (Holdings.mk (news.reverse ++ Holdings.empty.held) Holdings.empty.spent).held = news.reverse
    from List.append_nil _]
  exact news.reverse_perm

/-- **A table goes through exactly when it can**: on a root that has granted nothing, its ranges lie in
the root and are disjoint, in any order.  Otherwise the machine stops. -/
theorem reserveAll_spec (hu : Untouched h root) (hnd : (root :: news).Nodup) (hfuel : news.length < fuel) :
    (Reservable h root [] news → ∃ h' kids, reserveAll fuel root news h = .ok h' ∧
      Reserved h h' root news kids) ∧
    (¬Reservable h root [] news → reserveAll fuel root news h = .error .bug) := by
  refine ⟨hu.reserveAll hnd hfuel, ?_⟩
  rw [List.nodup_cons] at hnd
  refine (hu.keeps.reserveAll (fun i hi => ?_) hnd.2 ?_).2
  · exact ⟨fun hir => hnd.1 (hir ▸ hi), List.not_mem_nil, List.not_mem_nil⟩
  · simpa [Holdings.empty] using hfuel

theorem StandardIo.reservable (hio : StandardIo h root news) : Reservable h root [] news := by
  have hall : ∀ i ∈ news, ((h i).start, (h i).stop) ∈ standardIoResources := fun i hi =>
    hio.table ▸ List.mem_map_of_mem hi
  have hin : ∀ r ∈ standardIoResources, r.1 ≤ r.2 ∧ r.2 ≤ ioSpaceLimit := by decide
  have hdis : standardIoResources.Pairwise fun r s => ¬(r.1 ≤ s.2 ∧ s.1 ≤ r.2) := by decide
  refine ⟨fun i hi => ?_, ?_, fun i _ c hc => (nomatch hc)⟩
  · obtain ⟨hrange, hlimit⟩ := hin _ (hall i hi)
    exact ⟨hrange, hio.root_eq.1.trans_le (Nat.zero_le _), hlimit.trans_eq hio.root_eq.2.symm⟩
  · rw [← hio.table] at hdis
    exact List.pairwise_map.mp hdis

/-- **The kernel's own table** goes through, wherever its entries are in memory. -/
theorem reserveStandardIoResources_ok (hio : StandardIo h root news) : ∃ h' kids,
    reserveStandardIoResources root news h = .ok h' ∧ Reserved h h' root news kids := by
  have hlen : news.length = standardIoResources.length := by
    rw [← hio.table, List.length_map]
  exact hio.untouched.reserveAll hio.nodup (by omega) hio.reservable

/-- The root at `0` and the table after it. -/
def standardIoHeap : ResHeap
  | 0 => ⟨0, ioSpaceLimit, none, none, none⟩
  | i + 1 => ⟨(standardIoResources.getD i (0, 0)).1, (standardIoResources.getD i (0, 0)).2, none, none, none⟩

theorem standardIoHeap_untouched : Untouched standardIoHeap 0 where
  range := by decide
  child i := by cases i <;> rfl

/-- From the last entry to the first; and two entries of one range. -/
theorem reserveAll_spec_backwards :
    (∃ h' kids, reserveAll 4 0 [3, 2, 1] standardIoHeap = .ok h' ∧
      Reserved standardIoHeap h' 0 [3, 2, 1] kids) ∧
    reserveAll 3 0 [1, 3] looseHeap = .error .bug := by
  have hall : Reservable standardIoHeap 0 [] [3, 2, 1] :=
    ⟨by decide, by decide, fun _ _ c hc => absurd hc List.not_mem_nil⟩
  have hno : ¬Reservable looseHeap 0 [] [1, 3] := by
    rintro ⟨-, hdis, -⟩
    exact absurd hdis (by decide)
  exact ⟨(reserveAll_spec standardIoHeap_untouched (by decide) (by decide)).1 hall,
    (reserveAll_spec looseHeap_untouched (by decide) (by decide)).2 hno⟩

end Sandix
