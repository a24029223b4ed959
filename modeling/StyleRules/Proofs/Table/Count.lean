import Mathlib.Algebra.BigOperators.Group.Finset.Sigma
import Mathlib.Algebra.Order.BigOperators.Group.Finset
import StyleRules.Proofs.Table.Census

/-!
# Counting the nodes of a pool

The nodes of a pool are counted place by place. A census bounds the nodes of each place, and when
all keys are found, no place has fewer either.
-/

namespace StyleRules.Table

open CodeUnits (fold)

namespace Pool

variable {pool : Pool} {plan : Plan} {roots : Finset UInt32} {keys : UInt32 → List CodeUnits}

def indices (pool : Pool) : Finset UInt32 := (Finset.range pool.nodes.size).image UInt32.ofNat

theorem mem_indices (hsize : pool.nodes.size ≤ Word.count) {i : UInt32} :
    i ∈ pool.indices ↔ pool.Has i := by
  unfold indices Has
  rw [Finset.mem_image]
  constructor
  · rintro ⟨n, hn, rfl⟩
    have hn := Finset.mem_range.mp hn
    rwa [UInt32.toNat_ofNat_of_lt' (Nat.lt_of_lt_of_le hn hsize)]
  · intro hi
    exact ⟨i.toNat, Finset.mem_range.mpr hi, UInt32.ofNat_toNat⟩

theorem card_indices (hsize : pool.nodes.size ≤ Word.count) :
    pool.indices.card = pool.nodes.size := by
  unfold indices
  rw [Finset.card_image_of_injOn, Finset.card_range]
  intro m hm n hn hsame
  have hm : m < pool.nodes.size := Finset.mem_range.mp hm
  have hn : n < pool.nodes.size := Finset.mem_range.mp hn
  have hsame := congrArg UInt32.toNat hsame
  rwa [UInt32.toNat_ofNat_of_lt' (Nat.lt_of_lt_of_le hm hsize),
    UInt32.toNat_ofNat_of_lt' (Nat.lt_of_lt_of_le hn hsize)] at hsame

/-- The nodes of one place. -/
def nodesAt (pool : Pool) (plan : Plan) (root : UInt32) (front : CodeUnits) : Finset UInt32 :=
  pool.indices.filter fun i => plan.root (plan.head i) = root ∧ plan.path (plan.head i) = front

namespace Census

theorem mem_nodesAt (h : Census pool plan roots keys) {root i : UInt32} {front : CodeUnits} :
    i ∈ pool.nodesAt plan root front ↔
      pool.Has i ∧ plan.root (plan.head i) = root ∧ plan.path (plan.head i) = front := by
  rw [nodesAt, Finset.mem_filter, mem_indices h.forest.size_le]

theorem size_eq (h : Census pool plan roots keys) :
    pool.nodes.size =
      ∑ root ∈ roots, ∑ front ∈ places (keys root), (pool.nodesAt plan root front).card := by
  let placeOf : UInt32 → (_ : UInt32) × CodeUnits := fun i =>
    ⟨plan.root (plan.head i), plan.path (plan.head i)⟩
  have hmaps : Set.MapsTo placeOf pool.indices (roots.sigma fun root => places (keys root)) := by
    intro i hi
    have hhead := h.forest.isHead_head ((mem_indices h.forest.size_le).mp hi)
    exact Finset.mem_coe.mpr (Finset.mem_sigma.mpr ⟨h.root_mem _ hhead, h.place _ hhead⟩)
  rw [← card_indices h.forest.size_le, Finset.card_eq_sum_card_fiberwise hmaps, Finset.sum_sigma]
  refine Finset.sum_congr rfl fun root _ => Finset.sum_congr rfl fun front _ => ?_
  unfold nodesAt
  congr
  funext i
  simp only [placeOf, Sigma.mk.injEq, heq_eq_eq]

theorem head_of_mem_nodesAt (h : Census pool plan roots keys) {root i j : UInt32}
    {front : CodeUnits} (hi : i ∈ pool.nodesAt plan root front)
    (hj : j ∈ pool.nodesAt plan root front) : plan.head i = plan.head j := by
  obtain ⟨hhasi, hrooti, hpathi⟩ := h.mem_nodesAt.mp hi
  obtain ⟨hhasj, hrootj, hpathj⟩ := h.mem_nodesAt.mp hj
  exact h.head_inj (h.forest.isHead_head hhasi) (h.forest.isHead_head hhasj)
    (hrooti.trans hrootj.symm) (hpathi.trans hpathj.symm)

theorem card_nodesAt_le (h : Census pool plan roots keys) (root : UInt32) (front : CodeUnits) :
    (pool.nodesAt plan root front).card ≤ max 1 (others (keys root) front).card := by
  by_cases hall : ∀ i ∈ pool.nodesAt plan root front,
      (pool.node i).occupied Symbol.other = true
  · -- Every node holds a unit of its own.
    have hunit : ∀ i : pool.nodesAt plan root front, ∃ unit : others (keys root) front,
        (pool.node i).holdsOther unit.val = true := by
      rintro ⟨i, hi⟩
      obtain ⟨hhas, hroot, hpath⟩ := h.mem_nodesAt.mp hi
      obtain ⟨unit, hmem, hholds⟩ := h.held i hhas (hall i hi)
      rw [hroot, hpath] at hmem
      exact ⟨⟨unit, hmem⟩, hholds⟩
    choose unit hholds using hunit
    have hinjective : Function.Injective unit := by
      intro i j hsame
      have hi := h.mem_nodesAt.mp i.property
      have hj := h.mem_nodesAt.mp j.property
      exact Subtype.ext (h.forest.unit_inj i j (unit i) hi.1 hj.1
        (h.head_of_mem_nodesAt i.property j.property) (hholds i) (hsame ▸ hholds j))
    have hcard := Fintype.card_le_of_injective unit hinjective
    rw [Fintype.card_coe, Fintype.card_coe] at hcard
    exact Nat.le_trans hcard (Nat.le_max_right _ _)
  · -- A node that holds none is a head without alternates.
    refine Nat.le_trans (Finset.card_le_one.mpr ?_) (Nat.le_max_left _ _)
    simp only [not_forall, Bool.not_eq_true] at hall
    obtain ⟨free, hfree, hoccupied⟩ := hall
    have hhas := (h.mem_nodesAt.mp hfree).1
    have hhead : plan.head free = free := by
      by_contra hne
      rw [h.alternate free hhas hne] at hoccupied
      exact absurd hoccupied.symm Bool.false_ne_true
    have halone : ∀ i ∈ pool.nodesAt plan root front, i = free := by
      intro i hi
      have hreach := h.forest.reaches i (h.mem_nodesAt.mp hi).1
      rw [h.head_of_mem_nodesAt hi hfree, hhead] at hreach
      cases hreach with
      | refl => rfl
      | next hnext =>
        rw [h.forest.linked_occupied free hhas hnext] at hoccupied
        exact absurd hoccupied.symm Bool.false_ne_true
    intro i hi j hj
    rw [halone i hi, halone j hj]

theorem size_le (h : Census pool plan roots keys) :
    pool.nodes.size ≤ ∑ root ∈ roots, nodesNeeded (keys root) := by
  rw [h.size_eq]
  exact Finset.sum_le_sum fun root _ => Finset.sum_le_sum fun front _ =>
    h.card_nodesAt_le root front

end Census

end Pool

/-! ## No place is missing -/

theorem Trie.walk_of_lookup {trie : Trie} {root : UInt32} {front rest : CodeUnits} {unit : CodeUnit}
    (hfound : trie.lookup root (front ++ unit :: rest) ≠ 0) :
    ∃ i, trie.walk root front = some i ∧ (trie.valueAt i unit ≠ 0 ∨ trie.childAt i unit ≠ 0) := by
  induction front generalizing root with
  | nil =>
    refine ⟨root, rfl, ?_⟩
    cases rest with
    | nil => exact .inl (by rwa [List.nil_append, lookup_singleton] at hfound)
    | cons next rest =>
      rw [List.nil_append, lookup_cons_cons] at hfound
      exact .inr fun hzero => hfound (if_pos hzero)
  | cons first front ih =>
    obtain ⟨next, tail, htail⟩ : ∃ next tail, front ++ unit :: rest = next :: tail := by
      cases front with
      | nil => exact ⟨unit, rest, rfl⟩
      | cons next front => exact ⟨next, front ++ unit :: rest, rfl⟩
    rw [List.cons_append, htail, lookup_cons_cons, ← htail] at hfound
    split at hfound
    · exact absurd rfl hfound
    · next hchild =>
      obtain ⟨i, hwalk, hanswer⟩ := ih hfound
      exact ⟨i, by rw [walk, if_neg hchild, hwalk], hanswer⟩

namespace Pool.Census

variable {pool : Pool} {plan : Plan} {roots : Finset UInt32} {keys : UInt32 → List CodeUnits}

theorem exists_serves (h : Census pool plan roots keys) {root : UInt32}
    (hroot : pool.IsRoot plan root) (hfound : ∀ key ∈ keys root, pool.trie.lookup root key ≠ 0)
    {front : CodeUnits} {unit : CodeUnit} (hbegins : Begins (keys root) (front ++ [unit])) :
    ∃ holder ∈ pool.nodesAt plan root front, (pool.node holder).serves unit = true := by
  obtain ⟨key, hkey, rest, hrest⟩ := hbegins
  rw [List.append_assoc, List.singleton_append] at hrest
  obtain ⟨start, tail, rfl, hstart, htail⟩ := List.map_eq_append_iff.mp hrest.symm
  obtain ⟨v, tail, rfl, hv, -⟩ := List.map_eq_cons_iff.mp htail
  obtain ⟨i, hwalk, hanswer⟩ := Trie.walk_of_lookup (hfound _ hkey)
  obtain ⟨hi, hrooti, hpathi⟩ := h.forest.place_of_walk hroot.1 hwalk
  rw [hroot.2.1] at hrooti
  rw [hroot.2.2, List.nil_append] at hpathi
  have hholder : ∃ holder, pool.Holder plan i v holder := by
    by_contra hnone
    have hnone : ∀ holder, ¬ pool.Holder plan i v holder := fun holder hh => hnone ⟨holder, hh⟩
    rcases hanswer with hvalue | hchild
    · exact hvalue (h.forest.valueAt_of_no_holder hi hnone)
    · exact hchild (h.forest.childAt_of_no_holder hi hnone)
  obtain ⟨holder, hh⟩ := hholder
  refine ⟨holder, h.mem_nodesAt.mpr ⟨hh.has, ?_, ?_⟩, serves_of_fold ?_ hh.serves⟩
  · rw [hh.head, hrooti]
  · rw [hh.head, hpathi]
    exact hstart
  · rw [← hv, CodeUnit.fold_fold]

theorem le_card_nodesAt (h : Census pool plan roots keys) {root : UInt32}
    (hroot : pool.IsRoot plan root) (hfound : ∀ key ∈ keys root, pool.trie.lookup root key ≠ 0)
    {front : CodeUnits} (hfront : front ∈ places (keys root)) :
    max 1 (others (keys root) front).card ≤ (pool.nodesAt plan root front).card := by
  refine Nat.max_le.mpr ⟨Finset.card_pos.mpr ?_, ?_⟩
  · rcases mem_places.mp hfront with rfl | ⟨unit, hbegins⟩
    · refine ⟨root, h.mem_nodesAt.mpr ⟨hroot.1.1, ?_, ?_⟩⟩
      · rw [hroot.1.2, hroot.2.1]
      · rw [hroot.1.2, hroot.2.2]
    · obtain ⟨holder, hmem, -⟩ := h.exists_serves hroot hfound hbegins
      exact ⟨holder, hmem⟩
  · have hholder : ∀ unit : others (keys root) front, ∃ holder : pool.nodesAt plan root front,
        (pool.node holder).holdsOther unit.val = true := by
      rintro ⟨unit, hunit⟩
      obtain ⟨hother, hbegins⟩ := mem_others.mp hunit
      obtain ⟨holder, hmem, hserves⟩ := h.exists_serves hroot hfound hbegins
      rw [Node.serves, if_pos hother] at hserves
      exact ⟨⟨holder, hmem⟩, hserves⟩
    choose holder hholds using hholder
    have hinjective : Function.Injective holder := by
      intro u v hsame
      have hu := (Node.holdsOther_iff _ _).mp (hholds u)
      have hv := (Node.holdsOther_iff _ _).mp (hholds v)
      rw [hsame] at hu
      exact Subtype.ext (UInt16.toUInt32_inj.mp (hu.2.symm.trans hv.2))
    have hcard := Fintype.card_le_of_injective holder hinjective
    rwa [Fintype.card_coe, Fintype.card_coe] at hcard

/-- A pool in which every key is found has exactly the nodes that its keys need. -/
theorem size_eq_nodesNeeded (h : Census pool plan roots keys)
    (hroots : ∀ root ∈ roots, pool.IsRoot plan root)
    (hfound : ∀ root ∈ roots, ∀ key ∈ keys root, pool.trie.lookup root key ≠ 0) :
    pool.nodes.size = ∑ root ∈ roots, nodesNeeded (keys root) := by
  rw [h.size_eq]
  exact Finset.sum_congr rfl fun root hroot => Finset.sum_congr rfl fun front hfront =>
    Nat.le_antisymm (h.card_nodesAt_le root front)
      (h.le_card_nodesAt (hroots root hroot) (hfound root hroot) hfront)

end Pool.Census

end StyleRules.Table
