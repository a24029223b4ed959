import Mathlib.Algebra.BigOperators.Group.Finset.Basic
import Mathlib.Data.Finset.Basic
import StyleRules.Proofs.CodeUnit.Fold

/-!
# How many nodes keys need

Keys that agree up to case share their nodes, and so do common beginnings. Every proper beginning of
a key is a place, and so is the empty beginning. A place takes one node, and one more for every
second unit that is not a letter.
-/

namespace StyleRules.Table

open CodeUnits (fold)

def Begins (keys : List CodeUnits) (front : CodeUnits) : Prop :=
  ∃ key ∈ keys, front <+: fold key

/-- The proper beginnings of the keys, and the empty one. -/
def places (keys : List CodeUnits) : Finset CodeUnits :=
  insert [] (keys.flatMap fun key =>
    (List.range key.length).map fun n => (fold key).take n).toFinset

/-- The units other than letters with which keys go on behind `front`. -/
def others (keys : List CodeUnits) (front : CodeUnits) : Finset CodeUnit :=
  ((keys.filterMap fun key =>
    if (fold key).take front.length = front then (fold key)[front.length]? else none).filter
      fun unit => unit.symbol = Symbol.other).toFinset

def nodesNeeded (keys : List CodeUnits) : Nat :=
  ∑ front ∈ places keys, max 1 (others keys front).card

variable {keys : List CodeUnits} {front : CodeUnits}

theorem prefix_snoc_iff {key : CodeUnits} {unit : CodeUnit} :
    front ++ [unit] <+: key ↔ key.take front.length = front ∧ key[front.length]? = some unit := by
  constructor
  · rintro ⟨rest, rfl⟩
    rw [List.append_assoc]
    exact ⟨List.take_left, by simp⟩
  · rintro ⟨htake, hunit⟩
    refine ⟨key.drop (front.length + 1), ?_⟩
    obtain ⟨hlt, rfl⟩ := List.getElem?_eq_some_iff.mp hunit
    rw [List.append_assoc, List.singleton_append, ← List.drop_eq_getElem_cons hlt]
    nth_rewrite 1 [← htake]
    exact List.take_append_drop _ _

theorem mem_others {unit : CodeUnit} :
    unit ∈ others keys front ↔ unit.symbol = Symbol.other ∧ Begins keys (front ++ [unit]) := by
  unfold others Begins
  rw [List.mem_toFinset, List.mem_filter, List.mem_filterMap, decide_eq_true_eq, and_comm]
  refine and_congr_right fun _ => exists_congr fun key => and_congr_right fun _ => ?_
  rw [prefix_snoc_iff]
  by_cases htake : (fold key).take front.length = front
  · rw [if_pos htake]
    exact (and_iff_right htake).symm
  · rw [if_neg htake]
    exact iff_of_false (by simp) fun hboth => htake hboth.1

theorem mem_places :
    front ∈ places keys ↔ front = [] ∨ ∃ unit, Begins keys (front ++ [unit]) := by
  unfold places Begins
  rw [Finset.mem_insert, List.mem_toFinset, List.mem_flatMap]
  refine or_congr_right ?_
  have hlength : ∀ key : CodeUnits, (fold key).length = key.length := fun key => List.length_map _
  constructor
  · rintro ⟨key, hkey, hmem⟩
    obtain ⟨n, hn, rfl⟩ := List.mem_map.mp hmem
    have hn : n < (fold key).length := by
      rw [hlength]
      exact List.mem_range.mp hn
    refine ⟨(fold key)[n], key, hkey, ?_⟩
    rw [List.take_append_getElem]
    exact List.take_prefix _ _
  · rintro ⟨unit, key, hkey, hstart⟩
    obtain ⟨htake, hunit⟩ := prefix_snoc_iff.mp hstart
    refine ⟨key, hkey, List.mem_map.mpr ⟨front.length, ?_, htake⟩⟩
    rw [List.mem_range, ← hlength key]
    exact (List.getElem?_eq_some_iff.mp hunit).1

theorem begins_of_mem {start rest : CodeUnits} {unit : CodeUnit}
    (hkey : start ++ unit :: rest ∈ keys) : Begins keys (fold start ++ [unit.fold]) := by
  refine ⟨_, hkey, fold rest, ?_⟩
  unfold fold
  rw [List.map_append, List.map_cons, List.append_assoc, List.singleton_append]

theorem mem_others_of_mem {start rest : CodeUnits} {unit : CodeUnit}
    (hkey : start ++ unit :: rest ∈ keys) (hother : unit.symbol = Symbol.other) :
    unit ∈ others keys (fold start) := by
  have hfold := CodeUnit.fold_of_not_isLetter ((CodeUnit.symbol_eq_other_iff unit).mp hother)
  have hbegins := begins_of_mem hkey
  rw [hfold] at hbegins
  exact mem_others.mpr ⟨hother, hbegins⟩

theorem mem_places_of_mem {start rest : CodeUnits} {unit next : CodeUnit}
    (hkey : start ++ unit :: next :: rest ∈ keys) : fold start ++ [unit.fold] ∈ places keys := by
  refine mem_places.mpr (.inr ⟨next.fold, ?_⟩)
  have hbegins : Begins keys (fold (start ++ [unit]) ++ [next.fold]) :=
    begins_of_mem (by rwa [List.append_assoc, List.singleton_append])
  unfold fold at hbegins ⊢
  rwa [List.map_append, List.map_singleton] at hbegins

theorem nodesNeeded_congr {listed : List CodeUnits} (h : ∀ key, key ∈ keys ↔ key ∈ listed) :
    nodesNeeded keys = nodesNeeded listed := by
  have hbegins (front : CodeUnits) : Begins keys front ↔ Begins listed front :=
    exists_congr fun key => and_congr_left fun _ => h key
  have hplaces : places keys = places listed := by
    ext front
    rw [mem_places, mem_places]
    exact or_congr_right (exists_congr fun unit => hbegins _)
  have hothers (front : CodeUnits) : others keys front = others listed front := by
    ext unit
    rw [mem_others, mem_others, hbegins]
  rw [nodesNeeded, nodesNeeded, hplaces]
  exact Finset.sum_congr rfl fun front _ => by rw [hothers]

/-- Common beginnings and both cases of a letter count once, and two units other than letters at one
place take two nodes. -/
example : nodesNeeded [[0x61, 0x2D], [0x41, 0x3A, 0x62], [0x61]] = 4 := by decide +kernel

end StyleRules.Table
