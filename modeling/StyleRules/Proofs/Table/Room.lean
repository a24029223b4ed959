import StyleRules.Proofs.Table.Encoding
import StyleRules.Proofs.Table.Slots
import StyleRules.Table.Build

/-!
# Tables have room

A key adds at most two nodes for each of its units, so rules with numbers and with keys that are not
empty have a table as long as their keys are not too long taken together.
-/

namespace StyleRules.Table

open CodeUnits (ofString)

namespace Pool

variable {pool : Pool}

/-- A step succeeds with at most `n` more nodes. -/
def Grows {α : Type} (pool : Pool) (n : Nat) (step : Except BuildError (Pool × α)) : Prop :=
  ∃ grown answer, step = .ok (grown, answer) ∧ grown.nodes.size ≤ pool.nodes.size + n

theorem push_grows (h : pool.nodes.size < Word.count) : pool.Grows 1 pool.push := by
  refine ⟨_, _, if_pos h, ?_⟩
  exact Nat.le_of_eq (Array.size_push _)

theorem claimOther_grows (holder : UInt32) (unit : CodeUnit) (h : pool.nodes.size < Word.count) :
    pool.Grows 1 (pool.claimOther holder unit) := by
  fun_induction Pool.claimOther pool holder unit with
  | case1 holder hfree =>
    refine ⟨_, _, rfl, ?_⟩
    rw [size_modify]
    omega
  | case2 holder hoccupied hunit => exact ⟨_, _, rfl, Nat.le_succ _⟩
  | case3 holder hoccupied hunit hforward ih => exact ih
  | case4 holder hoccupied hunit hbackward =>
    obtain ⟨grown, added, hpush, hsize⟩ := push_grows h
    rw [hpush]
    refine ⟨_, _, rfl, ?_⟩
    rw [size_modify, size_modify]
    exact hsize

theorem claim_grows (index : UInt32) (unit : CodeUnit) (h : pool.nodes.size < Word.count) :
    pool.Grows 1 (pool.claim index unit) := by
  unfold claim
  split
  · exact claimOther_grows index unit h
  · refine ⟨_, _, rfl, ?_⟩
    rw [size_modify]
    omega

theorem child_grows (holder : UInt32) (symbol : Symbol) (h : pool.nodes.size < Word.count) :
    pool.Grows 1 (pool.child holder symbol) := by
  unfold child
  dsimp only
  split
  · exact ⟨_, _, rfl, Nat.le_succ _⟩
  · obtain ⟨grown, added, hpush, hsize⟩ := push_grows h
    rw [hpush]
    refine ⟨_, _, rfl, ?_⟩
    rw [size_modify]
    exact hsize

/-- A key that is not empty has room in a pool with two free nodes for each of its units. -/
theorem insert_room (root value : UInt32) {key : CodeUnits} (hkey : key ≠ [])
    (h : pool.nodes.size + 2 * key.length ≤ Word.count) :
    ∃ grown, pool.insert root key value = .ok grown ∧
      grown.nodes.size ≤ pool.nodes.size + 2 * key.length := by
  fun_induction Pool.insert pool root key value with
  | case1 pool root => exact absurd rfl hkey
  | case2 pool root last =>
    rw [List.length_singleton] at h ⊢
    obtain ⟨claimed, holder, hclaim, hsize⟩ := claim_grows root last
      (show pool.nodes.size < Word.count by omega)
    rw [hclaim]
    refine ⟨_, rfl, ?_⟩
    rw [size_modify]
    omega
  | case3 pool root unit next rest ih =>
    rw [List.length_cons] at h ⊢
    obtain ⟨claimed, holder, hclaim, hclaimed⟩ := claim_grows root unit
      (show pool.nodes.size < Word.count by omega)
    obtain ⟨grown, below, hchild, hgrown⟩ := child_grows holder unit.symbol
      (show claimed.nodes.size < Word.count by omega)
    obtain ⟨inserted, hinsert, hsize⟩ := ih grown below (List.cons_ne_nil _ _) (by omega)
    refine ⟨inserted, ?_, by omega⟩
    rw [hclaim]
    simp only [bind, Except.bind, hchild, hinsert]

/-- Steps that each add at most what they cost succeed together where there is room for all. -/
theorem foldlM_room {α : Type} {step : Pool → α → Except BuildError Pool} {cost : α → Nat}
    {entries : List α} (hstep : ∀ entry ∈ entries, ∀ pool : Pool,
      pool.nodes.size + cost entry ≤ Word.count → ∃ grown, step pool entry = .ok grown ∧
        grown.nodes.size ≤ pool.nodes.size + cost entry)
    (h : pool.nodes.size + (entries.map cost).sum ≤ Word.count) :
    ∃ filled, entries.foldlM step pool = .ok filled ∧
      filled.nodes.size ≤ pool.nodes.size + (entries.map cost).sum := by
  induction entries generalizing pool with
  | nil => exact ⟨pool, rfl, Nat.le_add_right _ _⟩
  | cons entry entries ih =>
    rw [List.map_cons, List.sum_cons] at h ⊢
    obtain ⟨grown, hfirst, hgrown⟩ := hstep entry List.mem_cons_self pool (by omega)
    obtain ⟨filled, hrest, hfilled⟩ := ih
      (fun other hmem => hstep other (List.mem_cons_of_mem _ hmem))
      (show grown.nodes.size + _ ≤ Word.count by omega)
    refine ⟨filled, ?_, by omega⟩
    rw [List.foldlM_cons, hfirst]
    exact hrest

end Pool

/-! ## Rules with room -/

/-- A rule with a number and with a key that is not empty. -/
def isEntry (entry : String × RuleId) : Bool := entry.2 != 0 && !(ofString entry.1).isEmpty

def entryCost (entry : String × RuleId) : Nat := 2 * (ofString entry.1).length

def ValueRules.isSound (group : ValueRules) : Bool :=
  !(ofString group.name).isEmpty && group.values.all isEntry

theorem isEntry_iff_ne_nil (entry : String × RuleId) :
    isEntry entry = true ↔ entry.2 ≠ 0 ∧ ofString entry.1 ≠ [] := by
  rw [isEntry, Bool.and_eq_true, bne_iff_ne, Bool.not_eq_true', List.isEmpty_eq_false_iff]

theorem ValueRules.isSound_iff_ne_nil (group : ValueRules) : group.isSound = true ↔
    ofString group.name ≠ [] ∧ ∀ entry ∈ group.values, isEntry entry = true := by
  rw [isSound, Bool.and_eq_true, Bool.not_eq_true', List.isEmpty_eq_false_iff, List.all_eq_true]

def ValueRules.cost (group : ValueRules) : Nat :=
  1 + (group.values.map entryCost).sum + 2 * (ofString group.name).length

theorem Pool.insertRule_room (root : UInt32) {entry : String × RuleId}
    (hentry : isEntry entry = true) {pool : Pool}
    (h : pool.nodes.size + entryCost entry ≤ Word.count) :
    ∃ grown, Pool.insertRule root pool entry = .ok grown ∧
      grown.nodes.size ≤ pool.nodes.size + entryCost entry := by
  rw [isEntry_iff_ne_nil] at hentry
  rw [Pool.insertRule, if_neg hentry.1]
  exact Pool.insert_room root entry.2 hentry.2 h

theorem Pool.insertGroup_room {group : ValueRules} (hgroup : group.isSound = true) {pool : Pool}
    (h : pool.nodes.size + group.cost ≤ Word.count) :
    ∃ grown, pool.insertGroup group = .ok grown ∧
      grown.nodes.size ≤ pool.nodes.size + group.cost := by
  rw [ValueRules.isSound_iff_ne_nil] at hgroup
  unfold ValueRules.cost at h ⊢
  obtain ⟨pushed, root, hpush, hpushed⟩ := push_grows
    (show pool.nodes.size < Word.count by omega)
  obtain ⟨filled, hfill, hfilled⟩ := foldlM_room
    (fun entry hmem _ hroom => insertRule_room root (hgroup.2 entry hmem) hroom)
    (show pushed.nodes.size + _ ≤ Word.count by omega)
  obtain ⟨named, hinsert, hnamed⟩ := insert_room 0 root hgroup.1
    (show filled.nodes.size + _ ≤ Word.count by omega)
  refine ⟨named, ?_, by omega⟩
  simp only [Pool.insertGroup, bind, Except.bind, hpush, hfill, hinsert]

/-- Rules with numbers and with keys that are not too long together have a table. -/
theorem exists_build {rules : List Rule} (hrename : (renameRules rules).all isEntry = true)
    (hreplace : (replaceGroups rules).all ValueRules.isSound = true)
    (hrenameRoom : 1 + ((renameRules rules).map entryCost).sum < Word.count)
    (hreplaceRoom : 1 + ((replaceGroups rules).map ValueRules.cost).sum < Word.count) :
    ∃ asset, build rules = .ok asset := by
  rw [List.all_eq_true] at hrename hreplace
  obtain ⟨rename, hrenamed, hrenameSize⟩ := Pool.foldlM_room
    (fun entry hmem _ hroom => Pool.insertRule_room 0 (hrename entry hmem) hroom)
    (show Pool.new.nodes.size + _ ≤ Word.count from Nat.le_of_lt hrenameRoom)
  obtain ⟨replace, hreplaced, hreplaceSize⟩ := Pool.foldlM_room
    (fun group hmem _ hroom => Pool.insertGroup_room (hreplace group hmem) hroom)
    (show Pool.new.nodes.size + _ ≤ Word.count from Nat.le_of_lt hreplaceRoom)
  have hroom : rename.nodes.size < Word.count ∧ replace.nodes.size < Word.count :=
    ⟨Nat.lt_of_le_of_lt hrenameSize hrenameRoom, Nat.lt_of_le_of_lt hreplaceSize hreplaceRoom⟩
  simp only [build, bind, Except.bind, hrenamed, hreplaced, assetBytes, if_pos hroom]
  exact ⟨_, rfl⟩

end StyleRules.Table
