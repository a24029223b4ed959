import StyleRules.Proofs.Table.Count
import StyleRules.Proofs.Table.Replace
import StyleRules.Proofs.Table.Room

/-!
# Enough nodes are enough

A pool under construction never has more nodes than its keys need in the end, so construction fails
for want of nodes only where the keys need too many. When all keys are in, the pool has exactly the
nodes that they need.
-/

namespace StyleRules.Table

open CodeUnits (fold ofString)

namespace Pool

variable {pool : Pool} {plan : Plan} {roots : Finset UInt32} {keys : UInt32 → List CodeUnits}

namespace Census

theorem has_room (h : Census pool plan roots keys)
    (hneed : ∑ root ∈ roots, nodesNeeded (keys root) < Word.count) :
    pool.nodes.size < Word.count := Nat.lt_of_le_of_lt h.size_le hneed

/-- What is left of a key is entered below the node that its beginning leads to. -/
theorem exists_insert_below (h : Census pool plan roots keys)
    (hneed : ∑ root ∈ roots, nodesNeeded (keys root) < Word.count) {root index : UInt32}
    (hroot : pool.IsRoot plan root) {front rest : CodeUnits}
    (hwalk : pool.trie.walk root front = some index) (hrest : rest ≠ [])
    (hkey : front ++ rest ∈ keys root) (value : UInt32) :
    ∃ inserted plan', pool.insert index rest value = .ok inserted ∧
      Grown pool plan inserted plan' ∧ Census inserted plan' roots keys := by
  fun_induction Pool.insert pool index rest value generalizing plan front with
  | case1 pool index => exact absurd rfl hrest
  | case2 pool index last =>
    obtain ⟨hi, hrooti, hpathi⟩ := h.forest.place_of_root_walk hroot hwalk
    obtain ⟨claimed, holder, hclaim, -⟩ := claim_grows index last (h.has_room hneed)
    obtain ⟨plan', hclaimed, hcensus⟩ := h.claims hi
      (fun hother => by
        rw [hrooti, hpathi]
        exact mem_others_of_mem hkey hother) (claim_claims h.forest hi hclaim)
    have hset := hcensus.setValue hclaimed.holder value
    exact ⟨_, plan', by rw [hclaim]; rfl, hclaimed.grown.trans hset.forest.modified, hset⟩
  | case3 pool index unit next rest ih =>
    obtain ⟨hi, hrooti, hpathi⟩ := h.forest.place_of_root_walk hroot hwalk
    obtain ⟨claimed, holder, hclaim, -⟩ := claim_grows index unit (h.has_room hneed)
    obtain ⟨plan₁, hclaimed, hcensus₁⟩ := h.claims hi
      (fun hother => by
        rw [hrooti, hpathi]
        exact mem_others_of_mem hkey hother) (claim_claims h.forest hi hclaim)
    obtain ⟨descended, below, hchild, -⟩ := child_grows holder unit.symbol
      (hcensus₁.has_room hneed)
    obtain ⟨plan₂, hdescended, hcensus₂⟩ := hcensus₁.child (hclaimed.grown.isHead hi)
      hclaimed.holder (by
        rw [hclaimed.grown.path index hi.1, hclaimed.grown.root index hi.1, hrooti, hpathi]
        exact mem_places_of_mem hkey) hchild
    have hstep := hclaimed.grown.trans hdescended.grown
    have hwalk' : descended.trie.walk root (front ++ [unit]) = some below := by
      rw [Trie.walk_append, hdescended.walk root (hclaimed.grown.isHead hroot.1) front index
        (by rw [hclaimed.same.walk h.forest hroot.1, hwalk])]
      exact hdescended.leads
    obtain ⟨inserted, plan₃, hinsert, hgrown, hcensus⟩ := ih descended below hcensus₂
      (hstep.isRoot hroot) hwalk' (List.cons_ne_nil _ _)
      (by rwa [List.append_assoc, List.singleton_append])
    refine ⟨inserted, plan₃, ?_, hstep.trans hgrown, hcensus⟩
    rw [hclaim]
    simp only [bind, Except.bind, hchild, hinsert]

theorem exists_insertRules (h : Census pool plan roots keys)
    (hneed : ∑ root ∈ roots, nodesNeeded (keys root) < Word.count) {root : UInt32}
    (hroot : pool.IsRoot plan root) {entries : List (String × UInt32)}
    (hentries : ∀ entry ∈ entries, isEntry entry = true ∧ ofString entry.1 ∈ keys root) :
    ∃ filled plan', entries.foldlM (Pool.insertRule root) pool = .ok filled ∧
      Grown pool plan filled plan' ∧ Census filled plan' roots keys := by
  induction entries generalizing pool plan with
  | nil => exact ⟨pool, plan, rfl, Grown.refl h.forest, h⟩
  | cons entry entries ih =>
    obtain ⟨hentry, hkey⟩ := hentries entry List.mem_cons_self
    rw [isEntry_iff_ne_nil] at hentry
    obtain ⟨inserted, plan₁, hinsert, hgrown, hcensus⟩ := h.exists_insert_below hneed hroot
      (show pool.trie.walk root [] = some root from rfl) hentry.2 hkey entry.2
    obtain ⟨filled, plan₂, hfill, hrest, hcensus₂⟩ := ih hcensus (hgrown.isRoot hroot)
      fun other hmem => hentries other (List.mem_cons_of_mem _ hmem)
    refine ⟨filled, plan₂, ?_, hgrown.trans hrest, hcensus₂⟩
    rw [List.foldlM_cons, Pool.insertRule, if_neg hentry.1, hinsert]
    exact hfill

end Census

/-- A pool between two groups: what it holds is needed, and below every root but the one for names
all keys are found. -/
structure Stage (pool : Pool) (plan : Plan) (roots : Finset UInt32)
    (keys : UInt32 → List CodeUnits) : Prop where
  census : Census pool plan roots keys
  isRoot : ∀ root ∈ roots, pool.IsRoot plan root
  zero : 0 ∈ roots
  found : ∀ root ∈ roots, root ≠ 0 → ∀ key ∈ keys root, pool.trie.lookup root key ≠ 0

end Pool

def ValueRules.keys (group : ValueRules) : List CodeUnits :=
  group.values.map fun entry => ofString entry.1

theorem lastEntry_ne_zero {entries : List (String × RuleId)}
    (hentries : ∀ entry ∈ entries, isEntry entry = true) {key : CodeUnits}
    (hkey : key ∈ entries.map fun entry => ofString entry.1) :
    (lastEntry entries key).getD 0 ≠ 0 := by
  obtain ⟨entry, hmem, rfl⟩ := List.mem_map.mp hkey
  unfold lastEntry
  cases hlast : (entries.filterMap fun other =>
      if fold (ofString other.1) = fold (ofString entry.1) then some other.2
      else none).getLast? with
  | none =>
    have hnone := List.filterMap_eq_nil_iff.mp (List.getLast?_eq_none_iff.mp hlast) entry hmem
    exact absurd hnone (by simp)
  | some id =>
    obtain ⟨other, hother, hid⟩ := List.mem_filterMap.mp (List.mem_of_getLast? hlast)
    split at hid
    · exact Option.some.inj hid ▸ ((isEntry_iff_ne_nil other).mp (hentries other hother)).1
    · exact absurd hid (by simp)

namespace Pool

variable {pool : Pool} {plan : Plan} {roots : Finset UInt32} {keys : UInt32 → List CodeUnits}

theorem sum_nodesNeeded_update {added : UInt32} (hadded : added ∉ roots)
    (keys : UInt32 → List CodeUnits) (values : List CodeUnits) :
    ∑ root ∈ {added} ∪ roots, nodesNeeded (Function.update keys added values root) =
      ∑ root ∈ roots, nodesNeeded (keys root) + nodesNeeded values := by
  rw [Finset.sum_union (Finset.disjoint_singleton_left.mpr hadded), Finset.sum_singleton,
    Function.update_self, Nat.add_comm]
  congr 1
  refine Finset.sum_congr rfl fun root hroot => ?_
  rw [Function.update_of_ne (ne_of_mem_of_not_mem hroot hadded)]

theorem Stage.exists_insertGroup (h : Stage pool plan roots keys) {group : ValueRules}
    (hgroup : group.isSound = true) (hname : ofString group.name ∈ keys 0)
    (hneed : ∑ root ∈ roots, nodesNeeded (keys root) + nodesNeeded group.keys < Word.count) :
    ∃ filled plan' roots' keys', pool.insertGroup group = .ok filled ∧
      Stage filled plan' roots' keys' ∧ keys' 0 = keys 0 ∧
      ∑ root ∈ roots', nodesNeeded (keys' root) =
        ∑ root ∈ roots, nodesNeeded (keys root) + nodesNeeded group.keys ∧
      ∀ name, pool.trie.lookup 0 name ≠ 0 ∨ fold name = fold (ofString group.name) →
        filled.trie.lookup 0 name ≠ 0 := by
  rw [ValueRules.isSound_iff_ne_nil] at hgroup
  have hroom : pool.nodes.size < Word.count :=
    h.census.has_room (Nat.lt_of_le_of_lt (Nat.le_add_right _ _) hneed)
  obtain ⟨pushed, added, hpush, -⟩ := push_grows hroom
  obtain ⟨hnumber, -, -, -, -⟩ := push_spec hpush
  have hzero := h.isRoot 0 h.zero
  have hadded : added ∉ roots := fun hmem => not_has_added hpush (h.isRoot added hmem).1.1
  have hne : added ≠ 0 := (ne_added hpush hzero.1.1).symm
  have hgrown := Grown.push h.census.forest hpush added []
  have hsum := sum_nodesNeeded_update hadded keys group.keys
  have hkeys : Function.update keys added group.keys 0 = keys 0 :=
    Function.update_of_ne hne.symm _ _
  have hroot : pushed.IsRoot (plan.set added added added []) added :=
    ⟨⟨(has_push hpush added).mpr (.inr rfl), if_pos rfl⟩, if_pos rfl, if_pos rfl⟩
  have hentries : ∀ entry ∈ group.values, isEntry entry = true ∧
      ofString entry.1 ∈ Function.update keys added group.keys added := by
    intro entry hmem
    rw [Function.update_self]
    exact ⟨hgroup.2 entry hmem, List.mem_map_of_mem hmem⟩
  obtain ⟨valued, plan₁, hfill, hvalued, hcensus₁⟩ :=
    (h.census.push hadded hpush group.keys).exists_insertRules (hsum ▸ hneed) hroot hentries
  obtain ⟨filled, plan₂, hinsert, hnamed, hcensus₂⟩ := hcensus₁.exists_insert_below (hsum ▸ hneed)
    (hvalued.isRoot (hgrown.isRoot hzero)) (show valued.trie.walk 0 [] = some 0 from rfl) hgroup.1
    (by rwa [hkeys]) added
  have hresult : pool.insertGroup group = .ok filled := by
    simp only [insertGroup, bind, Except.bind, hpush, hfill, hinsert]
  obtain ⟨-, added', hnumber', -, -, -, hvalues, hnames, hkept⟩ :=
    insertGroup_spec h.census.forest hzero hresult
  obtain rfl : added' = added := UInt32.toNat_inj.mp (hnumber'.trans hnumber.symm)
  refine ⟨filled, plan₂, {added'} ∪ roots, Function.update keys added' group.keys, hresult,
    ⟨hcensus₂, fun root hmem => ?_, Finset.mem_union_right _ h.zero,
      fun root hmem hnonzero key hkey => ?_⟩, hkeys, hsum, fun name hname => ?_⟩
  · rcases Finset.mem_union.mp hmem with hnew | hold
    · rw [Finset.mem_singleton.mp hnew]
      exact (hvalued.trans hnamed).isRoot hroot
    · exact ((hgrown.trans hvalued).trans hnamed).isRoot (h.isRoot root hold)
  · rcases Finset.mem_union.mp hmem with hnew | hold
    · obtain rfl := Finset.mem_singleton.mp hnew
      rw [Function.update_self] at hkey
      rw [hvalues]
      exact lastEntry_ne_zero hgroup.2 hkey
    · rw [Function.update_of_ne (ne_of_mem_of_not_mem hold hadded)] at hkey
      rw [hkept root (h.isRoot root hold) hnonzero]
      exact h.found root hold hnonzero key hkey
  · rw [hnames]
    split
    · exact hne
    · next hother => exact hname.resolve_right hother

/-- Groups go in one after another, and their names are all found in the end. -/
theorem Stage.exists_insertGroups (h : Stage pool plan roots keys) {groups : List ValueRules}
    (hgroups : ∀ group ∈ groups, group.isSound = true ∧ ofString group.name ∈ keys 0)
    (hneed : ∑ root ∈ roots, nodesNeeded (keys root) +
      (groups.map fun group => nodesNeeded group.keys).sum < Word.count) :
    ∃ filled plan' roots' keys', groups.foldlM Pool.insertGroup pool = .ok filled ∧
      Stage filled plan' roots' keys' ∧ keys' 0 = keys 0 ∧
      ∑ root ∈ roots', nodesNeeded (keys' root) = ∑ root ∈ roots, nodesNeeded (keys root) +
        (groups.map fun group => nodesNeeded group.keys).sum ∧
      ∀ name, (pool.trie.lookup 0 name ≠ 0 ∨
        ∃ group ∈ groups, fold name = fold (ofString group.name)) →
          filled.trie.lookup 0 name ≠ 0 := by
  induction groups generalizing pool plan roots keys with
  | nil =>
    refine ⟨pool, plan, roots, keys, rfl, h, rfl, rfl, fun name hname => ?_⟩
    exact hname.resolve_right fun ⟨group, hmem, _⟩ => List.not_mem_nil hmem
  | cons group groups ih =>
    rw [List.map_cons, List.sum_cons, ← Nat.add_assoc] at hneed ⊢
    obtain ⟨hsound, hname⟩ := hgroups group List.mem_cons_self
    obtain ⟨grown, plan₁, roots₁, keys₁, hinsert, hstage, hkeys₁, hsum₁, hfound₁⟩ :=
      h.exists_insertGroup hsound hname (Nat.lt_of_le_of_lt (Nat.le_add_right _ _) hneed)
    rw [← hsum₁] at hneed ⊢
    obtain ⟨filled, plan₂, roots₂, keys₂, hfill, hlast, hkeys₂, hsum₂, hfound₂⟩ := ih hstage
      (fun other hmem => hkeys₁ ▸ hgroups other (List.mem_cons_of_mem _ hmem)) hneed
    refine ⟨filled, plan₂, roots₂, keys₂, ?_, hlast, hkeys₂.trans hkeys₁, hsum₂,
      fun name hfound => hfound₂ name ?_⟩
    · rw [List.foldlM_cons, hinsert]
      exact hfill
    · rcases hfound with hold | ⟨other, hmem, hother⟩
      · exact .inl (hfound₁ name (.inl hold))
      · rcases List.mem_cons.mp hmem with rfl | hlater
        · exact .inl (hfound₁ name (.inr hother))
        · exact .inr ⟨other, hlater, hother⟩

end Pool

/-! ## Rules -/

def renameNeed (rules : List Rule) : Nat :=
  nodesNeeded ((renameRules rules).map fun rule => ofString rule.1)

/-- How many nodes the replace rules need: those of their names, and for each spelling of a name
those of the values. -/
def replaceNeed (rules : List Rule) : Nat :=
  nodesNeeded ((spellings rules).map ofString) + ((spellings rules).map fun spelling =>
    nodesNeeded ((valuesOf rules spelling).map fun rule => ofString rule.1)).sum

theorem exists_renamePool {rules : List Rule} (hrules : (renameRules rules).all isEntry = true)
    (hneed : renameNeed rules < Word.count) :
    ∃ rename, (renameRules rules).foldlM (Pool.insertRule 0) Pool.new = .ok rename ∧
      rename.nodes.size = renameNeed rules := by
  rw [List.all_eq_true] at hrules
  have hsum : ∑ root ∈ ({0} : Finset UInt32),
      nodesNeeded ((fun _ => (renameRules rules).map fun rule => ofString rule.1) root) =
        renameNeed rules := Finset.sum_singleton _ _
  obtain ⟨rename, plan, hfill, hgrown, hcensus⟩ :=
    (Pool.Census.new fun _ =>
      (renameRules rules).map fun rule => ofString rule.1).exists_insertRules
      (hsum ▸ hneed) Pool.isRoot_new fun entry hmem =>
        ⟨hrules entry hmem, List.mem_map_of_mem hmem⟩
  obtain ⟨-, -, hlookup⟩ := Pool.insertRules_spec Pool.forest_new Pool.isRoot_new hfill
  refine ⟨rename, hfill, (hcensus.size_eq_nodesNeeded ?_ ?_).trans hsum⟩
  · intro root hroot
    rw [Finset.mem_singleton.mp hroot]
    exact hgrown.isRoot Pool.isRoot_new
  · intro root hroot key hkey
    rw [Finset.mem_singleton.mp hroot, hlookup 0 Pool.isRoot_new, if_pos rfl, Pool.lookup_new]
    exact lastEntry_ne_zero hrules hkey

theorem exists_replacePool {rules : List Rule}
    (hrules : (replaceGroups rules).all ValueRules.isSound = true)
    (hneed : replaceNeed rules < Word.count) :
    ∃ replace, (replaceGroups rules).foldlM Pool.insertGroup Pool.new = .ok replace ∧
      replace.nodes.size = replaceNeed rules := by
  rw [List.all_eq_true] at hrules
  let keys : UInt32 → List CodeUnits := fun _ => (spellings rules).map ofString
  have hsum : ∑ root ∈ ({0} : Finset UInt32), nodesNeeded (keys root) +
      ((replaceGroups rules).map fun group => nodesNeeded group.keys).sum = replaceNeed rules := by
    rw [Finset.sum_singleton, replaceGroups_eq, List.map_map]
    rfl
  have hname : ∀ group ∈ replaceGroups rules, ofString group.name ∈ keys 0 := by
    intro group hmem
    rw [replaceGroups_eq] at hmem
    obtain ⟨spelling, hspelling, rfl⟩ := List.mem_map.mp hmem
    exact List.mem_map_of_mem hspelling
  have hstage : Pool.Stage Pool.new Pool.Plan.new {0} keys :=
    ⟨Pool.Census.new keys, fun root hroot => Finset.mem_singleton.mp hroot ▸ Pool.isRoot_new,
      Finset.mem_singleton_self 0, fun root hroot hne => absurd (Finset.mem_singleton.mp hroot) hne⟩
  obtain ⟨replace, plan, roots, keys', hfill, hlast, hkeys, hsize, hfound⟩ :=
    hstage.exists_insertGroups (fun group hmem => ⟨hrules group hmem, hname group hmem⟩)
      (hsum ▸ hneed)
  refine ⟨replace, hfill, (hlast.census.size_eq_nodesNeeded hlast.isRoot ?_).trans
    (hsize.trans hsum)⟩
  intro root hroot key hkey
  by_cases hzero : root = 0
  · rw [hzero] at hkey ⊢
    rw [hkeys] at hkey
    obtain ⟨spelling, hspelling, rfl⟩ := List.mem_map.mp hkey
    refine hfound _ (.inr ⟨⟨spelling, valuesOf rules spelling⟩, ?_, rfl⟩)
    rw [replaceGroups_eq]
    exact List.mem_map_of_mem hspelling
  · exact hlast.found root hroot hzero key hkey

end StyleRules.Table
