import StyleRules.Proofs.Table.Encoding
import StyleRules.Proofs.Table.Insert
import StyleRules.Table.Resolve

/-!
# Rename rules are found

A list of keys is entered one by one, so the last key that agrees with a name is the one that is
found. Built, written and read again, a table answers a name with the last rename rule for it.
-/

namespace StyleRules.Table

open CodeUnits (fold ofString)

/-- The value of the last entry whose key agrees with `key` up to ASCII case. -/
def lastEntry (entries : List (String × UInt32)) (key : CodeUnits) : Option UInt32 :=
  (entries.filterMap fun entry =>
    if fold (ofString entry.1) = fold key then some entry.2 else none).getLast?

theorem lastEntry_cons (entry : String × UInt32) (entries : List (String × UInt32))
    (key : CodeUnits) :
    lastEntry (entry :: entries) key =
      if fold (ofString entry.1) = fold key then some ((lastEntry entries key).getD entry.2)
      else lastEntry entries key := by
  unfold lastEntry
  rw [List.filterMap_cons]
  by_cases hkey : fold (ofString entry.1) = fold key
  · simp only [if_pos hkey, List.getLast?_cons]
  · simp only [if_neg hkey]

namespace Pool

variable {pool : Pool} {plan : Plan}

/-- Entering rules below a root answers each key with its last rule, and changes nothing else. -/
theorem insertRules_spec (hforest : pool.Forest plan) {root : UInt32}
    (hroot : pool.IsRoot plan root) {entries : List (String × UInt32)} {filled : Pool}
    (hfill : entries.foldlM (Pool.insertRule root) pool = .ok filled) :
    ∃ plan', Grown pool plan filled plan' ∧ ∀ r, pool.IsRoot plan r → ∀ key,
      filled.trie.lookup r key =
        if r = root then (lastEntry entries key).getD (pool.trie.lookup r key)
        else pool.trie.lookup r key := by
  induction entries generalizing pool plan with
  | nil =>
    obtain rfl := Except.ok.inj hfill
    exact ⟨plan, Grown.refl hforest, fun r _ key => by split <;> rfl⟩
  | cons entry entries ih =>
    rw [List.foldlM_cons] at hfill
    obtain ⟨inserted, hfirst, hfill⟩ := exists_of_bind_eq_ok hfill
    unfold Pool.insertRule at hfirst
    split at hfirst
    · exact absurd hfirst (by simp)
    · obtain ⟨plan₁, hgrown, hlookup⟩ := insert_spec hforest hroot hfirst
      obtain ⟨plan₂, hrest, hanswer⟩ := ih hgrown.forest (hgrown.isRoot hroot) hfill
      refine ⟨plan₂, hgrown.trans hrest, fun r hr key => ?_⟩
      rw [hanswer r (hgrown.isRoot hr), hlookup r hr, lastEntry_cons]
      by_cases hsame : r = root
      · rw [if_pos hsame, if_pos hsame]
        by_cases hkey : fold key = fold (ofString entry.1)
        · rw [if_pos ⟨hsame, hkey⟩, if_pos hkey.symm, Option.getD_some]
        · rw [if_neg fun h => hkey h.2, if_neg fun h => hkey h.symm]
      · rw [if_neg hsame, if_neg hsame, if_neg fun h => hsame h.1]

end Pool

theorem assetBytes_of_build {rules : List Rule} {asset : Bytes} (hbuild : build rules = .ok asset) :
    ∃ rename replace,
      (renameRules rules).foldlM (Pool.insertRule 0) Pool.new = .ok rename ∧
        (replaceGroups rules).foldlM Pool.insertGroup Pool.new = .ok replace ∧
        assetBytes rename replace = .ok asset := by
  unfold build at hbuild
  obtain ⟨rename, hrename, hbuild⟩ := Pool.exists_of_bind_eq_ok hbuild
  obtain ⟨replace, hreplace, hasset⟩ := Pool.exists_of_bind_eq_ok hbuild
  exact ⟨rename, replace, hrename, hreplace, hasset⟩

theorem build_eq_ok {rules : List Rule} {asset : Bytes} (hbuild : build rules = .ok asset) :
    ∃ rename replace,
      (renameRules rules).foldlM (Pool.insertRule 0) Pool.new = .ok rename ∧
        (replaceGroups rules).foldlM Pool.insertGroup Pool.new = .ok replace ∧
        ofBytes asset = ⟨rename.trie, replace.trie⟩ := by
  obtain ⟨rename, replace, hrename, hreplace, hasset⟩ := assetBytes_of_build hbuild
  exact ⟨rename, replace, hrename, hreplace, ofBytes_assetBytes hasset⟩

/-- The id of the last rename rule whose key agrees with a name, letters in either case and every
other unit exactly; `0` when there is none. -/
def lastRename (rules : List Rule) (name : CodeUnits) : RuleId :=
  (rules.filterMap fun rule =>
    match rule with
    | .rename key id => if fold (ofString key) = fold name then some id else none
    | .replace _ _ _ => none).getLast?.getD 0

theorem lastRename_eq_lastEntry (rules : List Rule) (name : CodeUnits) :
    lastRename rules name = (lastEntry (renameRules rules) name).getD 0 := by
  unfold lastRename lastEntry renameRules
  rw [List.filterMap_filterMap]
  congr 3
  funext rule
  cases rule <;> rfl

theorem renameId_eq_lastEntry {rules : List Rule} {asset : Bytes}
    (hbuild : build rules = .ok asset) (name : CodeUnits) :
    (ofBytes asset).renameId name = (lastEntry (renameRules rules) name).getD 0 := by
  obtain ⟨rename, replace, hrename, -, htable⟩ := build_eq_ok hbuild
  obtain ⟨_, _, hlookup⟩ := Pool.insertRules_spec Pool.forest_new Pool.isRoot_new hrename
  rw [htable]
  show rename.trie.lookup 0 name = _
  rw [hlookup 0 Pool.isRoot_new, if_pos rfl, Pool.lookup_new]

/-- A built table answers every name with the last rename rule for it. -/
theorem renameId_ofBytes_build {rules : List Rule} {asset : Bytes}
    (hbuild : build rules = .ok asset) (name : CodeUnits) :
    (ofBytes asset).renameId name = lastRename rules name := by
  rw [renameId_eq_lastEntry hbuild, lastRename_eq_lastEntry]

theorem exists_build_of_isOk (rules : List Rule) (hok : (build rules).isOk = true) :
    ∃ asset, build rules = .ok asset := by
  cases hbuild : build rules with
  | ok asset => exact ⟨asset, rfl⟩
  | error cause =>
    rw [hbuild] at hok
    exact absurd hok (by simp [Except.isOk, Except.toBool])

/-- Prefixes, alternates at one position, and a key entered twice in different cases. -/
theorem renameId_of_related_keys :
    ∃ asset, build [.rename "a-" 1, .rename "a" 2, .rename "a:b" 3, .rename "a_b" 4,
        .rename "A-" 5, .replace "a" "b" 6] = .ok asset ∧
      (ofBytes asset).renameId (ofString "A") = 2 ∧
      (ofBytes asset).renameId (ofString "a-") = 5 ∧
      (ofBytes asset).renameId (ofString "A_B") = 4 ∧
      (ofBytes asset).renameId [0xD800] = 0 := by
  obtain ⟨asset, hbuild⟩ := exists_build_of_isOk [.rename "a-" 1, .rename "a" 2,
    .rename "a:b" 3, .rename "a_b" 4, .rename "A-" 5, .replace "a" "b" 6] (by decide +kernel)
  refine ⟨asset, hbuild, ?_, ?_, ?_, ?_⟩ <;> rw [renameId_ofBytes_build hbuild] <;> decide +kernel

end StyleRules.Table
