import StyleRules.Rules.RuleSet
import StyleRules.Proofs.Table.Acceptance

/-!
# Numbers of rules

A table answers with the number of a rule, and the side table of a rule set tells what the rule
does. The two are made from one list: the rule at an index is entered in the table under
`idAt index`, and its action stands at that index. So what a number means is the action of the rule
that was found, as long as there are numbers for all rules.
-/

namespace StyleRules

open CodeUnits (fold ofString)

namespace Table

theorem renameRules_append (front back : List Rule) :
    renameRules (front ++ back) = renameRules front ++ renameRules back := by
  unfold renameRules
  exact List.filterMap_append

theorem renameRules_eq_nil {rules : List Rule}
    (h : ∀ rule ∈ rules, ∃ key text id, rule = .replace key text id) : renameRules rules = [] := by
  rw [renameRules, List.filterMap_eq_nil_iff]
  intro rule hrule
  obtain ⟨key, text, id, rfl⟩ := h rule hrule
  rfl

/-- The entry that answers a key agrees with it, and no entry after it does. -/
theorem exists_of_lastEntry {entries : List (String × UInt32)} {key : CodeUnits} {id : UInt32}
    (hlast : lastEntry entries key = some id) :
    ∃ earlier spelled later, entries = earlier ++ (spelled, id) :: later ∧
      fold (ofString spelled) = fold key ∧ ∀ entry ∈ later, fold (ofString entry.1) ≠ fold key := by
  obtain ⟨ids, hids⟩ := List.getLast?_eq_some_iff.mp hlast
  obtain ⟨front, back, rfl, -, hback⟩ := List.filterMap_eq_append_iff.mp hids
  obtain ⟨between, ⟨spelled, number⟩, later, rfl, -, hentry, hlater⟩ :=
    List.filterMap_eq_cons_iff.mp hback
  have hagrees : fold (ofString spelled) = fold key ∧ number = id := by
    simpa using hentry
  obtain ⟨hfold, rfl⟩ := hagrees
  refine ⟨front ++ between, spelled, later, (List.append_assoc _ _ _).symm, hfold, ?_⟩
  intro entry hmem hagree
  have hnone := List.filterMap_eq_nil_iff.mp hlater entry hmem
  rw [if_pos hagree] at hnone
  exact absurd hnone (by simp)

theorem fold_ne_of_lastEntry_eq_none {entries : List (String × UInt32)} {key : CodeUnits}
    (hlast : lastEntry entries key = none) {entry : String × UInt32} (hentry : entry ∈ entries) :
    fold (ofString entry.1) ≠ fold key := by
  intro hagree
  have hnone := List.filterMap_eq_nil_iff.mp (List.getLast?_eq_none_iff.mp hlast) entry hentry
  rw [if_pos hagree] at hnone
  exact absurd hnone (by simp)

theorem mem_of_answeringReplace {rules : List Rule} {name value : CodeUnits}
    (hanswer : answeringReplace rules name value ≠ 0) :
    ∃ key text, .replace key text (answeringReplace rules name value) ∈ rules ∧
      fold (ofString key) = fold name ∧ fold (ofString text) = fold value := by
  unfold answeringReplace at hanswer ⊢
  cases hspelling : answeringSpelling rules name with
  | none =>
    rw [hspelling] at hanswer
    exact absurd rfl hanswer
  | some spelling =>
    rw [hspelling] at hanswer
    dsimp only at hanswer ⊢
    cases hlast : lastEntry (valuesOf rules spelling) value with
    | none =>
      rw [hlast] at hanswer
      exact absurd rfl hanswer
    | some id =>
      obtain ⟨earlier, text, later, hvalues, htext, -⟩ := exists_of_lastEntry hlast
      refine ⟨spelling, text, mem_valuesOf.mp ?_, (fold_of_answeringSpelling hspelling).2, htext⟩
      rw [hvalues]
      exact List.mem_append_right _ List.mem_cons_self

end Table

namespace RuleSet

/-! ## Numbers and places -/

theorem toNat_idAt (index : Nat) : (idAt index).toNat = min (index + 1) (Word.count - 1) := by
  unfold idAt
  rw [UInt32.toNat_ofNat']
  exact Nat.mod_eq_of_lt (Nat.lt_of_le_of_lt (Nat.min_le_right _ _) (by decide))

theorem idAt_ne_zero (index : Nat) : idAt index ≠ 0 := by
  intro hzero
  have hnat : min (index + 1) (Word.count - 1) = 0 := by
    rw [← toNat_idAt, hzero]
    rfl
  have hcount : Word.count - 1 ≠ 0 := by decide
  omega

/-- A number means the action at its own place; rules beyond the largest word share the number of
the last rule that has one. -/
theorem action?_idAt (rules : RuleSet) (index : Nat) :
    rules.action? (idAt index) = rules.actions[min index (Word.count - 2)]? := by
  rw [action?, if_neg (idAt_ne_zero index), toNat_idAt]
  congr 1
  omega

theorem mem_tableRules {rules : List (Trigger × Action)} {rule : Table.Rule} :
    rule ∈ tableRules rules ↔
      ∃ (index : Nat) (trigger : Trigger) (action : Action),
        rules[index]? = some (trigger, action) ∧ rule = trigger.rule (idAt index) := by
  unfold tableRules
  rw [List.mem_map]
  constructor
  · rintro ⟨⟨⟨trigger, action⟩, index⟩, hentry, rfl⟩
    exact ⟨index, trigger, action, List.mem_zipIdx_iff_getElem?.mp hentry, rfl⟩
  · rintro ⟨index, trigger, action, hentry, rfl⟩
    exact ⟨((trigger, action), index), List.mem_zipIdx_iff_getElem?.mpr hentry, rfl⟩

theorem build_eq_ok {renames : List (String × String)}
    {replaces : List (String × List (String × Replacement))} {rules : RuleSet}
    (h : build renames replaces = .ok rules) :
    Table.build (tableRules (configured renames replaces)) = .ok rules.asset ∧
      rules.actions = (configured renames replaces).map Prod.snd := by
  unfold build at h
  dsimp only at h
  obtain ⟨asset, hbuild, h⟩ := Table.Pool.exists_of_bind_eq_ok h
  obtain rfl := Except.ok.inj h
  exact ⟨hbuild, rfl⟩

theorem build_of_table {renames : List (String × String)}
    {replaces : List (String × List (String × Replacement))} {asset : Bytes}
    (h : Table.build (tableRules (configured renames replaces)) = .ok asset) :
    build renames replaces = .ok ⟨asset, (configured renames replaces).map Prod.snd⟩ := by
  unfold build
  simp only [bind, Except.bind, h]

/-! ## What is configured -/

variable {renames : List (String × String)} {replaces : List (String × List (String × Replacement))}

theorem configured_getElem?_rename {index : Nat} {rule : String × String}
    (hrule : renames[index]? = some rule) :
    (configured renames replaces)[index]? = some (.onName rule.1, .rename rule.2) := by
  obtain ⟨hindex, -⟩ := List.getElem?_eq_some_iff.mp hrule
  unfold configured
  rw [List.getElem?_append_left (by rwa [List.length_map]), List.getElem?_map, hrule]
  rfl

theorem exists_of_mem_configured {key text : String} {action : Action}
    (hrule : (.onDeclaration key text, action) ∈ configured renames replaces) :
    ∃ group ∈ replaces, ∃ rule ∈ group.2,
      group.1 = key ∧ rule.1 = text ∧ action = .replace rule.2 := by
  unfold configured at hrule
  rcases List.mem_append.mp hrule with hrename | hreplace
  · obtain ⟨rule, -, heq⟩ := List.mem_map.mp hrename
    exact absurd heq (by simp)
  · obtain ⟨group, hgroup, hmem⟩ := List.mem_flatMap.mp hreplace
    obtain ⟨rule, hmember, heq⟩ := List.mem_map.mp hmem
    obtain ⟨htrigger, rfl⟩ := Prod.mk.inj heq
    obtain ⟨hkey, htext⟩ := Trigger.onDeclaration.inj htrigger
    exact ⟨group, hgroup, rule, hmember, hkey, htext, rfl⟩

theorem renameRules_tableRules :
    Table.renameRules (tableRules (configured renames replaces)) =
      renames.zipIdx.map fun rule => (rule.1.1, idAt rule.2) := by
  have hrename : ∀ rules : List ((String × String) × Nat),
      Table.renameRules (rules.map fun rule => .rename rule.1.1 (idAt rule.2)) =
        rules.map fun rule => (rule.1.1, idAt rule.2) := fun rules => by
    rw [Table.renameRules, List.filterMap_map]
    exact congrFun (List.filterMap_eq_map
      (f := fun rule : (String × String) × Nat => (rule.1.1, idAt rule.2))) rules
  have hreplace : ∀ start, Table.renameRules (((replaces.flatMap fun group =>
      group.2.map fun rule => ((.onDeclaration group.1 rule.1, .replace rule.2) :
        Trigger × Action)).zipIdx start).map fun rule => rule.1.1.rule (idAt rule.2)) = [] := by
    intro start
    apply Table.renameRules_eq_nil
    intro rule hrule
    obtain ⟨⟨entry, index⟩, hentry, rfl⟩ := List.mem_map.mp hrule
    obtain ⟨group, -, hmem⟩ := List.mem_flatMap.mp (List.fst_mem_of_mem_zipIdx hentry)
    obtain ⟨pair, -, rfl⟩ := List.mem_map.mp hmem
    exact ⟨_, _, _, rfl⟩
  unfold tableRules configured
  rw [List.zipIdx_append, List.map_append, Table.renameRules_append, List.zipIdx_map, List.map_map,
    hreplace, List.append_nil]
  exact hrename renames.zipIdx

/-! ## What a number that answers means -/

variable {rules : RuleSet}

/-- A rule set knows an action for the number of each rule, and it is the rule's own one if its
place is a word. -/
theorem action?_of_configured (hbuild : build renames replaces = .ok rules) {index : Nat}
    {trigger : Trigger} {action : Action}
    (hrule : (configured renames replaces)[index]? = some (trigger, action)) :
    (rules.action? (idAt index)).isSome ∧
      (index + 1 < Word.count → rules.action? (idAt index) = some action) := by
  obtain ⟨hindex, -⟩ := List.getElem?_eq_some_iff.mp hrule
  rw [action?_idAt, (build_eq_ok hbuild).2]
  constructor
  · have hplace := Nat.lt_of_le_of_lt (Nat.min_le_left index (Word.count - 2)) hindex
    rw [List.getElem?_map, List.getElem?_eq_getElem hplace]
    rfl
  · intro hword
    rw [Nat.min_eq_left (by omega), List.getElem?_map, hrule]
    rfl

theorem fold_ne_of_renameId (hbuild : build renames replaces = .ok rules) {name : CodeUnits}
    (hnone : rules.table.renameId name = 0) :
    ∀ rule ∈ renames, fold (ofString rule.1) ≠ fold name := by
  intro rule hrule
  rw [table, Table.renameId_eq_lastEntry (build_eq_ok hbuild).1, renameRules_tableRules] at hnone
  cases hlast : Table.lastEntry (renames.zipIdx.map fun rule => (rule.1.1, idAt rule.2)) name with
  | none =>
    obtain ⟨index, hindex⟩ := List.getElem?_of_mem hrule
    exact Table.fold_ne_of_lastEntry_eq_none hlast (List.mem_map.mpr
      ⟨(rule, index), List.mem_zipIdx_iff_getElem?.mpr hindex, rfl⟩)
  | some id =>
    obtain ⟨earlier, spelled, later, hentries, -⟩ := Table.exists_of_lastEntry hlast
    have hmem : (spelled, id) ∈ renames.zipIdx.map fun rule => (rule.1.1, idAt rule.2) := by
      rw [hentries]
      exact List.mem_append_right _ List.mem_cons_self
    obtain ⟨place, -, heq⟩ := List.mem_map.mp hmem
    rw [hlast, Option.getD_some, ← (Prod.mk.inj heq).2] at hnone
    exact absurd hnone (idAt_ne_zero _)

theorem exists_of_renameId (hbuild : build renames replaces = .ok rules) {name : CodeUnits}
    (hsome : rules.table.renameId name ≠ 0) :
    ∃ earlier key target later, renames = earlier ++ (key, target) :: later ∧
      fold (ofString key) = fold name ∧ (∀ rule ∈ later, fold (ofString rule.1) ≠ fold name) ∧
      (configured renames replaces)[earlier.length]? = some (.onName key, .rename target) ∧
      rules.table.renameId name = idAt earlier.length := by
  rw [table, Table.renameId_eq_lastEntry (build_eq_ok hbuild).1, renameRules_tableRules] at hsome ⊢
  cases hlast : Table.lastEntry (renames.zipIdx.map fun rule => (rule.1.1, idAt rule.2)) name with
  | none =>
    rw [hlast] at hsome
    exact absurd rfl hsome
  | some id =>
    obtain ⟨front, spelled, back, hentries, hkey, hlater⟩ := Table.exists_of_lastEntry hlast
    obtain ⟨earlier, rest, hplaces, hearlier, hrest⟩ := List.map_eq_append_iff.mp hentries
    obtain ⟨place, later, rfl, hplace, hback⟩ := List.map_eq_cons_iff.mp hrest
    obtain ⟨before, after, rfl, hbefore, hafter⟩ := List.zipIdx_eq_append_iff.mp hplaces
    obtain ⟨⟨key, target⟩, others, rfl, rfl, rfl⟩ := List.zipIdx_eq_cons_iff.mp hafter.symm
    obtain ⟨rfl, rfl⟩ := Prod.mk.inj hplace
    rw [Nat.zero_add] at hback ⊢
    have hplace : (before ++ (key, target) :: others)[before.length]? = some (key, target) := by
      rw [List.getElem?_append_right (Nat.le_refl _), Nat.sub_self]
      rfl
    refine ⟨before, key, target, others, rfl, hkey, ?_, configured_getElem?_rename hplace, rfl⟩
    intro rule hrule
    obtain ⟨index, hindex⟩ := List.getElem?_of_mem hrule
    have hnumbered : (rule, before.length + 1 + index) ∈ others.zipIdx (before.length + 1) :=
      List.mk_mem_zipIdx_iff_le_and_getElem?_sub.mpr
        ⟨Nat.le_add_right _ _, by rwa [Nat.add_sub_cancel_left]⟩
    exact hlater (rule.1, idAt (before.length + 1 + index))
      (hback ▸ List.mem_map.mpr ⟨_, hnumbered, rfl⟩)

theorem renameId_eq_zero (hbuild : build renames replaces = .ok rules) {name : CodeUnits}
    (h : ∀ rule ∈ renames, fold (ofString rule.1) ≠ fold name) : rules.table.renameId name = 0 := by
  apply Decidable.byContradiction
  intro hsome
  obtain ⟨earlier, key, target, later, rfl, hkey, -⟩ := exists_of_renameId hbuild hsome
  exact h (key, target) (List.mem_append_right _ List.mem_cons_self) hkey

theorem exists_of_replaceId (hbuild : build renames replaces = .ok rules) {name value : CodeUnits}
    (hsome : rules.table.replaceId name value ≠ 0) :
    ∃ group ∈ replaces, ∃ rule ∈ group.2,
      fold (ofString group.1) = fold name ∧ fold (ofString rule.1) = fold value ∧
      ∃ index : Nat, (configured renames replaces)[index]? =
          some (.onDeclaration group.1 rule.1, .replace rule.2) ∧
        rules.table.replaceId name value = idAt index := by
  rw [table, Table.replaceId_eq_answeringReplace (build_eq_ok hbuild).1] at hsome ⊢
  obtain ⟨key, text, hrule, hkey, htext⟩ := Table.mem_of_answeringReplace hsome
  obtain ⟨index, trigger, action, hplace, hentry⟩ := mem_tableRules.mp hrule
  cases trigger with
  | onName spelled => exact absurd hentry (by simp [Trigger.rule])
  | onDeclaration spelled written =>
    obtain ⟨rfl, rfl, hid⟩ := Table.Rule.replace.inj hentry
    obtain ⟨group, hgroup, rule, hmember, rfl, rfl, rfl⟩ :=
      exists_of_mem_configured (List.mem_of_getElem? hplace)
    exact ⟨group, hgroup, rule, hmember, hkey, htext, index, hplace, hid⟩

/-- A rule set that was built has an action just for what its table matches. -/
theorem isSome_action?_resolve (hbuild : build renames replaces = .ok rules)
    (name value : CodeUnits) :
    (rules.action? (rules.table.resolve name value).id).isSome = true ↔
      rules.table.resolve name value ≠ .none := by
  unfold Table.resolve
  by_cases hrename : rules.table.renameId name ≠ 0
  · rw [if_pos hrename]
    obtain ⟨earlier, key, target, later, -, -, -, hplace, hid⟩ := exists_of_renameId hbuild hrename
    refine iff_of_true ?_ (by simp)
    rw [Table.Outcome.id, hid]
    exact (action?_of_configured hbuild hplace).1
  · rw [if_neg hrename]
    by_cases hreplace : rules.table.replaceId name value ≠ 0
    · rw [if_pos hreplace]
      obtain ⟨group, -, rule, -, -, -, index, hplace, hid⟩ := exists_of_replaceId hbuild hreplace
      refine iff_of_true ?_ (by simp)
      rw [Table.Outcome.id, hid]
      exact (action?_of_configured hbuild hplace).1
    · rw [if_neg hreplace]
      exact iff_of_false Bool.false_ne_true (not_not_intro rfl)

/-- What an outcome for a name and a value means in a rule set that was built from a configuration.
A rename is that of the last rename rule for the name, a replacement that of a rule for the name and
the value. -/
def Explains (rules : RuleSet) (renames : List (String × String))
    (replaces : List (String × List (String × Replacement))) (name value : CodeUnits) :
    Table.Outcome → Prop
  | .none => ∀ rule ∈ renames, fold (ofString rule.1) ≠ fold name
  | .rename id =>
    ∃ earlier key target later, renames = earlier ++ (key, target) :: later ∧
      fold (ofString key) = fold name ∧ (∀ rule ∈ later, fold (ofString rule.1) ≠ fold name) ∧
      id = idAt earlier.length ∧ rules.action? id = some (.rename target)
  | .replace id =>
    (∀ rule ∈ renames, fold (ofString rule.1) ≠ fold name) ∧
    ∃ group ∈ replaces, ∃ rule ∈ group.2,
      fold (ofString group.1) = fold name ∧ fold (ofString rule.1) = fold value ∧
      ∃ index : Nat, (configured renames replaces)[index]? =
          some (.onDeclaration group.1 rule.1, .replace rule.2) ∧
        id = idAt index ∧ rules.action? id = some (.replace rule.2)

/-- Whatever a rule set that was built from fewer than 4294967296 rules says about a declaration,
its numbers and its actions belong together. -/
theorem explains_resolve (hbuild : build renames replaces = .ok rules)
    (hcount : (configured renames replaces).length < Word.count) (name value : CodeUnits) :
    rules.Explains renames replaces name value (rules.table.resolve name value) := by
  have hplace {index : Nat} {trigger : Trigger} {action : Action}
      (hrule : (configured renames replaces)[index]? = some (trigger, action)) :
      rules.action? (idAt index) = some action := by
    obtain ⟨hindex, -⟩ := List.getElem?_eq_some_iff.mp hrule
    exact (action?_of_configured hbuild hrule).2 (by omega)
  unfold Table.resolve
  by_cases hrename : rules.table.renameId name ≠ 0
  · rw [if_pos hrename]
    obtain ⟨earlier, key, target, later, hrenames, hkey, hlater, hrule, hid⟩ :=
      exists_of_renameId hbuild hrename
    exact ⟨earlier, key, target, later, hrenames, hkey, hlater, hid, hid ▸ hplace hrule⟩
  · have hother := fold_ne_of_renameId hbuild (Decidable.not_not.mp hrename)
    rw [if_neg hrename]
    by_cases hreplace : rules.table.replaceId name value ≠ 0
    · rw [if_pos hreplace]
      obtain ⟨group, hgroup, rule, hrule, hname, hvalue, index, hconfigured, hid⟩ :=
        exists_of_replaceId hbuild hreplace
      exact ⟨hother, group, hgroup, rule, hrule, hname, hvalue, index, hconfigured, hid,
        hid ▸ hplace hconfigured⟩
    · rw [if_neg hreplace]
      exact hother

/-- Of two renames whose names differ in case the second one answers, and its number means its
action. -/
theorem explains_resolve_of_cases : ∃ rules,
    build [("a", "b"), ("A", "c")] [("d", [("v", [("e", "f")])])] = .ok rules ∧
      rules.table.resolve (ofString "a") (ofString "v") = .rename 2 ∧
      rules.action? 2 = some (.rename "c") ∧
      rules.table.resolve (ofString "D") (ofString "V") = .replace 3 ∧
      (rules.action? 3).isSome := by
  obtain ⟨asset, htable⟩ := Table.exists_build_of_isOk
    (tableRules (configured [("a", "b"), ("A", "c")] [("d", [("v", [("e", "f")])])]))
    (by decide +kernel)
  have hbuild := build_of_table htable
  have hrename : (Table.ofBytes asset).resolve (ofString "a") (ofString "v") = .rename 2 := by
    unfold Table.resolve
    rw [Table.renameId_eq_lastEntry htable, Table.replaceId_eq_answeringReplace htable]
    decide +kernel
  have hreplace : (Table.ofBytes asset).resolve (ofString "D") (ofString "V") = .replace 3 := by
    unfold Table.resolve
    rw [Table.renameId_eq_lastEntry htable, Table.replaceId_eq_answeringReplace htable]
    decide +kernel
  have hcount : (configured [("a", "b"), ("A", "c")] [("d", [("v", [("e", "f")])])]).length <
      Word.count := by decide
  have hsecond := explains_resolve hbuild hcount (ofString "a") (ofString "v")
  have hvalue := explains_resolve hbuild hcount (ofString "D") (ofString "V")
  rw [table, hrename] at hsecond
  rw [table, hreplace] at hvalue
  obtain ⟨earlier, key, target, later, hrenames, -, -, hid, haction⟩ := hsecond
  obtain ⟨-, group, -, rule, -, -, -, index, -, -, hreplaced⟩ := hvalue
  have hplace : earlier.length = 1 := by
    have hnat := congrArg UInt32.toNat hid
    have hlength := congrArg List.length hrenames
    rw [toNat_idAt] at hnat
    simp only [List.length_append, List.length_cons, List.length_nil] at hlength
    have htwo : UInt32.toNat 2 = 2 := rfl
    omega
  have htarget : target = "c" := by
    have hentry := congrArg (fun rules : List (String × String) => rules[earlier.length]?) hrenames
    simp only [List.getElem?_append_right (Nat.le_refl _), Nat.sub_self] at hentry
    rw [hplace] at hentry
    exact (Prod.mk.inj (Option.some.inj hentry)).2.symm
  refine ⟨_, hbuild, hrename, htarget ▸ haction, hreplace, ?_⟩
  rw [hreplaced]
  rfl

/-! ## More rules than numbers -/

/-- However many rename rules there are for one name, they have a rule set. -/
theorem exists_build_of_renames {key : String} (hkey : key ≠ "")
    (hneed : Table.nodesNeeded [ofString key] < Word.count) (hsome : renames ≠ [])
    (hrenames : ∀ rule ∈ renames, rule.1 = key) : ∃ rules, build renames [] = .ok rules := by
  have hrules : ∀ rule ∈ tableRules (configured renames []),
      ∃ index, rule = .rename key (idAt index) := by
    intro rule hrule
    obtain ⟨index, trigger, action, hplace, rfl⟩ := mem_tableRules.mp hrule
    have hmem := List.mem_of_getElem? hplace
    rw [configured, List.flatMap_nil, List.append_nil] at hmem
    obtain ⟨entry, hentry, heq⟩ := List.mem_map.mp hmem
    obtain ⟨rfl, -⟩ := Prod.mk.inj heq
    exact ⟨index, by rw [hrenames entry hentry]; rfl⟩
  have hrename : Table.renameNeed (tableRules (configured renames [])) < Word.count := by
    have hkeys (text : CodeUnits) : (text ∈ (Table.renameRules (tableRules (configured renames
        []))).map fun rule => ofString rule.1) ↔ text ∈ [ofString key] := by
      rw [renameRules_tableRules, List.map_map, List.mem_singleton, List.mem_map]
      constructor
      · rintro ⟨⟨rule, index⟩, hmem, rfl⟩
        exact congrArg ofString (hrenames rule (List.fst_mem_of_mem_zipIdx hmem))
      · rintro rfl
        obtain ⟨rule, hrule⟩ := List.exists_mem_of_ne_nil _ hsome
        obtain ⟨index, hindex⟩ := List.getElem?_of_mem hrule
        exact ⟨(rule, index), List.mem_zipIdx_iff_getElem?.mpr hindex,
          congrArg ofString (hrenames rule hrule)⟩
    rwa [Table.renameNeed, Table.nodesNeeded_congr hkeys]
  have hreplace : Table.replaceNeed (tableRules (configured renames [])) < Word.count := by
    have hnone : Table.spellings (tableRules (configured renames [])) = [] := by
      rw [List.eq_nil_iff_forall_not_mem]
      intro spelling hmem
      obtain ⟨value, id, hrule⟩ := Table.mem_spellings.mp hmem
      obtain ⟨index, heq⟩ := hrules _ hrule
      cases heq
    rw [Table.replaceNeed, hnone, List.map_nil, List.map_nil, List.sum_nil]
    decide +kernel
  obtain ⟨asset, htable⟩ := (Table.exists_build_iff hrename hreplace).mpr (by
    intro rule hrule hfaulty
    obtain ⟨index, rfl⟩ := hrules rule hrule
    exact hfaulty.elim (idAt_ne_zero index) hkey)
  exact ⟨_, build_of_table htable⟩

/-- The last of 4294967296 rename rules for a name answers under the number of the one before it,
and what is done is what that one says. -/
theorem action?_resolve_of_shared_number {front : List (String × String)}
    {first last : String × String} (hfront : ∀ rule ∈ front, rule = first)
    (hlength : front.length = Word.count - 1) (hname : last.1 = first.1)
    (hbuild : build (front ++ [last]) [] = .ok rules) (value : CodeUnits) :
    rules.table.resolve (ofString first.1) value = .rename 4294967295 ∧
      rules.action? 4294967295 = some (.rename first.2) := by
  have hcount : Word.count = 4294967296 := rfl
  have hlast : last ∈ front ++ [last] := List.mem_append_right _ (List.mem_singleton_self last)
  have hsome : rules.table.renameId (ofString first.1) ≠ 0 := fun hnone =>
    fold_ne_of_renameId hbuild hnone last hlast (by rw [hname])
  obtain ⟨earlier, key, target, later, hrenames, -, hlater, -, hid⟩ :=
    exists_of_renameId hbuild hsome
  have hnumber : idAt front.length = 4294967295 := by
    apply UInt32.toNat_inj.mp
    rw [toNat_idAt, hlength, hcount]
    rfl
  -- No rule stands behind the one that answers, since all of them have the same name.
  have hend : later = [] := by
    rw [List.eq_nil_iff_forall_not_mem]
    intro rule hmem
    refine hlater rule hmem (congrArg (fun name => fold (ofString name)) ?_)
    have hall : rule ∈ front ++ [last] :=
      hrenames ▸ List.mem_append_right _ (List.mem_cons_of_mem _ hmem)
    rcases List.mem_append.mp hall with hfirst | hsecond
    · rw [hfront rule hfirst]
    · rw [List.mem_singleton.mp hsecond, hname]
  rw [hend] at hrenames
  obtain ⟨hearlier, -⟩ := List.append_inj' hrenames rfl
  rw [← hearlier, hnumber] at hid
  constructor
  · rw [Table.resolve, if_pos hsome, hid]
  · have hplace : front[Word.count - 2]? = some first := by
      have hlt : Word.count - 2 < front.length := by omega
      rw [List.getElem?_eq_getElem hlt, hfront _ (List.getElem_mem hlt)]
    have hrule : (front ++ [last])[Word.count - 2]? = some first :=
      (List.getElem?_append_left (by omega)).trans hplace
    have hconfigured : (configured (front ++ [last]) [])[Word.count - 2]? = _ :=
      configured_getElem?_rename hrule
    rw [← hnumber, action?_idAt, (build_eq_ok hbuild).2, Nat.min_eq_right (by omega),
      List.getElem?_map, hconfigured]
    rfl

theorem action?_resolve_of_many_renames :
    let renames := List.replicate (Word.count - 1) ("a", "b") ++ [("a", "c")]
    ∃ rules, build renames [] = .ok rules ∧
      rules.table.resolve (ofString "a") (ofString "v") = .rename 4294967295 ∧
      rules.action? 4294967295 = some (.rename "b") := by
  have hfront : ∀ rule ∈ List.replicate (Word.count - 1) ("a", "b"), rule = ("a", "b") :=
    fun rule hmem => List.eq_of_mem_replicate hmem
  have hrenames : ∀ rule ∈ List.replicate (Word.count - 1) ("a", "b") ++ [("a", "c")],
      rule.1 = "a" := by
    intro rule hmem
    rcases List.mem_append.mp hmem with hfirst | hlast
    · rw [hfront rule hfirst]
    · rw [List.mem_singleton.mp hlast]
  obtain ⟨rules, hbuild⟩ := exists_build_of_renames (by decide) (by decide +kernel)
    (List.append_ne_nil_of_right_ne_nil _ (List.cons_ne_nil _ _)) hrenames
  have hlength : (List.replicate (Word.count - 1) ("a", "b")).length = Word.count - 1 :=
    List.length_replicate
  have hname : (("a", "c") : String × String).1 = (("a", "b") : String × String).1 := rfl
  have hshared := action?_resolve_of_shared_number hfront hlength hname hbuild (ofString "v")
  exact ⟨rules, hbuild, hshared⟩

end RuleSet

end StyleRules
