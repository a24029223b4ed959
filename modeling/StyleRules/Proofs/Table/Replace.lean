import Mathlib.Data.List.Basic
import Mathlib.Data.List.Induction
import StyleRules.Proofs.Table.Rename

/-!
# Replace rules are found by the last spelling of their name

Replace rules are grouped by the exact spelling of their name, and each group has a root of its own.
A lookup of a name does not see the case of letters, so of two spellings of one name only the one
whose first rule came later has its root found: the rules of the other are lost. `answeringReplace`
says which rule is found, and `replaceId_ofBytes_build` when that is the last rule for a name and a
value.
-/

namespace StyleRules.Table

open CodeUnits (fold ofString)

/-! ## Grouping -/

/-- The names of the replace rules, each spelling once, in the order of their first rule. -/
def spellings (rules : List Rule) : List String :=
  (rules.filterMap fun
    | .rename _ _ => none
    | .replace name _ _ => some name).eraseDups

/-- The values and ids of the replace rules whose name is spelled `spelling`. -/
def valuesOf (rules : List Rule) (spelling : String) : List (String × RuleId) :=
  rules.filterMap fun
    | .rename _ _ => none
    | .replace name value id => if name = spelling then some (value, id) else none

theorem addValueRule_of_mem {names : List String} (hnodup : names.Nodup)
    {values : String → List (String × RuleId)} {name value : String} {id : RuleId}
    (hname : name ∈ names) :
    addValueRule (names.map fun n => ⟨n, values n⟩) name value id =
      names.map fun n => ⟨n, values n ++ if name = n then [(value, id)] else []⟩ := by
  induction names with
  | nil => exact absurd hname List.not_mem_nil
  | cons first names ih =>
    obtain ⟨hfirst, hrest⟩ := List.nodup_cons.mp hnodup
    rw [List.map_cons, List.map_cons, addValueRule]
    by_cases hsame : first = name
    · subst hsame
      rw [if_pos rfl, if_pos rfl]
      congr 1
      apply List.map_congr_left
      intro n hn
      have hne : first ≠ n := by
        rintro rfl
        exact hfirst hn
      rw [if_neg hne, List.append_nil]
    · rw [if_neg hsame, if_neg (Ne.symm hsame), List.append_nil,
        ih hrest ((List.mem_cons.mp hname).resolve_left (Ne.symm hsame))]

theorem addValueRule_of_not_mem {names : List String} {values : String → List (String × RuleId)}
    {name value : String} {id : RuleId} (hname : name ∉ names) :
    addValueRule (names.map fun n => ⟨n, values n⟩) name value id =
      (names.map fun n => ⟨n, values n⟩) ++ [⟨name, [(value, id)]⟩] := by
  induction names with
  | nil => rfl
  | cons first names ih =>
    obtain ⟨hfirst, hrest⟩ := not_or.mp (mt List.mem_cons.mpr hname)
    rw [List.map_cons, addValueRule, if_neg (Ne.symm hfirst), ih hrest]
    rfl

theorem mem_spellings {rules : List Rule} {name : String} :
    name ∈ spellings rules ↔ ∃ value id, .replace name value id ∈ rules := by
  unfold spellings
  rw [List.mem_eraseDups, List.mem_filterMap]
  constructor
  · rintro ⟨rule, hrule, hname⟩
    cases rule with
    | rename _ _ => exact absurd hname (by simp)
    | replace spelled value id =>
      obtain rfl := Option.some.inj hname
      exact ⟨value, id, hrule⟩
  · rintro ⟨value, id, hrule⟩
    exact ⟨_, hrule, rfl⟩

theorem mem_valuesOf {rules : List Rule} {spelling value : String} {id : RuleId} :
    (value, id) ∈ valuesOf rules spelling ↔ .replace spelling value id ∈ rules := by
  unfold valuesOf
  rw [List.mem_filterMap]
  constructor
  · rintro ⟨rule, hrule, hvalue⟩
    cases rule with
    | rename _ _ => exact absurd hvalue (by simp)
    | replace name text number =>
      obtain ⟨rfl, hpair⟩ : name = spelling ∧ (text, number) = (value, id) := by
        simpa using hvalue
      obtain ⟨rfl, rfl⟩ := Prod.mk.inj hpair
      exact hrule
  · intro hrule
    exact ⟨_, hrule, by simp⟩

theorem spellings_append_rename (rules : List Rule) (name : String) (id : RuleId) :
    spellings (rules ++ [.rename name id]) = spellings rules := by
  unfold spellings
  rw [List.filterMap_append]
  exact congrArg List.eraseDups (List.append_nil _)

theorem spellings_append_replace (rules : List Rule) (name value : String) (id : RuleId) :
    spellings (rules ++ [.replace name value id]) =
      spellings rules ++ if name ∈ spellings rules then [] else [name] := by
  unfold spellings
  rw [List.filterMap_append, List.eraseDups_append]
  simp only [List.filterMap_cons, List.filterMap_nil, List.mem_eraseDups, List.removeAll,
    List.filter_cons, List.filter_nil, List.elem_eq_mem]
  congr 1
  split <;> simp_all [List.eraseDups_cons]

theorem nodup_spellings (rules : List Rule) : (spellings rules).Nodup := by
  induction rules using List.reverseRecOn with
  | nil => exact List.nodup_nil
  | append_singleton rules rule ih =>
    cases rule with
    | rename name id =>
      rw [spellings_append_rename]
      exact ih
    | replace name value id =>
      rw [spellings_append_replace]
      split
      · rw [List.append_nil]
        exact ih
      · next hname =>
        refine List.nodup_append.mpr
          ⟨ih, List.nodup_cons.mpr ⟨List.not_mem_nil, List.nodup_nil⟩, ?_⟩
        rintro n hn _ hlast rfl
        exact hname (List.mem_singleton.mp hlast ▸ hn)

theorem valuesOf_append (rules : List Rule) (name value spelling : String) (id : RuleId) :
    valuesOf (rules ++ [.replace name value id]) spelling =
      valuesOf rules spelling ++ if name = spelling then [(value, id)] else [] := by
  unfold valuesOf
  rw [List.filterMap_append]
  by_cases hsame : name = spelling <;> simp [hsame]

/-- Grouping puts the rules of each spelling together and keeps their order. -/
theorem replaceGroups_eq (rules : List Rule) :
    replaceGroups rules = (spellings rules).map fun name => ⟨name, valuesOf rules name⟩ := by
  induction rules using List.reverseRecOn with
  | nil => rfl
  | append_singleton rules rule ih =>
    unfold replaceGroups at ih ⊢
    rw [List.foldl_append, ih, List.foldl_cons, List.foldl_nil]
    cases rule with
    | rename name id =>
      rw [spellings_append_rename]
      simp [valuesOf]
    | replace name value id =>
      dsimp only
      rw [spellings_append_replace]
      by_cases hname : name ∈ spellings rules
      · rw [addValueRule_of_mem (nodup_spellings rules) hname, if_pos hname, List.append_nil]
        simp only [valuesOf_append]
      · have hnone : valuesOf rules name = [] := by
          rw [List.eq_nil_iff_forall_not_mem]
          rintro ⟨text, number⟩ hmem
          exact hname (mem_spellings.mpr ⟨text, number, mem_valuesOf.mp hmem⟩)
        rw [addValueRule_of_not_mem hname, if_neg hname, List.map_append, List.map_singleton,
          valuesOf_append, hnone, if_pos rfl, List.nil_append]
        congr 1
        apply List.map_congr_left
        intro n hn
        have hne : name ≠ n := by
          rintro rfl
          exact hname hn
        rw [valuesOf_append, if_neg hne, List.append_nil]

/-! ## Groups in a pool -/

/-- The value that is found for `value` below the root that `name` leads to. -/
def Trie.lookupBelow (trie : Trie) (name value : CodeUnits) : UInt32 :=
  if trie.lookup 0 name = 0 then 0 else trie.lookup (trie.lookup 0 name) value

/-- The last group whose name agrees with `name` up to ASCII case. -/
def lastGroup (groups : List ValueRules) (name : CodeUnits) : Option ValueRules :=
  (groups.filter fun group => fold (ofString group.name) = fold name).getLast?

theorem lastGroup_cons (group : ValueRules) (groups : List ValueRules) (name : CodeUnits) :
    lastGroup (group :: groups) name =
      if fold (ofString group.name) = fold name then some ((lastGroup groups name).getD group)
      else lastGroup groups name := by
  unfold lastGroup
  rw [List.filter_cons]
  by_cases hname : fold (ofString group.name) = fold name
  · simp only [hname, decide_true, if_true, List.getLast?_cons]
  · simp only [hname, decide_false, if_false, Bool.false_eq_true]

namespace Pool

variable {pool : Pool} {plan : Plan}

/-- Every name leads to a root or nowhere. -/
def NamesRoots (pool : Pool) (plan : Plan) : Prop :=
  ∀ name, pool.trie.lookup 0 name ≠ 0 → pool.IsRoot plan (pool.trie.lookup 0 name)

/-- A new group is found by its name alone, and by no root that was there before. -/
theorem insertGroup_spec (hforest : pool.Forest plan) (hzero : pool.IsRoot plan 0)
    {group : ValueRules} {filled : Pool} (hinsert : pool.insertGroup group = .ok filled) :
    ∃ plan' added, added.toNat = pool.nodes.size ∧ Grown pool plan filled plan' ∧
      filled.IsRoot plan' added ∧ added ≠ 0 ∧
      (∀ value, filled.trie.lookup added value = (lastEntry group.values value).getD 0) ∧
      (∀ name, filled.trie.lookup 0 name =
        if fold name = fold (ofString group.name) then added else pool.trie.lookup 0 name) ∧
      ∀ r, pool.IsRoot plan r → r ≠ 0 → ∀ value,
        filled.trie.lookup r value = pool.trie.lookup r value := by
  unfold insertGroup at hinsert
  obtain ⟨⟨pushed, added⟩, hpush, hinsert⟩ := exists_of_bind_eq_ok hinsert
  obtain ⟨valued, hfill, hinsert⟩ := exists_of_bind_eq_ok hinsert
  have hgrown := Grown.push hforest hpush added []
  have hsame := sameAnswers_push hforest hpush added []
  have hempty := (push_spec hpush).2.2.2.1
  have hadded : added ≠ 0 := (ne_added hpush hzero.1.1).symm
  have hroot : pushed.IsRoot (plan.set added added added []) added :=
    ⟨⟨(has_push hpush added).mpr (.inr rfl), if_pos rfl⟩, if_pos rfl, if_pos rfl⟩
  have hblank := lookup_of_no_answers (hgrown.forest.no_answers_of_empty hroot.1 hempty)
  obtain ⟨plan₁, hvalued, hvalues⟩ := insertRules_spec hgrown.forest hroot hfill
  obtain ⟨plan₂, hnamed, hnames⟩ := insert_spec hvalued.forest
    (hvalued.isRoot (hgrown.isRoot hzero)) hinsert
  have hlookup : ∀ r, pushed.IsRoot (plan.set added added added []) r → ∀ key,
      filled.trie.lookup r key =
        if r = 0 ∧ fold key = fold (ofString group.name) then added
        else if r = added then (lastEntry group.values key).getD (pushed.trie.lookup r key)
        else pushed.trie.lookup r key := by
    intro r hr key
    rw [hnames r (hvalued.isRoot hr), hvalues r hr]
  refine ⟨plan₂, added, (push_spec hpush).1, (hgrown.trans hvalued).trans hnamed,
    (hvalued.trans hnamed).isRoot hroot, hadded, ?_, ?_, ?_⟩
  · intro value
    rw [hlookup added hroot, if_neg (fun h => hadded h.1), if_pos rfl, hblank]
  · intro name
    rw [hlookup 0 (hgrown.isRoot hzero), if_neg hadded.symm,
      hsame.lookup hforest hzero.1]
    simp only [true_and]
  · intro r hr hne value
    rw [hlookup r (hgrown.isRoot hr), if_neg (fun h => hne h.1),
      if_neg (ne_added hpush hr.1.1), hsame.lookup hforest hr.1]

/-- Groups that are entered one after another are found by the last one for a name. -/
theorem insertGroups_spec (hforest : pool.Forest plan) (hzero : pool.IsRoot plan 0)
    (hnames : pool.NamesRoots plan) {groups : List ValueRules} {filled : Pool}
    (hfill : groups.foldlM Pool.insertGroup pool = .ok filled) (name value : CodeUnits) :
    filled.trie.lookupBelow name value =
      match lastGroup groups name with
      | none => pool.trie.lookupBelow name value
      | some group => (lastEntry group.values value).getD 0 := by
  induction groups generalizing pool plan with
  | nil =>
    obtain rfl := Except.ok.inj hfill
    rfl
  | cons group groups ih =>
    rw [List.foldlM_cons] at hfill
    obtain ⟨grown, hfirst, hfill⟩ := exists_of_bind_eq_ok hfill
    obtain ⟨plan', added, -, hgrown, hadded, hne, hvalues, hfound, hkept⟩ :=
      insertGroup_spec hforest hzero hfirst
    have hnames' : grown.NamesRoots plan' := by
      intro query hquery
      rw [hfound] at hquery ⊢
      split
      · exact hadded
      · next hother =>
        rw [if_neg hother] at hquery
        exact hgrown.isRoot (hnames query hquery)
    rw [ih hgrown.forest (hgrown.isRoot hzero) hnames' hfill, lastGroup_cons]
    by_cases hname : fold (ofString group.name) = fold name
    · rw [if_pos hname]
      cases lastGroup groups name with
      | some later => rfl
      | none =>
        dsimp only [Option.getD_none]
        rw [Trie.lookupBelow, hfound, if_pos hname.symm, if_neg hne, hvalues]
    · rw [if_neg hname]
      cases lastGroup groups name with
      | some later => rfl
      | none =>
        dsimp only
        rw [Trie.lookupBelow, Trie.lookupBelow, hfound, if_neg (Ne.symm hname)]
        split
        · rfl
        · next hroot => exact hkept _ (hnames name hroot) hroot value

end Pool

/-! ## The rule that is found -/

/-- The id of the last replace rule whose name and value agree with a name and a value, letters in
either case and every other unit exactly; `0` when there is none. -/
def lastReplace (rules : List Rule) (name value : CodeUnits) : RuleId :=
  (rules.filterMap fun rule =>
    match rule with
    | .rename _ _ => none
    | .replace key text id =>
      if fold (ofString key) = fold name ∧ fold (ofString text) = fold value then some id
      else none).getLast?.getD 0

/-- Of the spellings that agree with a name, the one whose first rule is the last. -/
def answeringSpelling (rules : List Rule) (name : CodeUnits) : Option String :=
  ((spellings rules).filter fun spelling => fold (ofString spelling) = fold name).getLast?

/-- The id of the last replace rule for a value among those that have the answering spelling; `0`
when there is none. -/
def answeringReplace (rules : List Rule) (name value : CodeUnits) : RuleId :=
  match answeringSpelling rules name with
  | none => 0
  | some spelling => (lastEntry (valuesOf rules spelling) value).getD 0

theorem lastGroup_replaceGroups (rules : List Rule) (name : CodeUnits) :
    lastGroup (replaceGroups rules) name =
      (answeringSpelling rules name).map fun spelling => ⟨spelling, valuesOf rules spelling⟩ := by
  unfold lastGroup answeringSpelling
  rw [replaceGroups_eq, List.filter_map, List.getLast?_map]
  rfl

theorem answeringReplace_congr (rules : List Rule) {a b value text : CodeUnits}
    (hname : fold a = fold b) (hvalue : fold value = fold text) :
    answeringReplace rules a value = answeringReplace rules b text := by
  unfold answeringReplace answeringSpelling lastEntry
  rw [hname, hvalue]

theorem lastReplace_congr (rules : List Rule) {a b value text : CodeUnits}
    (hname : fold a = fold b) (hvalue : fold value = fold text) :
    lastReplace rules a value = lastReplace rules b text := by
  unfold lastReplace
  rw [hname, hvalue]

/-- A rule agrees with a name and a value. -/
def HasReplace (rules : List Rule) (name value : CodeUnits) : Prop :=
  ∃ key text id, .replace key text id ∈ rules ∧ fold (ofString key) = fold name ∧
    fold (ofString text) = fold value

theorem lastReplace_of_not_hasReplace {rules : List Rule} {name value : CodeUnits}
    (hnone : ¬HasReplace rules name value) : lastReplace rules name value = 0 := by
  have hempty : (rules.filterMap fun rule =>
      match rule with
      | .rename _ _ => none
      | .replace key text id =>
        if fold (ofString key) = fold name ∧ fold (ofString text) = fold value then some id
        else none) = [] := by
    rw [List.filterMap_eq_nil_iff]
    intro rule hrule
    cases rule with
    | rename _ _ => rfl
    | replace key text id =>
      exact if_neg fun hagree => hnone ⟨key, text, id, hrule, hagree⟩
  rw [lastReplace, hempty]
  rfl

theorem lastEntry_eq_none {entries : List (String × UInt32)} {key : CodeUnits}
    (hnone : ∀ entry ∈ entries, fold (ofString entry.1) ≠ fold key) :
    lastEntry entries key = none := by
  rw [lastEntry, List.getLast?_eq_none_iff, List.filterMap_eq_nil_iff]
  intro entry hentry
  exact if_neg (hnone entry hentry)

theorem fold_of_answeringSpelling {rules : List Rule} {name : CodeUnits} {spelling : String}
    (hspelling : answeringSpelling rules name = some spelling) :
    spelling ∈ spellings rules ∧ fold (ofString spelling) = fold name := by
  obtain ⟨hmem, hfold⟩ := List.mem_filter.mp (List.mem_of_getLast? hspelling)
  exact ⟨hmem, of_decide_eq_true hfold⟩

theorem answeringReplace_of_not_hasReplace {rules : List Rule} {name value : CodeUnits}
    (hnone : ¬HasReplace rules name value) : answeringReplace rules name value = 0 := by
  unfold answeringReplace
  cases hspelling : answeringSpelling rules name with
  | none => rfl
  | some spelling =>
    dsimp only
    obtain ⟨-, hname⟩ := fold_of_answeringSpelling hspelling
    rw [lastEntry_eq_none]
    · rfl
    · rintro ⟨text, id⟩ hentry hvalue
      exact hnone ⟨spelling, text, id, mem_valuesOf.mp hentry, hname, hvalue⟩

theorem answeringReplace_eq_lastReplace {rules : List Rule}
    (hspelled : ∀ a ∈ spellings rules, ∀ b ∈ spellings rules,
      fold (ofString a) = fold (ofString b) → a = b) (name value : CodeUnits) :
    answeringReplace rules name value = lastReplace rules name value := by
  have hmem : ∀ {key text : String} {id : RuleId}, Rule.replace key text id ∈ rules →
      key ∈ spellings rules := fun hrule => mem_spellings.mpr ⟨_, _, hrule⟩
  unfold answeringReplace lastReplace
  cases hspelling : answeringSpelling rules name with
  | none =>
    have hother : ∀ key ∈ spellings rules, fold (ofString key) ≠ fold name := by
      intro key hkey hname
      have hnone := List.filter_eq_nil_iff.mp (List.getLast?_eq_none_iff.mp hspelling) key hkey
      exact hnone (decide_eq_true hname)
    refine (lastReplace_of_not_hasReplace ?_).symm
    rintro ⟨key, text, id, hrule, hname, -⟩
    exact hother key (hmem hrule) hname
  | some spelling =>
    obtain ⟨hmember, hname⟩ := fold_of_answeringSpelling hspelling
    dsimp only [lastEntry, valuesOf]
    rw [List.filterMap_filterMap]
    congr 2
    apply List.filterMap_congr
    intro rule hrule
    cases rule with
    | rename _ _ => rfl
    | replace key text id =>
      dsimp only
      by_cases hkey : key = spelling
      · subst hkey
        simp only [if_pos, hname, true_and, Option.bind_some]
      · have hdiffer : fold (ofString key) ≠ fold name := fun hagree =>
          hkey (hspelled key (hmem hrule) spelling hmember (hagree.trans hname.symm))
        simp only [if_neg hkey, hdiffer, false_and, if_false, Option.bind_none]

theorem lookupBelow_new (name value : CodeUnits) : Pool.new.trie.lookupBelow name value = 0 :=
  if_pos (Pool.lookup_new name)

theorem replaceId_eq_answeringReplace {rules : List Rule} {asset : Bytes}
    (hbuild : build rules = .ok asset) (name value : CodeUnits) :
    (ofBytes asset).replaceId name value = answeringReplace rules name value := by
  obtain ⟨rename, replace, -, hreplace, htable⟩ := build_eq_ok hbuild
  have hnames : Pool.new.NamesRoots Pool.Plan.new :=
    fun name hname => absurd (Pool.lookup_new name) hname
  rw [htable]
  show replace.trie.lookupBelow name value = _
  rw [Pool.insertGroups_spec Pool.forest_new Pool.isRoot_new hnames hreplace,
    lastGroup_replaceGroups, answeringReplace]
  cases answeringSpelling rules name with
  | none => exact lookupBelow_new name value
  | some spelling => rfl

/-- A built table answers with the last rule of the answering spelling. That is the last rule for
every name and value exactly when it is so for the names and values of the rules. -/
theorem replaceId_ofBytes_build {rules : List Rule} {asset : Bytes}
    (hbuild : build rules = .ok asset) :
    (∀ name value, (ofBytes asset).replaceId name value = answeringReplace rules name value) ∧
      ((∀ name value, (ofBytes asset).replaceId name value = lastReplace rules name value) ↔
        ∀ key text id, .replace key text id ∈ rules →
          answeringReplace rules (ofString key) (ofString text) =
            lastReplace rules (ofString key) (ofString text)) := by
  have hanswer := replaceId_eq_answeringReplace hbuild
  refine ⟨hanswer, fun hlast key text id _ => (hanswer _ _).symm.trans (hlast _ _), ?_⟩
  intro hrules name value
  rw [hanswer]
  by_cases hagree : HasReplace rules name value
  · obtain ⟨key, text, id, hrule, hname, hvalue⟩ := hagree
    rw [← answeringReplace_congr rules hname hvalue, ← lastReplace_congr rules hname hvalue]
    exact hrules key text id hrule
  · rw [answeringReplace_of_not_hasReplace hagree, lastReplace_of_not_hasReplace hagree]

/-- Values of two interleaved names, one of them given twice in different cases. -/
theorem replaceId_of_interleaved_names :
    ∃ asset, build [.replace "display" "flex" 1, .replace "direction" "rtl" 2,
        .replace "display" "FLEX" 3, .replace "display" "grid" 4] = .ok asset ∧
      (∀ name value, (ofBytes asset).replaceId name value =
        lastReplace [.replace "display" "flex" 1, .replace "direction" "rtl" 2,
          .replace "display" "FLEX" 3, .replace "display" "grid" 4] name value) ∧
      (ofBytes asset).replaceId (ofString "Display") (ofString "flex") = 3 ∧
      (ofBytes asset).replaceId (ofString "direction") (ofString "grid") = 0 := by
  obtain ⟨asset, hbuild⟩ := exists_build_of_isOk [.replace "display" "flex" 1,
    .replace "direction" "rtl" 2, .replace "display" "FLEX" 3, .replace "display" "grid" 4]
    (by decide +kernel)
  refine ⟨asset, hbuild, ?_, ?_, ?_⟩
  · apply (replaceId_ofBytes_build hbuild).2.mpr
    intro key text id _
    exact answeringReplace_eq_lastReplace (by decide +kernel) _ _
  · rw [(replaceId_ofBytes_build hbuild).1]
    decide +kernel
  · rw [(replaceId_ofBytes_build hbuild).1]
    decide +kernel

/-- The rule for `display: flex` is lost when a rule for `Display` follows it. -/
theorem replaceId_of_two_spellings :
    ∃ asset, build [.replace "display" "flex" 1, .replace "Display" "grid" 2] = .ok asset ∧
      (ofBytes asset).replaceId (ofString "display") (ofString "flex") = 0 ∧
      lastReplace [.replace "display" "flex" 1, .replace "Display" "grid" 2] (ofString "display")
        (ofString "flex") = 1 := by
  obtain ⟨asset, hbuild⟩ := exists_build_of_isOk
    [.replace "display" "flex" 1, .replace "Display" "grid" 2] (by decide +kernel)
  refine ⟨asset, hbuild, ?_, by decide +kernel⟩
  rw [replaceId_eq_answeringReplace hbuild]
  decide +kernel

end StyleRules.Table
