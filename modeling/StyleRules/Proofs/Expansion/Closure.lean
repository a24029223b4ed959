import StyleRules.Proofs.Declaration.Case
import StyleRules.Proofs.Expansion.Preservation
import StyleRules.Proofs.Expansion.Written

/-!
# Expanding once

What a second pass finds in an expanded style. No rule applies to what stayed in the first pass, so
it is left to what rules emit: where no rule looks for the names that keep a declared value, a rule
can only apply to a declaration that a rule spells out (`RuleSet.outcome_styleUnits`). Of what the
bundled rules spell out, that is `display: flex` alone. The second pass reads a string: half of a
surrogate pair is lost in it, but nothing that rules look for.
-/

namespace StyleRules

open CodeUnits (IsText fold isAscii maxLength ofString)

def SpecialRule.added : SpecialDeclarations := weightBasis ++ gradientColor ++ plainColor

theorem SpecialRule.declarations_subset (rule : SpecialRule) (declared : CodeUnits)
    (hasAction : Bool) : rule.declarations declared hasAction ⊆ added := by
  rcases rule.declarations_cases declared hasAction with hnone | hbasis | ⟨-, hgradient | hplain⟩
  · rw [hnone]
    exact List.nil_subset _
  · rw [hbasis]
    simp [added]
  · rw [hgradient]
    simp [added]
  · rw [hplain]
    simp [added]

namespace RuleSet

variable {renames : List (String × String)} {replaces : List (String × List (String × Replacement))}
  {rules : RuleSet}

/-! ## Closed configurations -/

def IsInert (renames : List (String × String))
    (replaces : List (String × List (String × Replacement))) (name : String) : Prop :=
  (∀ rule ∈ renames, fold (ofString rule.1) ≠ fold (ofString name)) ∧
    ∀ group ∈ replaces, fold (ofString group.1) ≠ fold (ofString name)

def spelledOut (replaces : List (String × List (String × Replacement))) : Replacement :=
  replaces.flatMap fun group => group.2.flatMap Prod.snd

/-- A configuration that leads back to its own rules only through declarations that it spells out:
no rule looks for a name that keeps a declared value, and no rename for a name that is spelled out
with its value. Besides, no rule looks for a value with a backslash. -/
structure IsClosed (renames : List (String × String))
    (replaces : List (String × List (String × Replacement))) : Prop where
  target : ∀ rule ∈ renames, IsInert renames replaces rule.2
  special : ∀ declaration ∈ SpecialRule.added, IsInert renames replaces declaration.1
  replaced : ∀ declaration ∈ spelledOut replaces, ∀ rename ∈ renames,
    fold (ofString rename.1) ≠ fold (ofString declaration.1)
  plain : ∀ group ∈ replaces, ∀ rule ∈ group.2, CodeUnit.backslash ∉ ofString rule.1

/-- What a rule spells out and another one, or the same, looks for. -/
def Reenters (replaces : List (String × List (String × Replacement)))
    (declaration : String × String) : Prop :=
  declaration ∈ spelledOut replaces ∧ ∃ group ∈ replaces,
    fold (ofString group.1) = fold (ofString declaration.1) ∧
      ∃ rule ∈ group.2, fold (ofString rule.1) = fold (ofString declaration.2)

/-! ## Names and values that no rule looks for -/

theorem IsInert.resolve_eq (hbuild : build renames replaces = .ok rules) {name : String}
    (h : IsInert renames replaces name) (value : CodeUnits) :
    rules.table.renameId (ofString name) = 0 ∧
      rules.table.replaceId (ofString name) value = 0 := by
  refine ⟨renameId_eq_zero hbuild h.1, ?_⟩
  apply Decidable.byContradiction
  intro hreplace
  obtain ⟨group, hgroup, -, -, hkey, -⟩ := exists_of_replaceId hbuild hreplace
  exact h.2 group hgroup hkey

theorem IsClosed.replaceId_of_backslash (h : IsClosed renames replaces)
    (hbuild : build renames replaces = .ok rules) {name value : CodeUnits}
    (hslash : CodeUnit.backslash ∈ value) : rules.table.replaceId name value = 0 := by
  apply Decidable.byContradiction
  intro hreplace
  obtain ⟨group, hgroup, rule, hrule, -, hvalue, -⟩ := exists_of_replaceId hbuild hreplace
  apply h.plain group hgroup rule hrule
  have hfolded : CodeUnit.backslash ∈ fold (ofString rule.1) := by
    rw [hvalue]
    exact List.mem_map.mpr ⟨_, hslash, by decide⟩
  obtain ⟨unit, hunit, heq⟩ := List.mem_map.mp hfolded
  rcases CodeUnit.fold_cases unit with hsame | ⟨i, -, hlower⟩
  · rw [← heq, hsame]
    exact hunit
  · have hletter : ∀ i : Fin 26, (UInt16.ofNat (0x61 + i) : CodeUnit) ≠ CodeUnit.backslash := by
      decide
    exact absurd (hlower.symm.trans heq) (hletter i)

theorem ids_of_action?_eq_none (hbuild : build renames replaces = .ok rules)
    {name value : CodeUnits} (hnone : rules.action? (rules.table.resolve name value).id = none) :
    rules.table.renameId name = 0 ∧ rules.table.replaceId name value = 0 := by
  unfold Table.resolve at hnone
  by_cases hrename : rules.table.renameId name ≠ 0
  · rw [if_pos hrename] at hnone
    change rules.action? (rules.table.renameId name) = none at hnone
    obtain ⟨_, _, _, _, -, -, -, hplace, hid⟩ := exists_of_renameId hbuild hrename
    have haction := (action?_of_configured hbuild hplace).1
    rw [← hid, hnone] at haction
    exact absurd haction Bool.false_ne_true
  · rw [if_neg hrename] at hnone
    refine ⟨Decidable.not_not.mp hrename, ?_⟩
    apply Decidable.byContradiction
    intro hreplace
    rw [if_pos hreplace] at hnone
    change rules.action? (rules.table.replaceId name value) = none at hnone
    obtain ⟨_, -, _, -, -, -, index, hplace, hid⟩ := exists_of_replaceId hbuild hreplace
    have haction := (action?_of_configured hbuild hplace).1
    rw [← hid, hnone] at haction
    exact absurd haction Bool.false_ne_true

/-! ## What is emitted -/

theorem exists_configured_of_action? (hbuild : build renames replaces = .ok rules)
    {id : Table.RuleId} {action : Action} (haction : rules.action? id = some action) :
    (∃ rule ∈ renames, action = .rename rule.2) ∨
      ∃ group ∈ replaces, ∃ rule ∈ group.2, action = .replace rule.2 := by
  unfold action? at haction
  split at haction
  · exact absurd haction (by simp)
  · have hmem := List.mem_of_getElem? haction
    rw [(build_eq_ok hbuild).2] at hmem
    obtain ⟨⟨trigger, action⟩, hconfigured, rfl⟩ := List.mem_map.mp hmem
    unfold configured at hconfigured
    rcases List.mem_append.mp hconfigured with hrename | hreplace
    · obtain ⟨rule, hrule, heq⟩ := List.mem_map.mp hrename
      exact .inl ⟨rule, hrule, (Prod.mk.inj heq).2.symm⟩
    · obtain ⟨group, hgroup, hmember⟩ := List.mem_flatMap.mp hreplace
      obtain ⟨rule, hrule, heq⟩ := List.mem_map.mp hmember
      exact .inr ⟨group, hgroup, rule, hrule, (Prod.mk.inj heq).2.symm⟩

/-- What an expansion emits is under a name that keeps a declared value, or it is spelled out. -/
theorem emitted_cases (hbuild : build renames replaces = .ok rules) {buffer : Buffer}
    {resolved : Resolved} {emitted : Emitted}
    (hmem : emitted ∈ (Expansion.ofResolved rules buffer resolved).declarations) :
    (∃ rule ∈ renames, emitted.name = rule.2) ∨
      (∃ declaration ∈ SpecialRule.added, emitted.name = declaration.1) ∨
      ∃ declaration ∈ spelledOut replaces, emitted = ⟨declaration.1, ofString declaration.2⟩ := by
  rw [Expansion.declarations_eq] at hmem
  rcases List.mem_append.mp hmem with haction | hspecial
  · cases hfound : (Expansion.ofResolved rules buffer resolved).action with
    | none =>
      rw [hfound] at haction
      exact absurd haction List.not_mem_nil
    | some action =>
      rw [hfound] at haction
      rw [Expansion.action_eq] at hfound
      rcases exists_configured_of_action? hbuild hfound with
        ⟨rule, hrule, rfl⟩ | ⟨group, hgroup, rule, hrule, rfl⟩
      · obtain rfl := List.mem_singleton.mp haction
        exact .inl ⟨rule, hrule, rfl⟩
      · obtain ⟨declaration, hdeclaration, rfl⟩ := List.mem_map.mp haction
        have hspelled : declaration ∈ spelledOut replaces :=
          List.mem_flatMap.mpr ⟨group, hgroup, List.mem_flatMap.mpr ⟨rule, hrule, hdeclaration⟩⟩
        exact .inr (.inr ⟨declaration, hspelled, rfl⟩)
  · right
    left
    unfold Expansion.ofResolved at hspecial
    dsimp only at hspecial
    split at hspecial
    · exact absurd hspecial List.not_mem_nil
    · next rule hrule =>
      obtain ⟨declaration, hdeclaration, rfl⟩ := List.mem_map.mp hspecial
      refine ⟨declaration, rule.declarations_subset _ _ hdeclaration, ?_⟩
      unfold Emitted.ofSpecial
      split <;> rfl

/-- No rename looks for an expected reading, and a replacement only if it is spelled out. -/
theorem IsClosed.expected (h : IsClosed renames replaces)
    (hbuild : build renames replaces = .ok rules) {source : CodeUnits} {reading : Reading}
    (hmem : reading ∈
      (Resolved.ofText rules.table source).flatMap (Resolved.readings rules source)) :
    rules.table.renameId reading.name = 0 ∧
      (rules.table.replaceId reading.name reading.value = 0 ∨ ∃ declaration,
        Reenters replaces declaration ∧ reading.name = ofString declaration.1 ∧
          reading.value = ofString declaration.2) := by
  obtain ⟨resolved, hresolved, hreading⟩ := List.mem_flatMap.mp hmem
  obtain ⟨declaration, -, rfl⟩ := List.mem_map.mp hresolved
  unfold Resolved.readings at hreading
  dsimp only at hreading
  split at hreading
  · next htrivial =>
    -- What stays as it was written has no action, so that no rule applied to it in the first place.
    obtain rfl := List.mem_singleton.mp hreading
    have hnone : rules.action? (rules.table.resolve (declaration.name.slice source)
        (declaration.value.slice source)).id = none := by
      rw [Expansion.isTrivial, Bool.and_eq_true, Option.isNone_iff_eq_none,
        Expansion.action_eq] at htrivial
      rw [← htrivial.1, ← Span.cut_toArray, ← Span.cut_toArray]
      rfl
    obtain ⟨hrename, hreplace⟩ := ids_of_action?_eq_none hbuild hnone
    exact ⟨hrename, .inl hreplace⟩
  · obtain ⟨emitted, hemitted, rfl⟩ := List.mem_map.mp hreading
    rcases emitted_cases hbuild hemitted with
      ⟨rule, hrule, hname⟩ | ⟨special, hspecial, hname⟩ | ⟨written, hwritten, rfl⟩
    · obtain ⟨hrename, hreplace⟩ := (h.target rule hrule).resolve_eq hbuild emitted.value
      rw [← hname] at hrename hreplace
      exact ⟨hrename, .inl hreplace⟩
    · obtain ⟨hrename, hreplace⟩ := (h.special special hspecial).resolve_eq hbuild emitted.value
      rw [← hname] at hrename hreplace
      exact ⟨hrename, .inl hreplace⟩
    · refine ⟨renameId_eq_zero hbuild (h.replaced written hwritten), ?_⟩
      rw [Decidable.or_iff_not_imp_left]
      intro hreplace
      obtain ⟨other, hother, found, hfound, hkey, hvalue, -⟩ :=
        exists_of_replaceId hbuild hreplace
      exact ⟨written, ⟨hwritten, other, hother, hkey, found, hfound, hvalue⟩, rfl, rfl⟩

/-! ## The second pass -/

/-- In a style that was expanded, no rename applies any more, and a replacement only to a
declaration that a rule spells out and a rule looks for. -/
theorem outcome_styleUnits (hbuild : build renames replaces = .ok rules)
    (hspelled : rules.IsSpelledOut) (hclosed : IsClosed renames replaces) {source : CodeUnits}
    (hfits : (rules.styleUnits source).length ≤ maxLength) {resolved : Resolved}
    (hmem : resolved ∈ Resolved.all rules.table (rules.styleUnits source)) :
    resolved.outcome = .none ∨ ∃ id declaration, resolved.outcome = .replace id ∧
      Reenters replaces declaration ∧
      resolved.declaration.name.slice (rules.styleUnits source) = ofString declaration.1 ∧
      resolved.declaration.value.slice (rules.styleUnits source) = ofString declaration.2 := by
  have hagrees := agrees_styleUnits hspelled rules.table hfits
  generalize rules.styleUnits source = style at *
  simp only [Resolved.all, CodeUnits.addressable_of_length_le hfits] at hmem hagrees
  obtain ⟨other, hother, hname, hvalue⟩ := hagrees.near _ (List.mem_map.mpr ⟨resolved, hmem, rfl⟩)
  obtain ⟨declaration, -, rfl⟩ := List.mem_map.mp hmem
  obtain ⟨hrename, hreplace⟩ := hclosed.expected hbuild hother
  change declaration.name.slice style = other.name at hname
  change declaration.value.slice style = other.value ∨
    CodeUnit.backslash ∈ declaration.value.slice style at hvalue
  simp only [Resolved.ofDeclaration, Span.cut_toArray, Table.resolve]
  rw [← hname] at hrename hreplace
  rw [hrename, if_neg (not_not_intro rfl)]
  by_cases hzero : rules.table.replaceId (declaration.name.slice style)
      (declaration.value.slice style) = 0
  · rw [hzero, if_neg (not_not_intro rfl)]
    exact .inl rfl
  · rw [if_pos hzero]
    -- A value that is longer than expected has a backslash, and no rule looks for one.
    have hsame : declaration.value.slice style = other.value :=
      hvalue.resolve_right fun hslash => hzero (hclosed.replaceId_of_backslash hbuild hslash)
    rw [← hsame] at hreplace
    obtain ⟨written, hreenters, hboth⟩ := hreplace.resolve_left hzero
    exact .inr ⟨_, written, rfl, hreenters, hboth⟩

/-! ## Styles as strings -/

/-- All that the rules look for is ASCII. -/
structure LooksForAscii (renames : List (String × String))
    (replaces : List (String × List (String × Replacement))) : Prop where
  rename : ∀ rule ∈ renames, isAscii (ofString rule.1) = true
  name : ∀ group ∈ replaces, isAscii (ofString group.1) = true
  value : ∀ group ∈ replaces, ∀ rule ∈ group.2, isAscii (ofString rule.1) = true

namespace LooksForAscii

variable {name value name' value' : CodeUnits}

theorem renameId_of_mask (h : LooksForAscii renames replaces)
    (hbuild : build renames replaces = .ok rules) (hname : name.mask = name'.mask) :
    rules.table.renameId name = rules.table.renameId name' := by
  have hfold : ∀ {a b : CodeUnits}, a.mask = b.mask → rules.table.renameId a ≠ 0 →
      fold a = fold b := by
    intro a b hmask hsome
    obtain ⟨earlier, key, target, later, hrenames, hkey, -⟩ := exists_of_renameId hbuild hsome
    have hrule : (key, target) ∈ renames := by
      rw [hrenames]
      exact List.mem_append_right _ List.mem_cons_self
    exact CodeUnits.fold_of_mask hmask (CodeUnits.isAscii_of_fold hkey (h.rename _ hrule))
  by_cases hsome : rules.table.renameId name = 0
  · by_cases hother : rules.table.renameId name' = 0
    · rw [hsome, hother]
    · exact rules.table.renameId_of_fold (hfold hname.symm hother).symm
  · exact rules.table.renameId_of_fold (hfold hname hsome)

theorem replaceId_of_mask (h : LooksForAscii renames replaces)
    (hbuild : build renames replaces = .ok rules) (hname : name.mask = name'.mask)
    (hvalue : value.mask = value'.mask) :
    rules.table.replaceId name value = rules.table.replaceId name' value' := by
  have hfold : ∀ {a b x y : CodeUnits}, a.mask = b.mask → x.mask = y.mask →
      rules.table.replaceId a x ≠ 0 → fold a = fold b ∧ fold x = fold y := by
    intro a b x y hmask hmask' hsome
    obtain ⟨group, hgroup, rule, hrule, hkey, htext, -⟩ := exists_of_replaceId hbuild hsome
    exact ⟨CodeUnits.fold_of_mask hmask (CodeUnits.isAscii_of_fold hkey (h.name _ hgroup)),
      CodeUnits.fold_of_mask hmask'
        (CodeUnits.isAscii_of_fold htext (h.value _ hgroup _ hrule))⟩
  by_cases hsome : rules.table.replaceId name value = 0
  · by_cases hother : rules.table.replaceId name' value' = 0
    · rw [hsome, hother]
    · obtain ⟨hkey, htext⟩ := hfold hname.symm hvalue.symm hother
      exact rules.table.replaceId_of_fold hkey.symm htext.symm
  · obtain ⟨hkey, htext⟩ := hfold hname hvalue hsome
    exact rules.table.replaceId_of_fold hkey htext

/-- Where rules look for ASCII only, they find the same in texts that differ outside ASCII. -/
theorem all_of_mask (h : LooksForAscii renames replaces)
    (hbuild : build renames replaces = .ok rules) {a b : CodeUnits} (hmask : a.mask = b.mask) :
    Resolved.all rules.table a = Resolved.all rules.table b := by
  have hread : CodeUnits.mask a.addressable = CodeUnits.mask b.addressable :=
    CodeUnits.map_addressable_congr hmask
  have hslice (span : Span) : CodeUnits.mask (span.slice a.addressable) =
      CodeUnits.mask (span.slice b.addressable) := span.map_slice_congr hread
  rw [Resolved.all, Resolved.all, Resolved.ofText, Resolved.ofText,
    Declaration.ofText_of_mask hread]
  apply List.map_congr_left
  intro declaration _
  simp only [Resolved.ofDeclaration, Span.cut_toArray, Table.resolve,
    h.renameId_of_mask hbuild (hslice _), h.replaceId_of_mask hbuild (hslice _) (hslice _)]

end LooksForAscii

/-! ## The bundled rules -/

instance (renames : List (String × String))
    (replaces : List (String × List (String × Replacement))) (name : String) :
    Decidable (IsInert renames replaces name) := inferInstanceAs (Decidable (_ ∧ _))

theorem isClosed_bundled : IsClosed Bundled.renames Bundled.replaces :=
  ⟨by decide +kernel, by decide +kernel, by decide +kernel, by decide +kernel⟩

theorem looksForAscii_bundled : LooksForAscii Bundled.renames Bundled.replaces :=
  ⟨by decide +kernel, by decide +kernel, by decide +kernel⟩

theorem eq_of_reenters_bundled {declaration : String × String}
    (h : Reenters Bundled.replaces declaration) : declaration = ("display", "flex") := by
  have hall : ∀ declaration ∈ spelledOut Bundled.replaces, (∃ group ∈ Bundled.replaces,
      fold (ofString group.1) = fold (ofString declaration.1) ∧
        ∃ rule ∈ group.2, fold (ofString rule.1) = fold (ofString declaration.2)) →
      declaration = ("display", "flex") := by decide +kernel
  exact hall declaration h.1 h.2

/-! ### What is written for `flex` -/

theorem action?_of_flex (h : bundled = .ok rules) :
    rules.table.renameId (ofString "flex") = 9 ∧ rules.action? 9 = some (.rename "--flex") := by
  obtain ⟨htable, hactions⟩ := build_eq_ok h
  constructor
  · rw [table, Table.renameId_eq_lastEntry htable]
    decide +kernel
  · rw [action?, hactions]
    decide +kernel

/-- Where nothing else is found behind it, `flex` is renamed and the text behind its value stays. -/
theorem styleOfText_of_flex (h : bundled = .ok rules) {rest : CodeUnits}
    (hrest : Declaration.ofText rest = []) :
    rules.styleOfText (ofString "flex:1;" ++ rest) = ofString "--flex:1;" ++ rest := by
  have hparts : ofString "flex:1;" ++ rest =
      Emitted.units false ⟨"flex", ofString "1"⟩ ++ CodeUnit.semicolon :: rest := by
    have hfront : ofString "flex:1;" =
        Emitted.units false ⟨"flex", ofString "1"⟩ ++ [CodeUnit.semicolon] := by decide +kernel
    rw [hfront, List.append_assoc, List.singleton_append]
  have hplace : Emitted.place 0 false ⟨"flex", ofString "1"⟩ = ⟨⟨0, 4⟩, ⟨5, 6⟩, false, 7⟩ := by
    decide +kernel
  have hwritable : Emitted.IsWritable ⟨"flex", ofString "1"⟩ := by decide +kernel
  obtain ⟨hall, hreading⟩ := hwritable.ofText_append false rest
  rw [hrest, List.map_nil, hplace, ← hparts] at hall
  rw [hplace, ← hparts] at hreading
  obtain ⟨hname, hvalue⟩ : Span.slice ⟨0, 4⟩ (ofString "flex:1;" ++ rest) = ofString "flex" ∧
      Span.slice ⟨5, 6⟩ (ofString "flex:1;" ++ rest) = ofString "1" :=
    ⟨congrArg Reading.name hreading, congrArg Reading.value hreading⟩
  obtain ⟨hrename, haction⟩ := action?_of_flex h
  have hresolve : rules.resolve (ofString "flex:1;" ++ rest) ⟨⟨0, 4⟩, ⟨5, 6⟩, false, 7⟩ =
      ⟨⟨⟨0, 4⟩, ⟨5, 6⟩, false, 7⟩, .rename 9⟩ := by
    rw [resolve, Resolved.ofDeclaration, Table.resolve]
    dsimp only
    rw [Span.cut_toArray, hname, hrename]
    rfl
  have hexpansion : Expansion.ofResolved rules (ofString "flex:1;" ++ rest).toArray
      ⟨⟨⟨0, 4⟩, ⟨5, 6⟩, false, 7⟩, .rename 9⟩ =
        ⟨some (.rename "--flex"), [], [], ofString "1"⟩ := by
    have hnone : SpecialRule.forProperty? (ofString "flex") = none := by decide +kernel
    rw [Expansion.ofResolved_eq]
    dsimp only
    rw [hname, hvalue, hnone]
    show Expansion.mk (rules.action? 9) [] [] _ = _
    rw [haction]
  have hchanged : (Expansion.ofResolved rules (ofString "flex:1;" ++ rest).toArray
      (rules.resolve (ofString "flex:1;" ++ rest) ⟨⟨0, 4⟩, ⟨5, 6⟩, false, 7⟩)).isTrivial =
        false := by
    rw [hresolve, hexpansion]
    rfl
  have hexpanded := @styleFrom_expanded _ _ [] _ hchanged
  rw [hresolve, hexpansion, rules.styleFrom_nil] at hexpanded
  have hstyle : rules.styleOfText (ofString "flex:1;" ++ rest) =
      rules.styleFrom (ofString "flex:1;" ++ rest) 0 [⟨⟨0, 4⟩, ⟨5, 6⟩, false, 7⟩] := by
    rw [← hall]
    rfl
  have hfront : ofString "--flex:1;" =
      Emitted.joined false [⟨"--flex", ofString "1"⟩] ++ [CodeUnit.semicolon] := by decide +kernel
  rw [hstyle, hexpanded, hfront, List.append_assoc]
  rfl

theorem ofString_style_of_flex (h : bundled = .ok rules) {source : String} {rest : CodeUnits}
    (hsource : ofString source = ofString "flex:1;" ++ rest)
    (hrest : Declaration.ofText rest = []) (hfits : (ofString source).length ≤ maxLength) :
    ofString (ExpandedStyle.ofString rules source).style = ofString "--flex:1;" ++ rest := by
  have hread := CodeUnits.addressable_of_length_le hfits
  have htext : IsText (ofString source).addressable := by
    rw [hread]
    exact CodeUnits.isText_ofString source
  rw [ofString_style (isSpelledOut_bundled h) htext, styleUnits, hread, hsource,
    styleOfText_of_flex h hrest]

/-! ### The second pass -/

/-- Once a style was expanded under the bundled rules, none of them applies to what it holds but the
one for `display: flex`. -/
theorem outcome_bundled_style (source : String) : ∃ rules, bundled = .ok rules ∧
    ((ofString (ExpandedStyle.ofString rules source).style).length ≤ maxLength →
      ∀ resolved ∈ Resolved.all rules.table
          (ofString (ExpandedStyle.ofString rules source).style),
        (∀ id, resolved.outcome ≠ .rename id) ∧
        ∀ id, resolved.outcome = .replace id →
          fold (resolved.declaration.name.slice
              (ofString (ExpandedStyle.ofString rules source).style)) =
            fold (ofString "display") ∧
          fold (resolved.declaration.value.slice
              (ofString (ExpandedStyle.ofString rules source).style)) =
            fold (ofString "flex")) := by
  obtain ⟨rules, hrules⟩ := exists_bundled
  refine ⟨rules, hrules, fun hfits resolved hmem => ?_⟩
  -- A source that is cut within a surrogate pair leaves half a pair, which the string has not.
  have hmask : (ofString (ExpandedStyle.ofString rules source).style).mask =
      (rules.styleUnits (ofString source)).mask := CodeUnits.mask_ofString_toText _
  have hlength : (rules.styleUnits (ofString source)).length ≤ maxLength := by
    rwa [← CodeUnits.length_mask, ← hmask, CodeUnits.length_mask]
  have hslice : ∀ (span : Span) (text : String), isAscii (ofString text) = true →
      span.slice (rules.styleUnits (ofString source)) = ofString text →
        fold (span.slice (ofString (ExpandedStyle.ofString rules source).style)) =
          fold (ofString text) := by
    intro span text hascii htext
    refine (CodeUnits.fold_of_mask ?_ hascii).symm
    rw [← htext]
    exact span.map_slice_congr hmask.symm
  rw [looksForAscii_bundled.all_of_mask hrules hmask] at hmem
  rcases outcome_styleUnits hrules (isSpelledOut_bundled hrules) isClosed_bundled hlength hmem with
    hnone | ⟨id, declaration, hreplace, hreenters, hname, hvalue⟩
  · rw [hnone]
    exact ⟨fun id h => absurd h (by simp), fun id h => absurd h (by simp)⟩
  · obtain rfl := eq_of_reenters_bundled hreenters
    rw [hreplace]
    exact ⟨fun id h => absurd h (by simp), fun _ _ =>
      ⟨hslice _ _ (by decide) hname, hslice _ _ (by decide) hvalue⟩⟩

/-- What `flex` was renamed to stays. -/
theorem outcome_bundled_style_of_flex : ∃ rules, bundled = .ok rules ∧
    (ofString (ExpandedStyle.ofString rules "flex:1;").style).length ≤ maxLength ∧
    ∀ resolved ∈ Resolved.all rules.table
        (ofString (ExpandedStyle.ofString rules "flex:1;").style),
      ∀ id, resolved.outcome ≠ .rename id := by
  obtain ⟨rules, hrules, houtcome⟩ := outcome_bundled_style "flex:1;"
  have hstyle := @ofString_style_of_flex _ hrules "flex:1;" [] (List.append_nil _).symm
    (by decide +kernel) (by decide)
  have hfits : (ofString (ExpandedStyle.ofString rules "flex:1;").style).length ≤ maxLength := by
    rw [hstyle]
    decide
  exact ⟨rules, hrules, hfits, fun resolved hmem => (houtcome hfits resolved hmem).1⟩

theorem ofString_semicolons (n : Nat) (front back : String) :
    ofString (front ++ String.ofList (List.replicate n ';') ++ back) =
      ofString front ++ (List.replicate n CodeUnit.semicolon ++ ofString back) := by
  have hone : ∀ n, (List.replicate n ';').flatMap (fun c => codePointUnits c.toNat) =
      List.replicate n CodeUnit.semicolon := by
    intro n
    induction n with
    | zero => rfl
    | succ n ih =>
      rw [List.replicate_succ, List.flatMap_cons, ih]
      rfl
  simp only [ofString, String.toList_append, String.toList_ofList, List.flatMap_append, hone,
    List.append_assoc]

theorem exists_rename_of_flex (h : bundled = .ok rules) (n : Nat) :
    ∃ resolved ∈ Resolved.ofText rules.table (ofString "--flex:1;" ++
      (List.replicate n CodeUnit.semicolon ++ ofString "flex:1")),
      resolved.outcome = .rename 9 := by
  have hwritable : Emitted.IsWritable ⟨"--flex", ofString "1"⟩ := by decide +kernel
  have hfront : ofString "--flex:1;" =
      Emitted.units false ⟨"--flex", ofString "1"⟩ ++ [CodeUnit.semicolon] := by decide +kernel
  obtain ⟨first, hall⟩ := hwritable.resolved_append rules.table false
    (List.replicate n CodeUnit.semicolon ++ ofString "flex:1")
  have hname : Span.cut ⟨0, 4⟩ (ofString "flex:1").toArray = ofString "flex" := by decide +kernel
  have hlast : Resolved.ofText rules.table (ofString "flex:1") =
      [⟨⟨⟨0, 4⟩, ⟨5, 6⟩, false, 6⟩, .rename 9⟩] := by
    have hdeclarations : Declaration.ofText (ofString "flex:1") =
        [⟨⟨0, 4⟩, ⟨5, 6⟩, false, 6⟩] := by decide +kernel
    rw [Resolved.ofText, hdeclarations, List.map_singleton, Resolved.ofDeclaration, Table.resolve]
    dsimp only
    rw [hname, (action?_of_flex h).1]
    rfl
  rw [Resolved.ofText_semicolons, hlast, List.map_singleton, List.map_singleton] at hall
  rw [hfront, List.append_assoc, List.singleton_append, hall]
  exact ⟨_, List.mem_cons_of_mem _ List.mem_cons_self, rfl⟩

/-- A text of 4294967295 units becomes two units longer, so that a second pass does not read the
quote that spoils its last declaration. -/
theorem outcome_bundled_style_of_cut :
    let source := "flex:1;" ++ String.ofList (List.replicate (maxLength - 15) ';') ++ "flex:1\"\n"
    (ofString source).length = maxLength ∧ ∃ rules, bundled = .ok rules ∧
      ∃ resolved ∈ Resolved.all rules.table
          (ofString (ExpandedStyle.ofString rules source).style), resolved.outcome = .rename 9 := by
  intro source
  have hunits : ofString source = ofString "flex:1;" ++
      (List.replicate (maxLength - 15) CodeUnit.semicolon ++ ofString "flex:1\"\n") :=
    ofString_semicolons _ _ _
  have hlengths : (ofString "flex:1;").length = 7 ∧ (ofString "--flex:1;").length = 9 ∧
      (ofString "flex:1\"\n").length = 8 ∧ (ofString "flex:1").length = 6 := by decide
  have hlength : (ofString source).length = maxLength := by
    rw [hunits, List.length_append, List.length_append, List.length_replicate, hlengths.1,
      hlengths.2.2.1]
    rfl
  have hrest : Declaration.ofText
      (List.replicate (maxLength - 15) CodeUnit.semicolon ++ ofString "flex:1\"\n") = [] := by
    have hnone : Declaration.ofText (ofString "flex:1\"\n") = [] := by decide +kernel
    rw [Declaration.ofText_semicolons, hnone]
    rfl
  obtain ⟨rules, hrules⟩ := exists_bundled
  refine ⟨hlength, rules, hrules, ?_⟩
  have hread : CodeUnits.addressable (ofString "--flex:1;" ++
      (List.replicate (maxLength - 15) CodeUnit.semicolon ++ ofString "flex:1\"\n")) =
        ofString "--flex:1;" ++
          (List.replicate (maxLength - 15) CodeUnit.semicolon ++ ofString "flex:1") := by
    have hparts : ofString "flex:1\"\n" = ofString "flex:1" ++ ofString "\"\n" := by decide +kernel
    rw [hparts, ← List.append_assoc, ← List.append_assoc, CodeUnits.addressable, List.take_left',
      List.append_assoc]
    simp only [List.length_append, List.length_replicate, hlengths.2.1, hlengths.2.2.2]
    rfl
  rw [ofString_style_of_flex hrules hunits hrest (Nat.le_of_eq hlength), Resolved.all, hread]
  exact exists_rename_of_flex hrules _

end RuleSet

end StyleRules
