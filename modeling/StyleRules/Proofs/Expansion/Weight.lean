import StyleRules.Proofs.Expansion.Emission
import StyleRules.Proofs.Expansion.Shape
import StyleRules.Proofs.Expansion.Splice
import StyleRules.Proofs.Rules.Numbering

/-!
# Weights

A weight other than `0` resets the basis: a declaration of the basis is written behind what the
table makes of the weight. If the table makes nothing of it, the basis alone takes the place of the
weight (`RuleSet.edits_of_weight`).
-/

namespace StyleRules

open CodeUnits (ofString)

variable {rules : RuleSet} {source : CodeUnits} {resolved : Resolved}

def Reading.units (reading : Reading) : CodeUnits :=
  reading.name ++ CodeUnit.colon :: reading.value ++
    (if reading.isImportant then ofString " !important" else [])

theorem Emitted.units_reading (isImportant : Bool) (emitted : Emitted) :
    (emitted.reading isImportant).units = emitted.units isImportant := rfl

theorem SpecialRule.forProperty?_of_weight {name : CodeUnits}
    (h : name.equalsFolded "linear-weight" = true) : forProperty? name = some .linearWeight := by
  have hcolor : name.equalsFolded "color" = false := by
    rw [CodeUnits.equalsFolded, beq_iff_eq] at h
    rw [CodeUnits.equalsFolded, h]
    decide
  simp only [forProperty?, all, property, List.find?_cons, hcolor, h]

theorem Expansion.ofResolved_of_weight (rules : RuleSet)
    (hname : (resolved.declaration.name.slice source).equalsFolded "linear-weight" = true)
    (hvalue : resolved.declaration.value.slice source ≠ ofString "0") :
    ofResolved rules source.toArray resolved =
      ⟨rules.action? resolved.outcome.id, [Emitted.weightBasis], [],
        resolved.declaration.value.slice source⟩ := by
  have hzero : SpecialRule.isZero (resolved.declaration.value.slice source) = false :=
    beq_false_of_ne hvalue
  unfold ofResolved
  dsimp only
  rw [Span.cut_toArray, Span.cut_toArray, SpecialRule.forProperty?_of_weight hname]
  dsimp only
  rw [SpecialRule.declarations, hzero]
  rfl

namespace RuleSet

/-- An expanded declaration has its edit, between those of the declarations around it. -/
theorem exists_edits_of_mem {text : CodeUnits} (hmem : resolved ∈ Resolved.ofText rules.table text)
    (h : (Expansion.ofResolved rules text.toArray resolved).isTrivial = false) :
    ∃ before after, rules.editsOfText text = before ++
      ⟨resolved.declaration.name.start, resolved.declaration.replacedEnd text.toArray,
        Emitted.joined resolved.declaration.isImportant
          (Expansion.ofResolved rules text.toArray resolved).declarations⟩ :: after := by
  obtain ⟨front, back, hall⟩ := List.append_of_mem hmem
  have hedit : Edit.ofResolved? rules text.toArray resolved = some _ :=
    if_neg (by rw [h]; exact Bool.false_ne_true)
  rw [editsOfText, hall, List.filterMap_append, List.filterMap_cons, hedit]
  exact ⟨_, _, rfl⟩

end RuleSet

/-- What is to be declared for a weight: what its action makes of it, or itself if it has none, and
then a basis. -/
def Resolved.weightReadings (rules : RuleSet) (source : CodeUnits) (resolved : Resolved) :
    List Reading :=
  (match rules.action? resolved.outcome.id with
    | none => [resolved.declaration.reading source]
    | some action =>
      (Emitted.ofAction (resolved.declaration.value.slice source) action).map
        (Emitted.reading resolved.declaration.isImportant)) ++
    [Emitted.weightBasis.reading resolved.declaration.isImportant]

/-- What is emitted for a weight is what is to be declared for it just if it has an action. -/
theorem Resolved.joined_eq_weightReadings_iff (rules : RuleSet) (source : CodeUnits)
    (resolved : Resolved) :
    Emitted.joined resolved.declaration.isImportant
        (Expansion.declarations ⟨rules.action? resolved.outcome.id, [Emitted.weightBasis], [],
          resolved.declaration.value.slice source⟩) =
      [CodeUnit.semicolon].intercalate
        ((resolved.weightReadings rules source).map Reading.units) ↔
    (rules.action? resolved.outcome.id).isSome = true := by
  unfold weightReadings Expansion.declarations Emitted.joined
  cases rules.action? resolved.outcome.id with
  | none =>
    refine iff_of_false (fun h => ?_) Bool.false_ne_true
    -- The declaration itself would stand in front of the basis.
    have hfront : Emitted.weightBasis.units resolved.declaration.isImportant =
        (resolved.declaration.reading source).units ++
          CodeUnit.semicolon :: Emitted.weightBasis.units resolved.declaration.isImportant := by
      simpa [List.intercalate, Emitted.units_reading] using h
    have hlength := congrArg List.length hfront
    rw [List.length_append, List.length_cons] at hlength
    omega
  | some action =>
    refine iff_of_true ?_ rfl
    dsimp only
    rw [List.map_append, List.map_append, List.map_map]
    rfl

theorem Emitted.readings_weightBasis (isImportant : Bool) :
    (Resolved.all .empty (weightBasis.units isImportant)).map
        (fun found => found.declaration.reading (weightBasis.units isImportant)) =
      [weightBasis.reading isImportant] := by
  cases isImportant <;> decide +kernel

namespace RuleSet

variable {renames : List (String × String)}
  {replaces : List (String × List (String × Replacement))}

theorem isSome_action?_of_mem (hbuild : build renames replaces = .ok rules)
    (hmem : resolved ∈ Resolved.all rules.table source) :
    (rules.action? resolved.outcome.id).isSome = true ↔ resolved.outcome ≠ .none := by
  obtain ⟨declaration, -, rfl⟩ := List.mem_map.mp hmem
  exact isSome_action?_resolve hbuild _ _

/-- In the expanded style, a weight other than `0` is replaced by what its action emits and a basis
behind that. This is all that is to be declared for it just if the table matches it. Otherwise the
basis takes its place, and it is the only declaration there. -/
theorem edits_of_weight (hbuild : build renames replaces = .ok rules)
    (hmem : resolved ∈ Resolved.all rules.table source)
    (hname :
      (resolved.declaration.name.slice source.addressable).equalsFolded "linear-weight" = true)
    (hvalue : resolved.declaration.value.slice source.addressable ≠ ofString "0") :
    let text := source.addressable
    ∃ before after written,
      rules.edits source = before ++ ⟨resolved.declaration.name.start,
          resolved.declaration.replacedEnd text.toArray, written⟩ :: after ∧
      rules.styleUnits source =
        Edit.splice (text.take resolved.declaration.name.start).toArray 0 before ++
          (written ++
            Edit.splice text.toArray (resolved.declaration.replacedEnd text.toArray) after) ∧
      (written = [CodeUnit.semicolon].intercalate
          ((resolved.weightReadings rules text).map Reading.units) ↔ resolved.outcome ≠ .none) ∧
      (resolved.outcome = .none →
        (Resolved.all .empty written).map (fun found => found.declaration.reading written) =
          [Emitted.weightBasis.reading resolved.declaration.isImportant]) := by
  intro text
  have haction := isSome_action?_of_mem hbuild hmem
  have hexpansion := Expansion.ofResolved_of_weight rules hname hvalue
  have hexpanded : (Expansion.ofResolved rules text.toArray resolved).isTrivial = false := by
    rw [hexpansion, Expansion.isTrivial, List.isEmpty_cons, Bool.and_false]
  obtain ⟨before, after, hedits⟩ := exists_edits_of_mem hmem hexpanded
  have horder := rules.inOrder_editsOfText text
  have hstyle : rules.styleUnits source = _ := congrArg (Edit.splice text.toArray 0) hedits
  rw [hedits] at horder
  rw [Edit.splice_append horder] at hstyle
  rw [hexpansion] at hedits hstyle
  refine ⟨before, after, _, hedits, hstyle, ?_, fun hnone => ?_⟩
  · rw [← haction]
    exact resolved.joined_eq_weightReadings_iff rules text
  · have hwritten : Emitted.joined resolved.declaration.isImportant
        (Expansion.declarations ⟨rules.action? resolved.outcome.id, [Emitted.weightBasis], [],
          resolved.declaration.value.slice text⟩) =
        Emitted.weightBasis.units resolved.declaration.isImportant := by
      rw [hnone]
      exact List.append_nil _
    rw [hwritten]
    exact Emitted.readings_weightBasis _

/-- The weight goes under its new name, with a basis behind it. -/
theorem edits_of_renamed_weight :
    let source := ofString "a:b;Linear-Weight: 1 ! important;"
    let resolved : Resolved := ⟨⟨⟨4, 17⟩, ⟨19, 20⟩, true, 33⟩, .rename 1⟩
    ∃ rules, build [("linear-weight", "w")] [] = .ok rules ∧
      resolved ∈ Resolved.all rules.table source ∧
      (resolved.declaration.name.slice source.addressable).equalsFolded "linear-weight" = true ∧
      resolved.declaration.value.slice source.addressable ≠ ofString "0" ∧
      ∃ front back, rules.styleUnits source = front ++
        (ofString "w:1 !important;--lynx-linear-weight-basis:0 !important" ++ back) := by
  intro source resolved
  have hcheck : (match build [("linear-weight", "w")] [] with
      | .ok rules => decide (resolved ∈ Resolved.all rules.table source ∧
          rules.action? 1 = some (.rename "w"))
      | .error _ => false) = true := by decide +kernel
  cases hbuild : build [("linear-weight", "w")] [] with
  | error failure =>
    rw [hbuild] at hcheck
    exact absurd hcheck Bool.false_ne_true
  | ok rules =>
    rw [hbuild] at hcheck
    obtain ⟨hmem, haction⟩ := of_decide_eq_true hcheck
    have hname : (resolved.declaration.name.slice source.addressable).equalsFolded
        "linear-weight" = true := by decide +kernel
    have hvalue : resolved.declaration.value.slice source.addressable ≠ ofString "0" := by
      decide +kernel
    obtain ⟨before, after, written, -, hstyle, hwritten, -⟩ :=
      edits_of_weight hbuild hmem hname hvalue
    have htext : written = ofString "w:1 !important;--lynx-linear-weight-basis:0 !important" := by
      rw [hwritten.mpr (by decide), Resolved.weightReadings, Table.Outcome.id, haction]
      decide +kernel
    rw [htext] at hstyle
    exact ⟨rules, rfl, hmem, hname, hvalue, _, _, hstyle⟩

/-- Without a rule for it, the weight is not in the expanded style. -/
theorem removed_weight :
    let source := ofString "linear-weight:1"
    ∃ rules, build [] [] = .ok rules ∧
      Resolved.all rules.table source = [⟨⟨⟨0, 13⟩, ⟨14, 15⟩, false, 15⟩, .none⟩] ∧
      rules.styleUnits source = ofString "--lynx-linear-weight-basis:0" ∧
      ∀ found ∈ Resolved.all .empty (rules.styleUnits source),
        found.declaration.name.slice (rules.styleUnits source) ≠ ofString "linear-weight" := by
  intro source
  have hcheck : (match build [] [] with
      | .ok rules => decide (
          Resolved.all rules.table source = [⟨⟨⟨0, 13⟩, ⟨14, 15⟩, false, 15⟩, .none⟩] ∧
          rules.styleUnits source = ofString "--lynx-linear-weight-basis:0")
      | .error _ => false) = true := by decide +kernel
  cases hbuild : build [] [] with
  | error failure =>
    rw [hbuild] at hcheck
    exact absurd hcheck Bool.false_ne_true
  | ok rules =>
    rw [hbuild] at hcheck
    obtain ⟨hall, hstyle⟩ := of_decide_eq_true hcheck
    refine ⟨rules, rfl, hall, hstyle, ?_⟩
    rw [hstyle]
    decide +kernel

end RuleSet

end StyleRules
