import StyleRules.Expansion.Basic
import StyleRules.Proofs.Expansion.Words
import StyleRules.Proofs.Text.Utf16

/-!
# What expansions consist of

Where the rules of a set spell out words, every declaration that an expansion emits has a word for
its name and, for its value, what a rule spells out or the value of the expanded declaration. That
value is the last one emitted, but for a renamed declaration to which a weight basis is added.
-/

namespace StyleRules

open CodeUnits (IsText ofString)

def CodeUnits.IsSpelled (s : CodeUnits) : Prop := s.isLiteral = true ∧ s.IsText

theorem CodeUnits.isSpelled_ofString {text : String} (h : (ofString text).isLiteral = true) :
    IsSpelled (ofString text) := ⟨h, isText_ofString text⟩

def Action.isSpelledOut : Action → Bool
  | rename target => (ofString target).isWord
  | replace declarations => !declarations.isEmpty && declarations.all fun declaration =>
      (ofString declaration.1).isWord && (ofString declaration.2).isLiteral

def RuleSet.IsSpelledOut (rules : RuleSet) : Prop :=
  ∀ action ∈ rules.actions, action.isSpelledOut = true

def SpecialValue.isSpelledOut : SpecialValue → Bool
  | literal text => (ofString text).isLiteral
  | declared => false

namespace Emitted

def IsPlain (declared : CodeUnits) (emitted : Emitted) : Prop :=
  (ofString emitted.name).isWord = true ∧
    (emitted.value.IsSpelled ∨ emitted.value = declared)

def EndsPlain (declared : CodeUnits) (declarations : List Emitted) : Prop :=
  (∀ emitted ∈ declarations, emitted.IsPlain declared) ∧
    ∀ emitted ∈ declarations.dropLast, emitted.value.IsSpelled

def weightBasis : Emitted := ⟨"--lynx-linear-weight-basis", [CodeUnit.digitZero]⟩

variable {declared : CodeUnits}

theorem endsPlain_of_spelled {declarations : List Emitted}
    (h : ∀ emitted ∈ declarations, (ofString emitted.name).isWord = true ∧
      emitted.value.IsSpelled) : EndsPlain declared declarations :=
  ⟨fun emitted hmem => ⟨(h emitted hmem).1, .inl (h emitted hmem).2⟩,
    fun emitted hmem => (h emitted (List.dropLast_subset _ hmem)).2⟩

theorem weightBasis_spelled :
    (ofString weightBasis.name).isWord = true ∧ weightBasis.value.IsSpelled :=
  ⟨by decide, by decide, CodeUnits.isText_ofString "0"⟩

/-- Declarations that end plain, or a renamed declaration and a weight basis. -/
def IsShaped (declared : CodeUnits) (declarations : List Emitted) : Prop :=
  EndsPlain declared declarations ∨ ∃ target, (ofString target).isWord = true ∧
    declarations = [⟨target, declared⟩, weightBasis]

theorem IsShaped.isPlain {declarations : List Emitted} (h : IsShaped declared declarations) :
    ∀ emitted ∈ declarations, emitted.IsPlain declared := by
  rcases h with hplain | ⟨target, hword, rfl⟩
  · exact hplain.1
  · exact List.forall_mem_cons.mpr ⟨⟨hword, .inr rfl⟩,
      List.forall_mem_singleton.mpr ⟨weightBasis_spelled.1, .inl weightBasis_spelled.2⟩⟩

/-- An action that spells out its words renames the declaration, or writes spelled-out values. -/
theorem ofAction_cases (declared : CodeUnits) {action : Action} (h : action.isSpelledOut = true) :
    (∃ target, (ofString target).isWord = true ∧
        ofAction declared action = [⟨target, declared⟩]) ∨
      (ofAction declared action ≠ [] ∧ ∀ emitted ∈ ofAction declared action,
        (ofString emitted.name).isWord = true ∧ emitted.value.IsSpelled) := by
  cases action with
  | rename target => exact .inl ⟨target, h, rfl⟩
  | replace declarations =>
    right
    rw [Action.isSpelledOut, Bool.and_eq_true, List.all_eq_true] at h
    obtain ⟨hne, hall⟩ := h
    constructor
    · intro hnil
      rw [List.map_eq_nil_iff.mp hnil] at hne
      exact absurd hne (by decide)
    · intro emitted hmem
      obtain ⟨declaration, hdeclaration, rfl⟩ := List.mem_map.mp hmem
      have hspelled := hall declaration hdeclaration
      rw [Bool.and_eq_true] at hspelled
      exact ⟨hspelled.1, CodeUnits.isSpelled_ofString hspelled.2⟩

/-- Special declarations write what they spell out, up to the last one, which may be declared. -/
theorem endsPlain_special {declarations : SpecialDeclarations}
    (hname : ∀ declaration ∈ declarations, (ofString declaration.1).isWord = true ∧
      (declaration.2.isSpelledOut = true ∨ declaration.2 = .declared))
    (hvalue : ∀ declaration ∈ declarations.dropLast, declaration.2.isSpelledOut = true) :
    EndsPlain declared (declarations.map (ofSpecial declared)) := by
  have hspelled : ∀ declaration : String × SpecialValue, declaration.2.isSpelledOut = true →
      (ofSpecial declared declaration).value.IsSpelled := by
    rintro ⟨name, text | -⟩ h
    · exact CodeUnits.isSpelled_ofString h
    · exact absurd h Bool.false_ne_true
  constructor
  · intro emitted hmem
    obtain ⟨declaration, hdeclaration, rfl⟩ := List.mem_map.mp hmem
    obtain ⟨hword, hkind⟩ := hname declaration hdeclaration
    have hsame : (ofSpecial declared declaration).name = declaration.1 := by
      unfold ofSpecial
      split <;> rfl
    refine ⟨by rw [hsame]; exact hword, ?_⟩
    rcases hkind with hliteral | hdeclared
    · exact .inl (hspelled declaration hliteral)
    · right
      rw [ofSpecial, hdeclared]
  · intro emitted hmem
    rw [← List.map_dropLast] at hmem
    obtain ⟨declaration, hdeclaration, rfl⟩ := List.mem_map.mp hmem
    exact hspelled declaration (hvalue declaration hdeclaration)

end Emitted

/-- What a special rule adds: a weight basis, or, next to no action, colours. -/
theorem SpecialRule.declarations_cases (rule : SpecialRule) (declared : CodeUnits)
    (hasAction : Bool) :
    rule.declarations declared hasAction = [] ∨
      rule.declarations declared hasAction = weightBasis ∨
      (hasAction = false ∧ ((rule.declarations declared hasAction) = gradientColor ∨
        (rule.declarations declared hasAction) = plainColor)) := by
  unfold declarations
  cases rule with
  | color =>
    cases hasAction with
    | true => exact .inl rfl
    | false =>
      right
      right
      refine ⟨rfl, ?_⟩
      dsimp only
      rw [if_neg Bool.false_ne_true]
      split
      · exact .inl rfl
      · exact .inr rfl
  | linearWeight =>
    dsimp only
    split
    · exact .inl rfl
    · exact .inr (.inl rfl)
  | linearWeightSum => exact .inl rfl

namespace Expansion

variable {rules : RuleSet} {buffer : Buffer} {resolved : Resolved}

/-- The special part of an expansion: nothing, a weight basis, or, next to no action, declarations
that end plain. -/
theorem special_cases (rules : RuleSet) (buffer : Buffer) (resolved : Resolved) :
    (ofResolved rules buffer resolved).special = [] ∨
      (ofResolved rules buffer resolved).special = [Emitted.weightBasis] ∨
      ((ofResolved rules buffer resolved).action = none ∧
        Emitted.EndsPlain (ofResolved rules buffer resolved).declared
          (ofResolved rules buffer resolved).special) := by
  unfold ofResolved
  dsimp only
  cases hrule : SpecialRule.forProperty? (resolved.declaration.name.cut buffer) with
  | none => exact .inl rfl
  | some rule =>
    dsimp only
    rcases rule.declarations_cases (resolved.declaration.value.cut buffer)
      (rules.action? resolved.outcome.id).isSome with hnone | hbasis | ⟨haction, hcolor⟩
    · rw [hnone]
      exact .inl rfl
    · rw [hbasis]
      exact .inr (.inl rfl)
    · right
      right
      rw [Option.isSome_eq_false_iff, Option.isNone_iff_eq_none] at haction
      refine ⟨haction, ?_⟩
      rcases hcolor with hgradient | hplain
      · rw [hgradient]
        exact Emitted.endsPlain_special (by decide) (by decide)
      · rw [hplain]
        exact Emitted.endsPlain_special (by decide) (by decide)

theorem declarations_eq (rules : RuleSet) (buffer : Buffer) (resolved : Resolved) :
    (ofResolved rules buffer resolved).declarations =
      (match (ofResolved rules buffer resolved).action with
        | none => []
        | some action => Emitted.ofAction (ofResolved rules buffer resolved).declared action) ++
      (ofResolved rules buffer resolved).special := rfl

theorem action_eq (rules : RuleSet) (buffer : Buffer) (resolved : Resolved) :
    (ofResolved rules buffer resolved).action = rules.action? resolved.outcome.id := by
  unfold ofResolved
  dsimp only
  split <;> rfl

theorem isSpelledOut_of_action (hrules : rules.IsSpelledOut) {action : Action}
    (h : (ofResolved rules buffer resolved).action = some action) :
    action.isSpelledOut = true := by
  rw [action_eq, RuleSet.action?] at h
  split at h
  · exact absurd h (by simp)
  · exact hrules action (List.mem_of_getElem? h)

/-- An expansion emits declarations that end plain, or a renamed declaration and a weight basis. -/
theorem declarations_shape (hrules : rules.IsSpelledOut)
    (h : (ofResolved rules buffer resolved).isTrivial = false) :
    (ofResolved rules buffer resolved).declarations ≠ [] ∧
      Emitted.IsShaped (ofResolved rules buffer resolved).declared
        (ofResolved rules buffer resolved).declarations := by
  have hspecial := special_cases rules buffer resolved
  have hself := declarations_eq rules buffer resolved
  have hspelled : ∀ action, (ofResolved rules buffer resolved).action = some action →
      action.isSpelledOut = true := fun action => isSpelledOut_of_action hrules
  generalize ofResolved rules buffer resolved = expansion at h hspecial hself hspelled ⊢
  rw [hself]
  unfold isTrivial at h
  cases haction : expansion.action with
  | none =>
    rw [haction, Option.isNone_none, Bool.true_and, List.isEmpty_eq_false_iff] at h
    rw [List.nil_append]
    refine ⟨h, .inl ?_⟩
    rcases hspecial with hnone | hbasis | ⟨-, hplain⟩
    · exact absurd hnone h
    · rw [hbasis]
      exact Emitted.endsPlain_of_spelled (List.forall_mem_singleton.mpr Emitted.weightBasis_spelled)
    · exact hplain
  | some action =>
    have hspecial' : expansion.special = [] ∨ expansion.special = [Emitted.weightBasis] := by
      rcases hspecial with hnone | hbasis | ⟨hnone, -⟩
      · exact .inl hnone
      · exact .inr hbasis
      · rw [haction] at hnone
        exact absurd hnone (by simp)
    dsimp only
    rcases Emitted.ofAction_cases expansion.declared (hspelled action haction) with
      ⟨target, hword, hrename⟩ | ⟨hne, hall⟩
    · rw [hrename]
      refine ⟨by simp, ?_⟩
      rcases hspecial' with hnone | hbasis
      · left
        rw [hnone, List.append_nil]
        exact ⟨List.forall_mem_singleton.mpr ⟨hword, .inr rfl⟩,
          fun _ hmem => absurd hmem List.not_mem_nil⟩
      · right
        rw [hbasis]
        exact ⟨target, hword, rfl⟩
    · refine ⟨by simp [hne], .inl (Emitted.endsPlain_of_spelled fun emitted hmem => ?_)⟩
      rcases List.mem_append.mp hmem with hmem | hmem
      · exact hall emitted hmem
      · rcases hspecial' with hnone | hbasis
        · rw [hnone] at hmem
          exact absurd hmem List.not_mem_nil
        · rw [hbasis] at hmem
          obtain rfl := List.mem_singleton.mp hmem
          exact Emitted.weightBasis_spelled

end Expansion

end StyleRules
