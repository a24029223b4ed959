import StyleRules.Declaration.Resolved
import StyleRules.Rules.RuleSet
import StyleRules.Rules.Special

/-!
# Expansions

What a declaration becomes under a rule set: the declarations that its action and its special rule
emit, each as important as the declaration itself.
-/

namespace StyleRules

structure Emitted where
  name : String
  value : CodeUnits
  deriving DecidableEq, Repr

namespace Emitted

def units (isImportant : Bool) (emitted : Emitted) : CodeUnits :=
  CodeUnits.ofString emitted.name ++ CodeUnit.colon :: emitted.value ++
    (if isImportant then CodeUnits.ofString " !important" else [])

def ofSpecial (declared : CodeUnits) (declaration : String × SpecialValue) : Emitted :=
  match declaration.2 with
  | .literal text => ⟨declaration.1, CodeUnits.ofString text⟩
  | .declared => ⟨declaration.1, declared⟩

def ofAction (declared : CodeUnits) : Action → List Emitted
  | .rename target => [⟨target, declared⟩]
  | .replace declarations =>
    declarations.map fun declaration => ⟨declaration.1, CodeUnits.ofString declaration.2⟩

def joined (isImportant : Bool) (declarations : List Emitted) : CodeUnits :=
  [CodeUnit.semicolon].intercalate (declarations.map (units isImportant))

end Emitted

/-- What a declaration becomes: what its action emits, which may be nothing, and what its special
rule adds to the element and to its children. -/
structure Expansion where
  action : Option Action
  special : List Emitted
  children : List Emitted
  declared : CodeUnits
  deriving DecidableEq, Repr

namespace Expansion

def ofResolved (rules : RuleSet) (buffer : Buffer) (resolved : Resolved) : Expansion :=
  let declaration := resolved.declaration
  let declared := declaration.value.cut buffer
  let action := rules.action? resolved.outcome.id
  match SpecialRule.forProperty? (declaration.name.cut buffer) with
  | none => ⟨action, [], [], declared⟩
  | some rule =>
    ⟨action, (rule.declarations declared action.isSome).map (Emitted.ofSpecial declared),
      rule.children.map (Emitted.ofSpecial declared), declared⟩

def isTrivial (expansion : Expansion) : Bool :=
  expansion.action.isNone && expansion.special.isEmpty

def declarations (expansion : Expansion) : List Emitted :=
  (match expansion.action with
    | none => []
    | some action => Emitted.ofAction expansion.declared action) ++ expansion.special

end Expansion

end StyleRules
