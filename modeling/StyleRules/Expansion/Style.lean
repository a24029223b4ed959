import StyleRules.Expansion.Basic
import StyleRules.Expansion.Splice

/-!
# Expanded styles

A style text whose declarations are expanded under a rule set. A declaration with an expansion is
replaced from its name through its value and its `!important`; the `;` behind it and the trivia
around it stay. What the special rules add to the children of the element is written apart.
-/

namespace StyleRules

/-- Tokens that end the text behind a value. -/
def endsImportant (lexeme : Lexeme) : Bool :=
  lexeme.kind == .semicolon || lexeme.kind == .rightBrace

/-- How far `!important` reaches in the text behind a value: through the last lexeme before a `;` or
`}` that is no trivia. -/
def importantLength (tail : CodeUnits) : Nat :=
  let before := (Lexeme.ofText tail).takeWhile fun lexeme => !endsImportant lexeme
  match (before.filter fun lexeme => !lexeme.isTrivia).getLast? with
  | none => 0
  | some last => last.stop

/-- Where the text that an expansion of the declaration replaces ends: with its value, or with the
`!important` behind it. -/
def Declaration.replacedEnd (buffer : Buffer) (declaration : Declaration) : Nat :=
  if declaration.isImportant then
    declaration.value.stop +
      importantLength (Buffer.slice buffer declaration.value.stop declaration.semicolonEnd)
  else declaration.value.stop

def Edit.ofResolved? (rules : RuleSet) (buffer : Buffer) (resolved : Resolved) : Option Edit :=
  let declaration := resolved.declaration
  let expansion := Expansion.ofResolved rules buffer resolved
  if expansion.isTrivial then none
  else
    some ⟨declaration.name.start, declaration.replacedEnd buffer,
      Emitted.joined declaration.isImportant expansion.declarations⟩

/-- What a declaration adds to the children, each written with a `;` behind it. -/
def childrenUnits (rules : RuleSet) (buffer : Buffer) (resolved : Resolved) : CodeUnits :=
  (Expansion.ofResolved rules buffer resolved).children.flatMap fun emitted =>
    emitted.units resolved.declaration.isImportant ++ [CodeUnit.semicolon]

namespace RuleSet

def editsOfText (rules : RuleSet) (text : CodeUnits) : List Edit :=
  (Resolved.ofText rules.table text).filterMap (Edit.ofResolved? rules text.toArray)

def styleOfText (rules : RuleSet) (text : CodeUnits) : CodeUnits :=
  Edit.splice text.toArray 0 (rules.editsOfText text)

def childrenOfText (rules : RuleSet) (text : CodeUnits) : CodeUnits :=
  (Resolved.ofText rules.table text).flatMap (childrenUnits rules text.toArray)

/-! A text that is longer than offsets reach is expanded and copied as far as they reach. -/

def edits (rules : RuleSet) (source : CodeUnits) : List Edit :=
  rules.editsOfText source.addressable

def styleUnits (rules : RuleSet) (source : CodeUnits) : CodeUnits :=
  rules.styleOfText source.addressable

def childrenStyleUnits (rules : RuleSet) (source : CodeUnits) : CodeUnits :=
  rules.childrenOfText source.addressable

end RuleSet

/-- An expanded style, and the declarations for the children of the element. -/
structure ExpandedStyle where
  style : String
  children : String
  deriving DecidableEq, Repr

namespace ExpandedStyle

def ofUnits (rules : RuleSet) (source : CodeUnits) : ExpandedStyle :=
  ⟨(rules.styleUnits source).toText, (rules.childrenStyleUnits source).toText⟩

def ofString (rules : RuleSet) (source : String) : ExpandedStyle :=
  ofUnits rules (CodeUnits.ofString source)

end ExpandedStyle

end StyleRules
