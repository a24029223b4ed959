import StyleRules.Declaration.Stretch
import StyleRules.Declaration.Value

/-!
# Declarations

The declarations `name: value [!important]` of a style text, in order. Reading never fails: what
does not look like a declaration is skipped to the next `;`, `{` or `}` outside all blocks. A `{` is
entered, so the declarations inside a rule are found; one whose value is malformed or still has an
open block at the end of the text is dropped.
-/

namespace StyleRules

structure Declaration where
  name : Span
  /-- The value without trivia around it and without `!important`. -/
  value : Span
  isImportant : Bool
  /-- Just past the `;`, the end of the text, or the offset of the `}` behind the declaration. -/
  semicolonEnd : Nat
  deriving DecidableEq, Repr

namespace Declaration

def fullSpan (declaration : Declaration) : Span :=
  ⟨declaration.name.start, declaration.value.stop⟩

/-- Lexemes that may stand before a name and between a name and its colon. -/
def isBlank (kind : Token.Kind) : Bool :=
  kind.isTrivia || kind == .cdo || kind == .cdc

/-- Lexemes that are passed over where a statement may start. -/
def isPassedOver (kind : Token.Kind) : Bool :=
  isBlank kind || kind == .leftBrace || kind == .rightBrace || kind == .semicolon

/-- The declaration of a name and what stands behind its colon, in a text of length `size`. -/
def ofStretch? (size : Nat) (name : Lexeme) (stretch : Stretch) : Option Declaration :=
  match stretch.ending.stop? size, Value.ofBody? stretch.body with
  | some stop, some value => some ⟨name.span, value.span, value.isImportant, stop⟩
  | _, _ => none

/-- What is left behind the stretch that starts with `lexemes`. -/
def skip (lexemes : List Lexeme) : List Lexeme := (Stretch.read .top lexemes).rest

def readStatement (size : Nat) (first : Lexeme) (rest : List Lexeme) :
    Option Declaration × List Lexeme :=
  if first.kind = .ident then
    match rest.dropWhile fun lexeme => isBlank lexeme.kind with
    | [] => (none, [])
    | colon :: behind =>
      if colon.kind = .colon then
        let stretch := Stretch.read .top behind
        (ofStretch? size first stretch, stretch.rest)
      else (none, skip (colon :: behind))
  else (none, skip (first :: rest))

theorem length_readStatement_le (size : Nat) (first : Lexeme) (rest : List Lexeme) :
    (readStatement size first rest).2.length ≤ rest.length := by
  unfold readStatement
  split
  · have hdrop := (rest.dropWhile_sublist fun lexeme => isBlank lexeme.kind).length_le
    split
    · simp
    · next colon behind hbehind =>
      rw [hbehind, List.length_cons] at hdrop
      split
      · have := Stretch.length_rest_le .top behind
        simp only
        omega
      · have := Stretch.length_rest_cons_le .top colon behind
        simp only [skip]
        omega
  · exact Stretch.length_rest_cons_le .top first rest

/-- The declarations that `lexemes` hold, in a text of length `size`. -/
def ofLexemes (size : Nat) (lexemes : List Lexeme) : List Declaration :=
  match lexemes with
  | [] => []
  | first :: rest =>
    if isPassedOver first.kind then ofLexemes size rest
    else
      let statement := readStatement size first rest
      statement.1.toList ++ ofLexemes size statement.2
termination_by lexemes.length
decreasing_by
  · simp
  · have := length_readStatement_le size first rest
    simp only [List.length_cons]
    omega

def ofText (text : CodeUnits) : List Declaration := ofLexemes text.length (Lexeme.ofText text)

/-- The declarations of a text, as far as offsets reach. -/
def all (source : CodeUnits) : List Declaration := ofText source.addressable

end Declaration

end StyleRules
