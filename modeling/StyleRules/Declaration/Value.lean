import StyleRules.CodeUnit.Folded
import StyleRules.Token.Stream

/-!
# Values

A value is read from the lexemes between a colon and the end of the declaration. Trivia around it
and a final `!important` are left out; a lexical error anywhere spoils it.
-/

namespace StyleRules

namespace Lexeme

def isTrivia (lexeme : Lexeme) : Bool := lexeme.kind.isTrivia

def isBang (lexeme : Lexeme) : Bool :=
  lexeme.kind == .delim && lexeme.units == [CodeUnit.exclamationMark]

/-- Whether a lexeme is the word `important`, spelled without escapes in any case. -/
def isImportantWord (lexeme : Lexeme) : Bool :=
  lexeme.kind == .ident && lexeme.units.equalsFolded "important"

/-- A lexical error, or a token that the end of the text cut off. -/
def isMalformed (lexeme : Lexeme) : Bool :=
  lexeme.kind.isError || lexeme.token.flags.unterminated

end Lexeme

structure Value where
  span : Span
  isImportant : Bool
  deriving DecidableEq, Repr

namespace Value

/-- The lexemes before a final `!important`, and whether there is one. -/
def splitImportant (lexemes : List Lexeme) : List Lexeme × Bool :=
  match lexemes.reverse with
  | word :: bang :: before =>
    if bang.isBang && word.isImportantWord then (before.reverse, true) else (lexemes, false)
  | _ => (lexemes, false)

/-- The span from the first lexeme through the last. -/
def cover? (lexemes : List Lexeme) : Option Span :=
  match lexemes.head?, lexemes.getLast? with
  | some first, some last => some ⟨first.start, last.stop⟩
  | _, _ => none

/-- The value that `body` holds: none if it is malformed, or empty but for `!important`. -/
def ofBody? (body : List Lexeme) : Option Value :=
  let significant := body.filter fun lexeme => !lexeme.isTrivia
  if significant.any Lexeme.isMalformed then none
  else
    let (lexemes, isImportant) := splitImportant significant
    (cover? lexemes).map fun span => ⟨span, isImportant⟩

end Value

end StyleRules
