import StyleRules.Declaration.Nesting
import StyleRules.Token.Stream

/-!
# Stretches

A stretch runs up to the next `;`, `{` or `}` outside all blocks, or to the end of the text. It is
what the value of a declaration is read from, and what is skipped where no declaration stands.
-/

namespace StyleRules

inductive Ending where
  /-- A `;`, with the offset just past it. -/
  | semicolon (stop : Nat)
  /-- A `}`, with its offset. -/
  | closeBrace (start : Nat)
  | openBrace
  | endOfText
  /-- The end of the text inside an open block. -/
  | unclosed
  deriving DecidableEq, Repr

namespace Ending

/-- The ending that a lexeme outside all blocks makes. -/
def ofLexeme? (lexeme : Lexeme) : Option Ending :=
  match lexeme.kind with
  | .semicolon => some (.semicolon lexeme.stop)
  | .rightBrace => some (.closeBrace lexeme.start)
  | .leftBrace => some .openBrace
  | _ => none

/-- Where a declaration with this ending is complete, in a text of length `size`. A `{` means that
no declaration was read, and an open block is never complete. -/
def stop? (size : Nat) : Ending → Option Nat
  | semicolon stop => some stop
  | closeBrace start => some start
  | openBrace => none
  | endOfText => some size
  | unclosed => none

end Ending

structure Stretch where
  /-- The lexemes before the ending. -/
  body : List Lexeme
  ending : Ending
  /-- The lexemes behind the ending. -/
  rest : List Lexeme
  deriving DecidableEq, Repr

namespace Stretch

def read (nesting : Nesting) : List Lexeme → Stretch
  | [] => ⟨[], if nesting.isTop then .endOfText else .unclosed, []⟩
  | lexeme :: rest =>
    match if nesting.isTop then Ending.ofLexeme? lexeme else none with
    | some ending => ⟨[], ending, rest⟩
    | none =>
      let tail := read (nesting.after lexeme.kind) rest
      { tail with body := lexeme :: tail.body }

theorem length_rest_le (nesting : Nesting) (lexemes : List Lexeme) :
    (read nesting lexemes).rest.length ≤ lexemes.length := by
  induction lexemes generalizing nesting with
  | nil => simp [read]
  | cons lexeme rest ih =>
    unfold read
    split
    · simp
    · have := ih (nesting.after lexeme.kind)
      simp only [List.length_cons]
      omega

theorem length_rest_cons_le (nesting : Nesting) (lexeme : Lexeme) (lexemes : List Lexeme) :
    (read nesting (lexeme :: lexemes)).rest.length ≤ lexemes.length := by
  unfold read
  split
  · exact Nat.le_refl _
  · exact length_rest_le _ _

end Stretch

end StyleRules
