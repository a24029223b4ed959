import StyleRules.Cursor
import StyleRules.Span
import StyleRules.Token.Read

/-!
# The tokens of a text

A text is read token by token to its end; `Token.ofText` is the list of tokens and `Lexeme.ofText`
places each of them in the text. Behind a token the reading depends on what is left and on nothing
else. `Token.all` and `Lexeme.all` are what a cursor reads: a text that is longer than offsets
reach is cut there.
-/

namespace StyleRules

def Token.ofText (s : CodeUnits) : List Token :=
  match s with
  | [] => []
  | u :: rest =>
    let token := Token.read (u :: rest)
    token :: Token.ofText ((u :: rest).drop token.length)
termination_by s.length
decreasing_by
  have := Token.length_read_pos (List.cons_ne_nil u rest)
  simp only [List.length_drop, List.length_cons]
  omega

/-- The tokens of a text, as far as offsets reach. -/
def Token.all (s : CodeUnits) : List Token := Token.ofText s.addressable

/-- The token at the cursor and the cursor behind it. -/
def Cursor.next (cursor : Cursor) : Token × Cursor :=
  let token := Token.read cursor.rest
  (token, cursor.advance token.length)

def Cursor.tokens (cursor : Cursor) : List Token := Token.ofText cursor.rest

/-- A token in its place: where it starts and which units it covers. -/
structure Lexeme where
  start : Nat
  token : Token
  units : CodeUnits
  deriving DecidableEq, Repr

namespace Lexeme

def kind (lexeme : Lexeme) : Token.Kind := lexeme.token.kind

def stop (lexeme : Lexeme) : Nat := lexeme.start + lexeme.token.length

def span (lexeme : Lexeme) : Span := ⟨lexeme.start, lexeme.stop⟩

/-- Places tokens one behind the other, the first at offset `start` and at the start of `s`. -/
def place (start : Nat) (s : CodeUnits) : List Token → List Lexeme
  | [] => []
  | token :: tokens =>
    ⟨start, token, s.take token.length⟩ ::
      place (start + token.length) (s.drop token.length) tokens

def ofText (s : CodeUnits) : List Lexeme := place 0 s (Token.ofText s)

/-- The lexemes of a text, as far as offsets reach. -/
def all (s : CodeUnits) : List Lexeme := ofText s.addressable

end Lexeme

end StyleRules
