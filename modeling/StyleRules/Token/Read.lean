import StyleRules.Token.Literal
import StyleRules.Token.Name
import StyleRules.Token.Number
import StyleRules.Token.Url

/-!
# The first token of a text

`Token.read` looks at the text that is left and nothing before it. Every token of a text that is not
empty has a unit (`length_read_pos`), which bounds the reading of a whole text.
-/

namespace StyleRules.Token

open CodeUnits (ahead whitespaceRun startsEscape startsIdentifier startsNumber)

def readNumeric (s : CodeUnits) : Token :=
  let number := Number.length s
  let rest := s.drop number
  if startsIdentifier rest then
    let unit := Name.extent rest
    ⟨.dimension, number + unit.length, unit.flags⟩
  else if ahead rest 0 == CodeUnit.percentSign then plain .percentage (number + 1)
  else plain .number number

/-- Whether a name is `url`, read through its escapes where it has any. -/
def isUrlName (name : CodeUnits) (escaped : Bool) : Bool :=
  if escaped then Name.equalsFolded name "url" else name.equalsFolded "url"

/-- A name, with what an opening parenthesis behind it makes of it: an identifier, a function, or a
url that is not quoted. -/
def readIdentLike (s : CodeUnits) : Token :=
  let name := Name.extent s
  let rest := s.drop name.length
  if ahead rest 0 != CodeUnit.leftParen then ⟨.ident, name.length, name.flags⟩
  else
    let inside := rest.drop 1
    let blank := whitespaceRun inside
    if isUrlName (s.take name.length) name.escaped && !(ahead (inside.drop blank) 0).isQuote then
      (readUrl (inside.drop blank)).grow (name.length + 1 + blank)
    else ⟨.function, name.length + 1, name.flags⟩

def readMarked (kind : Kind) (rest : CodeUnits) : Token :=
  let name := Name.extent rest
  ⟨kind, 1 + name.length, name.flags⟩

def singleKind (u : CodeUnit) : Kind :=
  if u == CodeUnit.leftParen then .leftParen
  else if u == CodeUnit.rightParen then .rightParen
  else if u == CodeUnit.comma then .comma
  else if u == CodeUnit.colon then .colon
  else if u == CodeUnit.semicolon then .semicolon
  else if u == CodeUnit.leftBracket then .leftBracket
  else if u == CodeUnit.rightBracket then .rightBracket
  else if u == CodeUnit.leftBrace then .leftBrace
  else if u == CodeUnit.rightBrace then .rightBrace
  else .delim

/-- A token that begins with neither a name nor a number: trivia, a string, a marked name, an HTML
comment opening, or a single unit. -/
def readOther (u : CodeUnit) (rest : CodeUnits) : Token :=
  if u.isWhitespace then plain .whitespace (1 + whitespaceRun rest)
  else if u.isQuote then (readString u rest).grow 1
  else if u == CodeUnit.numberSign &&
      ((ahead rest 0).isName || startsEscape rest) then
    readMarked .hash rest
  else if u == CodeUnit.atSign &&
      startsIdentifier rest then
    readMarked .atKeyword rest
  else if u == CodeUnit.solidus && ahead rest 0 == CodeUnit.asterisk then
    (readComment (rest.drop 1)).grow 2
  else if u == CodeUnit.lessThan && ahead rest 0 == CodeUnit.exclamationMark &&
      ahead rest 1 == CodeUnit.hyphen && ahead rest 2 == CodeUnit.hyphen then
    plain .cdo 4
  else plain (singleKind u) 1

/-- Whether a text begins with `-->`. -/
def startsCdc (s : CodeUnits) : Bool :=
  ahead s 0 == CodeUnit.hyphen && ahead s 1 == CodeUnit.hyphen &&
    ahead s 2 == CodeUnit.greaterThan

def read (s : CodeUnits) : Token :=
  match s with
  | [] => eof
  | u :: rest =>
    if startsNumber s then readNumeric s
    else if startsCdc s then plain .cdc 3
    else if startsIdentifier s then readIdentLike s
    else readOther u rest

/-! ## Progress -/

theorem length_readNumeric_pos {s : CodeUnits}
    (h : startsNumber s = true) :
    0 < (readNumeric s).length := by
  have := Number.length_pos_of_startsNumber h
  unfold readNumeric
  simp only
  split
  · simp only
    omega
  · split <;> simp only [length_plain] <;> omega

theorem length_extent_pos_of_startsIdentifier {u : CodeUnit} {rest : CodeUnits}
    (h : startsIdentifier (u :: rest) = true) :
    0 < (Name.extent (u :: rest)).length := by
  rcases CodeUnit.isName_or_isValidEscape_of_startsIdentifier h with hname | hescape
  · exact Name.length_extent_pos_of_isName rest hname
  · exact Name.length_extent_pos_of_isValidEscape rest hescape

theorem length_readIdentLike_pos {s : CodeUnits} (h : 0 < (Name.extent s).length) :
    0 < (readIdentLike s).length := by
  unfold readIdentLike
  simp only
  split
  · exact h
  · split
    · simp only [length_grow]
      omega
    · simp only
      omega

theorem length_readMarked_pos (kind : Kind) (rest : CodeUnits) :
    0 < (readMarked kind rest).length := by
  unfold readMarked
  simp only
  omega

theorem length_readOther_pos (u : CodeUnit) (rest : CodeUnits) :
    0 < (readOther u rest).length := by
  unfold readOther
  split
  · simp only [length_plain]
    omega
  split
  · simp only [length_grow]
    omega
  split
  · exact length_readMarked_pos .hash rest
  split
  · exact length_readMarked_pos .atKeyword rest
  split
  · simp only [length_grow]
    omega
  split
  · exact Nat.succ_pos 3
  · exact Nat.one_pos

theorem length_read_pos {s : CodeUnits} (h : s ≠ []) : 0 < (read s).length := by
  cases s with
  | nil => exact absurd rfl h
  | cons u rest =>
    unfold read
    simp only
    split
    · next hnumber => exact length_readNumeric_pos hnumber
    · split
      · simp only [length_plain]
        omega
      · split
        · next hident =>
          exact length_readIdentLike_pos (length_extent_pos_of_startsIdentifier hident)
        · exact length_readOther_pos u rest

end StyleRules.Token
