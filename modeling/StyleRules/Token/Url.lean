import StyleRules.Token.Basic
import StyleRules.Token.Escape

/-!
# Unquoted urls

The reader takes what follows `url(` and its whitespace, and answers with the token for the part
read. A unit that no url holds makes the url bad; a bad url stops before the first unescaped `)`.
-/

namespace StyleRules.Token

open CodeUnits (ahead whitespaceRun)

def badUrlLength (s : CodeUnits) : Nat :=
  match s with
  | [] => 0
  | u :: rest =>
    if u == CodeUnit.rightParen then 0
    else if CodeUnit.isValidEscape u (ahead rest 0) then
      let body := Escape.length rest
      1 + body + badUrlLength (rest.drop body)
    else 1 + badUrlLength rest
termination_by s.length
decreasing_by all_goals simp only [List.length_cons, List.length_drop]; omega

def badUrl (s : CodeUnits) : Token := plain .badUrl (badUrlLength s)

def readUrlEnd (s : CodeUnits) : Token :=
  match s with
  | [] => (plain .url 0).markUnterminated
  | u :: _ => if u == CodeUnit.rightParen then plain .url 1 else badUrl s

/-- A unit that no unquoted url holds. -/
def endsUrlBadly (u : CodeUnit) : Bool :=
  u.isQuote || u == CodeUnit.leftParen || u.isNonPrintable

def readUrl (s : CodeUnits) : Token :=
  match s with
  | [] => (plain .url 0).markUnterminated
  | u :: rest =>
    if u == CodeUnit.rightParen then plain .url 1
    else if u.isWhitespace then
      let blank := whitespaceRun s
      (readUrlEnd (s.drop blank)).grow blank
    else if endsUrlBadly u then badUrl s
    else if u == CodeUnit.backslash then
      if CodeUnit.isValidEscape u (ahead rest 0) then
        let body := Escape.length rest
        ((readUrl (rest.drop body)).grow (1 + body)).markEscaped
      else badUrl s
    else (readUrl rest).grow 1
termination_by s.length
decreasing_by all_goals simp only [List.length_cons, List.length_drop]; omega

end StyleRules.Token
