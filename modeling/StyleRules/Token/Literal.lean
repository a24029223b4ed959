import StyleRules.Token.Basic
import StyleRules.Token.Escape

/-!
# Strings and comments

Each reader takes what follows the opening of the token and answers with the token for the part that
it read.
-/

namespace StyleRules.Token

open CodeUnits (ahead)

/-- The rest of a string opened by `quote`. A newline that is neither continued nor part of an
escape makes the string bad and stays outside it. -/
def readString (quote : CodeUnit) (s : CodeUnits) : Token :=
  match s with
  | [] => (plain .string 0).markUnterminated
  | u :: rest =>
    if u == quote then plain .string 1
    else if u.isNewline then plain .badString 0
    else if u == CodeUnit.backslash && !rest.isEmpty then
      let body := Escape.lengthInString rest
      ((readString quote (rest.drop body)).grow (1 + body)).markEscaped
    else (readString quote rest).grow 1
termination_by s.length
decreasing_by all_goals simp only [List.length_cons, List.length_drop]; omega

def readComment (s : CodeUnits) : Token :=
  match s with
  | [] => (plain .comment 0).markUnterminated
  | u :: rest =>
    if u == CodeUnit.asterisk && ahead rest 0 == CodeUnit.solidus then plain .comment 2
    else (readComment rest).grow 1

end StyleRules.Token
