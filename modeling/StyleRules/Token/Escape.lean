import StyleRules.CodeUnit.Class
import StyleRules.Text.Utf16

/-!
# Escapes

What belongs to an escape, read from the unit after its backslash: up to six hexadecimal digits and
one optional whitespace, or one code point as it stands. CR LF counts as one whitespace.
-/

namespace StyleRules

namespace CodeUnits

/-- The length of the newline at the start of a text, `0` where there is none. -/
def newlineLength (s : CodeUnits) : Nat :=
  if ahead s 0 == CodeUnit.carriageReturn && ahead s 1 == CodeUnit.lineFeed then 2
  else if (ahead s 0).isNewline then 1
  else 0

def whitespaceLength (s : CodeUnits) : Nat :=
  if ahead s 0 == CodeUnit.carriageReturn && ahead s 1 == CodeUnit.lineFeed then 2
  else if (ahead s 0).isWhitespace then 1
  else 0

def whitespaceRun (s : CodeUnits) : Nat := (s.takeWhile CodeUnit.isWhitespace).length

end CodeUnits

namespace Escape

open CodeUnits (ahead newlineLength whitespaceLength)

def hexDigits (s : CodeUnits) : CodeUnits := (s.take 6).takeWhile CodeUnit.isHexDigit

/-- How many units after the backslash belong to the escape. -/
def length (s : CodeUnits) : Nat :=
  match s with
  | [] => 0
  | u :: _ =>
    if u.isHexDigit then
      let digits := (hexDigits s).length
      digits + whitespaceLength (s.drop digits)
    else if CodeUnit.isPair u (ahead s 1) then 2
    else 1

def digitsValue (digits : CodeUnits) : Nat := digits.foldl (fun n u => 16 * n + u.hexValue) 0

def codePoint (s : CodeUnits) : Nat :=
  match s with
  | [] => 0
  | u :: _ =>
    if u.isHexDigit then digitsValue (hexDigits s)
    else if CodeUnit.isPair u (ahead s 1) then CodeUnit.pairCodePoint u (ahead s 1)
    else u.toNat

/-- The length of what a backslash takes along inside a string: a line continuation or an escape. -/
def lengthInString (s : CodeUnits) : Nat :=
  if (ahead s 0).isNewline then newlineLength s else length s

end Escape

end StyleRules
