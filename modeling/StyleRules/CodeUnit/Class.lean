import StyleRules.CodeUnit.Basic

/-!
# Classes of code units

The predicates by which tokens are told apart, after the definitions of CSS Syntax Level 3 §4.2, and
the coarse partition of all units into `CodeUnit.Class`. Only ASCII letters fold; every unit from
`0x80` on belongs to names.
-/

namespace StyleRules.CodeUnit

def isDigit (u : CodeUnit) : Bool := 0x30 ≤ u && u ≤ 0x39

def isUpper (u : CodeUnit) : Bool := 0x41 ≤ u && u ≤ 0x5A

def isLower (u : CodeUnit) : Bool := 0x61 ≤ u && u ≤ 0x7A

def isLetter (u : CodeUnit) : Bool := u.isUpper || u.isLower

def isHexDigit (u : CodeUnit) : Bool :=
  u.isDigit || (0x41 ≤ u && u ≤ 0x46) || (0x61 ≤ u && u ≤ 0x66)

/-- A letter, `_`, or any unit outside ASCII. -/
def isNameStart (u : CodeUnit) : Bool := u.isLetter || u == underscore || 0x80 ≤ u

def isName (u : CodeUnit) : Bool := u.isNameStart || u.isDigit || u == hyphen

/-- The text is not preprocessed, so a line ends at LF, CR or FF. -/
def isNewline (u : CodeUnit) : Bool := u == lineFeed || u == carriageReturn || u == formFeed

def isWhitespace (u : CodeUnit) : Bool := u.isNewline || u == tab || u == space

def isQuote (u : CodeUnit) : Bool := u == quotationMark || u == apostrophe

/-- The control units that make an unquoted url bad; NUL is one of them. -/
def isNonPrintable (u : CodeUnit) : Bool :=
  u ≤ 0x08 || u == 0x0B || (0x0E ≤ u && u ≤ 0x1F) || u == 0x7F

def isHighSurrogate (u : CodeUnit) : Bool := 0xD800 ≤ u && u ≤ 0xDBFF

def isLowSurrogate (u : CodeUnit) : Bool := 0xDC00 ≤ u && u ≤ 0xDFFF

/-- An ASCII letter in lower case; every other unit is unchanged. -/
def fold (u : CodeUnit) : CodeUnit := if u.isUpper then u ||| 0x20 else u

/-- The value of a hexadecimal digit, `0` for any other unit. -/
def hexValue (u : CodeUnit) : Nat :=
  if u.isDigit then u.toNat - 0x30
  else if u.isHexDigit then u.fold.toNat - 0x61 + 10
  else 0

/-- The coarse class of a unit: the classes partition all units. -/
inductive Class where
  /-- The unit `0`: the end of the text, or an interior NUL. -/
  | endOfText
  | whitespace
  | digit
  | letter
  /-- The units `-` and `_` and every unit from `0x80` on. -/
  | nameContinue
  /-- The backslash. -/
  | escapeStart
  | quote
  | nonPrintable
  | other
  deriving DecidableEq, Repr

def classify (u : CodeUnit) : Class :=
  if u == 0 then .endOfText
  else if u.isWhitespace then .whitespace
  else if u.isDigit then .digit
  else if u.isLetter then .letter
  else if u == hyphen || u == underscore || 0x80 ≤ u then .nameContinue
  else if u == backslash then .escapeStart
  else if u.isQuote then .quote
  else if u.isNonPrintable then .nonPrintable
  else .other

/-! ## Looking ahead -/

/-- A backslash escapes whatever follows it but a newline, a NUL and the end of the text. -/
def isValidEscape (first second : CodeUnit) : Bool :=
  first == backslash && second != 0 && !second.isNewline

def startsIdentifier (first second third : CodeUnit) : Bool :=
  if first == hyphen then
    second.isNameStart || second == hyphen || isValidEscape second third
  else if first == backslash then isValidEscape first second
  else first.isNameStart

def startsNumber (first second third : CodeUnit) : Bool :=
  if first == plusSign || first == hyphen then
    second.isDigit || (second == fullStop && third.isDigit)
  else if first == fullStop then second.isDigit
  else first.isDigit

theorem isName_or_isValidEscape_of_startsIdentifier {first second third : CodeUnit}
    (h : startsIdentifier first second third = true) :
    first.isName = true ∨ isValidEscape first second = true := by
  unfold startsIdentifier at h
  split at h
  · next hyphen =>
    left
    simp [isName, hyphen]
  · split at h
    · exact .inr h
    · left
      simp [isName, h]

end StyleRules.CodeUnit

namespace StyleRules.CodeUnits

def startsEscape (s : CodeUnits) : Bool := CodeUnit.isValidEscape (ahead s 0) (ahead s 1)

def startsIdentifier (s : CodeUnits) : Bool :=
  CodeUnit.startsIdentifier (ahead s 0) (ahead s 1) (ahead s 2)

def startsNumber (s : CodeUnits) : Bool := CodeUnit.startsNumber (ahead s 0) (ahead s 1) (ahead s 2)

end StyleRules.CodeUnits
