import StyleRules.CodeUnit.Class

/-!
# Texts as UTF-16

`CodeUnits.ofString` writes a string in code units and `CodeUnits.toText` reads code units as a
string. Reading is total: a surrogate without its partner becomes U+FFFD.
-/

namespace StyleRules

/-- One unit for a code point of the basic plane, a surrogate pair for any other. -/
def codePointUnits (code : Nat) : CodeUnits :=
  if code < 0x10000 then [UInt16.ofNat code]
  else
    [UInt16.ofNat (0xD800 + (code - 0x10000) / 0x400),
      UInt16.ofNat (0xDC00 + (code - 0x10000) % 0x400)]

namespace CodeUnit

def isSurrogate (u : CodeUnit) : Bool := u.isHighSurrogate || u.isLowSurrogate

def pairCodePoint (high low : CodeUnit) : Nat :=
  0x10000 + (high.toNat - 0xD800) * 0x400 + (low.toNat - 0xDC00)

def toChar (u : CodeUnit) : Char := if u.isSurrogate then '\uFFFD' else Char.ofNat u.toNat

def isPair (high low : CodeUnit) : Bool := high.isHighSurrogate && low.isLowSurrogate

end CodeUnit

namespace CodeUnits

def ofString (text : String) : CodeUnits := text.toList.flatMap fun c => codePointUnits c.toNat

/-- The characters of a text, an unpaired surrogate read as U+FFFD. -/
def chars : CodeUnits → List Char
  | [] => []
  | [u] => [u.toChar]
  | u :: v :: rest =>
    if CodeUnit.isPair u v then Char.ofNat (CodeUnit.pairCodePoint u v) :: chars rest
    else u.toChar :: chars (v :: rest)

def toText (s : CodeUnits) : String := String.ofList s.chars

end CodeUnits

end StyleRules
