import StyleRules.CodeUnit.Folded
import StyleRules.Token.Basic
import StyleRules.Token.Escape

/-!
# Names

The name at the start of a text is the longest run of name units and complete escapes. A name is
compared with a literal as it is spelled or with its escapes decoded.
-/

namespace StyleRules

namespace Name

open CodeUnits (ahead)

structure Extent where
  length : Nat
  escaped : Bool
  deriving DecidableEq, Repr

def extent (s : CodeUnits) : Extent :=
  match s with
  | [] => ⟨0, false⟩
  | u :: rest =>
    if u.isName then
      let tail := extent rest
      ⟨1 + tail.length, tail.escaped⟩
    else if CodeUnit.isValidEscape u (ahead rest 0) then
      let body := Escape.length rest
      let tail := extent (rest.drop body)
      ⟨1 + body + tail.length, true⟩
    else ⟨0, false⟩
termination_by s.length
decreasing_by all_goals simp only [List.length_cons, List.length_drop]; omega

def Extent.flags (name : Extent) : Flags := ⟨false, name.escaped⟩

def foldCodePoint (code : Nat) : Nat := if 0x41 ≤ code ∧ code ≤ 0x5A then code + 0x20 else code

structure Decoded where
  code : Nat
  length : Nat
  deriving DecidableEq, Repr

/-- The code point at the start of a name. Of a surrogate pair behind a backslash it is the first
unit, which is the unit of no literal either. -/
def decode (s : CodeUnits) : Decoded :=
  match s with
  | [] => ⟨0, 0⟩
  | u :: rest =>
    if u == CodeUnit.backslash && !rest.isEmpty then
      if (ahead rest 0).isHexDigit then
        let digits := Escape.hexDigits rest
        ⟨Escape.digitsValue digits,
          1 + digits.length + CodeUnits.whitespaceLength (rest.drop digits.length)⟩
      else ⟨(ahead rest 0).toNat, 2⟩
    else ⟨u.toNat, 1⟩

/-- What is left of a name behind a code point that, folded, is the given byte. -/
def behindByte? (s : CodeUnits) (byte : UInt8) : Option CodeUnits :=
  if !s.isEmpty && foldCodePoint (decode s).code == byte.toNat then some (s.drop (decode s).length)
  else none

def equalsFolded (s : CodeUnits) (lowercase : String) : Bool :=
  (literalBytes lowercase).foldlM behindByte? s == some []

theorem length_extent_pos_of_isName {u : CodeUnit} (s : CodeUnits) (h : u.isName = true) :
    0 < (extent (u :: s)).length := by
  rw [extent]
  simp only [h, if_true]
  omega

theorem length_extent_pos_of_isValidEscape {u : CodeUnit} (s : CodeUnits)
    (h : CodeUnit.isValidEscape u (ahead s 0) = true) : 0 < (extent (u :: s)).length := by
  rw [extent]
  by_cases hu : u.isName = true
  · simp only [hu, if_true]
    omega
  · simp only [hu, h, if_true]
    simp only [Bool.false_eq_true, if_false]
    omega

end Name

end StyleRules
