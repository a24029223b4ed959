import StyleRules.CodeUnit.Class

/-!
# Numbers

The number at the start of a text, part by part: an optional sign, digits, a fraction, an exponent.
A part that is absent has length `0`.
-/

namespace StyleRules.Number

open CodeUnits (ahead startsNumber)

def signLength (s : CodeUnits) : Nat :=
  if ahead s 0 == CodeUnit.plusSign || ahead s 0 == CodeUnit.hyphen then 1 else 0

def digitsLength (s : CodeUnits) : Nat := (s.takeWhile CodeUnit.isDigit).length

/-- A full stop belongs to the number only before a digit. -/
def fractionLength (s : CodeUnits) : Nat :=
  if ahead s 0 == CodeUnit.fullStop && (ahead s 1).isDigit then 1 + digitsLength (s.drop 1) else 0

def isExponentLetter (u : CodeUnit) : Bool := u == 0x45 || u == 0x65

/-- An exponent letter belongs to the number only before a digit, or a sign and a digit. -/
def exponentLength (s : CodeUnits) : Nat :=
  if isExponentLetter (ahead s 0) then
    let sign := signLength (s.drop 1)
    if (ahead s (1 + sign)).isDigit then 1 + sign + digitsLength (s.drop (1 + sign)) else 0
  else 0

def length (s : CodeUnits) : Nat :=
  let sign := signLength s
  let whole := sign + digitsLength (s.drop sign)
  let mantissa := whole + fractionLength (s.drop whole)
  mantissa + exponentLength (s.drop mantissa)

theorem digitsLength_pos {s : CodeUnits} (h : (ahead s 0).isDigit = true) : 0 < digitsLength s := by
  cases s with
  | nil => exact absurd h (by decide)
  | cons u rest =>
    have hu : u.isDigit = true := h
    simp [digitsLength, hu]

theorem length_pos_of_startsNumber {s : CodeUnits}
    (h : startsNumber s = true) : 0 < length s := by
  unfold length
  by_cases hsign : signLength s = 0
  · simp only [hsign, List.drop_zero, Nat.zero_add]
    unfold startsNumber CodeUnit.startsNumber at h
    split at h
    · next hfirst =>
      simp [signLength, hfirst] at hsign
    · split at h
      · next hstop =>
        by_cases hdigits : digitsLength s = 0
        · have hfraction : 0 < fractionLength s := by
            unfold fractionLength
            simp only [hstop, h, Bool.and_self, if_true]
            omega
          simp only [hdigits, List.drop_zero, Nat.zero_add]
          omega
        · omega
      · have := digitsLength_pos h
        omega
  · dsimp only
    omega

end StyleRules.Number
