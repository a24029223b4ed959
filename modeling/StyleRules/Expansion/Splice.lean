import StyleRules.CodeUnit.Basic

/-!
# Splicing

A text with some of its ranges replaced; everything outside them is copied.
-/

namespace StyleRules

/-- Replaces the units at offsets `start ≤ i < stop`. -/
structure Edit where
  start : Nat
  stop : Nat
  replacement : CodeUnits
  deriving DecidableEq, Repr

namespace Edit

/-- The text in `buffer` from offset `copied` on with the edits made, which come in order. -/
def splice (buffer : Buffer) (copied : Nat) : List Edit → CodeUnits
  | [] => Buffer.slice buffer copied buffer.size
  | edit :: edits =>
    Buffer.slice buffer copied edit.start ++ edit.replacement ++ splice buffer edit.stop edits

end Edit

end StyleRules
