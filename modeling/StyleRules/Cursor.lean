import StyleRules.CodeUnit.Class

/-!
# Cursors

A position in a text that only moves forward and never leaves it. Reads past the end yield `0`;
`atEnd` tells them from an interior NUL. Positions are offsets of 32 bits; a text is cut after the
4294967295 units that they reach.
-/

namespace StyleRules

structure Cursor where
  source : CodeUnits
  pos : Nat
  length_le : source.length ≤ CodeUnits.maxLength
  pos_le : pos ≤ source.length

namespace Cursor

/-- The cursor at the start of a text; what offsets do not reach is cut off. -/
def ofUnits (source : CodeUnits) : Cursor :=
  ⟨source.addressable, 0, source.length_addressable_le, Nat.zero_le _⟩

def length (cursor : Cursor) : Nat := cursor.source.length

def rest (cursor : Cursor) : CodeUnits := cursor.source.drop cursor.pos

/-- The unit `offset` places behind the cursor, `0` past the end. -/
def ahead (cursor : Cursor) (offset : Nat) : CodeUnit := cursor.source.ahead (cursor.pos + offset)

def atEnd (cursor : Cursor) : Bool := cursor.length ≤ cursor.pos

def slice (cursor : Cursor) (start stop : Nat) : CodeUnits := cursor.source.slice start stop

def sliceFrom (cursor : Cursor) (start : Nat) : CodeUnits := cursor.slice start cursor.pos

/-- The cursor `n` units further, at most at the end. -/
def advance (cursor : Cursor) (n : Nat) : Cursor :=
  ⟨cursor.source, min (cursor.pos + n) cursor.source.length, cursor.length_le, Nat.min_le_right ..⟩

def skipWhile (cursor : Cursor) (p : CodeUnit → Bool) : Cursor :=
  cursor.advance (cursor.rest.takeWhile p).length

def skipWhitespace (cursor : Cursor) : Cursor := cursor.skipWhile CodeUnit.isWhitespace

/-- The cursor behind one newline, where CR LF is one. -/
def skipNewline (cursor : Cursor) : Cursor :=
  if cursor.ahead 0 == CodeUnit.carriageReturn && cursor.ahead 1 == CodeUnit.lineFeed then
    cursor.advance 2
  else if (cursor.ahead 0).isNewline then cursor.advance 1
  else cursor

theorem ahead_eq_rest (cursor : Cursor) (offset : Nat) :
    cursor.ahead offset = cursor.rest.ahead offset := by
  simp [ahead, rest, CodeUnits.ahead, List.getD_eq_getElem?_getD, List.getElem?_drop]

theorem rest_eq_nil_iff (cursor : Cursor) : cursor.rest = [] ↔ cursor.atEnd = true := by
  rw [rest, atEnd, length, List.drop_eq_nil_iff, decide_eq_true_iff]

theorem length_rest_le (cursor : Cursor) : cursor.rest.length ≤ cursor.source.length := by
  rw [rest, List.length_drop]
  exact Nat.sub_le _ _

@[simp] theorem source_advance (cursor : Cursor) (n : Nat) :
    (cursor.advance n).source = cursor.source := rfl

theorem pos_le_pos_advance (cursor : Cursor) (n : Nat) :
    cursor.pos ≤ (cursor.advance n).pos := by
  have := cursor.pos_le
  simp only [advance]
  omega

end Cursor

end StyleRules
