import StyleRules.Cursor
import StyleRules.Span
import StyleRules.Table.Word

/-!
# Checked arithmetic

Offsets, lengths and counters are words of a fixed width. A checked operation has no result where
the number leaves its type, and a checked span none where it ends before it starts. The moves of a
cursor are written out down to the sums that they are made of; as long as the length of the text is
a word, they are the moves of `Cursor`.

A checked loop is given a number of rounds, and has no result where it needs more. There is a round
for each unit of the text and one more.
-/

namespace StyleRules.Checked

inductive Width where
  /-- An unsigned word: offsets, lengths, the depth of blocks, code points. -/
  | word
  /-- A signed word. -/
  | int
  /-- An address. -/
  | size
  deriving DecidableEq, Repr

namespace Width

def max : Width → Nat
  | word => Word.count - 1
  | int => 2147483647
  | size => 18446744073709551615

end Width

def add? (width : Width) (a b : Nat) : Option Nat :=
  if a + b ≤ width.max then some (a + b) else none

def mul? (width : Width) (a b : Nat) : Option Nat :=
  if a * b ≤ width.max then some (a * b) else none

def sub? (a b : Nat) : Option Nat := if b ≤ a then some (a - b) else none

def saturatingAdd (a b : Nat) : Nat := min (a + b) Width.word.max

def span? (start stop : Nat) : Option Span := if start ≤ stop then some ⟨start, stop⟩ else none

def spanLength? (span : Span) : Option Nat := sub? span.stop span.start

theorem add?_eq {width : Width} {a b : Nat} (h : a + b ≤ width.max) :
    add? width a b = some (a + b) := if_pos h

theorem mul?_eq {width : Width} {a b : Nat} (h : a * b ≤ width.max) :
    mul? width a b = some (a * b) := if_pos h

theorem sub?_eq {a b : Nat} (h : b ≤ a) : sub? a b = some (a - b) := if_pos h

theorem span?_eq {start stop : Nat} (h : start ≤ stop) : span? start stop = some ⟨start, stop⟩ :=
  if_pos h

theorem spanLength?_eq {span : Span} (h : span.start ≤ span.stop) :
    spanLength? span = some span.length := sub?_eq h

example : add? .word Width.word.max 1 = none := by decide

example : span? 3 2 = none := by decide

theorem word_le_size {n : Nat} (h : n ≤ Width.word.max) : n + 16 ≤ Width.size.max := by
  have hword : Width.word.max = 4294967295 := rfl
  have hsize : Width.size.max = 18446744073709551615 := rfl
  omega

def rounds (units : CodeUnits) : Nat := units.length + 1

/-! ## Moves of a cursor -/

def peek (cursor : Cursor) (offset : Nat) : CodeUnit :=
  let index := saturatingAdd cursor.pos offset
  if index < cursor.length then cursor.source.ahead index else 0

/-- The cursor at `pos`, which has to lie within the text. -/
def moveTo? (cursor : Cursor) (pos : Nat) : Option Cursor :=
  if h : pos ≤ cursor.source.length then some ⟨cursor.source, pos, cursor.length_le, h⟩ else none

def forward? (cursor : Cursor) : Option Cursor := do
  moveTo? cursor (← add? .word cursor.pos 1)

def step? (cursor : Cursor) : Option Cursor :=
  if cursor.pos < cursor.length then forward? cursor else some cursor

def jump (cursor : Cursor) (n : Nat) : Cursor :=
  ⟨cursor.source, min (saturatingAdd cursor.pos n) cursor.source.length, cursor.length_le,
    Nat.min_le_right ..⟩

def skipWhileLoop? : Nat → Cursor → (CodeUnit → Bool) → Option Cursor
  | 0, _, _ => none
  | left + 1, cursor, p => do
    if !cursor.atEnd && p (peek cursor 0) then skipWhileLoop? left (← forward? cursor) p
    else return cursor

def skipWhile? (cursor : Cursor) (p : CodeUnit → Bool) : Option Cursor :=
  skipWhileLoop? (rounds cursor.source) cursor p

def skipNewline? (cursor : Cursor) : Option Cursor :=
  if peek cursor 0 == CodeUnit.carriageReturn && peek cursor 1 == CodeUnit.lineFeed then
    some (jump cursor 2)
  else if (peek cursor 0).isNewline then step? cursor
  else some cursor

end StyleRules.Checked

namespace StyleRules.Cursor

variable {cursor : Cursor} {m n : Nat}

theorem rest_advance (cursor : Cursor) (n : Nat) :
    (cursor.advance n).rest = cursor.rest.drop n := by
  simp only [rest, advance, List.drop_drop]
  rcases Nat.le_total (cursor.pos + n) cursor.source.length with h | h
  · rw [Nat.min_eq_left h]
  · rw [Nat.min_eq_right h, List.drop_length, List.drop_eq_nil_of_le h]

theorem rest_advance_one {u : CodeUnit} {rest : CodeUnits} (h : cursor.rest = u :: rest) :
    (cursor.advance 1).rest = rest := by
  rw [rest_advance, h]
  rfl

theorem rest_advance_add {u : CodeUnit} {rest : CodeUnits} (h : cursor.rest = u :: rest) (n : Nat) :
    (cursor.advance (1 + n)).rest = rest.drop n := by
  rw [rest_advance, h, Nat.add_comm, List.drop_succ_cons]

theorem one_le_length_rest {u : CodeUnit} {rest : CodeUnits} (h : cursor.rest = u :: rest) :
    1 ≤ cursor.rest.length := by
  rw [h]
  exact Nat.succ_pos _

theorem le_pos_advance (h : m ≤ cursor.pos) (n : Nat) : m ≤ (cursor.advance n).pos :=
  Nat.le_trans h (cursor.pos_le_pos_advance n)

theorem length_rest (cursor : Cursor) :
    cursor.pos + cursor.rest.length = cursor.source.length := by
  rw [rest, List.length_drop]
  exact Nat.add_sub_cancel' cursor.pos_le

theorem pos_advance (h : n ≤ cursor.rest.length) : (cursor.advance n).pos = cursor.pos + n := by
  have := cursor.length_rest
  exact Nat.min_eq_left (by omega)

@[simp] theorem advance_zero (cursor : Cursor) : cursor.advance 0 = cursor := by
  obtain ⟨source, pos, hlength, hpos⟩ := cursor
  simp only [advance, Nat.add_zero, Nat.min_eq_left hpos]

theorem advance_advance (cursor : Cursor) (m n : Nat) :
    (cursor.advance m).advance n = cursor.advance (m + n) := by
  simp only [advance, mk.injEq, true_and]
  omega

theorem advance_of_rest (h : cursor.rest = []) (n : Nat) : cursor.advance n = cursor := by
  have hsum := cursor.length_rest
  rw [h, List.length_nil, Nat.add_zero] at hsum
  obtain ⟨source, pos, hlength, hpos⟩ := cursor
  simp only [advance, mk.injEq, true_and]
  dsimp only at hsum
  omega

theorem atEnd_eq (cursor : Cursor) : cursor.atEnd = cursor.rest.isEmpty := by
  rw [Bool.eq_iff_iff, ← rest_eq_nil_iff, List.isEmpty_iff]

end StyleRules.Cursor

namespace StyleRules.Checked

theorem exists_round {m n : Nat} (h : m + 1 ≤ n) : ∃ left, n = left + 1 ∧ m ≤ left :=
  ⟨n - 1, by omega, by omega⟩

variable (cursor : Cursor)

theorem peek_eq (offset : Nat) : peek cursor offset = cursor.rest.ahead offset := by
  have hlength : cursor.source.length ≤ Width.word.max := cursor.length_le
  rw [← Cursor.ahead_eq_rest, Cursor.ahead, peek, saturatingAdd]
  rcases Nat.lt_or_ge (cursor.pos + offset) cursor.source.length with h | h
  · rw [Nat.min_eq_left (by omega)]
    exact if_pos h
  · have hzero : cursor.source.ahead (cursor.pos + offset) = 0 := by
      rw [CodeUnits.ahead, List.getD_eq_getElem?_getD, List.getElem?_eq_none h, Option.getD_none]
    rw [hzero]
    exact if_neg (by unfold Cursor.length; omega)

theorem peek_advance (n offset : Nat) :
    peek (cursor.advance n) offset = CodeUnits.ahead (cursor.rest.drop n) offset := by
  rw [peek_eq (cursor.advance n), Cursor.rest_advance]

theorem jump_eq (n : Nat) : jump cursor n = cursor.advance n := by
  have hlength : cursor.source.length ≤ Width.word.max := cursor.length_le
  simp only [jump, Cursor.advance, saturatingAdd, Cursor.mk.injEq, true_and]
  omega

theorem forward?_eq (h : cursor.rest ≠ []) : forward? cursor = some (cursor.advance 1) := by
  have hlength : cursor.source.length ≤ Width.word.max := cursor.length_le
  have hpos := List.length_pos_iff.mpr h
  have hsum := cursor.length_rest
  have hmove : moveTo? cursor (cursor.pos + 1) = some (cursor.advance 1) := by
    rw [moveTo?, dif_pos (by omega), Option.some.injEq]
    simp only [Cursor.advance, Cursor.mk.injEq, true_and]
    omega
  rw [forward?, add?_eq (by omega)]
  exact hmove

theorem step?_eq : step? cursor = some (cursor.advance 1) := by
  unfold step?
  by_cases hrest : cursor.rest = []
  · have hsum := cursor.length_rest
    rw [hrest, List.length_nil] at hsum
    rw [if_neg (by unfold Cursor.length; omega), Cursor.advance_of_rest hrest]
  · have hsum := cursor.length_rest
    have hpos := List.length_pos_iff.mpr hrest
    rw [if_pos (by unfold Cursor.length; omega)]
    exact forward?_eq cursor hrest

theorem skipWhileLoop?_eq {left : Nat} (hleft : cursor.rest.length ≤ left)
    (p : CodeUnit → Bool) : skipWhileLoop? (left + 1) cursor p = some (cursor.skipWhile p) := by
  unfold Cursor.skipWhile
  -- The induction is on what is ahead, which each round makes shorter by a unit.
  generalize hrest : cursor.rest = s at hleft ⊢
  induction s generalizing cursor left with
  | nil =>
    rw [skipWhileLoop?, cursor.atEnd_eq, hrest]
    simp
  | cons u rest ih =>
    obtain ⟨left, rfl, hless⟩ := exists_round hleft
    have hbehind := Cursor.rest_advance_one hrest
    rw [skipWhileLoop?, cursor.atEnd_eq, peek_eq cursor, hrest, CodeUnits.ahead_cons_zero]
    cases hu : p u with
    | false => simp [hu]
    | true =>
      have hforward := forward?_eq cursor (hrest ▸ List.cons_ne_nil u rest)
      have htail := ih (cursor.advance 1) hbehind hless
      rw [Cursor.advance_advance] at htail
      simp [hu, hforward, htail, Nat.add_comm]

theorem skipWhile?_eq (p : CodeUnit → Bool) :
    skipWhile? cursor p = some (cursor.skipWhile p) :=
  skipWhileLoop?_eq cursor cursor.length_rest_le p

theorem skipWhile?_advance (n : Nat) (p : CodeUnit → Bool) :
    skipWhile? (cursor.advance n) p =
      some (cursor.advance (n + ((cursor.rest.drop n).takeWhile p).length)) := by
  rw [skipWhile?_eq (cursor.advance n), Cursor.skipWhile, Cursor.rest_advance,
    Cursor.advance_advance]

theorem skipNewline?_eq : skipNewline? cursor = some cursor.skipNewline := by
  unfold skipNewline? Cursor.skipNewline
  simp only [peek_eq cursor, jump_eq cursor, step?_eq cursor, Cursor.ahead_eq_rest]
  split
  · rfl
  · split <;> rfl

end StyleRules.Checked
