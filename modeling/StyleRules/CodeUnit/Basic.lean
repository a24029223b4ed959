/-!
# Code units

A style text is a list of UTF-16 code units; every offset and length counts them. A read past the
end of a text yields the unit `0`, which also stands for an interior NUL.
-/

namespace StyleRules

/-- A UTF-16 code unit. -/
abbrev CodeUnit := UInt16

/-- A text as its code units. It may hold unpaired surrogates. -/
abbrev CodeUnits := List CodeUnit

namespace CodeUnit

abbrev tab : CodeUnit := 0x09

abbrev lineFeed : CodeUnit := 0x0A

abbrev formFeed : CodeUnit := 0x0C

abbrev carriageReturn : CodeUnit := 0x0D

abbrev space : CodeUnit := 0x20

abbrev exclamationMark : CodeUnit := 0x21

abbrev quotationMark : CodeUnit := 0x22

abbrev numberSign : CodeUnit := 0x23

abbrev percentSign : CodeUnit := 0x25

abbrev apostrophe : CodeUnit := 0x27

abbrev leftParen : CodeUnit := 0x28

abbrev rightParen : CodeUnit := 0x29

abbrev asterisk : CodeUnit := 0x2A

abbrev plusSign : CodeUnit := 0x2B

abbrev comma : CodeUnit := 0x2C

abbrev hyphen : CodeUnit := 0x2D

abbrev fullStop : CodeUnit := 0x2E

abbrev solidus : CodeUnit := 0x2F

abbrev digitZero : CodeUnit := 0x30

abbrev colon : CodeUnit := 0x3A

abbrev semicolon : CodeUnit := 0x3B

abbrev lessThan : CodeUnit := 0x3C

abbrev greaterThan : CodeUnit := 0x3E

abbrev atSign : CodeUnit := 0x40

abbrev leftBracket : CodeUnit := 0x5B

abbrev backslash : CodeUnit := 0x5C

abbrev rightBracket : CodeUnit := 0x5D

abbrev underscore : CodeUnit := 0x5F

abbrev leftBrace : CodeUnit := 0x7B

abbrev rightBrace : CodeUnit := 0x7D

end CodeUnit

namespace CodeUnits

/-- The unit `i` places ahead, `0` past the end. -/
def ahead (s : CodeUnits) (i : Nat) : CodeUnit := s.getD i 0

@[simp] theorem ahead_nil (i : Nat) : ahead [] i = 0 := by simp [ahead]

@[simp] theorem ahead_cons_zero (u : CodeUnit) (s : CodeUnits) : ahead (u :: s) 0 = u := rfl

@[simp] theorem ahead_cons_succ (u : CodeUnit) (s : CodeUnits) (i : Nat) :
    ahead (u :: s) (i + 1) = ahead s i := rfl

/-- The units at offsets `start ≤ i < stop`, cut at the end of the text. -/
def slice (s : CodeUnits) (start stop : Nat) : CodeUnits := (s.take stop).drop start

theorem length_slice (s : CodeUnits) (start stop : Nat) :
    (s.slice start stop).length = min stop s.length - start := by
  simp [slice]

/-! ## What offsets reach -/

/-- The most units that offsets of 32 bits count. -/
def maxLength : Nat := 4294967295

/-- The part of a text that is read: a text of more units is cut. -/
def addressable (s : CodeUnits) : CodeUnits := s.take maxLength

theorem length_addressable (s : CodeUnits) : s.addressable.length = min maxLength s.length :=
  List.length_take

theorem length_addressable_le (s : CodeUnits) : s.addressable.length ≤ maxLength :=
  List.length_take_le _ _

@[simp] theorem addressable_of_length_le {s : CodeUnits} (h : s.length ≤ maxLength) :
    s.addressable = s := List.take_of_length_le h

/-- What is cut out of a text within the reach of offsets is cut out of what is read of it. -/
theorem slice_addressable (s : CodeUnits) (start : Nat) {stop : Nat} (h : stop ≤ maxLength) :
    s.addressable.slice start stop = s.slice start stop := by
  rw [slice, slice, addressable, List.take_take, Nat.min_eq_left h]

theorem addressable_drop (s : CodeUnits) (i : Nat) :
    CodeUnits.addressable (s.addressable.drop i) = s.addressable.drop i :=
  addressable_of_length_le (by
    have := s.length_addressable_le
    rw [List.length_drop]
    omega)

end CodeUnits

/-- A text from which ranges are cut without walking through all that stands before them. -/
abbrev Buffer := Array CodeUnit

namespace Buffer

/-- The units at offsets `start ≤ i < stop`, cut at the end of the text. -/
def slice (buffer : Buffer) (start stop : Nat) : CodeUnits := (buffer.extract start stop).toList

@[simp] theorem slice_toArray (s : CodeUnits) (start stop : Nat) :
    slice s.toArray start stop = s.slice start stop := by
  simp only [slice, CodeUnits.slice, List.extract_toArray, List.take_drop]
  by_cases h : start ≤ stop
  · rw [Nat.add_sub_cancel' h]
  · rw [List.drop_eq_nil_of_le, List.drop_eq_nil_of_le] <;> simp only [List.length_take] <;> omega

end Buffer

end StyleRules
