/-!
# Words and their bytes

A word is four bytes, the least significant one first.
-/

namespace StyleRules

abbrev Bytes := List UInt8

namespace Word

abbrev count : Nat := 4294967296

def bytes (word : UInt32) : Bytes :=
  [word.toUInt8, (word >>> 8).toUInt8, (word >>> 16).toUInt8, (word >>> 24).toUInt8]

def ofBytes (b0 b1 b2 b3 : UInt8) : UInt32 :=
  b0.toUInt32 ||| (b1.toUInt32 <<< 8) ||| (b2.toUInt32 <<< 16) ||| (b3.toUInt32 <<< 24)

/-- The words of a byte string; bytes after the last whole word are left out. -/
def ofAllBytes : Bytes → List UInt32
  | b0 :: b1 :: b2 :: b3 :: rest => ofBytes b0 b1 b2 b3 :: ofAllBytes rest
  | _ => []

end Word

end StyleRules
