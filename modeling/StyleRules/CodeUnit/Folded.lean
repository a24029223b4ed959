import StyleRules.CodeUnit.Class

/-!
# Comparison up to ASCII case

A text equals a lower-case literal when its units, folded, are the bytes of the literal.
-/

namespace StyleRules

def literalBytes (literal : String) : List UInt8 := literal.toList.flatMap String.utf8EncodeChar

namespace CodeUnits

def fold (s : CodeUnits) : CodeUnits := s.map CodeUnit.fold

def equalsFolded (s : CodeUnits) (lowercase : String) : Bool :=
  s.fold == (literalBytes lowercase).map UInt8.toUInt16

/-- Whether the text begins with the bytes of `literal`, case taken into account. -/
def startsWith (s : CodeUnits) (literal : String) : Bool :=
  ((literalBytes literal).map UInt8.toUInt16).isPrefixOf s

end CodeUnits

end StyleRules
