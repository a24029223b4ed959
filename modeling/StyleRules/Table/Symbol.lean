import StyleRules.CodeUnit.Class

/-!
# The trie alphabet

Twenty-six symbols for the letters of either case and one for every other unit. Which other unit it
is, is recorded beside the symbol, so letters match in any case and all else exactly.
-/

namespace StyleRules

abbrev Symbol := Fin 27

def Symbol.other : Symbol := 26

def CodeUnit.symbol (u : CodeUnit) : Symbol :=
  if u.isLetter then Fin.ofNat 27 (u.fold.toNat - 0x61) else Symbol.other

end StyleRules
