/-!
# Fields separated by tabs

A field holds neither a tab nor a line end: these and the backslash are written with a backslash.
`unescape` reads a field back.
-/

namespace StyleRules.Tsv

def escapeChar (c : Char) : List Char :=
  if c = '\\' then ['\\', '\\']
  else if c = '\t' then ['\\', 't']
  else if c = '\n' then ['\\', 'n']
  else if c = '\r' then ['\\', 'r']
  else [c]

def escape (text : String) : String := String.ofList (text.toList.flatMap escapeChar)

def unescapeChar (c : Char) : Char :=
  if c = 't' then '\t' else if c = 'n' then '\n' else if c = 'r' then '\r' else c

/-- Undoes the escapes of a field from left to right. -/
def unescapeChars : List Char → List Char
  | [] => []
  | [c] => [c]
  | c :: d :: rest =>
    if c = '\\' then unescapeChar d :: unescapeChars rest else c :: unescapeChars (d :: rest)

def unescape (text : String) : String := String.ofList (unescapeChars text.toList)

theorem unescapeChars_cons {c : Char} (h : c ≠ '\\') (rest : List Char) :
    unescapeChars (c :: rest) = c :: unescapeChars rest := by
  cases rest <;> simp [unescapeChars, h]

theorem unescapeChars_escapeChar (c : Char) (rest : List Char) :
    unescapeChars (escapeChar c ++ rest) = c :: unescapeChars rest := by
  unfold escapeChar
  split
  · next h => simp [unescapeChars, unescapeChar, h]
  · next h =>
    repeat' split
    all_goals first
      | exact unescapeChars_cons h rest
      | simp_all [unescapeChars, unescapeChar]

theorem unescapeChars_flatMap_escapeChar (text : List Char) :
    unescapeChars (text.flatMap escapeChar) = text := by
  induction text with
  | nil => rfl
  | cons c rest ih => rw [List.flatMap_cons, unescapeChars_escapeChar, ih]

end StyleRules.Tsv
