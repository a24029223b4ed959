/-!
# Report formats
-/

namespace StyleRules

inductive Format where
  /-- One aligned line for each record. -/
  | text
  /-- Fields separated by tabs, below a line of column names. -/
  | tsv
  deriving DecidableEq, Repr

namespace Format

def ofName? (name : String) : Option Format :=
  if name = "text" then some text else if name = "tsv" then some tsv else none

end Format

end StyleRules
