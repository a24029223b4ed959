/-!
# Actions

What becomes of a declaration to which a table rule applies: it is renamed, or declarations take its
place.
-/

namespace StyleRules

abbrev Replacement := List (String × String)

inductive Action where
  /-- The declaration goes under this name and keeps its value. -/
  | rename (target : String)
  /-- These declarations stand instead. -/
  | replace (declarations : Replacement)
  deriving DecidableEq, Repr

namespace Action

def text : Action → String
  | rename target => "rename to " ++ target
  | replace declarations =>
    "replace with " ++
      ";".intercalate (declarations.map fun declaration => declaration.1 ++ ":" ++ declaration.2)

end Action

end StyleRules
