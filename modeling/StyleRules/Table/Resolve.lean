import StyleRules.Table.Build

/-!
# Resolving declarations

What a table says about a name and a value. A rename rule, which looks at the name alone, wins over
a replace rule.
-/

namespace StyleRules.Table

inductive Outcome where
  | none
  | rename (id : RuleId)
  | replace (id : RuleId)
  deriving DecidableEq, Repr

namespace Outcome

/-- The id of the rule that applies, `0` when none does. -/
def id : Outcome → RuleId
  | none => 0
  | rename id => id
  | replace id => id

def text : Outcome → String
  | none => "none"
  | rename id => "rename(" ++ toString id.toNat ++ ")"
  | replace id => "replace(" ++ toString id.toNat ++ ")"

end Outcome

/-- The rename rule for a name, `0` when there is none. -/
def renameId (table : Table) (name : CodeUnits) : RuleId := table.rename.lookup 0 name

/-- The replace rule for a name and a value, `0` when there is none. -/
def replaceId (table : Table) (name value : CodeUnits) : RuleId :=
  let root := table.replace.lookup 0 name
  if root = 0 then 0 else table.replace.lookup root value

def resolve (table : Table) (name value : CodeUnits) : Outcome :=
  if table.renameId name ≠ 0 then .rename (table.renameId name)
  else if table.replaceId name value ≠ 0 then .replace (table.replaceId name value)
  else .none

end StyleRules.Table
