import StyleRules.Table.Asset

/-!
# Building rule tables

Rename rules are keys of one trie. A replace rule is found in two steps: its name leads to a root of
its own in the replace trie, and its value is a key below that root. Rules for the same name share
the root; names are the same when they are spelled the same.
-/

namespace StyleRules.Table

abbrev RuleId := UInt32

inductive Rule where
  | rename (name : String) (id : RuleId)
  | replace (name value : String) (id : RuleId)
  deriving DecidableEq, Repr

/-- The replace rules of one name, as value and id. -/
structure ValueRules where
  name : String
  values : List (String × RuleId)
  deriving DecidableEq, Repr

/-- Adds a replace rule to the rules of its name, which come in the order of their first rule. -/
def addValueRule (groups : List ValueRules) (name value : String) (id : RuleId) :
    List ValueRules :=
  match groups with
  | [] => [⟨name, [(value, id)]⟩]
  | group :: rest =>
    if group.name = name then ⟨name, group.values ++ [(value, id)]⟩ :: rest
    else group :: addValueRule rest name value id

def renameRules (rules : List Rule) : List (String × RuleId) :=
  rules.filterMap fun
    | .rename name id => some (name, id)
    | .replace _ _ _ => none

def replaceGroups (rules : List Rule) : List ValueRules :=
  rules.foldl (fun groups rule =>
    match rule with
    | .rename _ _ => groups
    | .replace name value id => addValueRule groups name value id) []

def Pool.insertRule (root : UInt32) (pool : Pool) (rule : String × RuleId) :
    Except BuildError Pool :=
  if rule.2 = 0 then .error .zeroId else pool.insert root (CodeUnits.ofString rule.1) rule.2

/-- Enters the rules of one name below a new root, and then the name with that root. -/
def Pool.insertGroup (pool : Pool) (group : ValueRules) : Except BuildError Pool := do
  let (grown, root) ← pool.push
  let filled ← group.values.foldlM (Pool.insertRule root) grown
  filled.insert 0 (CodeUnits.ofString group.name) root

def build (rules : List Rule) : Except BuildError Bytes := do
  let rename ← (renameRules rules).foldlM (Pool.insertRule 0) Pool.new
  let replace ← (replaceGroups rules).foldlM Pool.insertGroup Pool.new
  assetBytes rename replace

end StyleRules.Table
