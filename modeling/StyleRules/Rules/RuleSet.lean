import StyleRules.Rules.Bundled
import StyleRules.Table.Resolve

/-!
# Rule sets

A rule table tells which rule applies to a declaration by the number of the rule; a rule set also
knows what each number means. Rules are numbered from 1 in their order, renames first.
-/

namespace StyleRules

inductive Trigger where
  | onName (name : String)
  | onDeclaration (name value : String)
  deriving DecidableEq, Repr

namespace Trigger

def rule (id : Table.RuleId) : Trigger → Table.Rule
  | onName name => .rename name id
  | onDeclaration name value => .replace name value id

end Trigger

structure RuleSet where
  /-- The rule table as bytes. -/
  asset : Bytes
  /-- The action of rule `i + 1` is at index `i`. -/
  actions : List Action
  deriving DecidableEq

namespace RuleSet

def configured (renames : List (String × String))
    (replaces : List (String × List (String × Replacement))) : List (Trigger × Action) :=
  (renames.map fun rule => (.onName rule.1, .rename rule.2)) ++
    replaces.flatMap fun group =>
      group.2.map fun rule => (.onDeclaration group.1 rule.1, .replace rule.2)

/-- The number of the rule at `index`; numbers stop at the largest word. -/
def idAt (index : Nat) : Table.RuleId := UInt32.ofNat (min (index + 1) (Word.count - 1))

def tableRules (rules : List (Trigger × Action)) : List Table.Rule :=
  rules.zipIdx.map fun rule => rule.1.1.rule (idAt rule.2)

def build (renames : List (String × String))
    (replaces : List (String × List (String × Replacement))) :
    Except Table.BuildError RuleSet := do
  let rules := configured renames replaces
  let asset ← Table.build (tableRules rules)
  .ok ⟨asset, rules.map Prod.snd⟩

def bundled : Except Table.BuildError RuleSet := build Bundled.renames Bundled.replaces

def table (rules : RuleSet) : Table := Table.ofBytes rules.asset

/-- The action of a rule; the number `0` and numbers without a rule have none. -/
def action? (rules : RuleSet) (id : Table.RuleId) : Option Action :=
  if id = 0 then none else rules.actions[id.toNat - 1]?

def size (rules : RuleSet) : Nat := rules.actions.length

def isEmpty (rules : RuleSet) : Bool := rules.actions.isEmpty

end RuleSet

end StyleRules
