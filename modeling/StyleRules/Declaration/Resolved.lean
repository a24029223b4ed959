import StyleRules.Declaration.Scan
import StyleRules.Table.Resolve

/-!
# Resolved declarations

Which declarations a text holds does not depend on the rule table; the table only says, for each of
them, which rule applies.
-/

namespace StyleRules

structure Resolved where
  declaration : Declaration
  outcome : Table.Outcome
  deriving DecidableEq, Repr

namespace Resolved

def ofDeclaration (table : Table) (buffer : Buffer) (declaration : Declaration) : Resolved :=
  ⟨declaration, table.resolve (declaration.name.cut buffer) (declaration.value.cut buffer)⟩

/-- The declarations of a text with the rules that apply to them. -/
def ofText (table : Table) (text : CodeUnits) : List Resolved :=
  (Declaration.ofText text).map (ofDeclaration table text.toArray)

/-- The declarations of a text, as far as offsets reach, with the rules that apply to them. -/
def all (table : Table) (source : CodeUnits) : List Resolved := ofText table source.addressable

end Resolved

end StyleRules
