import StyleRules.Declaration.Resolved
import StyleRules.Report.Format
import StyleRules.Text.Tsv

/-!
# Reports of declarations
-/

namespace StyleRules.Report

/-- A text with spaces behind it up to `width` characters. -/
def padded (width : Nat) (text : String) : String := text.pushn ' ' (width - text.length)

def declarationLine (buffer : Buffer) (resolved : Resolved) : String :=
  let declaration := resolved.declaration
  let range : Span := ⟨declaration.name.start, declaration.semicolonEnd⟩
  padded 12 range.text ++ " " ++ (declaration.name.cut buffer).toText ++ ": " ++
    (declaration.value.cut buffer).toText ++
    (if declaration.isImportant then " !important" else "") ++ "  " ++ resolved.outcome.text ++
    "\n"

def declarationFields (buffer : Buffer) (resolved : Resolved) : List String :=
  let declaration := resolved.declaration
  [toString declaration.name.start, toString declaration.value.stop,
    toString resolved.outcome.id.toNat, toString declaration.semicolonEnd,
    if declaration.isImportant then "1" else "0",
    Tsv.escape (declaration.name.cut buffer).toText,
    Tsv.escape (declaration.value.cut buffer).toText]

def declarationRow (buffer : Buffer) (resolved : Resolved) : String :=
  "\t".intercalate (declarationFields buffer resolved) ++ "\n"

def declarationHeader : String :=
  "start\tend\trule_id\tsemicolon_end\tis_important\tname\tvalue\n"

def declarations (format : Format) (table : Table) (source : CodeUnits) : String :=
  let buffer := source.addressable.toArray
  let resolved := Resolved.all table source
  match format with
  | .text => String.join (resolved.map (declarationLine buffer))
  | .tsv => declarationHeader ++ String.join (resolved.map (declarationRow buffer))

end StyleRules.Report
