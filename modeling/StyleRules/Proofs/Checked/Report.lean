import StyleRules.Proofs.Checked.Scan
import StyleRules.Proofs.Declaration.Soundness
import StyleRules.Report.Declarations
import StyleRules.Report.Tokens

/-!
# Reports in checked steps

A report of tokens adds the lengths of the tokens up to their places. A report of declarations
writes, as text, the range from the name through the end of the statement and, as fields, that of
the name and the value; both are in order.
-/

namespace StyleRules.Checked

/-! ## Tokens -/

def lexemesLoop? : Nat → Cursor → Nat → Option (List Lexeme)
  | 0, _, _ => none
  | left + 1, cursor, start => do
    let (token, behind) ← next? cursor
    if token.kind = .eof then return []
    else
      let span ← span? start (← add? .word start token.length)
      let lexeme : Lexeme := ⟨span.start, token, span.slice cursor.source⟩
      return lexeme :: (← lexemesLoop? left behind span.stop)

def lexemes? (source : CodeUnits) : Option (List Lexeme) :=
  lexemesLoop? (rounds source) (Cursor.ofUnits source) 0

def tokens? (format : Format) (source : CodeUnits) : Option String := do
  let lexemes ← lexemes? source
  match format with
  | .text => return String.join (lexemes.map Report.tokenLine)
  | .tsv => return Report.tokenHeader ++ String.join (lexemes.map Report.tokenRow)

/-! ## Declarations -/

def declarationLine? (source : CodeUnits) (resolved : Resolved) : Option String := do
  let declaration := resolved.declaration
  let range ← span? declaration.name.start declaration.semicolonEnd
  return Report.padded 12 range.text ++ " " ++ (declaration.name.slice source).toText ++ ": " ++
    (declaration.value.slice source).toText ++
    (if declaration.isImportant then " !important" else "") ++ "  " ++ resolved.outcome.text ++
    "\n"

def declarationRow? (source : CodeUnits) (resolved : Resolved) : Option String := do
  let declaration := resolved.declaration
  let range ← span? declaration.name.start declaration.value.stop
  return "\t".intercalate
    [toString range.start, toString range.stop, toString resolved.outcome.id.toNat,
      toString declaration.semicolonEnd, if declaration.isImportant then "1" else "0",
      Tsv.escape (declaration.name.slice source).toText,
      Tsv.escape (declaration.value.slice source).toText] ++ "\n"

def declarations? (format : Format) (table : Table) (source : CodeUnits) : Option String := do
  let resolved ← scan? table source
  match format with
  | .text => return String.join (← resolved.mapM (declarationLine? source))
  | .tsv =>
    return Report.declarationHeader ++ String.join (← resolved.mapM (declarationRow? source))

variable {source : CodeUnits} {lexemes : List Lexeme} {cursor : Cursor}

theorem lexemesLoop?_eq (hlength : source.length ≤ Width.word.max) {left : Nat}
    (hleft : lexemes.length ≤ left) (h : LexemesAhead source lexemes cursor) :
    lexemesLoop? (left + 1) cursor cursor.pos = some lexemes := by
  induction lexemes generalizing cursor left with
  | nil =>
    rw [lexemesLoop?, h.next?_nil]
    rfl
  | cons lexeme rest ih =>
    obtain ⟨left, rfl, hless⟩ := exists_round hleft
    obtain ⟨behind, hnext, hahead, hstop⟩ := h.next?_cons
    obtain ⟨hstart, hstands, -⟩ := Lexeme.Run.cons_iff.mp h.run
    have hle := Nat.le_of_lt hstands.start_lt_stop
    have hspan : span? lexeme.start lexeme.stop = some lexeme.span := span?_eq hle
    have hrest := ih hless hahead
    rw [show behind.pos = lexeme.span.stop from hstop] at hrest
    rw [lexemesLoop?, hnext, hstart, h.source_eq]
    simp only [Option.bind_eq_bind, Option.bind_some]
    rw [if_neg hstands.kind_ne_eof, stop?_eq hlength hstands]
    simp only [Option.bind_some, hspan, hstands.span_slice, hrest]
    rfl

theorem tokens?_eq (hlength : source.length ≤ Width.word.max) (format : Format) :
    tokens? format source = some (Report.tokens format source) := by
  have hall := LexemesAhead.ofUnits hlength
  have hlexemes : lexemes? source = some (Lexeme.all source) :=
    lexemesLoop?_eq hlength hall.length_le hall
  rw [tokens?, hlexemes]
  cases format <;> rfl

theorem mapM_eq_map {α β : Type} {f? : α → Option β} {f : α → β} {l : List α}
    (h : ∀ a ∈ l, f? a = some (f a)) : l.mapM f? = some (l.map f) := by
  induction l with
  | nil => rfl
  | cons a l ih =>
    rw [List.mapM_cons, h a List.mem_cons_self,
      ih fun b hmem => h b (List.mem_cons_of_mem a hmem)]
    rfl

theorem declarationLine?_eq {resolved : Resolved} (h : resolved.declaration.IsSound source) :
    declarationLine? source resolved = some (Report.declarationLine source.toArray resolved) := by
  have hle : resolved.declaration.name.start ≤ resolved.declaration.semicolonEnd :=
    Nat.le_trans h.start_le h.value_le
  unfold declarationLine? Report.declarationLine
  dsimp only
  rw [span?_eq hle, Span.cut_toArray, Span.cut_toArray]
  rfl

theorem declarationRow?_eq {resolved : Resolved} (h : resolved.declaration.IsSound source) :
    declarationRow? source resolved = some (Report.declarationRow source.toArray resolved) := by
  unfold declarationRow? Report.declarationRow Report.declarationFields
  dsimp only
  rw [span?_eq h.start_le, Span.cut_toArray, Span.cut_toArray]
  rfl

theorem declarations?_eq (hlength : source.length ≤ Width.word.max) (format : Format)
    (table : Table) :
    declarations? format table source = some (Report.declarations format table source) := by
  have hread : source.addressable = source := CodeUnits.addressable_of_length_le hlength
  unfold Report.declarations
  rw [declarations?, scan?_eq hlength, Resolved.all, hread]
  simp only [Option.bind_eq_bind, Option.bind_some]
  cases format with
  | text =>
    rw [mapM_eq_map fun resolved hmem => declarationLine?_eq (Resolved.isSound_declaration hmem)]
    rfl
  | tsv =>
    rw [mapM_eq_map fun resolved hmem => declarationRow?_eq (Resolved.isSound_declaration hmem)]
    rfl

end StyleRules.Checked
