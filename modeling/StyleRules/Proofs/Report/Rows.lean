import Mathlib.Data.List.Basic
import StyleRules.Proofs.Expansion.WellFormed

/-!
# Reading a report back

The report of declarations as fields says all that a scan found. Its lines are those of the
declarations, each with seven fields; the numbers are read as decimals, and undoing the escapes of
a name and a value gives the texts of the parts back (`Report.rows_declarations`).
-/

namespace StyleRules

/-! ## Fields -/

namespace Tsv

/-- What stands before, between and behind the places of `separator` in a text. -/
def splitAt (separator : Char) (text : String) : List String :=
  (text.toList.splitOn separator).map String.ofList

def lines (text : String) : List String := splitAt '\n' text

def fields (line : String) : List String := splitAt '\t' line

theorem splitAt_intercalate {separator : Char} {parts : List String} (hne : parts ≠ [])
    (h : ∀ part ∈ parts, separator ∉ part.toList) :
    splitAt separator ((String.singleton separator).intercalate parts) = parts := by
  have hparts : ∀ part ∈ parts.map String.toList, separator ∉ part := by
    simpa using h
  have hne' : parts.map String.toList ≠ [] := by simpa using hne
  rw [splitAt, String.toList_intercalate, String.toList_singleton,
    List.splitOn_intercalate _ hparts hne', List.map_map]
  simp [Function.comp_def]

theorem splitAt_ended {separator : Char} {parts : List String}
    (h : ∀ part ∈ parts, separator ∉ part.toList) :
    splitAt separator (String.join (parts.map fun part => part ++ String.singleton separator)) =
      parts ++ [""] := by
  induction parts with
  | nil => simp [splitAt]
  | cons part parts ih =>
    have hrest := ih fun other hmem => h other (List.mem_cons_of_mem _ hmem)
    unfold splitAt at hrest ⊢
    rw [List.map_cons, String.join_cons, String.toList_append, String.toList_append,
      String.toList_singleton, List.append_assoc, List.singleton_append,
      List.splitOn_append_cons_self_of_not_mem (h part List.mem_cons_self), List.map_cons, hrest,
      String.ofList_toList, List.cons_append]

/-! ## Escapes -/

def IsSeparator (c : Char) : Prop := c = '\t' ∨ c = '\n' ∨ c = '\r'

theorem notMem_escapeChar {c : Char} (hc : IsSeparator c) (d : Char) : c ∉ escapeChar d := by
  unfold escapeChar
  rcases hc with rfl | rfl | rfl <;>
  · repeat' split
    all_goals simp_all [eq_comm]

theorem notMem_escape {c : Char} (hc : IsSeparator c) (text : String) :
    c ∉ (escape text).toList := by
  rw [escape, String.toList_ofList, List.mem_flatMap]
  rintro ⟨d, -, hmem⟩
  exact notMem_escapeChar hc d hmem

theorem unescape_escape (text : String) : unescape (escape text) = text := by
  rw [unescape, escape, String.toList_ofList, unescapeChars_flatMap_escapeChar,
    String.ofList_toList]

def replaceChar (c : Char) (replacement s : List Char) : List Char :=
  s.flatMap fun d => if d = c then replacement else [d]

/-- The escapes can be made one after the other, that of the backslash first. -/
theorem toList_escape (text : String) :
    (escape text).toList =
      replaceChar '\r' ['\\', 'r'] (replaceChar '\n' ['\\', 'n'] (replaceChar '\t' ['\\', 't']
        (replaceChar '\\' ['\\', '\\'] text.toList))) := by
  rw [escape, String.toList_ofList, replaceChar, replaceChar, replaceChar, replaceChar,
    List.flatMap_assoc, List.flatMap_assoc, List.flatMap_assoc]
  refine List.flatMap_congr fun c _ => ?_
  unfold escapeChar
  repeat' split
  all_goals simp_all

/-! ## Numbers -/

/-- The number that a text spells in decimal digits. -/
def decimal? (text : String) : Option Nat :=
  if text != "" && text.toList.all Char.isDigit then some (Nat.ofDigitChars 10 text.toList 0)
  else none

theorem decimal?_toString (n : Nat) : decimal? (toString n) = some n := by
  have hdigits : toString n = String.ofList (Nat.toDigits 10 n) := Nat.toString_eq_ofList_toDigits
  have hne : toString n ≠ "" := Nat.repr_ne_empty
  unfold decimal?
  rw [if_pos, hdigits, String.toList_ofList, Nat.ofDigitChars_toDigits (by decide) (by decide)]
  rw [Bool.and_eq_true, bne_iff_ne, List.all_eq_true, hdigits, String.toList_ofList, ← hdigits]
  exact ⟨hne, fun c hmem => Nat.isDigit_of_mem_toDigits (by decide) (by decide) hmem⟩

theorem notMem_toString {c : Char} (hc : IsSeparator c) (n : Nat) : c ∉ (toString n).toList := by
  rw [Nat.toString_eq_ofList_toDigits, String.toList_ofList]
  intro hmem
  have hdigit := Nat.isDigit_of_mem_toDigits (by decide) (by decide) hmem
  rcases hc with rfl | rfl | rfl <;> exact absurd hdigit (by decide)

end Tsv

/-! ## Rows -/

namespace Report

structure Row where
  start : Nat
  /-- Just past the value. -/
  stop : Nat
  ruleId : Nat
  semicolonEnd : Nat
  /-- The number `1` for an important declaration and `0` for any other. -/
  importance : Nat
  name : String
  value : String
  deriving DecidableEq, Repr

namespace Row

def ofLine? (line : String) : Option Row :=
  match Tsv.fields line with
  | [start, stop, ruleId, semicolonEnd, importance, name, value] => do
    some
      { start := ← Tsv.decimal? start
        stop := ← Tsv.decimal? stop
        ruleId := ← Tsv.decimal? ruleId
        semicolonEnd := ← Tsv.decimal? semicolonEnd
        importance := ← Tsv.decimal? importance
        name := Tsv.unescape name
        value := Tsv.unescape value }
  | _ => none

def ofResolved (source : CodeUnits) (resolved : Resolved) : Row :=
  let declaration := resolved.declaration
  { start := declaration.name.start
    stop := declaration.value.stop
    ruleId := resolved.outcome.id.toNat
    semicolonEnd := declaration.semicolonEnd
    importance := if declaration.isImportant then 1 else 0
    name := (declaration.name.slice source).toText
    value := (declaration.value.slice source).toText }

end Row

variable {source : CodeUnits} {resolved : Resolved}

def rowText (buffer : Buffer) (resolved : Resolved) : String :=
  "\t".intercalate (declarationFields buffer resolved)

theorem notMem_declarationFields {c : Char} (hc : Tsv.IsSeparator c) (buffer : Buffer)
    (resolved : Resolved) : ∀ field ∈ declarationFields buffer resolved, c ∉ field.toList := by
  have hmark : c ∉ (if resolved.declaration.isImportant then "1" else "0").toList := by
    rcases hc with rfl | rfl | rfl <;> split <;> decide
  unfold declarationFields
  simp only [List.mem_cons, List.not_mem_nil, or_false, forall_eq_or_imp, forall_eq]
  exact ⟨Tsv.notMem_toString hc _, Tsv.notMem_toString hc _, Tsv.notMem_toString hc _,
    Tsv.notMem_toString hc _, hmark, Tsv.notMem_escape hc _, Tsv.notMem_escape hc _⟩

theorem fields_rowText (buffer : Buffer) (resolved : Resolved) :
    Tsv.fields (rowText buffer resolved) = declarationFields buffer resolved :=
  Tsv.splitAt_intercalate (List.cons_ne_nil _ _)
    (notMem_declarationFields (.inl rfl) buffer resolved)

theorem notMem_rowText (buffer : Buffer) (resolved : Resolved) :
    '\n' ∉ (rowText buffer resolved).toList :=
  Text.notMem_intercalate (by decide) (notMem_declarationFields (.inr (.inl rfl)) buffer resolved)

def columns : List String :=
  ["start", "end", "rule_id", "semicolon_end", "is_important", "name", "value"]

theorem ofLine?_rowText (source : CodeUnits) (resolved : Resolved) :
    Row.ofLine? (rowText source.toArray resolved) = some (Row.ofResolved source resolved) := by
  have hmark : Tsv.decimal? (if resolved.declaration.isImportant then "1" else "0") =
      some (if resolved.declaration.isImportant then 1 else 0) := by
    split
    · exact Tsv.decimal?_toString 1
    · exact Tsv.decimal?_toString 0
  unfold Row.ofLine?
  rw [fields_rowText]
  simp only [declarationFields, Tsv.decimal?_toString, hmark, Tsv.unescape_escape,
    Span.cut_toArray]
  rfl

/-- The report of a text, split into lines and these into fields, tells for each declaration what
there is to be told of it, in order, and nothing else: below the names of the columns stands one
line for each declaration, and the last line is complete. Where what is read of the text is
well-formed, its names and values are told unit by unit. -/
theorem rows_declarations (table : Table) (source : CodeUnits) :
    (∃ header rows, Tsv.lines (declarations .tsv table source) = header :: (rows ++ [""]) ∧
      Tsv.fields header = columns ∧
      rows.map Row.ofLine? =
        (Resolved.all table source).map fun resolved => some (Row.ofResolved source resolved)) ∧
    (source.addressable.IsWellFormed → ∀ resolved ∈ Resolved.all table source,
      CodeUnits.ofString (Row.ofResolved source resolved).name =
          resolved.declaration.name.slice source ∧
        CodeUnits.ofString (Row.ofResolved source resolved).value =
          resolved.declaration.value.slice source) := by
  have hparts : ∀ resolved ∈ Resolved.all table source,
      Row.ofResolved source.addressable resolved = Row.ofResolved source resolved := by
    intro resolved hmem
    obtain ⟨hname, hvalue⟩ := Resolved.slice_addressable hmem
    rw [Row.ofResolved, Row.ofResolved, hname, hvalue]
  constructor
  · let header := "\t".intercalate columns
    let rows := (Resolved.all table source).map (rowText source.addressable.toArray)
    have hreport : declarations .tsv table source =
        String.join ((header :: rows).map fun line => line ++ String.singleton '\n') := by
      show declarationHeader ++ String.join _ = _
      rw [List.map_cons, String.join_cons, List.map_map]
      rfl
    have hends : ∀ line ∈ header :: rows, '\n' ∉ line.toList := by
      intro line hline
      rcases List.mem_cons.mp hline with rfl | hline
      · decide
      · obtain ⟨resolved, -, rfl⟩ := List.mem_map.mp hline
        exact notMem_rowText source.addressable.toArray resolved
    refine ⟨header, rows, ?_, Tsv.splitAt_intercalate (by decide) (by decide), ?_⟩
    · rw [Tsv.lines, hreport, Tsv.splitAt_ended hends, List.cons_append]
    · rw [List.map_map]
      refine List.map_congr_left fun resolved hmem => ?_
      rw [Function.comp_apply, ofLine?_rowText, hparts resolved hmem]
  · intro hsource resolved hmem
    rw [← hparts resolved hmem, ← (Resolved.slice_addressable hmem).1,
      ← (Resolved.slice_addressable hmem).2]
    obtain ⟨declaration, hdeclaration, rfl⟩ := List.mem_map.mp hmem
    obtain ⟨hname, hvalue⟩ := Declaration.isDrawn_of_mem hdeclaration hsource
    exact ⟨hname.isText.ofString_toText, hvalue.isText.ofString_toText⟩

/-- A name that ends with an escaped tab, behind an escape that takes a line feed; a value with a
backslash before a letter and a carriage return. -/
theorem rows_declarations_of_separators :
    let source := CodeUnits.ofString "\\61\n\\\t:'\\n'/*\r*/b!important;c:d"
    (∃ header rows, Tsv.lines (declarations .tsv .empty source) = header :: (rows ++ [""]) ∧
        Tsv.fields header = columns ∧
        rows.map Row.ofLine? =
          [some ⟨0, 17, 0, 28, 1, "\\61\n\\\t", "'\\n'/*\r*/b"⟩,
            some ⟨28, 31, 0, 31, 0, "c", "d"⟩]) ∧
      (CodeUnits.addressable source).IsWellFormed ∧
      ∀ resolved ∈ Resolved.all .empty source,
        CodeUnits.ofString (Row.ofResolved source resolved).name =
          resolved.declaration.name.slice source := by
  intro source
  have hsource : (CodeUnits.addressable source).IsWellFormed := by
    rw [CodeUnits.addressable_of_length_le (by decide)]
    exact CodeUnits.isWellFormed_ofString _
  obtain ⟨⟨header, rows, hlines, hcolumns, hrows⟩, hunits⟩ := rows_declarations .empty source
  refine ⟨⟨header, rows, hlines, hcolumns, ?_⟩, hsource, fun resolved hmem =>
    (hunits hsource resolved hmem).1⟩
  rw [hrows]
  decide +kernel

end Report

end StyleRules
