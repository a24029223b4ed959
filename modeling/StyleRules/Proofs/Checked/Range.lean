import StyleRules.Proofs.Checked.Report
import StyleRules.Proofs.Checked.Rewrite
import StyleRules.Proofs.Table.Traced

/-!
# No arithmetic leaves its type

A text whose length is a word is read, scanned, reported and rewritten without a sum, a product or a
difference that leaves its type and without a span that ends before it starts, whatever the rules
are. The words that a lookup reads lie within the bytes of the table, and so their offsets are
addresses.
-/

namespace StyleRules

/-- The ranges of a declaration that are written down: its name and its value, from the name through
the value, and from the name through the end of the statement. -/
def Declaration.spans (declaration : Declaration) : List Span :=
  [declaration.name, declaration.value, declaration.fullSpan,
    ⟨declaration.name.start, declaration.semicolonEnd⟩]

namespace Checked

/-- The offset of word `i` of node `index`, of which all four bytes are within the table. -/
def wordOffset? (bytes : Bytes) (index : UInt32) (i : Nat) : Option Nat := do
  let node ← mul? .size index.toNat Table.Node.byteCount
  let offset ← add? .size node (← mul? .size i 4)
  let stop ← add? .size offset 4
  if stop ≤ bytes.length then return offset else none

structure Ordered (size : Nat) (span : Span) : Prop where
  span?_eq : span? span.start span.stop = some span
  spanLength?_eq : spanLength? span = some span.length
  stop_le : span.stop ≤ size

/-- Whatever is computed for a text is what it would be without bounds on numbers. -/
structure InRange (source : CodeUnits) : Prop where
  /-- A token, wherever it is read, and the cursor behind it. -/
  next : ∀ cursor : Cursor, cursor.source = source → next? cursor = some cursor.next
  /-- A code point of a name, wherever it was cut out. -/
  decode : ∀ start stop i, i < (source.slice start stop).length →
    decode? (source.slice start stop) i =
      some ((Name.decode ((source.slice start stop).drop i)).code,
        i + (Name.decode ((source.slice start stop).drop i)).length)
  scan : ∀ table, scan? table source = some (Resolved.all table source)
  rewrite : ∀ rules, rewrite? rules source = some (ExpandedStyle.ofUnits rules source)
  tokens : ∀ format, tokens? format source = some (Report.tokens format source)
  declarations : ∀ format table,
    declarations? format table source = some (Report.declarations format table source)
  lexeme_spans : ∀ lexeme ∈ Lexeme.all source, Ordered source.length lexeme.span
  declaration_spans : ∀ table, ∀ resolved ∈ Resolved.all table source,
    ∀ span ∈ resolved.declaration.spans, Ordered source.length span
  /-- The words that a lookup reads, in the bytes of any table. -/
  lookup : ∀ bytes root key, ∀ offset ∈ (Table.Traced.lookup bytes root key).offsets,
    ∃ index i, wordOffset? bytes index i = some offset

theorem ordered_of_le {size : Nat} {span : Span} (hle : span.start ≤ span.stop)
    (hstop : span.stop ≤ size) : Ordered size span :=
  ⟨span?_eq hle, spanLength?_eq hle, hstop⟩

theorem ordered_spans {source : CodeUnits} {declaration : Declaration}
    (h : declaration.IsSound source) {span : Span} (hspan : span ∈ declaration.spans) :
    Ordered source.length span := by
  have hname := h.name_lt
  have hcolon := h.name_lt_value
  have hvalue := h.value_lt
  have hstop := h.value_le
  have hend := h.end_le
  simp only [Declaration.spans, List.mem_cons, List.not_mem_nil, or_false] at hspan
  rcases hspan with rfl | rfl | rfl | rfl
  · exact ordered_of_le (Nat.le_of_lt hname) (by omega)
  · exact ordered_of_le (Nat.le_of_lt hvalue) (by omega)
  · exact ordered_of_le h.start_le (Nat.le_trans hstop hend)
  · exact ordered_of_le (Nat.le_trans h.start_le hstop) hend

theorem wordOffset?_eq {bytes : Bytes} {index : UInt32} {i : Nat}
    (hindex : index.toNat < Table.nodeCount bytes) (hi : i < Table.Node.wordCount) :
    wordOffset? bytes index i = some (Table.wordOffset index i) := by
  obtain ⟨hinside, hnodes⟩ := Table.wordOffset_le hindex hi
  have hword : index.toNat < 4294967296 := index.toNat_lt
  have hsize : Width.size.max = 18446744073709551615 := rfl
  unfold Table.wordOffset Table.Node.byteCount Table.Node.wordCount at *
  have hnode : mul? .size index.toNat (57 * 4) = some (index.toNat * (57 * 4)) :=
    mul?_eq (by omega)
  have hplace : mul? .size i 4 = some (4 * i) := by
    rw [Nat.mul_comm 4 i]
    exact mul?_eq (by omega)
  have hsum : add? .size (index.toNat * (57 * 4)) (4 * i) =
      some (index.toNat * (57 * 4) + 4 * i) := add?_eq (by omega)
  have hstop : add? .size (index.toNat * (57 * 4) + 4 * i) 4 =
      some (index.toNat * (57 * 4) + 4 * i + 4) := add?_eq (by omega)
  unfold wordOffset? Table.Node.byteCount Table.Node.wordCount
  rw [hnode, hplace]
  simp only [Option.bind_eq_bind, Option.bind_some, hsum, hstop]
  exact if_pos (by omega)

/-- Nothing that is computed for a text whose length is a word leaves its type. -/
theorem inRange_of_length_le {source : CodeUnits} (hlength : source.length ≤ Width.word.max) :
    InRange source where
  next := by
    rintro cursor rfl
    exact next?_eq cursor
  decode := by
    intro start stop i hi
    have hshort : (source.slice start stop).length ≤ Width.word.max := by
      rw [CodeUnits.length_slice]
      omega
    exact decode?_eq (by have := word_le_size hshort; omega) hi
  scan := scan?_eq hlength
  rewrite := rewrite?_eq hlength
  tokens := tokens?_eq hlength
  declarations := declarations?_eq hlength
  lexeme_spans := by
    intro lexeme hmem
    rw [Lexeme.all, CodeUnits.addressable_of_length_le hlength] at hmem
    have hstands := (Lexeme.run_ofText source).stands hmem
    exact ordered_of_le (Nat.le_of_lt hstands.start_lt_stop) hstands.stop_le
  declaration_spans := by
    intro table resolved hmem span hspan
    rw [Resolved.all, CodeUnits.addressable_of_length_le hlength] at hmem
    exact ordered_spans (Resolved.isSound_declaration hmem) hspan
  lookup := by
    intro bytes root key offset hmem
    obtain ⟨index, i, hindex, hi, rfl⟩ :=
      (Table.Traced.reads_lookup bytes root key).placed offset hmem
    exact ⟨index, i, wordOffset?_eq hindex hi⟩

theorem inRange_important :
    (CodeUnits.ofString "flex: rgb(1) !important;").length ≤ Width.word.max ∧
      InRange (CodeUnits.ofString "flex: rgb(1) !important;") :=
  ⟨by decide, inRange_of_length_le (by decide)⟩

end Checked

end StyleRules
