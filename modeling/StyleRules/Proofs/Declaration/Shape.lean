import StyleRules.Proofs.Declaration.Enclosed
import StyleRules.Proofs.Declaration.Layout

/-!
# The shape of declarations

The lexemes of a value are complete, begin and end with one that is no trivia, and keep every `;`,
`{` and `}` inside a block that they close. Behind the value there is trivia with one `!important`
in it, or trivia only, and perhaps a `;`. Every declaration has this shape
(`Resolved.hasShape_of_mem`).
-/

namespace StyleRules

open Lexeme (Run within)

variable {source : CodeUnits}

namespace Value

structure IsWhole (lexemes : List Lexeme) : Prop where
  ne_nil : lexemes ≠ []
  first : ∀ first, lexemes.head? = some first → first.isTrivia = false
  last : ∀ last, lexemes.getLast? = some last → last.isTrivia = false
  noError : ∀ lexeme ∈ lexemes, lexeme.kind ≠ .badString ∧ lexeme.kind ≠ .badUrl
  terminated : ∀ lexeme ∈ lexemes, lexeme.token.flags.unterminated = false
  encloses : Nesting.top.Encloses lexemes
  closes : (Nesting.top.behind lexemes).isTop = true

/-- A `!` and the word `important`, with trivia around and between them. -/
def IsImportantMark (lexemes : List Lexeme) : Prop :=
  ∃ gap bang gap' word trail, lexemes = gap ++ bang :: (gap' ++ word :: trail) ∧
    (∀ lexeme ∈ gap, lexeme.isTrivia = true) ∧ bang.isBang = true ∧
    (∀ lexeme ∈ gap', lexeme.isTrivia = true) ∧ word.isImportantWord = true ∧
    ∀ lexeme ∈ trail, lexeme.isTrivia = true

theorem IsImportantMark.not_isTrivia {lexemes : List Lexeme} (h : IsImportantMark lexemes) :
    ¬∀ lexeme ∈ lexemes, lexeme.isTrivia = true := by
  obtain ⟨gap, bang, gap', word, trail, rfl, -, hbang, -⟩ := h
  intro hall
  have htrivia := hall bang (by simp)
  exact absurd (htrivia.symm.trans (isNeutral_of_isBang hbang).2.1) (by decide)

/-- What stands behind the core of a value is a mark or trivia, as the value is important or not. -/
theorem Tail.isImportantMark_iff {tail mark trail : List Lexeme} {isImportant : Bool}
    (h : Tail tail mark trail isImportant) :
    (isImportant = true ↔ IsImportantMark tail) ∧
      (isImportant = false ↔ ∀ lexeme ∈ tail, lexeme.isTrivia = true) := by
  obtain rfl := h.split
  cases isImportant with
  | true =>
    obtain ⟨gap, bang, gap', word, rfl, hgap, hgap', hbang, hword⟩ := h.marked rfl
    have hmark : IsImportantMark (gap ++ bang :: (gap' ++ [word]) ++ trail) :=
      ⟨gap, bang, gap', word, trail, by simp, hgap, hbang, hgap', hword, h.trail⟩
    exact ⟨iff_of_true rfl hmark, iff_of_false (by decide) hmark.not_isTrivia⟩
  | false =>
    obtain rfl := h.unmarked rfl
    have htrivia : ∀ lexeme ∈ [] ++ trail, lexeme.isTrivia = true := h.trail
    exact ⟨iff_of_false (by decide) fun hmark => hmark.not_isTrivia htrivia,
      iff_of_true rfl htrivia⟩

end Value

/-- Trivia that does not reach the end of the text is no lexical error and is not cut off. -/
theorem Lexeme.StandsIn.isMalformed_of_isTrivia {lexeme : Lexeme} (h : lexeme.StandsIn source)
    (htrivia : lexeme.isTrivia = true) (hstop : lexeme.stop < source.length) :
    lexeme.isMalformed = false := by
  rw [← Bool.not_eq_true]
  intro hmalformed
  have hlength : lexeme.token.length = (source.drop lexeme.start).length := by
    rw [h.token]
    apply Token.length_read_of_malformed_trivia <;> rw [← h.token]
    · exact htrivia
    · exact hmalformed
  rw [List.length_drop] at hlength
  unfold Lexeme.stop at hstop
  omega

namespace Declaration

/-- The shape of a declaration on the lexemes of its text. The lexemes of the value, and those
behind it, leave no unit between the offsets out. -/
structure HasShape (source : CodeUnits) (declaration : Declaration) : Prop where
  run_value : Run source declaration.value.start
    (within declaration.value (Lexeme.ofText source)) declaration.value.stop
  value : Value.IsWhole (within declaration.value (Lexeme.ofText source))
  run_behind : Run source declaration.value.stop
    (within ⟨declaration.value.stop, declaration.semicolonEnd⟩ (Lexeme.ofText source))
    declaration.semicolonEnd
  behind : ∃ tail last,
    within ⟨declaration.value.stop, declaration.semicolonEnd⟩ (Lexeme.ofText source) =
        tail ++ last ∧
      (declaration.isImportant = true ↔ Value.IsImportantMark tail) ∧
      (declaration.isImportant = false ↔ ∀ lexeme ∈ tail, lexeme.isTrivia = true) ∧
      (last = [] ∨ ∃ semicolon, last = [semicolon] ∧ semicolon.kind = .semicolon)

variable {declaration : Declaration} {layout : Layout} {before : List Lexeme}

/-- Trivia inside a value has more of the value behind it, so the end of the text does not cut it
off. -/
theorem Layout.Fits.isMalformed_value (h : layout.Fits source declaration) :
    ∀ lexeme ∈ layout.value, lexeme.isMalformed = false := by
  intro lexeme hmem
  cases htrivia : lexeme.isTrivia with
  | false =>
    apply h.parts.complete lexeme ?_ htrivia
    rw [h.parts.split]
    exact List.mem_append_left _ (List.mem_append_right _ hmem)
  | true =>
    obtain ⟨front, back, hvalue⟩ := List.append_of_mem hmem
    have hback : back ≠ [] := by
      rintro rfl
      have hlast := h.parts.last lexeme (by rw [hvalue, List.getLast?_concat])
      exact absurd (htrivia.symm.trans hlast) (by decide)
    have hrun := h.run_value
    rw [hvalue] at hrun
    obtain ⟨_, -, hrest⟩ := Run.append_iff.mp hrun
    obtain ⟨-, hstands, hbehind⟩ := Run.cons_iff.mp hrest
    exact hstands.isMalformed_of_isTrivia htrivia
      (Nat.lt_of_lt_of_le (hbehind.lt_of_ne_nil hback) h.value_stop_le)

theorem Layout.Fits.isWhole_value (h : layout.Fits source declaration) :
    Value.IsWhole layout.value := by
  obtain ⟨hencloses, hbehind⟩ := Nesting.walk?_eq_some_iff.mp (h.parts.walk_core h.walk)
  have hgood : ∀ lexeme ∈ layout.value,
      lexeme.kind.isError = false ∧ lexeme.token.flags.unterminated = false := fun lexeme hmem =>
    Bool.or_eq_false_iff.mp (h.isMalformed_value lexeme hmem)
  exact
    { ne_nil := h.parts.ne_nil
      first := h.parts.first
      last := h.parts.last
      noError := fun lexeme hmem => by
        simpa [Token.Kind.isError] using (hgood lexeme hmem).1
      terminated := fun lexeme hmem => (hgood lexeme hmem).2
      encloses := hencloses
      closes := by rw [hbehind]; rfl }

/-- A declaration that is laid out on the lexemes of its text has the shape of one. -/
theorem Layout.Fits.hasShape (h : layout.Fits source declaration)
    (hbefore : Run source 0 before declaration.name.start) : declaration.HasShape source := by
  have hname := hbefore.append (h.run_name.append h.run_heading)
  have hvalue := hname.within_ofText h.run_value
  obtain ⟨last, hlast, hsemicolon⟩ := h.exists_end
  have hbehindRun := h.run_tail.append hlast
  have hbehind := (hname.append h.run_value).within_ofText hbehindRun
  obtain ⟨himportant, hplain⟩ := h.tail.isImportantMark_iff
  exact
    { run_value := by rw [hvalue]; exact h.run_value
      value := by rw [hvalue]; exact h.isWhole_value
      run_behind := by rw [hbehind]; exact hbehindRun
      behind := ⟨_, last, hbehind, himportant, hplain, hsemicolon⟩ }

end Declaration

namespace Resolved

open CodeUnits (ofString)

/-- Every declaration of a text has the shape of one, whatever the table. -/
theorem hasShape_of_mem {table : Table} {resolved : Resolved} (h : resolved ∈ all table source) :
    resolved.declaration.HasShape source.addressable := by
  obtain ⟨declaration, hmem, rfl⟩ := List.mem_map.mp h
  obtain ⟨layout, hfits, before, hbefore⟩ := Declaration.exists_layout_of_mem hmem
  exact hfits.hasShape hbefore

/-- A function with separators in it, a comment and a word make the value; its `!important` stands
between a comment and the `;`. -/
theorem hasShape_of_blocks :
    let source := ofString "a: f(;[\x7d]\x7b;\x7d)/*;*/ b/**/! important ;c:d"
    let resolved : Resolved := ⟨⟨⟨0, 1⟩, ⟨3, 20⟩, true, 37⟩, .none⟩
    resolved ∈ all .empty source ∧ resolved.declaration.HasShape source := by
  intro source resolved
  have hsource : source.addressable = source := CodeUnits.addressable_of_length_le (by decide)
  have hall : all .empty source =
      [resolved, ⟨⟨⟨37, 38⟩, ⟨39, 40⟩, false, 40⟩, .none⟩] := by decide +kernel
  have hmem : resolved ∈ all .empty source := by
    rw [hall]
    exact List.mem_cons_self
  have hshape := hasShape_of_mem hmem
  rw [hsource] at hshape
  exact ⟨hmem, hshape⟩

end Resolved

end StyleRules
