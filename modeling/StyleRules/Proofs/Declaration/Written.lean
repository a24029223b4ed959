import StyleRules.Proofs.Declaration.Cut

/-!
# Declarations in the pieces of a text

The pieces of a text tell where its declarations are: a name, a colon and the body of a value up to
a `;` make a declaration (`Declaration.ofText_of_pieces`), and what is behind the `;` is read as a
text of its own.
-/

namespace StyleRules

open Lexeme (Run loosen pieces)

variable {text rest value : CodeUnits} {isImportant : Bool} {i j : Nat}

/-- A value that begins with its body starts there and reaches as far as its text. -/
theorem Value.ofBody?_of_text? {body : List Lexeme} (hrun : Run text i body j)
    (hfirst : ∀ first, body.head? = some first → first.isTrivia = false)
    (htext : text? body = some (value, isImportant)) :
    ofBody? body = some ⟨⟨i, i + value.length⟩, isImportant⟩ ∧
      Span.slice ⟨i, i + value.length⟩ text = value := by
  rw [text?_eq_map hrun] at htext
  obtain ⟨found, hfound, heq⟩ := Option.map_eq_some_iff.mp htext
  obtain ⟨hslice, himportant⟩ := Prod.mk.inj heq
  obtain ⟨lead, core, tail, first, last, hparts, hhead, hlast, hspan⟩ := parts_of_ofBody? hfound
  have hlead : lead = [] := by
    cases hlead : lead with
    | nil => rfl
    | cons lexeme lead =>
      have htrivia := hparts.lead lexeme (by rw [hlead]; exact List.mem_cons_self)
      have hsignificant := hfirst lexeme (by rw [hparts.split, hlead]; rfl)
      exact absurd (htrivia.symm.trans hsignificant) (by decide)
  rw [hparts.split, hlead, List.nil_append] at hrun
  obtain ⟨k, hcore, -⟩ := Run.append_iff.mp hrun
  obtain ⟨rfl, rfl, hcover⟩ := hcore.span_slice hhead hlast
  have hlength := hcore.length_units
  rw [← hcover, ← hspan, hslice] at hlength
  rw [hlength]
  obtain ⟨span, important⟩ := found
  subst hspan himportant
  exact ⟨hfound, hslice⟩

/-- The lexemes of a name, a colon and the body of a value up to a `;` make a declaration. -/
theorem Declaration.ofLexemes_of_run {name colon last : Lexeme} {body left : List Lexeme}
    (hrun : Run text 0 (name :: colon :: (body ++ last :: left)) text.length)
    (hname : name.kind = .ident) (hcolon : colon.kind = .colon) (hlast : last.kind = .semicolon)
    (hwalk : Nesting.top.walk? body = some .top)
    (hfirst : ∀ first, body.head? = some first → first.isTrivia = false)
    (htext : Value.text? body = some (value, isImportant)) (size : Nat) :
    ∃ declaration : Declaration,
      ofLexemes size (name :: colon :: (body ++ last :: left)) =
        declaration :: ofLexemes size left ∧
      declaration = ⟨⟨0, name.units.length⟩, ⟨name.units.length + colon.units.length,
        name.units.length + colon.units.length + value.length⟩, isImportant, last.stop⟩ ∧
      declaration.reading text = ⟨name.units, value, isImportant⟩ := by
  obtain ⟨hstart, hstands, hcolonRun⟩ := Run.cons_iff.mp hrun
  obtain ⟨hcolonStart, hcolonStands, htailRun⟩ := Run.cons_iff.mp hcolonRun
  obtain ⟨k, hbodyRun, -⟩ := Run.append_iff.mp htailRun
  obtain ⟨hvalue, hslice⟩ := Value.ofBody?_of_text? hbodyRun hfirst htext
  have hnameStop : name.stop = name.units.length := by
    rw [hstands.length_units, Lexeme.stop]
    omega
  have hcolonStop : colon.stop = name.units.length + colon.units.length := by
    rw [hcolonStands.length_units, Lexeme.stop, ← hcolonStart, hnameStop]
  have hending : Ending.ofLexeme? last = some (.semicolon last.stop) := by
    unfold Ending.ofLexeme?
    rw [hlast]
  have hread : readStatement size name (colon :: (body ++ last :: left)) =
      (some ⟨name.span, ⟨colon.stop, colon.stop + value.length⟩, isImportant, last.stop⟩,
        left) := by
    have hblanks : ∀ lexeme ∈ ([] : List Lexeme), isBlank lexeme.kind = true := by simp
    have hstatement := readStatement_of_colon hname hblanks hcolon size (body ++ last :: left)
    rw [List.nil_append, Stretch.read_of_ending hwalk hending] at hstatement
    rw [hstatement, ofStretch?, hvalue]
    rfl
  refine ⟨_, ?_, rfl, ?_⟩
  · rw [ofLexemes, if_neg (by rw [hname]; decide), hread, Lexeme.span, ← hstart, hnameStop,
      hcolonStop]
    rfl
  · have hspan : Span.slice ⟨0, name.units.length⟩ text = name.units := by
      rw [← hnameStop, hstart]
      exact hstands.span_slice
    rw [reading, hspan, ← hcolonStop, hslice]

/-- A text that starts with a name, a colon and the body of a value up to a `;` holds the
declaration that these make, and the declarations of what is behind it. -/
theorem Declaration.ofText_of_pieces {name colon last : Lexeme} {body : List Lexeme} {stop : Nat}
    (hpieces : pieces text = name :: colon :: (body ++ last :: pieces rest))
    (hname : name.kind = .ident) (hcolon : colon.kind = .colon) (hlast : last.kind = .semicolon)
    (hwalk : Nesting.top.walk? body = some .top)
    (hfirst : ∀ first, body.head? = some first → first.isTrivia = false)
    (htext : Value.text? body = some (value, isImportant))
    (hlength : text.length = stop + rest.length) :
    ∃ declaration : Declaration,
      ofText text = declaration :: (ofText rest).map (raise stop) ∧
      declaration = ⟨⟨0, name.units.length⟩, ⟨name.units.length + colon.units.length,
        name.units.length + colon.units.length + value.length⟩, isImportant, stop⟩ ∧
      declaration.reading text = ⟨name.units, value, isImportant⟩ := by
  obtain ⟨name, afterName, hall, rfl, hafterName⟩ := List.map_eq_cons_iff.mp hpieces
  obtain ⟨colon, afterColon, rfl, rfl, hafterColon⟩ := List.map_eq_cons_iff.mp hafterName
  obtain ⟨body, afterBody, rfl, rfl, hafterBody⟩ := List.map_eq_append_iff.mp hafterColon
  obtain ⟨last, left, rfl, rfl, hleft⟩ := List.map_eq_cons_iff.mp hafterBody
  rw [Nesting.walk?_map_loosen] at hwalk
  rw [Value.text?_map_loosen] at htext
  have hbodyFirst : ∀ first, body.head? = some first → first.isTrivia = false := by
    intro first h
    exact hfirst first.loosen (by rw [List.head?_map, h]; rfl)
  have hrun := Lexeme.run_ofText text
  rw [hall] at hrun
  obtain ⟨-, -, hcolonRun⟩ := Run.cons_iff.mp hrun
  obtain ⟨-, -, htailRun⟩ := Run.cons_iff.mp hcolonRun
  obtain ⟨_, -, hlastRun⟩ := Run.append_iff.mp htailRun
  obtain ⟨-, hlastStands, hleftRun⟩ := Run.cons_iff.mp hlastRun
  -- What is behind the `;` is the rest of the text.
  have hrest : text.drop last.stop = rest := by
    rw [hleftRun.drop_eq, List.drop_length, List.append_nil, ← Lexeme.units_map_loosen, hleft,
      Lexeme.units_pieces]
  have hstop : last.stop = stop := by
    have hdrop := congrArg List.length hrest
    have := hlastStands.stop_le
    rw [List.length_drop] at hdrop
    omega
  obtain ⟨declaration, hfound, hplace, hreading⟩ :=
    ofLexemes_of_run hrun hname hcolon hlast hwalk hbodyFirst htext text.length
  rw [hstop] at hplace
  refine ⟨declaration, ?_, hplace, hreading⟩
  rw [ofText, hall, hfound, hleftRun.eq_map_raise, hrest, hstop, hlength,
    ofLexemes_map (Lexeme.moves_raise stop), ofText]

end StyleRules
