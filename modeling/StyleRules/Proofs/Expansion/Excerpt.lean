import StyleRules.Proofs.Expansion.Site
import StyleRules.Proofs.Token.Names

/-!
# Names and values read alone

A host that cuts the name or the value of a declaration out of its text reads the tokens there that
the text has in that place. A value ends with a token that is complete, before trivia or what ends
the declaration, and a name ends before its colon: none of their tokens needs what is behind them.
-/

namespace StyleRules

open Lexeme (Run within pieces)

variable {source : CodeUnits}

/-- The units of a span, read alone, have the tokens that the whole text has within the span, and
these tokens fill the span. -/
structure Span.StandsAlone (source : CodeUnits) (span : Span) : Prop where
  run : Run source.addressable span.start (within span (Lexeme.all source)) span.stop
  tokens : Token.all (span.slice source) = (within span (Lexeme.all source)).map Lexeme.token

/-- What is cut out of the part of a text that is read can itself be read to its end. -/
theorem Span.standsAlone_of_run {span : Span} {lexemes : List Lexeme}
    (hwithin : within span (Lexeme.all source) = lexemes)
    (hrun : Run source.addressable span.start lexemes span.stop)
    (hstop : span.stop ≤ CodeUnits.maxLength)
    (htokens : Token.ofText (span.slice source.addressable) = lexemes.map Lexeme.token) :
    span.StandsAlone source := by
  have hread : (span.slice source).addressable = span.slice source :=
    CodeUnits.addressable_of_length_le (Nat.le_trans (span.length_slice_le source) hstop)
  subst hwithin
  refine ⟨hrun, ?_⟩
  rw [Token.all, hread, ← span.slice_addressable source hstop]
  exact htokens

theorem Lexeme.StandsIn.tokens_of_ident {lexeme : Lexeme} (h : lexeme.StandsIn source)
    (hkind : lexeme.kind = .ident) : Token.ofText lexeme.units = [lexeme.token] := by
  have hread : Token.read lexeme.units = lexeme.token := by
    rw [Lexeme.kind, h.token] at hkind
    rw [h.units, h.token]
    exact Token.read_take_of_ident hkind
  rw [Token.ofText_of_ne_nil h.units_ne_nil, hread, ← h.length_units, List.drop_length,
    Token.ofText]

namespace Declaration.Layout.Fits

variable {declaration : Declaration} {layout : Layout} {before : List Lexeme}

theorem tokens_value (h : layout.Fits source declaration) :
    Token.ofText (declaration.value.slice source) = layout.value.map Lexeme.token := by
  rw [h.slice_value, ← Lexeme.tokens_pieces, h.placed.pieces_core, List.map_map]
  rfl

theorem standsAlone_value (h : layout.Fits source.addressable declaration)
    (hbefore : Run source.addressable 0 before declaration.name.start)
    (hstop : declaration.value.stop ≤ CodeUnits.maxLength) :
    declaration.value.StandsAlone source :=
  have hheading := hbefore.append (h.run_name.append h.run_heading)
  Span.standsAlone_of_run (hheading.within_ofText h.run_value) h.run_value hstop h.tokens_value

theorem standsAlone_name (h : layout.Fits source.addressable declaration)
    (hbefore : Run source.addressable 0 before declaration.name.start)
    (hstop : declaration.name.stop ≤ CodeUnits.maxLength) :
    declaration.name.StandsAlone source ∧
      within declaration.name (Lexeme.all source) = [layout.name] := by
  have hwithin := hbefore.within_ofText h.run_name
  have hspan : layout.name.span = declaration.name := by
    obtain ⟨hstart, -, hrest⟩ := Run.cons_iff.mp h.run_name
    rw [Lexeme.span, ← hstart, hrest.eq_of_nil]
  have hstands := h.run_name.stands (List.mem_singleton.mpr rfl)
  refine ⟨Span.standsAlone_of_run hwithin h.run_name hstop ?_, hwithin⟩
  rw [← hspan, hstands.span_slice]
  exact hstands.tokens_of_ident h.name_kind

end Declaration.Layout.Fits

namespace Resolved

open CodeUnits (ofString)

variable {table : Table} {resolved : Resolved}

/-- The name and the value of a declaration are read alone as they are read in their text, and the
name is one identifier with the flags that it has there. -/
theorem standsAlone_of_mem (h : resolved ∈ all table source) :
    resolved.declaration.value.StandsAlone source ∧
      resolved.declaration.name.StandsAlone source ∧
      ∃ name : Lexeme, within resolved.declaration.name (Lexeme.all source) = [name] ∧
        name.kind = .ident ∧ Token.all (resolved.declaration.name.slice source) = [name.token] := by
  obtain ⟨declaration, hmem, rfl⟩ := List.mem_map.mp h
  obtain ⟨layout, hfits, before, hbefore⟩ := Declaration.exists_layout_of_mem hmem
  have hsound := Declaration.isSound_of_mem hmem
  have hvalue : declaration.value.stop ≤ CodeUnits.maxLength :=
    Nat.le_trans (Nat.le_trans hsound.value_le hsound.end_le) source.length_addressable_le
  have hlt := hsound.name_lt_value
  have hlt' := hsound.value_lt
  obtain ⟨hname, hwithin⟩ := hfits.standsAlone_name hbefore (by omega)
  refine ⟨hfits.standsAlone_value hbefore hvalue, hname, layout.name, hwithin, hfits.name_kind, ?_⟩
  have htokens := hname.tokens
  rwa [hwithin, List.map_singleton] at htokens

/-- Digits and a blank spell the `o` of the name; a quoted url and a lone backslash make the value,
and a newline stands behind it. -/
theorem standsAlone_of_backslash :
    let source := ofString "c\\6f l:url( 'x')\\\n;a:b"
    let resolved : Resolved := ⟨⟨⟨0, 6⟩, ⟨7, 17⟩, false, 19⟩, .none⟩
    resolved ∈ all .empty source ∧ resolved.declaration.value.StandsAlone source ∧
      resolved.declaration.name.StandsAlone source := by
  intro source resolved
  have hall : all .empty source =
      [resolved, ⟨⟨⟨19, 20⟩, ⟨21, 22⟩, false, 22⟩, .none⟩] := by decide +kernel
  have hmem : resolved ∈ all .empty source := by
    rw [hall]
    exact List.mem_cons_self
  obtain ⟨hvalue, hname, -⟩ := standsAlone_of_mem hmem
  exact ⟨hmem, hvalue, hname⟩

end Resolved

end StyleRules
