import StyleRules.Proofs.Expansion.Trail

/-!
# What stands between declarations

Lexemes that are passed over, and statements that stay as they are, are read again before whatever
is put behind them, as long as nothing is put where the text ended.
-/

namespace StyleRules

open CodeUnits (Apart ahead whitespaceRun)
open Declaration (behind isPassedOver)
open Lexeme (Run loosen pieces)

variable {source y : CodeUnits} {lexeme : Lexeme}

/-! ## Lexemes that are passed over -/

namespace Lexeme.StandsIn

theorem read_of_whitespace (h : lexeme.StandsIn source) (hkind : lexeme.kind = .whitespace)
    (hy : (ahead (source.drop lexeme.stop) 0).isWhitespace = false →
      (ahead y 0).isWhitespace = false) :
    Token.read (lexeme.units ++ y) = lexeme.token := by
  rw [Lexeme.kind, h.token] at hkind
  obtain ⟨-, hread⟩ := Token.read_of_whitespace hkind
  obtain ⟨hrun, hend⟩ := CodeUnits.whitespaceRun_split (source.drop lexeme.start)
  have hlength : lexeme.token.length = whitespaceRun (source.drop lexeme.start) := by
    rw [h.token, hread, Token.length_plain]
  rw [← hlength] at hrun hend
  rw [← h.units] at hrun
  rw [List.drop_drop] at hend
  rw [Token.read_whitespace_append h.units_ne_nil hrun (hy hend), h.length_units, hlength,
    h.token, hread]

theorem read_of_comment (h : lexeme.StandsIn source) (hkind : lexeme.kind = .comment)
    (hy : source.drop lexeme.stop = [] → y = []) :
    Token.read (lexeme.units ++ y) = lexeme.token := by
  rw [Lexeme.kind, h.token] at hkind
  obtain ⟨rest, hrest, hread⟩ := Token.read_of_comment hkind
  have htoken : lexeme.token = (Token.readComment rest).grow 2 := by rw [h.token, hread]
  have hlength := congrArg List.length hrest
  rw [List.length_drop, List.length_cons, List.length_cons] at hlength
  rw [htoken, h.units_of_comment hrest htoken]
  show Token.read (CodeUnit.solidus :: (CodeUnit.asterisk :: _)) = _
  rw [Token.read_of_isMark (by decide)]
  rcases Token.readComment_ends rest with ⟨-, hfull⟩ | ⟨-, -, hsame⟩
  · have hend : source.drop lexeme.stop = [] := by
      apply List.drop_eq_nil_of_le
      unfold Lexeme.stop
      rw [htoken, Token.length_grow]
      omega
    show (Token.readComment (rest.take _ ++ y)).grow 2 = _
    rw [hy hend, List.append_nil, hfull, List.take_length]
  · show (Token.readComment (rest.take _ ++ y)).grow 2 = _
    rw [hsame]

/-- The opening and the closing of an HTML comment are read whatever is behind them. -/
theorem of_cdo (h : lexeme.StandsIn source) (hkind : lexeme.kind = .cdo) :
    lexeme.token = .plain .cdo 4 ∧ lexeme.units = [CodeUnit.lessThan, CodeUnit.exclamationMark,
      CodeUnit.hyphen, CodeUnit.hyphen] := by
  have htext : lexeme.kind.lexeme? = some "<!--" := by rw [hkind]; rfl
  have hunits := h.units_of_lexeme? htext
  rw [Lexeme.kind, h.token] at hkind
  obtain ⟨u, rest, -, hspells⟩ := Token.spells_read (s := source.drop lexeme.start)
    (by rw [hkind]; rfl)
  rw [hkind] at hspells
  exact ⟨h.token.trans hspells.2.2, hunits.trans (by decide)⟩

theorem of_cdc (h : lexeme.StandsIn source) (hkind : lexeme.kind = .cdc) :
    lexeme.token = .plain .cdc 3 ∧ lexeme.units = [CodeUnit.hyphen, CodeUnit.hyphen,
      CodeUnit.greaterThan] := by
  have htext : lexeme.kind.lexeme? = some "-->" := by rw [hkind]; rfl
  have hunits := h.units_of_lexeme? htext
  rw [Lexeme.kind, h.token] at hkind
  exact ⟨h.token.trans (Token.read_of_kind_cdc hkind).2, hunits.trans (by decide)⟩

theorem passedOver_cases (hpassed : isPassedOver lexeme.kind = true) :
    lexeme.isTrivia = true ∨ lexeme.kind = .cdo ∨ lexeme.kind = .cdc ∨
      (Ending.ofLexeme? lexeme).isSome = true := by
  rw [Ending.isSome_ofLexeme?, Lexeme.isTrivia]
  generalize lexeme.kind = kind at hpassed ⊢
  cases kind <;> first | exact absurd hpassed Bool.false_ne_true | decide

theorem pieces_passedOver (h : lexeme.StandsIn source) (hpassed : isPassedOver lexeme.kind = true)
    (hend : source.drop lexeme.stop = [] → y = [])
    (hspace : (ahead (source.drop lexeme.stop) 0).isWhitespace = false →
      (ahead y 0).isWhitespace = false) :
    pieces (lexeme.units ++ y) = lexeme.loosen :: pieces y := by
  have hcut : Token.read (lexeme.units ++ y) = lexeme.token →
      pieces (lexeme.units ++ y) = lexeme.loosen :: pieces y := by
    intro hread
    rw [Lexeme.pieces_append_of_read h.units_ne_nil (by rw [hread, h.length_units]), hread]
    rfl
  rcases passedOver_cases hpassed with htrivia | hcdo | hcdc | hending
  · have hkind : lexeme.kind.isTrivia = true := htrivia
    rw [Token.Kind.isTrivia, Bool.or_eq_true, beq_iff_eq, beq_iff_eq] at hkind
    rcases hkind with hkind | hkind
    · exact hcut (h.read_of_whitespace hkind hspace)
    · exact hcut (h.read_of_comment hkind hend)
  · obtain ⟨htoken, hunits⟩ := h.of_cdo hcdo
    rw [hunits, htoken] at hcut
    rw [hunits]
    exact hcut (Token.read_of_isMark (by decide) _)
  · obtain ⟨htoken, hunits⟩ := h.of_cdc hcdc
    rw [hunits, htoken] at hcut
    rw [hunits]
    exact hcut (Token.read_of_cdc (List.cons_ne_nil _ _) rfl rfl)
  · obtain ⟨c, hunits, -, hpieces⟩ := h.ending_cases hending
    rw [hunits]
    exact hpieces y

theorem apart_passedOver (h : lexeme.StandsIn source) (hpassed : isPassedOver lexeme.kind = true) :
    Apart lexeme.units (source.drop lexeme.stop) := by
  by_cases hbefore : lexeme.stop < source.length
  · apply Apart.of_last
    intro u hlast
    rcases passedOver_cases hpassed with htrivia | hcdo | hcdc | hending
    · exact h.last_of_trivia htrivia hbefore u hlast
    · rw [(h.of_cdo hcdo).2] at hlast
      obtain rfl := Option.some.inj hlast
      decide
    · rw [(h.of_cdc hcdc).2] at hlast
      obtain rfl := Option.some.inj hlast
      decide
    · obtain ⟨c, hunits, hmem, -⟩ := h.ending_cases hending
      rw [hunits] at hlast
      obtain rfl := Option.some.inj hlast
      simp only [List.mem_cons, List.not_mem_nil, or_false] at hmem
      rcases hmem with rfl | rfl | rfl <;> decide
  · apply Apart.of_head
    rw [List.drop_eq_nil_of_le (Nat.le_of_not_lt hbefore)]
    exact fun v hv => absurd hv (by simp)

end Lexeme.StandsIn

/-! ## Statements that stay -/

theorem Reading.ofLexemes_cons_append (first : Lexeme) (lexemes : List Lexeme) (y : CodeUnits) :
    ofLexemes ((first :: lexemes).map loosen ++ pieces y) =
      ofLexemes (first :: (lexemes ++ Lexeme.ofText y)) := by
  rw [pieces, ← List.map_append, ofLexemes_map_loosen]
  rfl

theorem Reading.ofLexemes_statement {first last : Lexeme} {inner rest : List Lexeme} {i : Nat}
    (h : Run source i (first :: (inner ++ last :: rest)) source.length)
    (hfirst : isPassedOver first.kind = false) (hlast : (Ending.ofLexeme? last).isSome = true)
    (hlocal : ∀ left, ofStatement? first (inner ++ last :: left) =
        ofStatement? first (inner ++ last :: rest) ∧
      behind first (inner ++ last :: left) = left)
    (hy : source.drop last.stop = [] → y = []) :
    ofLexemes (pieces ((first :: (inner ++ [last])).flatMap Lexeme.units ++ y)) =
      (ofStatement? first (inner ++ last :: rest)).toList ++ ofLexemes (pieces y) := by
  have hrun : Run source i ((first :: inner) ++ last :: rest) source.length := h
  obtain ⟨j, hinner, hbehind⟩ := Run.append_iff.mp hrun
  obtain ⟨rfl, hstands, -⟩ := Run.cons_iff.mp hbehind
  have hclosing : Run source last.start [last] last.stop := .cons hstands (.nil _)
  have hpieces := hinner.pieces_drop
  rw [hinner.drop_eq, hclosing.drop_eq] at hpieces
  have hclosed : ClosedBy source [last] last.stop := .inl ⟨last, rfl, hstands, hlast⟩
  have hcut := (hclosed.pieces_cut hpieces).2 y hy
  have hunits : (first :: (inner ++ [last])).flatMap Lexeme.units ++ y =
      (first :: inner).flatMap Lexeme.units ++ ([last].flatMap Lexeme.units ++ y) := by
    rw [← List.append_assoc, ← List.flatMap_append]
    rfl
  have hloose : (first :: inner).map loosen ++ ([last].map loosen ++ pieces y) =
      (first :: (inner ++ [last])).map loosen ++ pieces y := by
    rw [← List.append_assoc, ← List.map_append]
    rfl
  obtain ⟨hstatement, hleft⟩ := hlocal (Lexeme.ofText y)
  rw [hunits, hcut, hloose, ofLexemes_cons_append, List.append_assoc, List.singleton_append,
    ofLexemes, if_neg (by rw [hfirst]; exact Bool.false_ne_true), hstatement, hleft, pieces,
    ofLexemes_map_loosen]

end StyleRules
