import StyleRules.Proofs.Declaration.Soundness

/-!
# Cutting a text behind a declaration

Where a declaration is complete, its text can be cut: the part before the cut holds the declarations
through that one, and the part behind it holds the others. Nothing is carried from one statement to
the next, and no token before the cut depends on what stands behind it.
-/

namespace StyleRules

open Lexeme (Run loosen pieces)
open Token (Break)

variable {source : CodeUnits}

/-! ## Endings -/

/-- The lexeme that ends a stretch is a single unit that is read for itself. -/
theorem Lexeme.StandsIn.ending_cases {lexeme : Lexeme} (h : lexeme.StandsIn source)
    (hending : (Ending.ofLexeme? lexeme).isSome = true) :
    ∃ c, lexeme.units = [c] ∧ c ∈ [CodeUnit.semicolon, CodeUnit.leftBrace, CodeUnit.rightBrace] ∧
      ∀ y, pieces (c :: y) = lexeme.loosen :: pieces y := by
  have hone : ∀ {c text}, lexeme.kind.lexeme? = some text → lexeme.kind.isSingle = true →
      CodeUnits.ofString text = [c] → Token.isMark c = true → Token.singleKind c = lexeme.kind →
      (∀ y, Token.readOther c y = .plain (Token.singleKind c) 1) →
      lexeme.units = [c] ∧ ∀ y, pieces (c :: y) = lexeme.loosen :: pieces y := by
    intro c text htext hsingle hunit hmark hkind hread
    have hunits := (h.units_of_lexeme? htext).trans hunit
    refine ⟨hunits, fun y => ?_⟩
    rw [Lexeme.pieces_mark hmark (hread y), loosen, h.token_of_isSingle hsingle, hunits, hkind]
  rw [Ending.isSome_ofLexeme?, Bool.or_eq_true, Bool.or_eq_true, beq_iff_eq, beq_iff_eq,
    beq_iff_eq] at hending
  rcases hending with (hkind | hkind) | hkind <;> rw [hkind] at hone
  · obtain ⟨hunits, hpieces⟩ := hone (c := CodeUnit.semicolon) rfl rfl (by decide) (by decide) rfl
      fun _ => rfl
    exact ⟨_, hunits, by decide, hpieces⟩
  · obtain ⟨hunits, hpieces⟩ := hone (c := CodeUnit.rightBrace) rfl rfl (by decide) (by decide) rfl
      fun _ => rfl
    exact ⟨_, hunits, by decide, hpieces⟩
  · obtain ⟨hunits, hpieces⟩ := hone (c := CodeUnit.leftBrace) rfl rfl (by decide) (by decide) rfl
      fun _ => rfl
    exact ⟨_, hunits, by decide, hpieces⟩

def ClosedBy (source : CodeUnits) (closing : List Lexeme) (stop : Nat) : Prop :=
  (∃ last, closing = [last] ∧ last.StandsIn source ∧ (Ending.ofLexeme? last).isSome = true) ∨
    closing = [] ∧ source.drop stop = []

namespace ClosedBy

variable {closing : List Lexeme} {stop : Nat} {x : CodeUnits}

/-- What stands before an ending is read the same whatever is behind the ending. -/
theorem pieces_cut (h : ClosedBy source closing stop) {ps : List Lexeme}
    (hpieces : pieces (x ++ (closing.flatMap Lexeme.units ++ source.drop stop)) =
      ps ++ pieces (closing.flatMap Lexeme.units ++ source.drop stop)) :
    pieces x = ps ∧ ∀ y, (source.drop stop = [] → y = []) →
      pieces (x ++ (closing.flatMap Lexeme.units ++ y)) =
        ps ++ (closing.map loosen ++ pieces y) := by
  rcases h with ⟨last, rfl, hstands, hending⟩ | ⟨rfl, hend⟩
  · obtain ⟨c, hunits, hmem, hapart⟩ := hstands.ending_cases hending
    have hc : c.isSeparator = true ∧ c.isWhitespace = false ∧ c ≠ CodeUnit.exclamationMark ∧
        c.isNewline = false := by
      simp only [List.mem_cons, List.not_mem_nil, or_false] at hmem
      rcases hmem with rfl | rfl | rfl <;> decide
    rw [List.flatMap_singleton, hunits] at hpieces ⊢
    obtain ⟨hself, hlonger⟩ := Lexeme.pieces_cut hc.1 (Break.of_not hc.2.1 hc.2.2.1)
      (fun hline => absurd (hline.symm.trans hc.2.2.2) (by decide)) hpieces
    refine ⟨hself, fun y _ => ?_⟩
    have hcut := hlonger y (Break.of_not hc.2.1 hc.2.2.1)
    rw [hapart] at hcut
    exact hcut
  · rw [hend, List.flatMap_nil, List.nil_append, List.append_nil, Lexeme.pieces_nil,
      List.append_nil] at hpieces
    refine ⟨hpieces, fun y hy => ?_⟩
    rw [hy hend, List.flatMap_nil, List.append_nil, List.append_nil, hpieces, Lexeme.pieces_nil,
      List.map_nil, List.append_nil, List.append_nil]

end ClosedBy

/-! ## Lexemes in a part of a text -/

namespace Lexeme

def raise (n : Nat) (lexeme : Lexeme) : Lexeme := { lexeme with start := n + lexeme.start }

theorem moves_raise (n : Nat) : Moves n (raise n) :=
  ⟨⟨fun _ => rfl, fun _ => rfl, fun _ => rfl⟩, fun _ => rfl⟩

theorem map_raise_place (n start : Nat) (s : CodeUnits) (tokens : List Token) :
    (place start s tokens).map (raise n) = place (n + start) s tokens := by
  induction tokens generalizing start s with
  | nil => rfl
  | cons token tokens ih =>
    rw [place, place, List.map_cons, ih, Nat.add_assoc]
    rfl

variable {other : CodeUnits} {lexemes : List Lexeme} {i j k : Nat}

namespace Run

theorem eq_place (h : Run source i lexemes source.length) :
    lexemes = place i (source.drop i) (Token.ofText (source.drop i)) := by
  generalize hn : source.length = n at h
  induction h with
  | nil => rw [List.drop_of_length_le (Nat.le_of_eq hn), Token.ofText, place]
  | @cons lexeme rest stop hstands _ ih =>
    obtain ⟨u, left, hdrop⟩ := List.exists_cons_of_ne_nil hstands.ne_nil
    have hrest := ih hn
    rw [Lexeme.stop, ← List.drop_drop, hdrop] at hrest
    have htoken := hstands.token
    have hunits := hstands.units
    rw [hdrop] at htoken hunits
    rw [hdrop, Token.ofText, place, ← htoken, ← hrest, ← hunits]

/-- The lexemes from an offset on are those of the text behind that offset. -/
theorem eq_map_raise (h : Run source i lexemes source.length) :
    lexemes = (ofText (source.drop i)).map (raise i) := by
  rw [ofText, map_raise_place]
  exact h.eq_place

theorem eq_of_pieces {others : List Lexeme} (h : Run source i lexemes j)
    (hothers : Run other i others k) (hpieces : lexemes.map loosen = others.map loosen) :
    lexemes = others := by
  induction h generalizing others with
  | nil =>
    rw [List.map_nil] at hpieces
    exact (List.map_eq_nil_iff.mp hpieces.symm).symm
  | @cons lexeme rest stop hstands hrest ih =>
    cases others with
    | nil => exact absurd hpieces (by simp)
    | cons first others =>
      obtain ⟨hstart, -, hbehind⟩ := cons_iff.mp hothers
      rw [List.map_cons, List.map_cons] at hpieces
      obtain ⟨hfirst, hall⟩ := List.cons.inj hpieces
      obtain ⟨start, token, units⟩ := lexeme
      obtain ⟨start', token', units'⟩ := first
      simp only [loosen, mk.injEq, true_and] at hfirst hstart
      obtain ⟨rfl, rfl⟩ := hfirst
      subst hstart
      rw [ih hbehind hall]

theorem pieces_closed {front closing : List Lexeme} (hfront : Run source i front j)
    (hclosing : Run source j closing k) (hclosed : ClosedBy source closing k) :
    pieces (front.flatMap units) = front.map loosen ∧
      pieces ((front ++ closing).flatMap units) = (front ++ closing).map loosen := by
  have hpieces := hfront.pieces_drop
  rw [hfront.drop_eq, hclosing.drop_eq] at hpieces
  obtain ⟨hself, hlonger⟩ := hclosed.pieces_cut hpieces
  refine ⟨hself, ?_⟩
  have hend := hlonger [] fun _ => rfl
  rw [List.append_nil, pieces_nil, List.append_nil] at hend
  rw [List.flatMap_append, List.map_append, hend]

end Run

/-! ## Cuts between lexemes -/

/-- A text of length `size` is cut at `c`, behind a `;`, before a `}` or at its end. -/
inductive Cut (size : Nat) : List Lexeme → List Lexeme → Nat → Prop
  | semicolon {inner back : List Lexeme} {last : Lexeme} (hkind : last.kind = .semicolon) :
    Cut size (inner ++ [last]) back last.stop
  | closeBrace {front rest : List Lexeme} {brace : Lexeme} (hkind : brace.kind = .rightBrace) :
    Cut size front (brace :: rest) brace.start
  | endOfText {front : List Lexeme} : Cut size front [] size

theorem Cut.append {size c : Nat} {front back : List Lexeme} (h : Cut size front back c)
    (before : List Lexeme) : Cut size (before ++ front) back c := by
  cases h with
  | semicolon hkind =>
    rw [← List.append_assoc]
    exact .semicolon hkind
  | closeBrace hkind => exact .closeBrace hkind
  | endOfText => exact .endOfText

theorem Cut.run {c : Nat} {front back : List Lexeme} (h : Cut source.length front back c)
    (hrun : Run source i (front ++ back) source.length) :
    Run source i front c ∧ Run source c back source.length := by
  obtain ⟨k, hfront, hback⟩ := Run.append_iff.mp hrun
  suffices k = c by
    subst this
    exact ⟨hfront, hback⟩
  cases h with
  | semicolon =>
    obtain ⟨_, -, hlast⟩ := Run.append_iff.mp hfront
    obtain ⟨-, -, hend⟩ := Run.cons_iff.mp hlast
    exact hend.eq_of_nil.symm
  | closeBrace => exact (Run.cons_iff.mp hback).1
  | endOfText => exact hback.eq_of_nil

theorem Cut.ofText_take {c : Nat} {front back : List Lexeme} (h : Cut source.length front back c)
    (hall : ofText source = front ++ back) : ofText (source.take c) = front := by
  have hrun := run_ofText source
  rw [hall] at hrun
  obtain ⟨hfront, hback⟩ := h.run hrun
  have htake : source.take c = front.flatMap units := hfront.slice_eq
  have hpieces : pieces (source.take c) = front.map loosen := by
    rw [htake]
    cases h with
    | @semicolon inner back last hkind =>
      obtain ⟨_, hinner, hlast⟩ := Run.append_iff.mp hfront
      have hstands := hlast.stands List.mem_cons_self
      have hending : (Ending.ofLexeme? last).isSome = true := by
        rw [Ending.isSome_ofLexeme?, hkind]
        rfl
      exact (hinner.pieces_closed hlast (.inl ⟨last, rfl, hstands, hending⟩)).2
    | @closeBrace front rest brace hkind =>
      have hstands := hback.stands List.mem_cons_self
      have hending : (Ending.ofLexeme? brace).isSome = true := by
        rw [Ending.isSome_ofLexeme?, hkind]
        rfl
      have hbrace : Run source brace.start [brace] brace.stop := .cons hstands (.nil _)
      exact (hfront.pieces_closed hbrace (.inl ⟨brace, rfl, hstands, hending⟩)).1
    | endOfText =>
      exact (hfront.pieces_closed hback (.inr ⟨rfl, List.drop_length⟩)).1
  exact (run_ofText _).eq_of_pieces hfront hpieces

end Lexeme

/-! ## Cuts between declarations -/

namespace Declaration

variable {first last : Lexeme} {rest inner : List Lexeme} {size : Nat} {declaration : Declaration}

/-- A statement that ends with a lexeme is read the same in every text up to that lexeme. -/
theorem EndsWith.readStatement_eq (h : EndsWith first rest inner last) (size other : Nat)
    (left : List Lexeme) :
    readStatement other first (inner ++ last :: left) =
      ((readStatement size first rest).1, left) := by
  rw [Declaration.readStatement_eq, Declaration.readStatement_eq, h.stretch?_eq, h.behind_eq]
  cases hstretch : stretch? first rest with
  | none => rfl
  | some stretch =>
    have hstop := Ending.stop?_of_ofLexeme? (h.stretch stretch hstretch) size other
    rw [Option.map_some, Option.bind_some, Option.bind_some, ofStretch?, ofStretch?]
    dsimp only
    rw [hstop]

theorem EndsWith.ofLexemes_eq (h : EndsWith first rest inner last)
    (hfirst : isPassedOver first.kind = false) (size other : Nat) (left : List Lexeme) :
    ofLexemes other (first :: (inner ++ last :: left)) =
      (readStatement size first rest).1.toList ++ ofLexemes other left := by
  rw [ofLexemes, if_neg (by rw [hfirst]; exact Bool.false_ne_true), h.readStatement_eq size]

/-- A stretch that completes a declaration is read from the lexemes before the cut at its end. -/
theorem stretch_cut {lexemes : List Lexeme} {stop : Nat}
    (h : (Stretch.read .top lexemes).ending.stop? size = some stop) :
    ∃ taken back, lexemes = taken ++ back ∧ Lexeme.Cut size taken back stop ∧
      (Stretch.read .top taken).body = (Stretch.read .top lexemes).body ∧
      (Stretch.read .top taken).ending.stop? stop = some stop ∧
      (Stretch.read .top taken).rest = [] ∧
      ofLexemes size back = ofLexemes size (Stretch.read .top lexemes).rest := by
  have hwalk := Stretch.walk?_body .top lexemes fun hopen => by
    rw [hopen] at h
    exact absurd h (by simp [Ending.stop?])
  rcases Stretch.read_parts .top lexemes with ⟨last, hparts, hlast⟩ | ⟨hbody, hrest, hending⟩
  · generalize Stretch.read .top lexemes = stretch at *
    rcases Ending.stop?_cases hlast h with ⟨hkind, rfl⟩ | ⟨hkind, rfl⟩
    · refine ⟨stretch.body ++ [last], stretch.rest, ?_, .semicolon hkind, ?_⟩
      · rw [hparts, List.append_assoc, List.singleton_append]
      · rw [Stretch.read_of_ending hwalk hlast]
        exact ⟨rfl, (Ending.stop?_of_ofLexeme? hlast size _).trans h, rfl, rfl⟩
    · refine ⟨stretch.body, last :: stretch.rest, hparts, .closeBrace hkind, ?_⟩
      rw [Stretch.read_of_end hwalk]
      refine ⟨rfl, rfl, rfl, ?_⟩
      rw [ofLexemes, if_pos (by rw [hkind]; rfl)]
  · rcases hending with hend | hopen
    · have hsize : size = stop := by
        rw [hend] at h
        exact Option.some.inj h
      subst hsize
      refine ⟨lexemes, [], (List.append_nil _).symm, .endOfText, rfl, h, hrest, ?_⟩
      rw [hrest]
    · rw [hopen] at h
      exact absurd h (by simp [Ending.stop?])

theorem readStatement_cut (h : (readStatement size first rest).1 = some declaration) :
    ∃ taken back, rest = taken ++ back ∧
      Lexeme.Cut size (first :: taken) back declaration.semicolonEnd ∧
      readStatement declaration.semicolonEnd first taken = (some declaration, []) ∧
      ofLexemes size back = ofLexemes size (behind first rest) := by
  obtain ⟨hident, blanks, colon, tail, rfl, hblanks, hcolon, hstretch, -⟩ := readStatement_eq_some h
  unfold ofStretch? at hstretch
  split at hstretch
  · next stop value hstop hvalue =>
    obtain rfl := Option.some.inj hstretch
    obtain ⟨taken, back, rfl, hcut, hbody, hend, hnone, hback⟩ := stretch_cut hstop
    refine ⟨blanks ++ colon :: taken, back, ?_, ?_, ?_, ?_⟩
    · rw [List.append_assoc, List.cons_append]
    · have hwhole := hcut.append (first :: (blanks ++ [colon]))
      rwa [List.cons_append, List.append_assoc, List.singleton_append] at hwhole
    · rw [readStatement_of_colon hident hblanks hcolon, ofStretch?, hbody, hend, hnone, hvalue]
    · rw [behind_of_colon hident hblanks hcolon, hback]
  · exact absurd hstretch (by simp)

/-- Behind a declaration the lexemes can be cut: those before the cut hold the declarations through
that one, those behind it hold the others. -/
theorem ofLexemes_cut {lexemes : List Lexeme} {before after : List Declaration}
    (h : ofLexemes size lexemes = before ++ declaration :: after) :
    ∃ front back, lexemes = front ++ back ∧ Lexeme.Cut size front back declaration.semicolonEnd ∧
      ofLexemes declaration.semicolonEnd front = before ++ [declaration] ∧
      ofLexemes size back = after := by
  fun_induction ofLexemes size lexemes generalizing before with
  | case1 => exact absurd h.symm (by simp)
  | case2 first rest hpassed ih =>
    obtain ⟨front, back, rfl, hcut, hfront, hback⟩ := ih h
    refine ⟨first :: front, back, rfl, hcut.append [first], ?_, hback⟩
    rw [ofLexemes, if_pos hpassed, hfront]
  | case3 first rest hpassed statement =>
    rename_i ih
    rw [Bool.not_eq_true] at hpassed
    have hsnd : statement.2 = behind first rest := readStatement_snd size first rest
    -- A declaration behind this statement is cut off there, with the statement before it.
    have hlater : ∀ between, ofLexemes size statement.2 = between ++ declaration :: after →
        ∃ front back, first :: rest = front ++ back ∧
          Lexeme.Cut size front back declaration.semicolonEnd ∧
          ofLexemes declaration.semicolonEnd front =
            statement.1.toList ++ (between ++ [declaration]) ∧
          ofLexemes size back = after := by
      intro between hbetween
      obtain ⟨front, back, hparts, hcut, hfront, hback⟩ := ih hbetween
      rcases statement_cases hpassed rest with hnone | ⟨inner, last, hends⟩
      · rw [hsnd, hnone, ofLexemes] at hbetween
        exact absurd hbetween.symm (by simp)
      · have hsplit := hends.split
        rw [← hsnd, hparts] at hsplit
        refine ⟨first :: (inner ++ last :: front), back, ?_, ?_, ?_, hback⟩
        · rw [hsplit, List.cons_append, List.append_assoc, List.cons_append]
        · have hwhole := hcut.append (first :: (inner ++ [last]))
          rwa [List.cons_append, List.append_assoc, List.singleton_append] at hwhole
        · rw [hends.ofLexemes_eq hpassed size, hfront]
    cases hstatement : statement.1 with
    | none =>
      rw [hstatement] at h hlater
      exact hlater before h
    | some found =>
      rw [hstatement, Option.toList_some, List.singleton_append] at h
      cases before with
      | nil =>
        obtain ⟨rfl, hafter⟩ := List.cons.inj h
        obtain ⟨taken, back, rfl, hcut, hread, hback⟩ := readStatement_cut hstatement
        refine ⟨first :: taken, back, rfl, hcut, ?_, ?_⟩
        · rw [ofLexemes, if_neg (by rw [hpassed]; exact Bool.false_ne_true), hread]
          dsimp only
          rw [ofLexemes, Option.toList_some, List.append_nil, List.nil_append]
        · rw [hback, ← hsnd, hafter]
      | cons earlier between =>
        obtain ⟨rfl, hbetween⟩ := List.cons.inj h
        obtain ⟨front, back, hparts, hcut, hfront, hback⟩ := hlater between hbetween
        rw [hstatement, Option.toList_some, List.singleton_append, ← List.cons_append] at hfront
        exact ⟨front, back, hparts, hcut, hfront, hback⟩

end Declaration

/-! ## Cuts of a text -/

/-- The declarations from an offset on are those of the text behind that offset. -/
theorem Declaration.ofLexemes_eq_map_raise {lexemes : List Lexeme} {i : Nat}
    (h : Run source i lexemes source.length) :
    ofLexemes source.length lexemes = (ofText (source.drop i)).map (raise i) := by
  have hsize : i + (source.drop i).length = source.length := by
    rw [List.length_drop]
    exact Nat.add_sub_cancel' h.le
  rw [ofText, ← ofLexemes_map (Lexeme.moves_raise i), hsize, ← h.eq_map_raise]

theorem Declaration.ofText_semicolon (text : CodeUnits) :
    ofText (CodeUnit.semicolon :: text) = (ofText text).map (raise 1) := by
  have hrun := Lexeme.run_ofText (CodeUnit.semicolon :: text)
  have hfirst : Lexeme.ofText (CodeUnit.semicolon :: text) =
      ⟨0, .plain .semicolon 1, [CodeUnit.semicolon]⟩ ::
        Lexeme.place 1 text (Token.ofText text) := by
    rw [Lexeme.ofText, Token.ofText, Lexeme.place]
    rfl
  rw [hfirst] at hrun
  have hbehind := (Run.cons_iff.mp hrun).2.2
  rw [ofText, hfirst, ofLexemes, if_pos (by rfl)]
  exact ofLexemes_eq_map_raise hbehind

theorem Declaration.ofText_semicolons (n : Nat) (text : CodeUnits) :
    ofText (List.replicate n CodeUnit.semicolon ++ text) = (ofText text).map (raise n) := by
  induction n with
  | zero =>
    have hsame : raise 0 = id := funext fun declaration => by
      simp only [raise, Span.raise, Nat.zero_add, id]
    rw [hsame, List.map_id]
    rfl
  | succ n ih =>
    rw [List.replicate_succ, List.cons_append, ofText_semicolon, ih, List.map_map]
    apply List.map_congr_left
    intro declaration _
    simp only [Function.comp_apply, raise, Span.raise, ← Nat.add_assoc, Nat.add_comm 1 n]

/-- The declarations before and behind a cut, with the places that they have in their part. -/
theorem Declaration.ofText_take_drop {declaration : Declaration} {before after : List Declaration}
    (h : ofText source = before ++ declaration :: after) :
    ofText (source.take declaration.semicolonEnd) = before ++ [declaration] ∧
      after =
        (ofText (source.drop declaration.semicolonEnd)).map (raise declaration.semicolonEnd) := by
  obtain ⟨front, back, hall, hcut, hfront, hback⟩ := ofLexemes_cut h
  have hrun := Lexeme.run_ofText source
  rw [hall] at hrun
  have hbehind := (hcut.run hrun).2
  constructor
  · rw [ofText, hcut.ofText_take hall, List.length_take, Nat.min_eq_left hbehind.le, hfront]
  · rw [← hback, ofLexemes_eq_map_raise hbehind]

theorem Span.slice_take {span : Span} {n : Nat} (h : span.stop ≤ n) :
    span.slice (source.take n) = span.slice source := by
  have hsame : (span.start ≤ span.stop ∧ span.stop ≤ (source.take n).length) ↔
      span.start ≤ span.stop ∧ span.stop ≤ source.length := by
    rw [List.length_take]
    omega
  simp only [slice, hsame, CodeUnits.slice, List.take_take, Nat.min_eq_left h]

theorem Span.slice_raise {n : Nat} (hn : n ≤ source.length) (span : Span) :
    (span.raise n).slice source = span.slice (source.drop n) := by
  have hsame : (n + span.start ≤ n + span.stop ∧ n + span.stop ≤ source.length) ↔
      span.start ≤ span.stop ∧ span.stop ≤ (source.drop n).length := by
    rw [List.length_drop]
    omega
  simp only [slice, raise, hsame, CodeUnits.slice]
  rw [← List.drop_drop, List.drop_take, Nat.add_sub_cancel_left]

namespace Resolved

open CodeUnits (maxLength ofString)

def raise (n : Nat) (resolved : Resolved) : Resolved :=
  { resolved with declaration := resolved.declaration.raise n }

theorem ofDeclaration_take (table : Table) {declaration : Declaration} {n : Nat}
    (hname : declaration.name.stop ≤ n) (hvalue : declaration.value.stop ≤ n) :
    ofDeclaration table (source.take n).toArray declaration =
      ofDeclaration table source.toArray declaration := by
  simp only [ofDeclaration, Span.cut_toArray, Span.slice_take hname, Span.slice_take hvalue]

theorem ofDeclaration_raise (table : Table) (declaration : Declaration) {n : Nat}
    (hn : n ≤ source.length) :
    ofDeclaration table source.toArray (declaration.raise n) =
      (ofDeclaration table (source.drop n).toArray declaration).raise n := by
  simp only [ofDeclaration, raise, Declaration.raise, Span.cut_toArray, Span.slice_raise hn]

/-- The declarations of the text behind an offset are resolved the same in their place. -/
theorem map_raise (table : Table) {n : Nat} (hn : n ≤ source.length) :
    ((Declaration.ofText (source.drop n)).map (Declaration.raise n)).map
        (ofDeclaration table source.toArray) = (ofText table (source.drop n)).map (raise n) := by
  rw [ofText, List.map_map, List.map_map]
  exact List.map_congr_left fun declaration _ => ofDeclaration_raise table declaration hn

theorem ofText_semicolons (table : Table) (n : Nat) (text : CodeUnits) :
    ofText table (List.replicate n CodeUnit.semicolon ++ text) =
      (ofText table text).map (raise n) := by
  have hlength : n ≤ (List.replicate n CodeUnit.semicolon ++ text).length := by
    rw [List.length_append, List.length_replicate]
    exact Nat.le_add_right _ _
  have hdrop : (List.replicate n CodeUnit.semicolon ++ text).drop n = text :=
    List.drop_left' List.length_replicate
  have hall := map_raise table hlength
  rw [hdrop] at hall
  rw [← hall, ofText, Declaration.ofText_semicolons]

/-- The text through the end of a declaration holds the declarations through that one, and the rest
of the text holds the other ones, as many units nearer to its start. -/
theorem ofText_cut {table : Table} {before after : List Resolved} {resolved : Resolved}
    (h : ofText table source = before ++ resolved :: after) :
    ofText table (source.take resolved.declaration.semicolonEnd) = before ++ [resolved] ∧
      after = (ofText table (source.drop resolved.declaration.semicolonEnd)).map
        (raise resolved.declaration.semicolonEnd) := by
  obtain ⟨front, back, hall, rfl, hback⟩ := List.map_eq_append_iff.mp h
  obtain ⟨declaration, rest, rfl, rfl, rfl⟩ := List.map_eq_cons_iff.mp hback
  have hmem : declaration ∈ Declaration.ofText source := by
    rw [hall]
    simp
  have hle := (Declaration.isSound_of_mem hmem).end_le
  obtain ⟨htake, hdrop⟩ := Declaration.ofText_take_drop hall
  show ofText table (source.take declaration.semicolonEnd) = _ ∧
    _ = (ofText table (source.drop declaration.semicolonEnd)).map (raise declaration.semicolonEnd)
  constructor
  · rw [ofText, htake, ← List.map_singleton, ← List.map_append]
    apply List.map_congr_left
    intro other hmem
    rw [← htake] at hmem
    have hsound := Declaration.isSound_of_mem hmem
    have hend := hsound.end_le
    have := hsound.name_lt_value
    have := hsound.value_lt
    have := hsound.value_le
    rw [List.length_take, Nat.min_eq_left hle] at hend
    exact ofDeclaration_take table (by omega) (by omega)
  · rw [hdrop, map_raise table hle]

/-- A scan can be cut behind any declaration: the text through its end holds the declarations
through that one, and the rest of what is read of it holds the other ones. -/
theorem all_cut {table : Table} {before after : List Resolved} {resolved : Resolved}
    (h : all table source = before ++ resolved :: after) :
    all table (source.take resolved.declaration.semicolonEnd) = before ++ [resolved] ∧
      after = (all table (source.addressable.drop resolved.declaration.semicolonEnd)).map
        (raise resolved.declaration.semicolonEnd) := by
  have hmem : resolved ∈ all table source := by
    rw [h]
    exact List.mem_append_right _ List.mem_cons_self
  have hend := (semicolonEnd_le hmem).2
  obtain ⟨htake, hdrop⟩ := ofText_cut h
  constructor
  · rw [all, CodeUnits.addressable, List.take_take, Nat.min_eq_right hend, ← htake,
      CodeUnits.addressable, List.take_take, Nat.min_eq_left hend]
  · rw [all, CodeUnits.addressable_drop]
    exact hdrop

/-- The cut behind `d:e` falls before a `}`, which the other declaration is found behind. -/
theorem all_cut_closeBrace :
    let source := ofString "a:b;c\x7bd:e\x7df:g!important"
    all .empty source = [⟨⟨⟨0, 1⟩, ⟨2, 3⟩, false, 4⟩, .none⟩] ++
        ⟨⟨⟨6, 7⟩, ⟨8, 9⟩, false, 9⟩, .none⟩ :: [⟨⟨⟨10, 11⟩, ⟨12, 13⟩, true, 23⟩, .none⟩] ∧
      all .empty (source.take 9) =
        [⟨⟨⟨0, 1⟩, ⟨2, 3⟩, false, 4⟩, .none⟩, ⟨⟨⟨6, 7⟩, ⟨8, 9⟩, false, 9⟩, .none⟩] ∧
      [⟨⟨⟨10, 11⟩, ⟨12, 13⟩, true, 23⟩, .none⟩] =
        (all .empty (source.addressable.drop 9)).map (raise 9) := by
  have hall : all .empty (ofString "a:b;c\x7bd:e\x7df:g!important") =
      [⟨⟨⟨0, 1⟩, ⟨2, 3⟩, false, 4⟩, .none⟩] ++ ⟨⟨⟨6, 7⟩, ⟨8, 9⟩, false, 9⟩, .none⟩ ::
        [⟨⟨⟨10, 11⟩, ⟨12, 13⟩, true, 23⟩, .none⟩] := by decide +kernel
  exact ⟨hall, all_cut hall⟩

/-- A scan stops at the largest offset, which `a:b` is complete at; a scan of the text behind it
finds `c:d`. -/
theorem all_of_declaration_behind :
    let source := List.replicate (maxLength - 4) CodeUnit.semicolon ++
      ofString "a:b;c:d;"
    all .empty source =
        [⟨⟨⟨maxLength - 4, maxLength - 3⟩, ⟨maxLength - 2, maxLength - 1⟩, false, maxLength⟩,
          .none⟩] ∧
      all .empty (source.drop maxLength) = [⟨⟨⟨0, 1⟩, ⟨2, 3⟩, false, 4⟩, .none⟩] := by
  intro source
  have hparts : ofString "a:b;c:d;" = ofString "a:b;" ++ ofString "c:d;" := by decide +kernel
  have hcut : source = List.replicate (maxLength - 4) CodeUnit.semicolon ++
      ofString "a:b;" ++ ofString "c:d;" := by rw [List.append_assoc, ← hparts]
  have hlength : (List.replicate (maxLength - 4) CodeUnit.semicolon ++
      ofString "a:b;").length = maxLength := by
    rw [List.length_append, List.length_replicate]
    decide
  constructor
  · have hone : ofText .empty (ofString "a:b;") = [⟨⟨⟨0, 1⟩, ⟨2, 3⟩, false, 4⟩, .none⟩] := by
      decide +kernel
    rw [all, hcut, CodeUnits.addressable, List.take_left' hlength, ofText_semicolons, hone]
    decide
  · have hshort : (ofString "c:d;").addressable = ofString "c:d;" :=
      CodeUnits.addressable_of_length_le (by decide)
    rw [hcut, List.drop_left' hlength, all, hshort]
    decide +kernel

end Resolved

end StyleRules
