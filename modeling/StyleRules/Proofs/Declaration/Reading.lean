import StyleRules.Proofs.Declaration.Moved
import StyleRules.Proofs.Token.Pieces

/-!
# Readings

What a declaration says apart from where it stands: its name, its value and whether it is important.
Readings are found in the pieces of a text as the declarations are in its lexemes
(`Reading.ofLexemes_eq_map`), and each statement is read for itself (`Reading.statement_cases`).
-/

namespace StyleRules

open Lexeme (Run loosen pieces)

structure Reading where
  name : CodeUnits
  value : CodeUnits
  isImportant : Bool
  deriving DecidableEq, Repr

def Declaration.reading (source : CodeUnits) (declaration : Declaration) : Reading :=
  ⟨declaration.name.slice source, declaration.value.slice source, declaration.isImportant⟩

namespace Reading

open Declaration (behind isBlank isPassedOver)

def ofStretch? (name : Lexeme) (stretch : Stretch) : Option Reading :=
  if (stretch.ending.stop? 0).isSome then
    (Value.text? stretch.body).map fun text => ⟨name.units, text.1, text.2⟩
  else none

def ofStatement? (first : Lexeme) (rest : List Lexeme) : Option Reading :=
  if first.kind = .ident then
    match rest.dropWhile fun lexeme => isBlank lexeme.kind with
    | [] => none
    | colon :: behind =>
      if colon.kind = .colon then ofStretch? first (Stretch.read .top behind) else none
  else none

def ofLexemes (lexemes : List Lexeme) : List Reading :=
  match lexemes with
  | [] => []
  | first :: rest =>
    if isPassedOver first.kind then ofLexemes rest
    else (ofStatement? first rest).toList ++ ofLexemes (behind first rest)
termination_by lexemes.length
decreasing_by
  · simp
  · have := Declaration.length_behind_le first rest
    simp only [List.length_cons]
    omega

end Reading

/-! ## Places do not matter -/

section Loosen

theorem Lexeme.keeps_loosen : Lexeme.Keeps loosen := ⟨fun _ => rfl, fun _ => rfl, fun _ => rfl⟩

theorem Value.through_map_loosen (n : Nat) (lexemes : List Lexeme) :
    through n (lexemes.map loosen) = (through n lexemes).map loosen := by
  induction lexemes generalizing n with
  | nil => cases n <;> rfl
  | cons lexeme rest ih =>
    cases n with
    | zero => rfl
    | succ n => exact congrArg (lexeme.loosen :: ·) (ih _)

theorem Value.text?_map_loosen (body : List Lexeme) :
    text? (body.map loosen) = text? body := by
  unfold text?
  rw [significant_map Lexeme.keeps_loosen, splitImportant_map Lexeme.keeps_loosen,
    any_isMalformed_map Lexeme.keeps_loosen, List.dropWhile_map]
  dsimp only
  rw [List.length_map, through_map_loosen, Lexeme.units_map_loosen, List.isEmpty_map]
  rfl

theorem Nesting.walk?_map_loosen (nesting : Nesting) (lexemes : List Lexeme) :
    walk? nesting (lexemes.map loosen) = walk? nesting lexemes := by
  induction lexemes generalizing nesting with
  | nil => rfl
  | cons lexeme rest ih =>
    rw [List.map_cons, walk?, walk?, Ending.isSome_ofLexeme?, Ending.isSome_ofLexeme?,
      Lexeme.kind_loosen, ih]

theorem Ending.ofLexeme?_loosen (lexeme : Lexeme) (ending : Ending)
    (h : ofLexeme? lexeme = some ending) : ∃ other, ofLexeme? lexeme.loosen = some other ∧
      (other.stop? 0).isSome = (ending.stop? 0).isSome := by
  unfold ofLexeme? at h ⊢
  rw [Lexeme.kind_loosen]
  split at h
  · obtain rfl := Option.some.inj h
    exact ⟨_, rfl, rfl⟩
  · obtain rfl := Option.some.inj h
    exact ⟨_, rfl, rfl⟩
  · obtain rfl := Option.some.inj h
    exact ⟨_, rfl, rfl⟩
  · exact absurd h (by simp)

theorem Stretch.read_map_loosen (nesting : Nesting) (lexemes : List Lexeme) :
    (read nesting (lexemes.map loosen)).body = (read nesting lexemes).body.map loosen ∧
      (read nesting (lexemes.map loosen)).rest = (read nesting lexemes).rest.map loosen ∧
      ((read nesting (lexemes.map loosen)).ending.stop? 0).isSome =
        ((read nesting lexemes).ending.stop? 0).isSome :=
  read_map Lexeme.keeps_loosen
    (fun ending other => (other.stop? 0).isSome = (ending.stop? 0).isSome)
    Ending.ofLexeme?_loosen rfl rfl nesting lexemes

theorem Reading.ofStatement?_eq (first : Lexeme) (rest : List Lexeme) :
    ofStatement? first rest = (Declaration.stretch? first rest).bind (ofStretch? first) := by
  unfold ofStatement? Declaration.stretch? Declaration.behindColon?
  split
  · cases rest.dropWhile fun lexeme => Declaration.isBlank lexeme.kind with
    | nil => rfl
    | cons colon tail =>
      dsimp only
      split <;> rfl
  · rfl

theorem Reading.ofStatement?_map_loosen (first : Lexeme) (rest : List Lexeme) :
    ofStatement? first.loosen (rest.map loosen) = ofStatement? first rest := by
  rw [ofStatement?_eq, ofStatement?_eq, Declaration.stretch?, Declaration.stretch?,
    Declaration.behindColon?_map Lexeme.keeps_loosen]
  cases Declaration.behindColon? first rest with
  | none => rfl
  | some tail =>
    obtain ⟨hbody, -, hstop⟩ := Stretch.read_map_loosen .top tail
    show ofStretch? first.loosen (Stretch.read .top (tail.map loosen)) =
      ofStretch? first (Stretch.read .top tail)
    unfold ofStretch?
    rw [hbody, hstop, Value.text?_map_loosen]
    rfl

theorem Reading.ofLexemes_map_loosen (lexemes : List Lexeme) :
    ofLexemes (lexemes.map loosen) = ofLexemes lexemes := by
  fun_induction ofLexemes lexemes with
  | case1 => rw [List.map_nil, ofLexemes]
  | case2 first rest hpassed ih =>
    rw [List.map_cons, ofLexemes, Lexeme.kind_loosen, if_pos hpassed, ih]
  | case3 first rest hpassed ih =>
    rw [List.map_cons, ofLexemes, Lexeme.kind_loosen, if_neg hpassed, ofStatement?_map_loosen,
      Declaration.behind_map Lexeme.keeps_loosen, ih]

end Loosen

/-! ## Readings are what declarations say -/

variable {source : CodeUnits} {i j : Nat}

theorem Lexeme.Run.span_slice {lexemes : List Lexeme} (h : Run source i lexemes j)
    {first last : Lexeme} (hfirst : lexemes.head? = some first)
    (hlast : lexemes.getLast? = some last) :
    i = first.start ∧ j = last.stop ∧
      Span.slice ⟨first.start, last.stop⟩ source = lexemes.flatMap Lexeme.units := by
  obtain ⟨rest, rfl⟩ := List.head?_eq_some_iff.mp hfirst
  obtain ⟨init, hinit⟩ := List.getLast?_eq_some_iff.mp hlast
  obtain ⟨rfl, -, -⟩ := Run.cons_iff.mp h
  rw [hinit] at h
  obtain ⟨_, hinner, hend⟩ := Run.append_iff.mp h
  obtain ⟨rfl, hstands, hnone⟩ := Run.cons_iff.mp hend
  obtain rfl := hnone.eq_of_nil
  refine ⟨rfl, rfl, ?_⟩
  rw [hinit, ← h.slice_eq]
  exact if_pos ⟨h.le, hstands.stop_le⟩

theorem Lexeme.StandsIn.span_slice {lexeme : Lexeme} (h : lexeme.StandsIn source) :
    lexeme.span.slice source = lexeme.units := by
  have hrun : Run source lexeme.start [lexeme] lexeme.stop := .cons h (.nil _)
  have hslice := (hrun.span_slice rfl rfl).2.2
  rwa [List.flatMap_singleton] at hslice

theorem Value.text?_eq_map {body : List Lexeme} (h : Run source i body j) :
    text? body = (ofBody? body).map fun value => (value.span.slice source, value.isImportant) := by
  cases hvalue : ofBody? body with
  | none =>
    unfold ofBody? at hvalue
    dsimp only at hvalue
    unfold text? significant
    split at hvalue
    · next hbad => rw [if_pos hbad]; rfl
    · next hgood =>
      rw [if_neg hgood]
      rw [Option.map_eq_none_iff] at hvalue
      generalize splitImportant (body.filter fun lexeme => !lexeme.isTrivia) = split at hvalue ⊢
      obtain ⟨lexemes, isImportant⟩ := split
      cases lexemes with
      | nil => rfl
      | cons first rest =>
        unfold cover? at hvalue
        rw [List.head?_cons, List.getLast?_cons] at hvalue
        exact absurd hvalue (by simp)
  | some value =>
    obtain ⟨lead, core, tail, first, last, hparts, hfirst, hlast, hspan⟩ := parts_of_ofBody? hvalue
    rw [hparts.split] at h
    obtain ⟨_, hfront, -⟩ := Run.append_iff.mp h
    obtain ⟨_, -, hcore⟩ := Run.append_iff.mp hfront
    rw [hparts.text?_eq, Option.map_some, hspan, (hcore.span_slice hfirst hlast).2.2]

theorem Reading.ofStretch?_eq_map {name : Lexeme} {stretch : Stretch}
    (hname : name.StandsIn source) (hbody : Run source i stretch.body j) :
    ofStretch? name stretch =
      (Declaration.ofStretch? source.length name stretch).map (Declaration.reading source) := by
  have hstop : (stretch.ending.stop? source.length).isSome = (stretch.ending.stop? 0).isSome := by
    cases stretch.ending <;> rfl
  unfold ofStretch? Declaration.ofStretch?
  rw [Value.text?_eq_map hbody, ← hstop]
  cases stretch.ending.stop? source.length with
  | none => rfl
  | some stop =>
    cases Value.ofBody? stretch.body with
    | none => rfl
    | some value =>
      show some _ = some (Reading.mk (name.span.slice source) _ _)
      rw [hname.span_slice]

theorem Reading.ofStatement?_eq_map {first : Lexeme} {rest : List Lexeme}
    (h : Run source i (first :: rest) source.length) :
    ofStatement? first rest =
      (Declaration.readStatement source.length first rest).1.map (Declaration.reading source) := by
  obtain ⟨rfl, hfirst, hrest⟩ := Run.cons_iff.mp h
  rw [ofStatement?_eq, Declaration.readStatement_eq, Declaration.stretch?]
  cases htail : Declaration.behindColon? first rest with
  | none => rfl
  | some tail =>
    obtain ⟨k, -, hrun⟩ := hrest.of_suffix (Declaration.suffix_of_behindColon? htail)
    obtain ⟨_, _, hbody, -⟩ := Stretch.run_read hrun .top
    exact ofStretch?_eq_map hfirst hbody

theorem Reading.ofLexemes_eq_map {lexemes : List Lexeme} (h : Run source i lexemes source.length) :
    ofLexemes lexemes =
      (Declaration.ofLexemes source.length lexemes).map (Declaration.reading source) := by
  fun_induction Declaration.ofLexemes source.length lexemes generalizing i with
  | case1 => rw [ofLexemes, List.map_nil]
  | case2 first rest hpassed ih =>
    obtain ⟨rfl, -, hrest⟩ := Run.cons_iff.mp h
    rw [ofLexemes, if_pos hpassed, ih hrest]
  | case3 first rest hpassed statement =>
    rename_i ih
    have hsuffix := (Declaration.readStatement_suffix source.length first rest).trans
      (List.suffix_cons first rest)
    obtain ⟨k, -, hrun⟩ := h.of_suffix hsuffix
    rw [ofLexemes, if_neg hpassed, ofStatement?_eq_map h, ← Declaration.readStatement_snd,
      ih hrun, List.map_append, Option.toList_map]

theorem Reading.ofLexemes_pieces (s : CodeUnits) :
    ofLexemes (pieces s) = (Declaration.ofText s).map (Declaration.reading s) := by
  rw [pieces, ofLexemes_map_loosen]
  exact ofLexemes_eq_map (Lexeme.run_ofText s)

/-! ## Statements are read for themselves -/

namespace Reading

open Declaration (behind isPassedOver)

/-- A statement takes all lexemes, or ends with one behind which others may stand. -/
theorem statement_cases {first : Lexeme} {rest : List Lexeme}
    (hfirst : isPassedOver first.kind = false) :
    behind first rest = [] ∨
      ∃ inner last, rest = inner ++ last :: behind first rest ∧
        (Ending.ofLexeme? last).isSome = true ∧
        ∀ left, ofStatement? first (inner ++ last :: left) = ofStatement? first rest ∧
          behind first (inner ++ last :: left) = left := by
  rcases Declaration.statement_cases hfirst rest with hnone | ⟨inner, last, hends⟩
  · exact .inl hnone
  · right
    refine ⟨inner, last, hends.split, hends.ending, fun left => ⟨?_, hends.behind_eq left⟩⟩
    rw [ofStatement?_eq, ofStatement?_eq, hends.stretch?_eq, Option.bind_map]
    rfl

section Declared

variable {name colon : Lexeme} {body : List Lexeme} {text : CodeUnits × Bool}

theorem ofLexemes_of_stretch {tail : List Lexeme} (hname : name.kind = .ident)
    (hcolon : colon.kind = .colon)
    (hstop : ((Stretch.read .top tail).ending.stop? 0).isSome = true)
    (htext : Value.text? (Stretch.read .top tail).body = some text) :
    ofLexemes (name :: colon :: tail) =
      ⟨name.units, text.1, text.2⟩ :: ofLexemes (Stretch.read .top tail).rest := by
  have hblanks : ∀ lexeme ∈ ([] : List Lexeme), Declaration.isBlank lexeme.kind = true := by simp
  have hstretch := Declaration.stretch?_of_colon hname hblanks hcolon tail
  have hbehind := Declaration.behind_of_colon hname hblanks hcolon tail
  rw [List.nil_append] at hstretch hbehind
  have hstatement : ofStatement? name (colon :: tail) = some ⟨name.units, text.1, text.2⟩ := by
    rw [ofStatement?_eq, hstretch, Option.bind_some, ofStretch?, if_pos hstop, htext,
      Option.map_some]
  have hpassed : isPassedOver name.kind = false := by rw [hname]; rfl
  rw [ofLexemes, if_neg (by rw [hpassed]; exact Bool.false_ne_true), hstatement, hbehind]
  rfl

theorem ofLexemes_declared {last : Lexeme} {rest : List Lexeme} {ending : Ending}
    (hname : name.kind = .ident) (hcolon : colon.kind = .colon)
    (hbody : Nesting.top.walk? body = some .top) (hlast : Ending.ofLexeme? last = some ending)
    (hstop : (ending.stop? 0).isSome = true) (htext : Value.text? body = some text) :
    ofLexemes (name :: colon :: (body ++ last :: rest)) =
      ⟨name.units, text.1, text.2⟩ :: ofLexemes rest := by
  have hread := Stretch.read_of_ending hbody hlast rest
  rw [ofLexemes_of_stretch hname hcolon (by rw [hread]; exact hstop) (by rw [hread]; exact htext),
    hread]

theorem ofLexemes_declared_end (hname : name.kind = .ident) (hcolon : colon.kind = .colon)
    (hbody : Nesting.top.walk? body = some .top) (htext : Value.text? body = some text) :
    ofLexemes (name :: colon :: body) = [⟨name.units, text.1, text.2⟩] := by
  have hread := Stretch.read_of_end hbody
  rw [ofLexemes_of_stretch hname hcolon (by rw [hread]; rfl) (by rw [hread]; exact htext), hread,
    ofLexemes]

end Declared

end Reading

end StyleRules
