import StyleRules.Proofs.Declaration.Statement

/-!
# Lexemes that are changed alike

Declarations are read from the tokens of lexemes, from where these stand, and from the spelling of
`!important`. When all lexemes are changed in a way that keeps their tokens and that spelling
(`Lexeme.Keeps`), they fall into the same statements; when their places are moved alike besides
(`Lexeme.Moves`), the declarations are moved with them (`Declaration.ofLexemes_map`).
-/

namespace StyleRules

/-- A change that keeps all that reading looks at but the places of lexemes. -/
structure Lexeme.Keeps (f : Lexeme → Lexeme) : Prop where
  token : ∀ lexeme, (f lexeme).token = lexeme.token
  isBang : ∀ lexeme, (f lexeme).isBang = lexeme.isBang
  isImportantWord : ∀ lexeme, (f lexeme).isImportantWord = lexeme.isImportantWord

structure Lexeme.Moves (n : Nat) (f : Lexeme → Lexeme) : Prop extends Lexeme.Keeps f where
  start : ∀ lexeme, (f lexeme).start = n + lexeme.start

variable {f : Lexeme → Lexeme} {n : Nat}

theorem Lexeme.Keeps.kind (hf : Lexeme.Keeps f) (lexeme : Lexeme) :
    (f lexeme).kind = lexeme.kind := congrArg Token.kind (hf.token lexeme)

theorem Lexeme.Moves.stop (hf : Lexeme.Moves n f) (lexeme : Lexeme) :
    (f lexeme).stop = n + lexeme.stop := by
  rw [Lexeme.stop, Lexeme.stop, hf.start, hf.token, Nat.add_assoc]

/-! ## Statements -/

namespace Stretch

/-- A stretch of changed lexemes, its ending being related to the one before the change. -/
theorem read_map (hf : Lexeme.Keeps f) (related : Ending → Ending → Prop)
    (hrelated : ∀ lexeme ending, Ending.ofLexeme? lexeme = some ending →
      ∃ other, Ending.ofLexeme? (f lexeme) = some other ∧ related ending other)
    (hend : related .endOfText .endOfText) (hunclosed : related .unclosed .unclosed)
    (nesting : Nesting) (lexemes : List Lexeme) :
    (read nesting (lexemes.map f)).body = (read nesting lexemes).body.map f ∧
      (read nesting (lexemes.map f)).rest = (read nesting lexemes).rest.map f ∧
      related (read nesting lexemes).ending (read nesting (lexemes.map f)).ending := by
  induction lexemes generalizing nesting with
  | nil =>
    refine ⟨rfl, rfl, ?_⟩
    rw [List.map_nil, read]
    dsimp only
    split
    · exact hend
    · exact hunclosed
  | cons lexeme rest ih =>
    obtain ⟨hbody, hrest, hending⟩ := ih (nesting.after lexeme.kind)
    rw [List.map_cons, read, read, hf.kind]
    cases htop : nesting.isTop with
    | false =>
      simp only [Bool.false_eq_true, if_false]
      exact ⟨congrArg (f lexeme :: ·) hbody, hrest, hending⟩
    | true =>
      simp only [if_true]
      cases hself : Ending.ofLexeme? lexeme with
      | none =>
        have hnone : Ending.ofLexeme? (f lexeme) = none := by
          rw [← Option.isNone_iff_eq_none, ← Option.not_isSome, Ending.isSome_ofLexeme?, hf.kind,
            ← Ending.isSome_ofLexeme?, hself]
          rfl
        rw [hnone]
        exact ⟨congrArg (f lexeme :: ·) hbody, hrest, hending⟩
      | some ending =>
        obtain ⟨other, hother, hboth⟩ := hrelated lexeme ending hself
        rw [hother]
        exact ⟨rfl, rfl, hboth⟩

theorem rest_map (hf : Lexeme.Keeps f) (nesting : Nesting) (lexemes : List Lexeme) :
    (read nesting (lexemes.map f)).rest = (read nesting lexemes).rest.map f := by
  refine (read_map hf (fun _ _ => True) (fun lexeme ending h => ?_) trivial trivial nesting
    lexemes).2.1
  have hsome : (Ending.ofLexeme? (f lexeme)).isSome = true := by
    rw [Ending.isSome_ofLexeme?, hf.kind, ← Ending.isSome_ofLexeme?, h]
    rfl
  obtain ⟨other, hother⟩ := Option.isSome_iff_exists.mp hsome
  exact ⟨other, hother, trivial⟩

end Stretch

namespace Declaration

theorem dropWhile_isBlank_map (hf : Lexeme.Keeps f) (lexemes : List Lexeme) :
    ((lexemes.map f).dropWhile fun lexeme => isBlank lexeme.kind) =
      (lexemes.dropWhile fun lexeme => isBlank lexeme.kind).map f := by
  rw [List.dropWhile_map]
  simp only [Function.comp_def, hf.kind]

theorem behindColon?_map (hf : Lexeme.Keeps f) (first : Lexeme) (rest : List Lexeme) :
    behindColon? (f first) (rest.map f) = (behindColon? first rest).map (List.map f) := by
  unfold behindColon?
  rw [hf.kind, dropWhile_isBlank_map hf]
  split
  · cases rest.dropWhile fun lexeme => isBlank lexeme.kind with
    | nil => rfl
    | cons colon tail =>
      rw [List.map_cons]
      dsimp only
      rw [hf.kind]
      split <;> rfl
  · rfl

theorem skip_map (hf : Lexeme.Keeps f) (lexemes : List Lexeme) :
    skip (lexemes.map f) = (skip lexemes).map f := Stretch.rest_map hf .top lexemes

theorem behind_map (hf : Lexeme.Keeps f) (first : Lexeme) (rest : List Lexeme) :
    behind (f first) (rest.map f) = (behind first rest).map f := by
  unfold behind readStatement
  rw [hf.kind, dropWhile_isBlank_map hf, ← List.map_cons]
  split
  · cases rest.dropWhile fun lexeme => isBlank lexeme.kind with
    | nil => rfl
    | cons colon tail =>
      rw [List.map_cons]
      dsimp only
      rw [hf.kind, ← List.map_cons]
      split
      · exact Stretch.rest_map hf .top tail
      · exact skip_map hf _
  · exact skip_map hf _

end Declaration

/-! ## Values -/

namespace Value

theorem significant_map (hf : Lexeme.Keeps f) (lexemes : List Lexeme) :
    significant (lexemes.map f) = (significant lexemes).map f := by
  unfold significant
  rw [List.filter_map]
  simp only [Function.comp_def, Lexeme.isTrivia, hf.kind]

theorem any_isMalformed_map (hf : Lexeme.Keeps f) (lexemes : List Lexeme) :
    (lexemes.map f).any Lexeme.isMalformed = lexemes.any Lexeme.isMalformed := by
  rw [List.any_map]
  simp only [Function.comp_def, Lexeme.isMalformed, hf.kind, hf.token]
  rfl

theorem splitImportant_map (hf : Lexeme.Keeps f) (lexemes : List Lexeme) :
    splitImportant (lexemes.map f) =
      ((splitImportant lexemes).1.map f, (splitImportant lexemes).2) := by
  unfold splitImportant
  rw [← List.map_reverse]
  rcases lexemes.reverse with _ | ⟨word, _ | ⟨bang, before⟩⟩
  · rfl
  · rfl
  · rw [List.map_cons, List.map_cons]
    dsimp only
    rw [hf.isBang, hf.isImportantWord, ← List.map_reverse]
    split <;> rfl

end Value

/-! ## Moved declarations -/

def Span.raise (n : Nat) (span : Span) : Span := ⟨n + span.start, n + span.stop⟩

def Value.raise (n : Nat) (value : Value) : Value := { value with span := value.span.raise n }

def Ending.raise (n : Nat) : Ending → Ending
  | semicolon stop => .semicolon (n + stop)
  | closeBrace start => .closeBrace (n + start)
  | openBrace => .openBrace
  | endOfText => .endOfText
  | unclosed => .unclosed

def Declaration.raise (n : Nat) (declaration : Declaration) : Declaration :=
  ⟨declaration.name.raise n, declaration.value.raise n, declaration.isImportant,
    n + declaration.semicolonEnd⟩

theorem Ending.stop?_raise (n size : Nat) (ending : Ending) :
    (ending.raise n).stop? (n + size) = (ending.stop? size).map (n + ·) := by
  cases ending <;> rfl

theorem Ending.ofLexeme?_map (hf : Lexeme.Moves n f) (lexeme : Lexeme) :
    ofLexeme? (f lexeme) = (ofLexeme? lexeme).map (raise n) := by
  unfold ofLexeme?
  rw [hf.kind, hf.start, hf.stop]
  split <;> rfl

theorem Value.ofBody?_map (hf : Lexeme.Moves n f) (body : List Lexeme) :
    ofBody? (body.map f) = (ofBody? body).map (raise n) := by
  have hcover : ∀ lexemes : List Lexeme,
      cover? (lexemes.map f) = (cover? lexemes).map (Span.raise n) := by
    intro lexemes
    unfold cover?
    rw [List.head?_map, List.getLast?_map]
    cases lexemes.head? with
    | none => rfl
    | some first =>
      cases lexemes.getLast? with
      | none => rfl
      | some last => simp only [Option.map_some, hf.start, hf.stop, Span.raise]
  have hsignificant := significant_map hf.toKeeps body
  unfold significant at hsignificant
  unfold ofBody?
  dsimp only
  rw [hsignificant, any_isMalformed_map hf.toKeeps, splitImportant_map hf.toKeeps]
  dsimp only
  split
  · rfl
  · rw [hcover, Option.map_map, Option.map_map]
    rfl

theorem Stretch.read_moved (hf : Lexeme.Moves n f) (nesting : Nesting) (lexemes : List Lexeme) :
    read nesting (lexemes.map f) = ⟨(read nesting lexemes).body.map f,
      (read nesting lexemes).ending.raise n, (read nesting lexemes).rest.map f⟩ := by
  obtain ⟨hbody, hrest, hending⟩ := read_map hf.toKeeps
    (fun ending other => other = ending.raise n)
    (fun lexeme ending h => ⟨ending.raise n, by rw [Ending.ofLexeme?_map hf, h, Option.map_some],
      rfl⟩) rfl rfl nesting lexemes
  rw [← hbody, ← hrest, ← hending]

namespace Declaration

theorem ofStretch?_moved (hf : Lexeme.Moves n f) (size : Nat) (name : Lexeme) (stretch : Stretch) :
    ofStretch? (n + size) (f name)
        ⟨stretch.body.map f, stretch.ending.raise n, stretch.rest.map f⟩ =
      (ofStretch? size name stretch).map (raise n) := by
  unfold ofStretch?
  dsimp only
  rw [Ending.stop?_raise, Value.ofBody?_map hf]
  cases stretch.ending.stop? size with
  | none => rfl
  | some stop =>
    cases Value.ofBody? stretch.body with
    | none => rfl
    | some value =>
      simp only [Option.map_some, raise, Lexeme.span, Span.raise, Value.raise, hf.start, hf.stop]

theorem readStatement_map (hf : Lexeme.Moves n f) (size : Nat) (first : Lexeme)
    (rest : List Lexeme) :
    readStatement (n + size) (f first) (rest.map f) =
      ((readStatement size first rest).1.map (raise n),
        (readStatement size first rest).2.map f) := by
  rw [readStatement_eq, readStatement_eq, behind_map hf.toKeeps, stretch?, stretch?,
    behindColon?_map hf.toKeeps]
  cases behindColon? first rest with
  | none => rfl
  | some tail =>
    simp only [Option.map_some, Option.bind_some, Stretch.read_moved hf, ofStretch?_moved hf]

/-- When lexemes are moved, the declarations that they hold are moved with them. -/
theorem ofLexemes_map (hf : Lexeme.Moves n f) (size : Nat) (lexemes : List Lexeme) :
    ofLexemes (n + size) (lexemes.map f) = (ofLexemes size lexemes).map (raise n) := by
  fun_induction ofLexemes size lexemes with
  | case1 => rw [List.map_nil, ofLexemes, List.map_nil]
  | case2 first rest hpassed ih =>
    rw [List.map_cons, ofLexemes, hf.kind, if_pos hpassed, ih]
  | case3 first rest hpassed statement ih =>
    rw [List.map_cons, ofLexemes, hf.kind, if_neg hpassed, readStatement_map hf]
    dsimp only
    rw [ih, List.map_append, Option.toList_map]

end Declaration

end StyleRules
