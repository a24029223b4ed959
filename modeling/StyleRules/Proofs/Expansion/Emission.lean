import StyleRules.Proofs.Expansion.Joined
import StyleRules.Proofs.Expansion.Words

/-!
# Emitted declarations are read back

What is read from declarations that are written one behind the other, up to what stands behind them.
A value that is not sealed against the space before `!important` takes that space, and one that is
not sealed against the `;` takes the declaration behind it.
-/

namespace StyleRules

open CodeUnits (ahead ofString)
open Lexeme (pieces Merges)
open Token (Break IsSealed)

variable {v w next : CodeUnits}

/-- Trivia up to the ending of a declaration, with `next` behind the ending. -/
def CodeUnits.Finishes (w next : CodeUnits) : Prop :=
  w.startsApart = true ∧ ∃ trail : List Lexeme, (∀ lexeme ∈ trail, lexeme.isTrivia = true) ∧
    ((pieces w = trail ∧ next = []) ∨
      ∃ last ending, Ending.ofLexeme? last = some ending ∧ (ending.stop? 0).isSome = true ∧
        pieces w = trail ++ last :: pieces next)

theorem CodeUnits.finishes_semicolon (next : CodeUnits) :
    Finishes (CodeUnit.semicolon :: next) next :=
  ⟨rfl, [], fun _ h => absurd h List.not_mem_nil, .inr ⟨_, _, rfl, rfl,
    Lexeme.pieces_mark (by decide) rfl⟩⟩

/-! ## Bodies -/

namespace Value

/-- What may stand behind the core of a value: `!important`, or nothing if the value is not
important. -/
structure Mark (core mark : List Lexeme) (isImportant : Bool) : Prop where
  neutral : ∀ lexeme ∈ mark, lexeme.kind.isNeutral = true
  complete : ∀ lexeme ∈ mark, lexeme.isMalformed = false
  marked : isImportant = true → ∃ bang word, significant mark = [bang, word] ∧
    bang.isBang = true ∧ word.isImportantWord = true
  unmarked : isImportant = false → mark = [] ∧ Unmarked core

variable {core mark trail : List Lexeme} {isImportant : Bool}

theorem isMalformed_of_trivia_absurd {lexeme : Lexeme} (htrivia : lexeme.isTrivia = true)
    (h : lexeme.isTrivia = false) : lexeme.isMalformed = false :=
  absurd (htrivia.symm.trans h) (by decide)

theorem Core.parts (hcore : Core core) (hmark : Mark core mark isImportant)
    (htrail : ∀ lexeme ∈ trail, lexeme.isTrivia = true) :
    Parts (core ++ (mark ++ trail)) [] core (mark ++ trail) isImportant := by
  refine ⟨rfl, fun _ h => absurd h List.not_mem_nil, hcore.ne_nil, hcore.first, hcore.last, ?_, ?_,
    ?_⟩
  · intro lexeme hmem hkind
    rcases List.mem_append.mp hmem with hmem | hmem
    · exact hcore.complete lexeme hmem hkind
    · rcases List.mem_append.mp hmem with hmem | hmem
      · exact hmark.complete lexeme hmem
      · exact isMalformed_of_trivia_absurd (htrail lexeme hmem) hkind
  · intro himportant
    rw [significant_append, significant_of_isTrivia htrail, List.append_nil]
    exact hmark.marked himportant
  · intro himportant
    obtain ⟨rfl, hplain⟩ := hmark.unmarked himportant
    exact ⟨significant_of_isTrivia htrail, hplain⟩

theorem Core.walk_body (hcore : Core core) (hmark : Mark core mark isImportant)
    (htrail : ∀ lexeme ∈ trail, lexeme.isTrivia = true) :
    Nesting.top.walk? (core ++ (mark ++ trail)) = some .top := by
  rw [Nesting.walk?_append, hcore.walk, Option.bind_some]
  apply Nesting.walk?_of_isNeutral
  intro lexeme hmem
  rcases List.mem_append.mp hmem with hmem | hmem
  · exact hmark.neutral lexeme hmem
  · exact Lexeme.isNeutral_of_isTrivia (htrail lexeme hmem)

end Value

open Value (Core Mark Unmarked)

/-- A declaration that is written out and finished is read as it is written. -/
theorem Reading.ofLexemes_written {name : CodeUnits} {core mark : List Lexeme} {isImportant : Bool}
    (hname : name.isWord = true) (hcore : Core core) (hmark : Mark core mark isImportant)
    (hw : w.Finishes next) (hpieces : pieces v = core ++ mark ++ pieces w) :
    ofLexemes (pieces (name ++ CodeUnit.colon :: v)) =
      ⟨name, core.flatMap Lexeme.units, isImportant⟩ :: ofLexemes (pieces next) := by
  have hident := Lexeme.pieces_word hname (y := CodeUnit.colon :: v) rfl
  have hcolon : pieces (CodeUnit.colon :: v) = _ := Lexeme.pieces_mark (by decide) rfl
  rw [hident, hcolon, hpieces]
  obtain ⟨-, trail, htrail, ⟨htail, rfl⟩ | ⟨last, ending, hlast, hstop, htail⟩⟩ := hw
  · have hparts := hcore.parts hmark htrail
    rw [htail, List.append_assoc, ofLexemes_declared_end rfl rfl (hcore.walk_body hmark htrail)
      hparts.text?_eq, Lexeme.pieces_nil, ofLexemes]
  · have hparts := hcore.parts hmark htrail
    have hbody : core ++ mark ++ (trail ++ last :: pieces next) =
        core ++ (mark ++ trail) ++ last :: pieces next := by
      simp only [List.append_assoc]
    rw [htail, hbody, ofLexemes_declared rfl rfl (hcore.walk_body hmark htrail) hlast hstop
      hparts.text?_eq]

/-! ## Important declarations -/

def Lexeme.bangImportant : List Lexeme :=
  [⟨0, .plain .delim 1, [CodeUnit.exclamationMark]⟩, ⟨0, .plain .ident 9, ofString "important"⟩]

theorem CodeUnits.ofString_important :
    ofString " !important" =
      CodeUnit.space :: CodeUnit.exclamationMark :: ofString "important" := by
  decide

theorem Lexeme.pieces_bangImportant (hw : w.startsApart = true) :
    pieces (CodeUnit.exclamationMark :: ofString "important" ++ w) = bangImportant ++ pieces w := by
  have hbang : pieces (CodeUnit.exclamationMark :: (ofString "important" ++ w)) = _ :=
    pieces_mark (by decide) rfl
  have hword : pieces (ofString "important" ++ w) = _ :=
    pieces_word (by decide) (CodeUnits.endsWord_of_startsApart hw)
  rw [List.cons_append, hbang, hword]
  rfl

theorem Lexeme.pieces_space (hv : (ahead v 0).isWhitespace = false) :
    pieces (CodeUnit.space :: v) = ⟨0, .plain .whitespace 1, [CodeUnit.space]⟩ :: pieces v := by
  have hread : Token.read ([CodeUnit.space] ++ v) = .plain .whitespace 1 :=
    Token.read_whitespace_append (List.cons_ne_nil _ _) rfl hv
  have hpieces := pieces_append_of_read (List.cons_ne_nil CodeUnit.space [])
    (congrArg Token.length hread)
  rwa [hread] at hpieces

theorem Value.mark_bangImportant (core : List Lexeme) : Mark core Lexeme.bangImportant true := by
  refine ⟨?_, ?_, fun _ => ⟨_, _, rfl, rfl, by decide⟩, fun h => absurd h (by decide)⟩
  all_goals
    intro lexeme hmem
    simp only [Lexeme.bangImportant, List.mem_cons, List.not_mem_nil, or_false] at hmem
    rcases hmem with rfl | rfl <;> rfl

theorem Value.mark_space_bangImportant (core : List Lexeme) :
    Mark core (⟨0, .plain .whitespace 1, [CodeUnit.space]⟩ :: Lexeme.bangImportant) true := by
  refine ⟨?_, ?_, fun _ => ⟨_, _, rfl, rfl, by decide⟩, fun h => absurd h (by decide)⟩
  all_goals
    intro lexeme hmem
    simp only [Lexeme.bangImportant, List.mem_cons, List.not_mem_nil, or_false] at hmem
    rcases hmem with rfl | rfl | rfl <;> rfl

/-- The end of a core may be replaced, where it is plain, by other lexemes. -/
theorem Value.Core.replace {front back other : List Lexeme} (hcore : Core (front ++ back))
    (hplain : ∀ lexeme ∈ back, lexeme.kind.isPlain = true) (hne : other ≠ [])
    (hother : ∀ lexeme ∈ other, lexeme.kind.isNeutral = true ∧ lexeme.isMalformed = false ∧
      lexeme.isTrivia = false) : Core (front ++ other) := by
  refine ⟨by simp [hne], ?_, ?_, ?_, ?_⟩
  · intro first hhead
    rw [List.head?_append] at hhead
    cases hfront : front.head? with
    | none =>
      rw [hfront] at hhead
      exact (hother first (List.mem_of_head? hhead)).2.2
    | some lexeme =>
      rw [hfront] at hhead
      obtain rfl := Option.some.inj hhead
      apply hcore.first
      rw [List.head?_append, hfront]
      rfl
  · intro last hend
    rw [List.getLast?_append, List.getLast?_eq_some_getLast hne] at hend
    obtain rfl := Option.some.inj hend
    exact (hother _ (List.getLast_mem hne)).2.2
  · intro lexeme hmem hkind
    rcases List.mem_append.mp hmem with hmem | hmem
    · exact hcore.complete lexeme (List.mem_append_left back hmem) hkind
    · exact (hother lexeme hmem).2.1
  · have hbackNeutral : ∀ lexeme ∈ back, lexeme.kind.isNeutral = true := by
      intro lexeme hmem
      have hkind := hplain lexeme hmem
      generalize lexeme.kind = kind at hkind
      cases kind <;> first | rfl | exact absurd hkind Bool.false_ne_true
    have hwalk := hcore.walk
    rw [Nesting.walk?_append] at hwalk ⊢
    cases hfront : Nesting.top.walk? front with
    | none =>
      rw [hfront] at hwalk
      exact absurd hwalk (by simp)
    | some inner =>
      rw [hfront, Option.bind_some, Nesting.walk?_of_isNeutral inner hbackNeutral] at hwalk
      obtain rfl := Option.some.inj hwalk
      exact Nesting.walk?_of_isNeutral _ fun lexeme hmem => (hother lexeme hmem).1

theorem Token.Kind.isNeutral_of_endsInName {kind : Token.Kind} (h : kind.endsInName = true) :
    kind.isNeutral = true ∧ kind.isTrivia = false ∧ kind.isError = false := by
  cases kind <;> first | exact ⟨rfl, rfl, rfl⟩ | exact absurd h Bool.false_ne_true

/-- The plain end of a core may become one lexeme with what is written behind it, and other lexemes
may stand behind that. -/
theorem Value.Core.merge {front back : List Lexeme} (hcore : Core (front ++ back))
    (hplain : ∀ lexeme ∈ back, lexeme.kind.isPlain = true) {token : Token}
    (hkind : token.kind.endsInName = true) (hcomplete : token.flags.unterminated = false)
    (units : CodeUnits) {rest : List Lexeme}
    (hrest : ∀ lexeme ∈ rest, lexeme.kind.isNeutral = true ∧ lexeme.isMalformed = false ∧
      lexeme.isTrivia = false) : Core (front ++ ⟨0, token, units⟩ :: rest) := by
  obtain ⟨hneutral, htrivia, herror⟩ := Token.Kind.isNeutral_of_endsInName hkind
  apply hcore.replace hplain (List.cons_ne_nil _ _)
  rw [List.forall_mem_cons]
  refine ⟨⟨hneutral, ?_, htrivia⟩, hrest⟩
  show (token.kind.isError || token.flags.unterminated) = false
  rw [herror, hcomplete]
  rfl

theorem Value.mark_nil {core : List Lexeme} (hcore : Unmarked core) : Mark core [] false :=
  ⟨fun _ h => absurd h List.not_mem_nil, fun _ h => absurd h List.not_mem_nil,
    fun h => absurd h (by decide), fun _ => ⟨rfl, hcore⟩⟩

def Emitted.reading (isImportant : Bool) (emitted : Emitted) : Reading :=
  ⟨ofString emitted.name, emitted.value, isImportant⟩

/-- What is read from an important declaration that is written out: the value takes the space
behind it unless it is sealed. -/
def Emitted.reread (emitted : Emitted) : Reading :=
  ⟨ofString emitted.name,
    if IsSealed emitted.value CodeUnit.space then emitted.value
    else emitted.value ++ [CodeUnit.space], true⟩

theorem Emitted.units_eq (isImportant : Bool) (emitted : Emitted) (w : CodeUnits) :
    emitted.units isImportant ++ w = ofString emitted.name ++ CodeUnit.colon ::
      (emitted.value ++ ((if isImportant then ofString " !important" else []) ++ w)) := by
  simp only [units, List.append_assoc, List.cons_append]

theorem Lexeme.eq_units_of_pieces {front back : List Lexeme} (h : pieces v = front ++ back) :
    v = front.flatMap units ++ back.flatMap units := by
  rw [← List.flatMap_append, ← h, units_pieces]

theorem Reading.ofLexemes_important {emitted : Emitted}
    (hname : (ofString emitted.name).isWord = true) (hvalue : Core (pieces emitted.value))
    (hw : w.Finishes next) :
    ofLexemes (pieces (emitted.units true ++ w)) = emitted.reread :: ofLexemes (pieces next) := by
  have hseparator : CodeUnit.isSeparator CodeUnit.space = true := by decide
  have htail := Lexeme.pieces_bangImportant hw.1
  have hbreak : Break CodeUnit.space
      (CodeUnit.exclamationMark :: ofString "important" ++ w) :=
    ⟨fun _ => rfl, fun h => absurd h (by decide)⟩
  rw [Emitted.units_eq, if_pos rfl, CodeUnits.ofString_important, List.cons_append]
  by_cases hsealed : IsSealed emitted.value CodeUnit.space
  · have hpieces : pieces (emitted.value ++ CodeUnit.space ::
        (CodeUnit.exclamationMark :: ofString "important" ++ w)) = pieces emitted.value ++
          (⟨0, .plain .whitespace 1, [CodeUnit.space]⟩ :: Lexeme.bangImportant) ++ pieces w := by
      rw [Lexeme.pieces_of_isSealed hseparator rfl hvalue.complete hvalue.last hsealed hbreak,
        Lexeme.pieces_space rfl, htail, List.append_assoc]
      rfl
    rw [ofLexemes_written hname hvalue (Value.mark_space_bangImportant _) hw hpieces,
      Lexeme.units_pieces, Emitted.reread, if_pos hsealed]
  · obtain ⟨front, back, hparts, hback, hplain, hmerged⟩ :=
      Lexeme.merges_of_not_isSealed hseparator rfl hvalue.complete hvalue.last hsealed
    have hnone : Name.extent (CodeUnit.exclamationMark :: ofString "important" ++ w) = ⟨0, false⟩ :=
      Name.extent_of_not (by decide) (by decide) _
    have hparen : CodeUnit.exclamationMark ≠ CodeUnit.leftParen := by decide
    obtain ⟨token, hkind, hcomplete, hpieces⟩ := hmerged _ hbreak (by rw [hnone]; exact hparen)
    rw [hnone] at hpieces
    dsimp only at hpieces
    rw [List.take_zero, List.drop_zero, htail] at hpieces
    have hcore := (hparts ▸ hvalue).merge hplain hkind hcomplete
      (back.flatMap Lexeme.units ++ [CodeUnit.space]) (List.forall_mem_nil _)
    have hpieces' : pieces (emitted.value ++ CodeUnit.space ::
        (CodeUnit.exclamationMark :: ofString "important" ++ w)) =
          front ++ [⟨0, token, back.flatMap Lexeme.units ++ [CodeUnit.space]⟩] ++
            Lexeme.bangImportant ++ pieces w := by
      rw [hpieces, List.append_assoc, List.append_assoc]
      rfl
    rw [ofLexemes_written hname hcore (Value.mark_bangImportant _) hw hpieces', Emitted.reread,
      if_neg hsealed, List.flatMap_append, List.flatMap_singleton, ← List.append_assoc,
      ← Lexeme.eq_units_of_pieces hparts]

theorem Reading.ofLexemes_plain {emitted : Emitted}
    (hname : (ofString emitted.name).isWord = true) (hvalue : Core (pieces emitted.value))
    (hplain : Unmarked (pieces emitted.value)) (hw : w.Finishes next)
    (hpieces : pieces (emitted.value ++ w) = pieces emitted.value ++ pieces w) :
    ofLexemes (pieces (emitted.units false ++ w)) =
      emitted.reading false :: ofLexemes (pieces next) := by
  rw [Emitted.units_eq, if_neg Bool.false_ne_true, List.nil_append]
  rw [ofLexemes_written hname hvalue (Value.mark_nil hplain) hw (by rw [hpieces, List.append_nil]),
    Lexeme.units_pieces]
  rfl

/-! ## Lists of declarations -/

theorem Reading.ofLexemes_joined_important {declarations : List Emitted}
    (hne : declarations ≠ []) (hw : w.Finishes next)
    (hall : ∀ emitted ∈ declarations,
      (ofString emitted.name).isWord = true ∧ Core (pieces emitted.value)) :
    ofLexemes (pieces (Emitted.joined true declarations ++ w)) =
      declarations.map Emitted.reread ++ ofLexemes (pieces next) := by
  induction declarations with
  | nil => exact absurd rfl hne
  | cons first rest ih =>
    obtain ⟨hname, hvalue⟩ := hall first List.mem_cons_self
    cases rest with
    | nil =>
      have hone : Emitted.joined true [first] = first.units true := by
        simp [Emitted.joined]
      rw [hone, ofLexemes_important hname hvalue hw]
      rfl
    | cons second rest =>
      rw [Emitted.joined_cons, List.append_assoc, List.cons_append,
        ofLexemes_important hname hvalue (CodeUnits.finishes_semicolon _),
        ih (List.cons_ne_nil _ _) fun emitted hmem => hall emitted (List.mem_cons_of_mem _ hmem)]
      rfl

/-- Declarations that are not important are read as they are written if all values but the last are
sealed and the last one stays apart from what is behind it. -/
theorem Reading.ofLexemes_joined_plain {declarations : List Emitted}
    (hne : declarations ≠ []) (hw : w.Finishes next)
    (hall : ∀ emitted ∈ declarations, (ofString emitted.name).isWord = true ∧
      Core (pieces emitted.value) ∧ Unmarked (pieces emitted.value))
    (hsealed : ∀ emitted ∈ declarations.dropLast, IsSealed emitted.value CodeUnit.semicolon)
    (hlast : ∀ emitted, declarations.getLast? = some emitted →
      pieces (emitted.value ++ w) = pieces emitted.value ++ pieces w) :
    ofLexemes (pieces (Emitted.joined false declarations ++ w)) =
      declarations.map (Emitted.reading false) ++ ofLexemes (pieces next) := by
  induction declarations with
  | nil => exact absurd rfl hne
  | cons first rest ih =>
    obtain ⟨hname, hvalue, hplain⟩ := hall first List.mem_cons_self
    cases rest with
    | nil =>
      have hone : Emitted.joined false [first] = first.units false := by
        simp [Emitted.joined]
      rw [hone, ofLexemes_plain hname hvalue hplain hw (hlast first rfl)]
      rfl
    | cons second rest =>
      have hfirst := Lexeme.pieces_of_isSealed (c := CodeUnit.semicolon) (by decide) rfl
        hvalue.complete hvalue.last (hsealed first List.mem_cons_self)
        (y := Emitted.joined false (second :: rest) ++ w) (Break.of_not rfl (by decide))
      rw [Emitted.joined_cons, List.append_assoc, List.cons_append,
        ofLexemes_plain hname hvalue hplain (CodeUnits.finishes_semicolon _) hfirst,
        ih (List.cons_ne_nil _ _) ?_ ?_ ?_]
      · rfl
      · exact fun emitted hmem => hall emitted (List.mem_cons_of_mem _ hmem)
      · exact fun emitted hmem => hsealed emitted (List.mem_cons_of_mem _ hmem)
      · exact fun emitted hmem => hlast emitted hmem

def Lexeme.colonZero : List Lexeme :=
  [⟨0, .plain (Token.singleKind CodeUnit.colon) 1, [CodeUnit.colon]⟩,
    ⟨0, .plain .number 1, [CodeUnit.digitZero]⟩]

theorem Value.unmarked_colonZero (front : List Lexeme) :
    Unmarked (front ++ Lexeme.colonZero) := by
  rw [Unmarked, significant_append, splitImportant, List.reverse_append]
  rfl

/-- A value that is not sealed takes the `;` and the declaration behind it. -/
theorem Reading.ofLexemes_joined_merged {first second : Emitted} (hw : w.Finishes next)
    (hfirst : (ofString first.name).isWord = true) (hvalue : Core (pieces first.value))
    (hopen : ¬IsSealed first.value CodeUnit.semicolon)
    (hsecond : (ofString second.name).isWord = true) (hzero : second.value = [CodeUnit.digitZero]) :
    ofLexemes (pieces (Emitted.joined false [first, second] ++ w)) =
      ⟨ofString first.name,
        first.value ++ CodeUnit.semicolon :: (ofString second.name ++
          [CodeUnit.colon, CodeUnit.digitZero]), false⟩ :: ofLexemes (pieces next) := by
  have hjoined : Emitted.joined false [first, second] ++ w =
      ofString first.name ++ CodeUnit.colon :: (first.value ++ CodeUnit.semicolon ::
        (ofString second.name ++ CodeUnit.colon :: ([CodeUnit.digitZero] ++ w))) := by
    rw [Emitted.joined_cons, Emitted.joined, List.map_singleton, List.intercalate_singleton,
      List.append_assoc, List.cons_append, Emitted.units_eq, Emitted.units_eq, hzero]
    rfl
  obtain ⟨front, back, hparts, hback, hplain, hmerged⟩ :=
    Lexeme.merges_of_not_isSealed (by decide) rfl hvalue.complete hvalue.last hopen
  have hextent :
      Name.extent (ofString second.name ++ CodeUnit.colon :: ([CodeUnit.digitZero] ++ w)) =
        ⟨(ofString second.name).length, false⟩ := by
    rw [CodeUnits.isWord, Bool.and_eq_true] at hsecond
    exact Name.extent_append_of_all hsecond.1 (Name.extent_of_not (by decide) (by decide) _)
  have hparen : CodeUnit.colon ≠ CodeUnit.leftParen := by decide
  obtain ⟨token, hkind, hcomplete, hpieces⟩ := hmerged _ (Break.of_not rfl (by decide))
    (by rw [hextent, List.drop_left]; exact hparen)
  have hcolon : pieces (CodeUnit.colon :: ([CodeUnit.digitZero] ++ w)) = _ :=
    Lexeme.pieces_mark (by decide) rfl
  rw [hextent] at hpieces
  dsimp only at hpieces
  rw [List.take_left, List.drop_left, hcolon, List.singleton_append, Lexeme.pieces_zero hw.1]
    at hpieces
  have hcore := (hparts ▸ hvalue).merge hplain hkind hcomplete
    (back.flatMap Lexeme.units ++ CodeUnit.semicolon :: ofString second.name)
    (show ∀ lexeme ∈ Lexeme.colonZero, _ from List.forall_mem_cons.mpr
      ⟨⟨rfl, rfl, rfl⟩, List.forall_mem_singleton.mpr ⟨rfl, rfl, rfl⟩⟩)
  have hpieces' : pieces (first.value ++ CodeUnit.semicolon ::
      (ofString second.name ++ CodeUnit.colon :: ([CodeUnit.digitZero] ++ w))) =
        (front ++ ⟨0, token, back.flatMap Lexeme.units ++ CodeUnit.semicolon ::
          ofString second.name⟩ :: Lexeme.colonZero) ++ [] ++ pieces w := by
    rw [List.singleton_append, hpieces, List.append_nil, List.append_assoc]
    rfl
  rw [hjoined, ofLexemes_written hfirst hcore (Value.mark_nil ?_) hw hpieces']
  · congr 2
    rw [Lexeme.eq_units_of_pieces hparts, List.flatMap_append]
    simp only [Lexeme.colonZero, List.flatMap_cons, List.flatMap_nil, List.append_nil,
      List.append_assoc, List.cons_append, List.nil_append]
  · rw [List.append_cons]
    exact Value.unmarked_colonZero _

end StyleRules
