import StyleRules.Proofs.Declaration.Parts

/-!
# Statements

A statement is read from the stretch behind its name and colon, if it starts with them
(`Declaration.stretch?`). A statement that does not take all lexemes ends with a `;`, `{` or `}`,
and it is read the same whatever stands behind that lexeme (`Declaration.statement_cases`).
-/

namespace StyleRules

namespace Declaration

def behind (first : Lexeme) (rest : List Lexeme) : List Lexeme := (readStatement 0 first rest).2

def behindColon? (first : Lexeme) (rest : List Lexeme) : Option (List Lexeme) :=
  if first.kind = .ident then
    match rest.dropWhile fun lexeme => isBlank lexeme.kind with
    | [] => none
    | colon :: tail => if colon.kind = .colon then some tail else none
  else none

def stretch? (first : Lexeme) (rest : List Lexeme) : Option Stretch :=
  (behindColon? first rest).map (Stretch.read .top)

theorem readStatement_eq (size : Nat) (first : Lexeme) (rest : List Lexeme) :
    readStatement size first rest =
      ((stretch? first rest).bind (ofStretch? size first), behind first rest) := by
  unfold behind stretch? behindColon? readStatement
  split
  · cases rest.dropWhile fun lexeme => isBlank lexeme.kind with
    | nil => rfl
    | cons colon tail =>
      dsimp only
      split <;> rfl
  · rfl

theorem readStatement_snd (size : Nat) (first : Lexeme) (rest : List Lexeme) :
    (readStatement size first rest).2 = behind first rest := by
  rw [readStatement_eq]

theorem suffix_of_behindColon? {first : Lexeme} {rest tail : List Lexeme}
    (h : behindColon? first rest = some tail) : tail <:+ rest := by
  have hdrop := rest.dropWhile_suffix fun lexeme => isBlank lexeme.kind
  unfold behindColon? at h
  split at h
  · split at h
    · exact absurd h (by simp)
    · next colon tail' hparts =>
      rw [hparts] at hdrop
      split at h
      · obtain rfl := Option.some.inj h
        exact (List.suffix_cons colon _).trans hdrop
      · exact absurd h (by simp)
  · exact absurd h (by simp)

theorem length_behind_le (first : Lexeme) (rest : List Lexeme) :
    (behind first rest).length ≤ rest.length := length_readStatement_le 0 first rest

/-! ## Where a stretch ends -/

end Declaration

theorem Ending.ofLexeme?_ne_unclosed (lexeme : Lexeme) : ofLexeme? lexeme ≠ some .unclosed := by
  unfold ofLexeme?
  split <;> simp

/-- A stretch takes all lexemes, or ends with one behind which others may stand. -/
theorem Stretch.read_top_cases (lexemes : List Lexeme) :
    (read .top lexemes).rest = [] ∨
      ∃ last, lexemes = (read .top lexemes).body ++ last :: (read .top lexemes).rest ∧
        Ending.ofLexeme? last = some (read .top lexemes).ending ∧
        ∀ left, read .top ((read .top lexemes).body ++ last :: left) =
          ⟨(read .top lexemes).body, (read .top lexemes).ending, left⟩ := by
  rcases read_parts .top lexemes with ⟨last, hparts, hlast⟩ | ⟨-, hrest, -⟩
  · right
    have hclosed : (read .top lexemes).ending ≠ .unclosed := by
      intro hunclosed
      rw [hunclosed] at hlast
      exact Ending.ofLexeme?_ne_unclosed last hlast
    refine ⟨last, hparts, hlast, fun left => ?_⟩
    exact read_of_ending (walk?_body .top lexemes hclosed) hlast left
  · exact .inl hrest

namespace Declaration

theorem isPassedOver_of_ending {lexeme : Lexeme} (h : (Ending.ofLexeme? lexeme).isSome = true) :
    isPassedOver lexeme.kind = true := by
  rw [Ending.isSome_ofLexeme?] at h
  generalize lexeme.kind = kind at h ⊢
  cases kind <;> first | rfl | exact absurd h (by decide)

/-- Skipping takes all lexemes, or ends with one behind which others may stand. -/
theorem skip_cases (lexeme : Lexeme) (lexemes : List Lexeme) :
    skip (lexeme :: lexemes) = [] ∨
      ((Ending.ofLexeme? lexeme).isSome = true ∧ ∀ left, skip (lexeme :: left) = left) ∨
      ∃ inner last, lexemes = inner ++ last :: skip (lexeme :: lexemes) ∧
        (Ending.ofLexeme? last).isSome = true ∧
        ∀ left, skip (lexeme :: (inner ++ last :: left)) = left := by
  rcases Stretch.read_top_cases (lexeme :: lexemes) with hrest | ⟨last, hparts, hlast, hlocal⟩
  · exact .inl hrest
  · right
    have hending : (Ending.ofLexeme? last).isSome = true := by rw [hlast]; rfl
    generalize (Stretch.read .top (lexeme :: lexemes)).body = body at hparts hlocal
    cases body with
    | nil =>
      obtain rfl := (List.cons.inj hparts).1
      exact .inl ⟨hending, fun left => congrArg Stretch.rest (hlocal left)⟩
    | cons first inner =>
      obtain ⟨rfl, hrest⟩ := List.cons.inj hparts
      exact .inr ⟨inner, last, hrest, hending, fun left => congrArg Stretch.rest (hlocal left)⟩

/-! ## Where a statement ends -/

variable {first : Lexeme} {rest : List Lexeme}

theorem exists_of_dropWhile_isBlank (lexemes : List Lexeme) :
    (lexemes.dropWhile fun lexeme => isBlank lexeme.kind) = [] ∨
      ∃ blanks colon tail, lexemes = blanks ++ colon :: tail ∧
        (∀ lexeme ∈ blanks, isBlank lexeme.kind = true) ∧ isBlank colon.kind = false := by
  cases hdrop : lexemes.dropWhile fun lexeme => isBlank lexeme.kind with
  | nil => exact .inl rfl
  | cons colon tail =>
    right
    refine ⟨lexemes.takeWhile fun lexeme => isBlank lexeme.kind, colon, tail, ?_,
      fun lexeme => List.all_eq_true.mp List.all_takeWhile lexeme, ?_⟩
    · rw [← hdrop, List.takeWhile_append_dropWhile]
    · have := List.head?_dropWhile_not (fun lexeme => isBlank lexeme.kind) lexemes
      rw [hdrop] at this
      exact this

section Named

variable {blanks : List Lexeme} {colon : Lexeme}

theorem dropWhile_isBlank (hblanks : ∀ lexeme ∈ blanks, isBlank lexeme.kind = true)
    (hcolon : isBlank colon.kind = false) (tail : List Lexeme) :
    ((blanks ++ colon :: tail).dropWhile fun lexeme => isBlank lexeme.kind) = colon :: tail := by
  rw [List.dropWhile_append_of_pos hblanks,
    List.dropWhile_cons_of_neg (by rw [hcolon]; exact Bool.false_ne_true)]

theorem readStatement_of_colon (hfirst : first.kind = .ident)
    (hblanks : ∀ lexeme ∈ blanks, isBlank lexeme.kind = true) (hcolon : colon.kind = .colon)
    (size : Nat) (tail : List Lexeme) :
    readStatement size first (blanks ++ colon :: tail) =
      (ofStretch? size first (Stretch.read .top tail), (Stretch.read .top tail).rest) := by
  rw [readStatement, if_pos hfirst, dropWhile_isBlank hblanks (by rw [hcolon]; rfl)]
  dsimp only
  rw [if_pos hcolon]

theorem behind_of_colon (hfirst : first.kind = .ident)
    (hblanks : ∀ lexeme ∈ blanks, isBlank lexeme.kind = true) (hcolon : colon.kind = .colon)
    (tail : List Lexeme) :
    behind first (blanks ++ colon :: tail) = (Stretch.read .top tail).rest := by
  rw [behind, readStatement_of_colon hfirst hblanks hcolon]

theorem stretch?_of_colon (hfirst : first.kind = .ident)
    (hblanks : ∀ lexeme ∈ blanks, isBlank lexeme.kind = true) (hcolon : colon.kind = .colon)
    (tail : List Lexeme) :
    stretch? first (blanks ++ colon :: tail) = some (Stretch.read .top tail) := by
  rw [stretch?, behindColon?, if_pos hfirst, dropWhile_isBlank hblanks (by rw [hcolon]; rfl)]
  dsimp only
  rw [if_pos hcolon, Option.map_some]

theorem behind_of_not_colon (hfirst : first.kind = .ident)
    (hblanks : ∀ lexeme ∈ blanks, isBlank lexeme.kind = true) (hblank : isBlank colon.kind = false)
    (hcolon : colon.kind ≠ .colon) (tail : List Lexeme) :
    behind first (blanks ++ colon :: tail) = skip (colon :: tail) := by
  rw [behind, readStatement, if_pos hfirst, dropWhile_isBlank hblanks hblank]
  dsimp only
  rw [if_neg hcolon]

theorem stretch?_of_not_colon (first : Lexeme)
    (hblanks : ∀ lexeme ∈ blanks, isBlank lexeme.kind = true)
    (hblank : isBlank colon.kind = false) (hcolon : colon.kind ≠ .colon) (tail : List Lexeme) :
    stretch? first (blanks ++ colon :: tail) = none := by
  unfold stretch? behindColon?
  rw [dropWhile_isBlank hblanks hblank]
  dsimp only
  rw [if_neg hcolon, ite_self, Option.map_none]

end Named

/-- The statement that starts with `first` ends with `last`, `inner` being between them. -/
structure EndsWith (first : Lexeme) (rest inner : List Lexeme) (last : Lexeme) : Prop where
  split : rest = inner ++ last :: behind first rest
  ending : (Ending.ofLexeme? last).isSome = true
  stretch : ∀ stretch, stretch? first rest = some stretch →
    Ending.ofLexeme? last = some stretch.ending
  behind_eq : ∀ left, behind first (inner ++ last :: left) = left
  stretch?_eq : ∀ left, stretch? first (inner ++ last :: left) =
    (stretch? first rest).map fun stretch => { stretch with rest := left }

theorem EndsWith.of_none {inner : List Lexeme} {last : Lexeme}
    (hstretch : ∀ left, stretch? first (inner ++ last :: left) = none)
    (hsplit : rest = inner ++ last :: behind first rest)
    (hending : (Ending.ofLexeme? last).isSome = true)
    (hbehind : ∀ left, behind first (inner ++ last :: left) = left) :
    EndsWith first rest inner last := by
  have hself : stretch? first rest = none := by
    rw [hsplit]
    exact hstretch _
  refine ⟨hsplit, hending, fun stretch h => ?_, hbehind, fun left => ?_⟩
  · rw [hself] at h
    exact absurd h (by simp)
  · rw [hstretch, hself, Option.map_none]

/-- A statement takes all lexemes, or ends with one behind which others may stand. -/
theorem statement_cases (hfirst : isPassedOver first.kind = false) (rest : List Lexeme) :
    behind first rest = [] ∨ ∃ inner last, EndsWith first rest inner last := by
  by_cases hident : first.kind = .ident
  case neg =>
    have hnone : ∀ lexemes, stretch? first lexemes = none := fun lexemes => by
      rw [stretch?, behindColon?, if_neg hident, Option.map_none]
    have hskip : ∀ lexemes, behind first lexemes = skip (first :: lexemes) := fun lexemes => by
      rw [behind, readStatement, if_neg hident]
    rcases skip_cases first rest with
      hrest | ⟨hending, -⟩ | ⟨inner, last, hparts, hlast, hlocal⟩
    · exact .inl ((hskip rest).trans hrest)
    · have := isPassedOver_of_ending hending
      exact absurd (hfirst.symm.trans this) Bool.false_ne_true
    · rw [← hskip rest] at hparts
      exact .inr ⟨inner, last, .of_none (fun left => hnone _) hparts hlast
        fun left => (hskip _).trans (hlocal left)⟩
  rcases exists_of_dropWhile_isBlank rest with
    hnone | ⟨blanks, colon, tail, rfl, hblanks, hblank⟩
  · left
    rw [behind, readStatement, if_pos hident, hnone]
  have hassoc : ∀ (inner : List Lexeme) (last : Lexeme) (left : List Lexeme),
      (blanks ++ colon :: inner) ++ last :: left = blanks ++ colon :: (inner ++ last :: left) :=
    fun inner last left => by rw [List.append_assoc, List.cons_append]
  by_cases hcolon : colon.kind = .colon
  · have hbehind := behind_of_colon hident hblanks hcolon
    have hstretch := stretch?_of_colon hident hblanks hcolon
    rcases Stretch.read_top_cases tail with hrest | ⟨last, hparts, hlast, hlocal⟩
    · exact .inl ((hbehind tail).trans hrest)
    · right
      refine ⟨blanks ++ colon :: (Stretch.read .top tail).body, last, ?_, by rw [hlast]; rfl,
        fun stretch h => ?_, fun left => ?_, fun left => ?_⟩
      · rw [hassoc, hbehind, ← hparts]
      · rw [hstretch] at h
        obtain rfl := Option.some.inj h
        exact hlast
      · rw [hassoc, hbehind, hlocal]
      · rw [hassoc, hstretch, hstretch, hlocal, Option.map_some]
  · have hbehind := behind_of_not_colon hident hblanks hblank hcolon
    have hstretch := stretch?_of_not_colon first hblanks hblank hcolon
    rcases skip_cases colon tail with
      hrest | ⟨hending, hlocal⟩ | ⟨inner, last, hparts, hlast, hlocal⟩
    · exact .inl ((hbehind tail).trans hrest)
    · exact .inr ⟨blanks, colon, .of_none hstretch (by rw [hbehind, hlocal]) hending
        fun left => by rw [hbehind, hlocal]⟩
    · exact .inr ⟨blanks ++ colon :: inner, last,
        .of_none (fun left => by rw [hassoc, hstretch]) (by rw [hassoc, hbehind, ← hparts]) hlast
          fun left => by rw [hassoc, hbehind, hlocal]⟩

end Declaration

end StyleRules
