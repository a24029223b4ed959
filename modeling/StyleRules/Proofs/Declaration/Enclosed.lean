import StyleRules.Proofs.Declaration.Statement

/-!
# Separators inside blocks

The nesting behind lexemes is what they make of it one after the other (`Nesting.behind`). Lexemes
are walked through just if every `;`, `{` and `}` among them stands inside a block
(`Nesting.Encloses`), and a statement ends behind the first one that does not
(`Declaration.exists_resumption`).
-/

namespace StyleRules

open Lexeme (Run)

variable {source : CodeUnits} {lexeme : Lexeme} {lexemes : List Lexeme} {i : Nat}

theorem Ending.ofLexeme?_eq_none_iff : ofLexeme? lexeme = none ↔
    lexeme.kind ≠ .semicolon ∧ lexeme.kind ≠ .leftBrace ∧ lexeme.kind ≠ .rightBrace := by
  unfold ofLexeme?
  generalize lexeme.kind = kind
  cases kind <;> simp

namespace Nesting

variable {nesting inner : Nesting}

def behind (nesting : Nesting) (lexemes : List Lexeme) : Nesting :=
  lexemes.foldl (fun nesting lexeme => nesting.after lexeme.kind) nesting

/-- Every `;`, `{` and `}` among the lexemes stands inside a block. -/
def Encloses (nesting : Nesting) (lexemes : List Lexeme) : Prop :=
  ∀ front next back, lexemes = front ++ next :: back → (nesting.behind front).isTop = true →
    next.kind ≠ .semicolon ∧ next.kind ≠ .leftBrace ∧ next.kind ≠ .rightBrace

@[simp] theorem behind_nil (nesting : Nesting) : nesting.behind [] = nesting := rfl

@[simp] theorem behind_cons (nesting : Nesting) (lexeme : Lexeme) (lexemes : List Lexeme) :
    nesting.behind (lexeme :: lexemes) = (nesting.after lexeme.kind).behind lexemes := rfl

theorem encloses_nil (nesting : Nesting) : nesting.Encloses [] := by
  intro front next back hparts
  exact absurd hparts.symm (by simp)

theorem encloses_cons : nesting.Encloses (lexeme :: lexemes) ↔
    (nesting.isTop = true → Ending.ofLexeme? lexeme = none) ∧
      (nesting.after lexeme.kind).Encloses lexemes := by
  constructor
  · intro h
    refine ⟨fun htop => Ending.ofLexeme?_eq_none_iff.mpr (h [] lexeme lexemes rfl htop), ?_⟩
    rintro front next back rfl htop
    exact h (lexeme :: front) next back rfl htop
  · rintro ⟨hfirst, hrest⟩ front next back hparts htop
    cases front with
    | nil =>
      obtain ⟨rfl, -⟩ := List.cons.inj hparts
      exact Ending.ofLexeme?_eq_none_iff.mp (hfirst htop)
    | cons first front =>
      obtain ⟨rfl, hbehind⟩ := List.cons.inj hparts
      exact hrest front next back hbehind htop

theorem walk?_eq_some_iff : nesting.walk? lexemes = some inner ↔
    nesting.Encloses lexemes ∧ nesting.behind lexemes = inner := by
  induction lexemes generalizing nesting with
  | nil =>
    rw [walk?, Option.some_inj]
    exact ⟨fun h => ⟨encloses_nil nesting, h⟩, And.right⟩
  | cons lexeme rest ih =>
    rw [walk?, encloses_cons, behind_cons, and_assoc, ← ih]
    cases nesting.isTop <;> cases Ending.ofLexeme? lexeme <;> simp

end Nesting

theorem Stretch.encloses_body (nesting : Nesting) (lexemes : List Lexeme) :
    nesting.Encloses (read nesting lexemes).body := by
  induction lexemes generalizing nesting with
  | nil => exact nesting.encloses_nil
  | cons lexeme rest ih =>
    unfold read
    split
    · exact nesting.encloses_nil
    · next hending =>
      refine Nesting.encloses_cons.mpr ⟨fun htop => ?_, ih _⟩
      rwa [htop, if_pos rfl] at hending

namespace Declaration

/-! ## Where statements end -/

/-- Lexemes that neither open nor close a block and end no stretch make no difference to what is
skipped. -/
theorem skip_append_of_isNeutral {front : List Lexeme}
    (hfront : ∀ lexeme ∈ front, lexeme.kind.isNeutral = true) (back : List Lexeme) :
    skip (front ++ back) = skip back := by
  rw [skip, Stretch.read_append_of_walk? (Nesting.walk?_of_isNeutral .top hfront), skip]

theorem isNeutral_of_isBlank {kind : Token.Kind} (h : isBlank kind = true) :
    kind.isNeutral = true := by
  cases kind <;> first | rfl | exact absurd h (by decide)

/-- Whether a statement is a declaration or not, what is left behind it is what is left when it is
skipped. -/
theorem behind_eq_skip (first : Lexeme) (rest : List Lexeme) :
    behind first rest = skip (first :: rest) := by
  by_cases hident : first.kind = .ident
  case neg => rw [behind, readStatement, if_neg hident]
  have hname : ∀ lexeme ∈ [first], lexeme.kind.isNeutral = true := by
    intro lexeme hmem
    rw [List.mem_singleton.mp hmem, hident]
    rfl
  rw [← List.singleton_append, skip_append_of_isNeutral hname]
  rcases exists_of_dropWhile_isBlank rest with
    hnone | ⟨blanks, colon, tail, rfl, hblanks, hblank⟩
  · have hblanks : ∀ lexeme ∈ rest, isBlank lexeme.kind = true := by
      have hall := List.takeWhile_append_dropWhile
        (p := fun lexeme : Lexeme => isBlank lexeme.kind) (l := rest)
      rw [hnone, List.append_nil] at hall
      rw [← hall]
      exact fun lexeme => List.all_eq_true.mp List.all_takeWhile lexeme
    have hskip := skip_append_of_isNeutral (fun lexeme hmem =>
      isNeutral_of_isBlank (hblanks lexeme hmem)) []
    rw [List.append_nil] at hskip
    rw [behind, readStatement, if_pos hident, hnone, hskip]
    rfl
  · rw [skip_append_of_isNeutral fun lexeme hmem => isNeutral_of_isBlank (hblanks lexeme hmem)]
    by_cases hcolon : colon.kind = .colon
    · have hneutral : ∀ lexeme ∈ [colon], lexeme.kind.isNeutral = true := by
        intro lexeme hmem
        rw [List.mem_singleton.mp hmem, hcolon]
        rfl
      rw [behind_of_colon hident hblanks hcolon, ← List.singleton_append,
        skip_append_of_isNeutral hneutral]
      rfl
    · exact behind_of_not_colon hident hblanks hblank hcolon tail

/-- In a text of length `size`, scanning goes on at `stop` when lexemes are skipped: behind their
first `;`, `{` or `}` outside all blocks, or at the end of the text. -/
def ResumesAt (size : Nat) (lexemes : List Lexeme) (stop : Nat) : Prop :=
  (∃ inner last left, lexemes = inner ++ last :: left ∧ Nesting.top.Encloses inner ∧
      (Nesting.top.behind inner).isTop = true ∧
      (last.kind = .semicolon ∨ last.kind = .leftBrace ∨ last.kind = .rightBrace) ∧
      last.stop = stop) ∨
    Nesting.top.Encloses lexemes ∧ stop = size

/-- What is left of a text when lexemes are skipped starts where scanning goes on. -/
theorem exists_resumption (h : Run source i lexemes source.length) :
    ∃ stop, ResumesAt source.length lexemes stop ∧ i ≤ stop ∧
      Run source stop (skip lexemes) source.length := by
  have hinner := Stretch.encloses_body .top lexemes
  unfold skip
  rcases Stretch.read_parts .top lexemes with ⟨last, hparts, hlast⟩ | ⟨hbody, hrest, -⟩
  · have hwalk := Stretch.walk?_body .top lexemes fun hopen =>
      Ending.ofLexeme?_ne_unclosed last (by rw [hlast, hopen])
    have htop := (Nesting.walk?_eq_some_iff.mp hwalk).2
    have hkind : last.kind = .semicolon ∨ last.kind = .leftBrace ∨ last.kind = .rightBrace := by
      have hsome : (Ending.ofLexeme? last).isSome = true := by rw [hlast]; rfl
      rw [Ending.isSome_ofLexeme?, Bool.or_eq_true, Bool.or_eq_true, beq_iff_eq, beq_iff_eq,
        beq_iff_eq] at hsome
      rcases hsome with (hkind | hkind) | hkind
      · exact .inl hkind
      · exact .inr (.inr hkind)
      · exact .inr (.inl hkind)
    refine ⟨last.stop, .inl ⟨_, last, _, hparts, hinner, by rw [htop]; rfl, hkind, rfl⟩, ?_⟩
    rw [hparts] at h
    obtain ⟨_, hfront, hbehind⟩ := Run.append_iff.mp h
    obtain ⟨rfl, hstands, hrest⟩ := Run.cons_iff.mp hbehind
    exact ⟨Nat.le_trans hfront.le (Nat.le_of_lt hstands.start_lt_stop), hrest⟩
  · rw [← hbody] at hinner
    rw [hrest]
    exact ⟨source.length, .inr ⟨hinner, rfl⟩, h.le, .nil _⟩

end Declaration

end StyleRules
