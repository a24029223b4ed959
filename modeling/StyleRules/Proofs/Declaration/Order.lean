import StyleRules.Declaration.Scan
import StyleRules.Proofs.Token.Placement

/-!
# Declarations stand in order

Every statement is read from a run of lexemes, so the parts of a declaration follow one another and
the next declaration starts behind its end.
-/

namespace StyleRules

open Lexeme (Run)

variable {source : CodeUnits} {i j : Nat}

theorem Lexeme.Run.of_suffix {lexemes part : List Lexeme} (h : Run source i lexemes j)
    (hpart : part <:+ lexemes) : ∃ k, i ≤ k ∧ Run source k part j := by
  obtain ⟨before, rfl⟩ := hpart
  obtain ⟨k, hbefore, hafter⟩ := Run.append_iff.mp h
  exact ⟨k, hbefore.le, hafter⟩

/-! ## Endings -/

theorem Ending.stop?_cases {lexeme : Lexeme} {ending : Ending} {size stop : Nat}
    (h : ofLexeme? lexeme = some ending) (hstop : ending.stop? size = some stop) :
    lexeme.kind = .semicolon ∧ lexeme.stop = stop ∨
      lexeme.kind = .rightBrace ∧ lexeme.start = stop := by
  unfold ofLexeme? at h
  split at h
  · next hkind =>
    obtain rfl := Option.some.inj h
    exact .inl ⟨hkind, Option.some.inj hstop⟩
  · next hkind =>
    obtain rfl := Option.some.inj h
    exact .inr ⟨hkind, Option.some.inj hstop⟩
  · obtain rfl := Option.some.inj h
    exact absurd hstop (by simp [stop?])
  · exact absurd h (by simp)

/-- Where a declaration ends with a lexeme does not depend on the length of the text. -/
theorem Ending.stop?_of_ofLexeme? {lexeme : Lexeme} {ending : Ending}
    (h : ofLexeme? lexeme = some ending) (size other : Nat) :
    ending.stop? other = ending.stop? size := by
  cases ending with
  | endOfText =>
    unfold ofLexeme? at h
    split at h <;> exact absurd h (by simp)
  | semicolon | closeBrace | openBrace | unclosed => rfl

/-! ## Stretches -/

namespace Stretch

/-- A stretch is followed by the lexeme that ended it, or runs to the last lexeme. -/
theorem read_parts (nesting : Nesting) (lexemes : List Lexeme) :
    (∃ last, lexemes = (read nesting lexemes).body ++ last :: (read nesting lexemes).rest ∧
        Ending.ofLexeme? last = some (read nesting lexemes).ending) ∨
      (lexemes = (read nesting lexemes).body ∧ (read nesting lexemes).rest = [] ∧
        ((read nesting lexemes).ending = .endOfText ∨
          (read nesting lexemes).ending = .unclosed)) := by
  induction lexemes generalizing nesting with
  | nil =>
    right
    refine ⟨rfl, rfl, ?_⟩
    unfold read
    cases nesting.isTop
    · exact .inr rfl
    · exact .inl rfl
  | cons lexeme rest ih =>
    unfold read
    split
    · next ending hending =>
      refine .inl ⟨lexeme, rfl, ?_⟩
      split at hending
      · exact hending
      · exact absurd hending (by simp)
    · rcases ih (nesting.after lexeme.kind) with ⟨last, hparts, hlast⟩ | ⟨hbody, hrest, hending⟩
      · exact .inl ⟨last, congrArg (lexeme :: ·) hparts, hlast⟩
      · exact .inr ⟨congrArg (lexeme :: ·) hbody, hrest, hending⟩

theorem rest_suffix (nesting : Nesting) (lexemes : List Lexeme) :
    (read nesting lexemes).rest <:+ lexemes := by
  rcases read_parts nesting lexemes with ⟨last, hparts, -⟩ | ⟨-, hrest, -⟩
  · refine ⟨(read nesting lexemes).body ++ [last], ?_⟩
    rw [List.append_assoc, List.singleton_append]
    exact hparts.symm
  · rw [hrest]
    exact List.nil_suffix

theorem run_read {lexemes : List Lexeme} (h : Run source i lexemes source.length)
    (nesting : Nesting) :
    ∃ j k, Run source i (read nesting lexemes).body j ∧ j ≤ k ∧
      Run source k (read nesting lexemes).rest source.length ∧
      ∀ stop, (read nesting lexemes).ending.stop? source.length = some stop →
        j ≤ stop ∧ stop ≤ k := by
  rcases read_parts nesting lexemes with ⟨last, hparts, hlast⟩ | ⟨hbody, hrest, hending⟩
  · rw [hparts] at h
    obtain ⟨j, hbody, hbehind⟩ := Run.append_iff.mp h
    obtain ⟨rfl, hstands, hrest⟩ := Run.cons_iff.mp hbehind
    have hlt := hstands.start_lt_stop
    refine ⟨_, _, hbody, Nat.le_of_lt hlt, hrest, fun stop hstop => ?_⟩
    rcases Ending.stop?_cases hlast hstop with ⟨-, rfl⟩ | ⟨-, rfl⟩ <;> omega
  · rw [hrest, ← hbody]
    refine ⟨_, _, h, Nat.le_refl _, .nil _, fun stop hstop => ?_⟩
    rcases hending with hend | hend
    · rw [hend] at hstop
      obtain rfl := Option.some.inj hstop
      exact ⟨Nat.le_refl _, Nat.le_refl _⟩
    · rw [hend] at hstop
      exact absurd hstop (by simp [Ending.stop?])

end Stretch

/-! ## Values -/

namespace Value

theorem splitImportant_sublist (lexemes : List Lexeme) :
    (splitImportant lexemes).1.Sublist lexemes := by
  unfold splitImportant
  split
  · next word bang before hreverse =>
    split
    · rw [← List.reverse_reverse lexemes, hreverse, List.reverse_cons, List.reverse_cons,
        List.append_assoc]
      exact List.sublist_append_left _ _
    · exact List.Sublist.refl _
  · exact List.Sublist.refl _

theorem ofBody?_bounds {body : List Lexeme} (h : Run source i body j) {value : Value}
    (hvalue : ofBody? body = some value) :
    i ≤ value.span.start ∧ value.span.start < value.span.stop ∧ value.span.stop ≤ j := by
  unfold ofBody? at hvalue
  dsimp only at hvalue
  split at hvalue
  · exact absurd hvalue (by simp)
  · obtain ⟨span, hspan, rfl⟩ := Option.map_eq_some_iff.mp hvalue
    have hpart : (splitImportant (body.filter fun lexeme => !lexeme.isTrivia)).1.Sublist body :=
      (splitImportant_sublist _).trans List.filter_sublist
    unfold cover? at hspan
    split at hspan
    · next first last hfirst hlast =>
      obtain rfl := Option.some.inj hspan
      have hmemFirst := hpart.subset (List.mem_of_head? hfirst)
      have hmemLast := hpart.subset (List.mem_of_getLast? hlast)
      have horder := h.head_le_getLast hpart hfirst hlast
      have hlt := (h.stands hmemLast).start_lt_stop
      exact ⟨h.le_start hmemFirst, Nat.lt_of_le_of_lt horder hlt, h.stop_le hmemLast⟩
    · exact absurd hspan (by simp)

end Value

/-! ## Declarations -/

namespace Declaration

/-- Declarations of a text of length `size` that come one behind the other, none before `start`. -/
def InOrder (size : Nat) : Nat → List Declaration → Prop
  | start, [] => start ≤ size
  | start, declaration :: rest =>
    start ≤ declaration.name.start ∧ declaration.name.start < declaration.name.stop ∧
      declaration.name.stop < declaration.value.start ∧
      declaration.value.start < declaration.value.stop ∧
      declaration.value.stop ≤ declaration.semicolonEnd ∧
      InOrder size declaration.semicolonEnd rest

theorem InOrder.mono {size : Nat} {declarations : List Declaration} (hle : i ≤ j)
    (h : InOrder size j declarations) : InOrder size i declarations := by
  cases declarations with
  | nil => exact Nat.le_trans hle h
  | cons declaration rest => exact ⟨Nat.le_trans hle h.1, h.2⟩

theorem readStatement_suffix (size : Nat) (first : Lexeme) (rest : List Lexeme) :
    (readStatement size first rest).2 <:+ rest := by
  have hskip : ∀ lexeme lexemes, skip (lexeme :: lexemes) <:+ lexemes := by
    intro lexeme lexemes
    unfold skip Stretch.read
    split
    · exact List.suffix_refl _
    · exact Stretch.rest_suffix _ _
  unfold readStatement
  split
  · have hdrop := rest.dropWhile_suffix fun lexeme => isBlank lexeme.kind
    split
    · exact List.nil_suffix
    · next colon behind hbehind =>
      rw [hbehind] at hdrop
      have hbehind := (List.suffix_cons colon behind).trans hdrop
      split
      · exact (Stretch.rest_suffix _ _).trans hbehind
      · exact (hskip _ _).trans hbehind
  · exact hskip _ _

/-- A declaration comes from a name, a colon behind it, and the stretch behind the colon. -/
theorem readStatement_eq_some {size : Nat} {first : Lexeme} {rest : List Lexeme}
    {declaration : Declaration} (h : (readStatement size first rest).1 = some declaration) :
    first.kind = .ident ∧ ∃ blanks colon behind, rest = blanks ++ colon :: behind ∧
      (∀ lexeme ∈ blanks, isBlank lexeme.kind = true) ∧ colon.kind = .colon ∧
      ofStretch? size first (Stretch.read .top behind) = some declaration ∧
      (readStatement size first rest).2 = (Stretch.read .top behind).rest := by
  unfold readStatement at h ⊢
  split at h
  · next hident =>
    refine ⟨hident, ?_⟩
    split at h
    · exact absurd h (by simp)
    · next colon behind hbehind =>
      split at h
      · next hcolon =>
        refine ⟨rest.takeWhile fun lexeme => isBlank lexeme.kind, colon, behind, ?_, ?_, hcolon, h,
          ?_⟩
        · rw [← hbehind, List.takeWhile_append_dropWhile]
        · intro lexeme hlexeme
          exact List.all_eq_true.mp List.all_takeWhile lexeme hlexeme
        · rw [if_pos hcolon, if_pos hident]
      · exact absurd h (by simp)
  · exact absurd h (by simp)

/-- A declaration read from a run lies in it, and what is left starts behind it. -/
theorem readStatement_bounds {first : Lexeme} {rest : List Lexeme}
    (h : Run source i (first :: rest) source.length) {declaration : Declaration}
    (hread : (readStatement source.length first rest).1 = some declaration) :
    ∃ k, Run source k (readStatement source.length first rest).2 source.length ∧
      declaration.semicolonEnd ≤ k ∧ i ≤ declaration.name.start ∧
      declaration.name.start < declaration.name.stop ∧
      declaration.name.stop < declaration.value.start ∧
      declaration.value.start < declaration.value.stop ∧
      declaration.value.stop ≤ declaration.semicolonEnd := by
  obtain ⟨-, blanks, colon, behind, hparts, -, -, hstretch, hleft⟩ := readStatement_eq_some hread
  obtain ⟨rfl, hfirst, hrest⟩ := Run.cons_iff.mp h
  rw [hparts] at hrest
  obtain ⟨_, hblanks, hcolon⟩ := Run.append_iff.mp hrest
  obtain ⟨rfl, hstands, hbehind⟩ := Run.cons_iff.mp hcolon
  obtain ⟨j, k, hbody, -, hlast, hstop⟩ := Stretch.run_read hbehind .top
  unfold ofStretch? at hstretch
  split at hstretch
  · next stop value hending hvalue =>
    obtain rfl := Option.some.inj hstretch
    obtain ⟨hstart, hlt, hle⟩ := Value.ofBody?_bounds hbody hvalue
    obtain ⟨hfrom, hto⟩ := hstop stop hending
    have hname := hblanks.le
    have hpast := hstands.start_lt_stop
    rw [hleft]
    refine ⟨k, hlast, hto, Nat.le_refl _, hfirst.start_lt_stop, ?_, hlt, Nat.le_trans hle hfrom⟩
    show first.stop < value.span.start
    omega
  · exact absurd hstretch (by simp)

theorem inOrder_ofLexemes {lexemes : List Lexeme} (h : Run source i lexemes source.length) :
    InOrder source.length i (ofLexemes source.length lexemes) := by
  fun_induction ofLexemes source.length lexemes generalizing i with
  | case1 => exact h.le
  | case2 first rest hpassed ih =>
    obtain ⟨rfl, hstands, hrest⟩ := Run.cons_iff.mp h
    exact (ih hrest).mono (Nat.le_of_lt hstands.start_lt_stop)
  | case3 first rest hpassed statement =>
    rename_i ih
    cases hread : (readStatement source.length first rest).1 with
    | none =>
      obtain ⟨k, hle, hrun⟩ := h.of_suffix
        ((readStatement_suffix source.length first rest).trans (List.suffix_cons first rest))
      exact (ih hrun).mono hle
    | some declaration =>
      obtain ⟨k, hrun, hend, hstart, hname, hcolon, hvalue, hstop⟩ := readStatement_bounds h hread
      exact ⟨hstart, hname, hcolon, hvalue, hstop, (ih hrun).mono hend⟩

theorem inOrder_ofText (source : CodeUnits) : InOrder source.length 0 (ofText source) :=
  inOrder_ofLexemes (Lexeme.run_ofText source)

end Declaration

end StyleRules
