import StyleRules.Declaration.Resolved
import StyleRules.Proofs.Declaration.Reading

/-!
# Declarations lie on tokens

Every declaration of a text is sound: its parts lie in the text in their order, its name is one
identifier, its value begins and ends where tokens do, and it is complete where a token ends it or
the text does.
-/

namespace StyleRules

open Lexeme (Run)

/-! ## Values and endings -/

theorem Value.mem_of_ofBody? {body : List Lexeme} {value : Value}
    (h : ofBody? body = some value) :
    (∃ first ∈ body, first.start = value.span.start) ∧
      ∃ last ∈ body, last.stop = value.span.stop := by
  obtain ⟨lead, core, tail, first, last, hparts, hfirst, hlast, hspan⟩ := parts_of_ofBody? h
  have hcore : ∀ lexeme ∈ core, lexeme ∈ body := by
    intro lexeme hmem
    rw [hparts.split]
    simp [hmem]
  rw [hspan]
  exact ⟨⟨first, hcore _ (List.mem_of_head? hfirst), rfl⟩,
    last, hcore _ (List.mem_of_getLast? hlast), rfl⟩

/-- Where a declaration can be complete in a text of length `size` that has these lexemes. -/
def Stretch.StopsAt (lexemes : List Lexeme) (size stop : Nat) : Prop :=
  (∃ last ∈ lexemes, last.kind = .semicolon ∧ last.stop = stop) ∨ stop = size ∨
    ∃ last ∈ lexemes, last.kind = .rightBrace ∧ last.start = stop

theorem Stretch.stopsAt_of_stop? {nesting : Nesting} {lexemes : List Lexeme} {size stop : Nat}
    (h : (read nesting lexemes).ending.stop? size = some stop) : StopsAt lexemes size stop := by
  rcases read_parts nesting lexemes with ⟨last, hparts, hlast⟩ | ⟨-, -, hending⟩
  · have hmem : last ∈ lexemes := by
      rw [hparts]
      simp
    rcases Ending.stop?_cases hlast h with hsemicolon | hbrace
    · exact .inl ⟨last, hmem, hsemicolon⟩
    · exact .inr (.inr ⟨last, hmem, hbrace⟩)
  · rcases hending with hend | hend
    · rw [hend] at h
      exact .inr (.inl (Option.some.inj h).symm)
    · rw [hend] at h
      exact absurd h (by simp [Ending.stop?])

theorem Stretch.StopsAt.mono {part lexemes : List Lexeme} {size stop : Nat}
    (hpart : part ⊆ lexemes) (h : StopsAt part size stop) : StopsAt lexemes size stop := by
  rcases h with ⟨last, hmem, hlast⟩ | hsize | ⟨last, hmem, hlast⟩
  · exact .inl ⟨last, hpart hmem, hlast⟩
  · exact .inr (.inl hsize)
  · exact .inr (.inr ⟨last, hpart hmem, hlast⟩)

theorem Stretch.body_subset (nesting : Nesting) (lexemes : List Lexeme) :
    (read nesting lexemes).body ⊆ lexemes := by
  intro lexeme hmem
  rcases read_parts nesting lexemes with ⟨last, hparts, -⟩ | ⟨hparts, -, -⟩
  · rw [hparts]
    exact List.mem_append_left _ hmem
  · rw [hparts]
    exact hmem

namespace Declaration

structure IsSound (source : CodeUnits) (declaration : Declaration) : Prop where
  name_lt : declaration.name.start < declaration.name.stop
  name_lt_value : declaration.name.stop < declaration.value.start
  value_lt : declaration.value.start < declaration.value.stop
  value_le : declaration.value.stop ≤ declaration.semicolonEnd
  end_le : declaration.semicolonEnd ≤ source.length
  colon : ∃ i, declaration.name.stop ≤ i ∧ i < declaration.value.start ∧
    source[i]? = some CodeUnit.colon
  name : ∃ lexeme ∈ Lexeme.ofText source, lexeme.kind = .ident ∧ lexeme.span = declaration.name
  startsIdentifier : (declaration.name.slice source).startsIdentifier = true
  value_start : ∃ lexeme ∈ Lexeme.ofText source, lexeme.start = declaration.value.start
  value_stop : ∃ lexeme ∈ Lexeme.ofText source, lexeme.stop = declaration.value.stop
  stopsAt : Stretch.StopsAt (Lexeme.ofText source) source.length declaration.semicolonEnd

variable {source : CodeUnits} {declaration : Declaration}

/-! ## One statement -/

theorem isSound_of_readStatement {first : Lexeme} {rest : List Lexeme}
    (hsuffix : first :: rest <:+ Lexeme.ofText source)
    (hread : (readStatement source.length first rest).1 = some declaration) :
    declaration.IsSound source := by
  obtain ⟨i, -, hrun⟩ := (Lexeme.run_ofText source).of_suffix hsuffix
  obtain ⟨k, hleft, hend, -, hname, hlt, hvalue, hstop⟩ := readStatement_bounds hrun hread
  obtain ⟨hident, blanks, colon, behind, rfl, -, hcolon, hstretch, -⟩ := readStatement_eq_some hread
  have hmem : ∀ lexeme ∈ first :: (blanks ++ colon :: behind), lexeme ∈ Lexeme.ofText source :=
    fun lexeme h => hsuffix.subset h
  have hbehind : behind ⊆ Lexeme.ofText source := fun lexeme h => hmem lexeme (by simp [h])
  have hbody := Stretch.body_subset .top behind
  obtain ⟨rfl, hfirst, hrest⟩ := Run.cons_iff.mp hrun
  obtain ⟨_, hblanks, hcolonRun⟩ := Run.append_iff.mp hrest
  obtain ⟨rfl, hstands, hbehindRun⟩ := Run.cons_iff.mp hcolonRun
  unfold ofStretch? at hstretch
  split at hstretch
  · next stop value hstop? hvalue? =>
    obtain rfl := Option.some.inj hstretch
    obtain ⟨⟨start, hstart, hstartEq⟩, last, hlast, hlastEq⟩ := Value.mem_of_ofBody? hvalue?
    have hpast : colon.start < value.span.start := by
      have := hstands.start_lt_stop
      have := hbehindRun.le_start (hbody hstart)
      omega
    have hunit : source[colon.start]? = some CodeUnit.colon := by
      rw [← hstands.head?_units, hstands.units_of_colon hcolon]
      rfl
    have hstarts : (first.span.slice source).startsIdentifier = true := by
      rw [Lexeme.kind, hfirst.token] at hident
      rw [hfirst.span_slice, hfirst.units, hfirst.token]
      exact Token.startsIdentifier_of_ident hident
    exact
      { name_lt := hname
        name_lt_value := hlt
        value_lt := hvalue
        value_le := hstop
        end_le := Nat.le_trans hend hleft.le
        colon := ⟨colon.start, hblanks.le, hpast, hunit⟩
        name := ⟨first, hmem _ List.mem_cons_self, hident, rfl⟩
        startsIdentifier := hstarts
        value_start := ⟨start, hbehind (hbody hstart), hstartEq⟩
        value_stop := ⟨last, hbehind (hbody hlast), hlastEq⟩
        stopsAt := (Stretch.stopsAt_of_stop? hstop?).mono hbehind }
  · exact absurd hstretch (by simp)

/-! ## All statements -/

theorem exists_statement_of_mem {size : Nat} {lexemes : List Lexeme}
    (h : declaration ∈ ofLexemes size lexemes) :
    ∃ first rest, first :: rest <:+ lexemes ∧
      (readStatement size first rest).1 = some declaration := by
  fun_induction ofLexemes size lexemes with
  | case1 => exact absurd h List.not_mem_nil
  | case2 first rest hpassed ih =>
    obtain ⟨name, behind, hsuffix, hread⟩ := ih h
    exact ⟨name, behind, hsuffix.trans (List.suffix_cons first rest), hread⟩
  | case3 first rest hpassed statement ih =>
    rcases List.mem_append.mp h with hhere | hlater
    · exact ⟨first, rest, List.suffix_refl _, Option.mem_toList.mp hhere⟩
    · obtain ⟨name, behind, hsuffix, hread⟩ := ih hlater
      have hleft : statement.2 <:+ rest := readStatement_suffix size first rest
      exact ⟨name, behind, hsuffix.trans (hleft.trans (List.suffix_cons first rest)), hread⟩

theorem isSound_of_mem (h : declaration ∈ ofText source) : declaration.IsSound source := by
  obtain ⟨first, rest, hsuffix, hread⟩ := exists_statement_of_mem h
  exact isSound_of_readStatement hsuffix hread

theorem IsSound.start_le (h : declaration.IsSound source) :
    declaration.name.start ≤ declaration.value.stop := by
  have := h.name_lt
  have := h.name_lt_value
  have := h.value_lt
  omega

theorem InOrder.pairwise {size start : Nat} {declarations : List Declaration}
    (h : InOrder size start declarations) :
    (∀ declaration ∈ declarations, start ≤ declaration.name.start) ∧
      declarations.Pairwise fun first second => first.semicolonEnd ≤ second.name.start := by
  induction declarations generalizing start with
  | nil => exact ⟨fun _ hmem => absurd hmem List.not_mem_nil, .nil⟩
  | cons declaration rest ih =>
    obtain ⟨hstart, hname, hcolon, hvalue, hend, hrest⟩ := h
    obtain ⟨hbehind, hpairs⟩ := ih hrest
    refine ⟨fun other hmem => ?_, List.pairwise_cons.mpr ⟨hbehind, hpairs⟩⟩
    rcases List.mem_cons.mp hmem with rfl | hmem
    · exact hstart
    · have := hbehind other hmem
      omega

end Declaration

theorem Resolved.isSound_declaration {table : Table} {source : CodeUnits} {resolved : Resolved}
    (h : resolved ∈ ofText table source) : resolved.declaration.IsSound source := by
  obtain ⟨declaration, hdeclaration, rfl⟩ := List.mem_map.mp h
  exact Declaration.isSound_of_mem hdeclaration

theorem Resolved.semicolonEnd_le {table : Table} {source : CodeUnits} {resolved : Resolved}
    (h : resolved ∈ all table source) :
    resolved.declaration.semicolonEnd ≤ source.addressable.length ∧
      resolved.declaration.semicolonEnd ≤ CodeUnits.maxLength := by
  have hend := (isSound_declaration h).end_le
  exact ⟨hend, Nat.le_trans hend source.length_addressable_le⟩

/-- The name and the value of a reported declaration are those of the whole text. -/
theorem Resolved.slice_addressable {table : Table} {source : CodeUnits} {resolved : Resolved}
    (h : resolved ∈ all table source) :
    resolved.declaration.name.slice source.addressable =
        resolved.declaration.name.slice source ∧
      resolved.declaration.value.slice source.addressable =
        resolved.declaration.value.slice source := by
  have hsound := isSound_declaration h
  have hend := (semicolonEnd_le h).2
  have := hsound.name_lt_value
  have := hsound.value_lt
  have := hsound.value_le
  exact ⟨Span.slice_addressable _ _ (by omega), Span.slice_addressable _ _ (by omega)⟩

/-- The declarations of a text are sound under every table, and none starts before the one before it
is complete. -/
theorem Resolved.isSound_all (table : Table) (source : CodeUnits) :
    (∀ resolved ∈ all table source, resolved.declaration.IsSound source.addressable) ∧
      (all table source).Pairwise fun first second =>
        first.declaration.semicolonEnd ≤ second.declaration.name.start := by
  constructor
  · exact fun resolved => isSound_declaration
  · exact List.pairwise_map.mpr (Declaration.inOrder_ofText source.addressable).pairwise.2

end StyleRules
