import StyleRules.Proofs.Declaration.Enclosed
import StyleRules.Proofs.Declaration.Layout

/-!
# Between a name and its value

A name is joined to its value by a colon. Trivia may stand around the colon, and in front of it
also `<!--` and `-->`. Where anything else stands behind a name there is no declaration, and
scanning goes on where skipping leads (`Resolved.headings_all`).
-/

namespace StyleRules

open Lexeme (Run within)

variable {source : CodeUnits}

namespace Declaration

variable {first : Lexeme} {rest lexemes : List Lexeme} {i : Nat}

/-! ## Headings -/

/-- A colon with lexemes of certain kinds in front of it and trivia behind it. -/
def IsHeading (isGap : Token.Kind → Bool) (lexemes : List Lexeme) : Prop :=
  ∃ gap colon lead, lexemes = gap ++ colon :: lead ∧
    (∀ lexeme ∈ gap, isGap lexeme.kind = true) ∧ colon.kind = .colon ∧
    ∀ lexeme ∈ lead, lexeme.isTrivia = true

/-- The lexemes of a text between the name and the value of a declaration. -/
def heading (source : CodeUnits) (declaration : Declaration) : List Lexeme :=
  within ⟨declaration.name.stop, declaration.value.start⟩ (Lexeme.ofText source)

theorem ne_marker_of_isTrivia {kind : Token.Kind} (h : kind.isTrivia = true) :
    kind ≠ .cdo ∧ kind ≠ .cdc := by
  constructor <;> (rintro rfl; exact absurd h (by decide))

theorem isTrivia_of_isBlank {kind : Token.Kind} (h : isBlank kind = true)
    (hmarker : kind ≠ .cdo ∧ kind ≠ .cdc) : kind.isTrivia = true := by
  simpa [isBlank, hmarker.1, hmarker.2] using h

theorem IsHeading.ne_marker (h : IsHeading Token.Kind.isTrivia lexemes) :
    ∀ lexeme ∈ lexemes, lexeme.kind ≠ .cdo ∧ lexeme.kind ≠ .cdc := by
  obtain ⟨gap, colon, lead, rfl, hgap, hcolon, hlead⟩ := h
  intro lexeme hmem
  rcases List.mem_append.mp hmem with hmem | hmem
  · exact ne_marker_of_isTrivia (hgap lexeme hmem)
  rcases List.mem_cons.mp hmem with rfl | hmem
  · rw [hcolon]
    decide
  · exact ne_marker_of_isTrivia (hlead lexeme hmem)

/-- Only trivia is around the colon just if there is no `<!--` and no `-->`. -/
theorem IsHeading.isTrivia_iff (h : IsHeading isBlank lexemes) :
    IsHeading Token.Kind.isTrivia lexemes ↔
      ∀ lexeme ∈ lexemes, lexeme.kind ≠ .cdo ∧ lexeme.kind ≠ .cdc := by
  refine ⟨ne_marker, fun hmarkers => ?_⟩
  obtain ⟨gap, colon, lead, rfl, hgap, hcolon, hlead⟩ := h
  refine ⟨gap, colon, lead, rfl, fun lexeme hmem => ?_, hcolon, hlead⟩
  exact isTrivia_of_isBlank (hgap lexeme hmem) (hmarkers lexeme (List.mem_append_left _ hmem))

theorem Layout.Fits.heading_eq {layout : Layout} {declaration : Declaration} {before : List Lexeme}
    (h : layout.Fits source declaration) (hbefore : Run source 0 before declaration.name.start) :
    declaration.heading source = layout.blanks ++ layout.colon :: layout.lead :=
  (hbefore.append h.run_name).within_ofText h.run_heading

/-! ## Statements -/

def statements (lexemes : List Lexeme) : List (List Lexeme) :=
  match lexemes with
  | [] => []
  | first :: rest =>
    if isPassedOver first.kind then statements rest
    else (first :: rest) :: statements (skip (first :: rest))
termination_by lexemes.length
decreasing_by
  · simp
  · exact Nat.lt_succ_of_le (Stretch.length_rest_cons_le .top first rest)

/-- The declarations in front of a statement are complete where it starts, and the others are read
from there on. -/
theorem exists_earlier_of_mem (h : first :: rest ∈ statements lexemes)
    (hrun : Run source i lexemes source.length) :
    i ≤ first.start ∧ Run source first.start (first :: rest) source.length ∧
      ∃ earlier, ofLexemes source.length lexemes =
          earlier ++ ofLexemes source.length (first :: rest) ∧
        ∀ declaration ∈ earlier, declaration.semicolonEnd ≤ first.start := by
  fun_induction statements lexemes generalizing i with
  | case1 => exact absurd h List.not_mem_nil
  | case2 lexeme lexemes hpassed ih =>
    obtain ⟨rfl, hstands, hbehind⟩ := Run.cons_iff.mp hrun
    obtain ⟨hle, hstatement, earlier, hall, hend⟩ := ih h hbehind
    refine ⟨Nat.le_trans (Nat.le_of_lt hstands.start_lt_stop) hle, hstatement, earlier, ?_, hend⟩
    rw [ofLexemes, if_pos hpassed, hall]
  | case3 lexeme lexemes hpassed ih =>
    rcases List.mem_cons.mp h with hself | h
    · obtain ⟨rfl, rfl⟩ := List.cons.inj hself
      obtain ⟨rfl, -, -⟩ := Run.cons_iff.mp hrun
      exact ⟨Nat.le_refl _, hrun, [], rfl, fun declaration hmem => absurd hmem List.not_mem_nil⟩
    have hleft : (readStatement source.length lexeme lexemes).2 = skip (lexeme :: lexemes) := by
      rw [readStatement_snd, behind_eq_skip]
    rw [ofLexemes, if_neg hpassed]
    dsimp only
    cases hread : (readStatement source.length lexeme lexemes).1 with
    | none =>
      obtain ⟨k, hk, hbehind⟩ := hrun.of_suffix
        ((readStatement_suffix source.length lexeme lexemes).trans (List.suffix_cons ..))
      rw [hleft] at hbehind ⊢
      obtain ⟨hle, hstatement, earlier, hall, hend⟩ := ih h hbehind
      exact ⟨Nat.le_trans hk hle, hstatement, earlier, by rw [hall]; rfl, hend⟩
    | some declaration =>
      obtain ⟨k, hbehind, hk, hstart, hname, hcolon, hvalue, hstop⟩ :=
        readStatement_bounds hrun hread
      rw [hleft] at hbehind ⊢
      obtain ⟨hle, hstatement, earlier, hall, hend⟩ := ih h hbehind
      refine ⟨by omega, hstatement, declaration :: earlier, by rw [hall]; rfl, ?_⟩
      intro other hmem
      rcases List.mem_cons.mp hmem with rfl | hmem
      · exact Nat.le_trans hk hle
      · exact hend other hmem

theorem name_of_readStatement {size : Nat} {declaration : Declaration}
    (h : (readStatement size first rest).1 = some declaration) : declaration.name = first.span := by
  obtain ⟨-, _, _, behind, -, -, -, hstretch, -⟩ := readStatement_eq_some h
  unfold ofStretch? at hstretch
  split at hstretch
  · rw [← Option.some.inj hstretch]
  · exact absurd hstretch (by simp)

section Other

variable {gap tail : List Lexeme} {other : Lexeme}

/-- A name with something other than a colon behind it is skipped from there. -/
theorem behind_of_other (hfirst : first.kind = .ident)
    (hgap : ∀ lexeme ∈ gap, lexeme.isTrivia = true) :
    behind first (gap ++ other :: tail) = skip (other :: tail) := by
  have hneutral : ∀ lexeme ∈ first :: gap, lexeme.kind.isNeutral = true := by
    intro lexeme hmem
    rcases List.mem_cons.mp hmem with rfl | hmem
    · rw [hfirst]
      rfl
    · exact Lexeme.isNeutral_of_isTrivia (hgap lexeme hmem)
  rw [behind_eq_skip, ← List.cons_append, skip_append_of_isNeutral hneutral]

/-- It is no declaration, if it is not a `<!--` or `-->` that stands behind it. -/
theorem readStatement_of_other (size : Nat) (hgap : ∀ lexeme ∈ gap, lexeme.isTrivia = true)
    (hother : other.isTrivia = false) (hcolon : other.kind ≠ .colon) :
    (readStatement size first (gap ++ other :: tail)).1 = none ∨
      other.kind = .cdo ∨ other.kind = .cdc := by
  by_cases hmarker : other.kind = .cdo ∨ other.kind = .cdc
  · exact .inr hmarker
  left
  obtain ⟨hcdo, hcdc⟩ := not_or.mp hmarker
  have hblank : isBlank other.kind = false := by
    rw [Lexeme.isTrivia] at hother
    simp [isBlank, hother, hcdo, hcdc]
  have hblanks : ∀ lexeme ∈ gap, isBlank lexeme.kind = true := by
    intro lexeme hmem
    have htrivia := hgap lexeme hmem
    rw [Lexeme.isTrivia] at htrivia
    simp [isBlank, htrivia]
  rw [readStatement_eq, stretch?_of_not_colon first hblanks hblank hcolon, Option.bind_none]

/-- The declarations of a text in which a name has something other than a colon behind it: those in
front of the name, perhaps one that starts with it, and those of the text from where its statement
is skipped to. -/
theorem exists_parts_of_other
    (h : first :: (gap ++ other :: tail) ∈ statements (Lexeme.ofText source))
    (hfirst : first.kind = .ident) (hgap : ∀ lexeme ∈ gap, lexeme.isTrivia = true)
    (hother : other.isTrivia = false) (hcolon : other.kind ≠ .colon) :
    ∃ earlier found stop, ResumesAt source.length (other :: tail) stop ∧ first.stop ≤ stop ∧
      stop ≤ source.length ∧
      ofText source = earlier ++ (found ++ (ofText (source.drop stop)).map (raise stop)) ∧
      (∀ declaration ∈ earlier, declaration.semicolonEnd ≤ first.start) ∧
      (found = [] ∨ (other.kind = .cdo ∨ other.kind = .cdc) ∧
        ∃ declaration, found = [declaration] ∧ declaration.name = first.span) := by
  obtain ⟨-, hrun, earlier, hall, hend⟩ := exists_earlier_of_mem h (Lexeme.run_ofText source)
  obtain ⟨-, -, hrest⟩ := Run.cons_iff.mp hrun
  obtain ⟨k, hgapRun, htail⟩ := Run.append_iff.mp hrest
  obtain ⟨stop, hresumes, hstop, hleft⟩ := exists_resumption htail
  refine ⟨earlier, (readStatement source.length first (gap ++ other :: tail)).1.toList, stop,
    hresumes, Nat.le_trans hgapRun.le hstop, hleft.le, ?_, hend, ?_⟩
  · have hpassed : isPassedOver first.kind = false := by rw [hfirst]; rfl
    rw [ofText, hall, ofLexemes, if_neg (by rw [hpassed]; exact Bool.false_ne_true)]
    dsimp only
    rw [readStatement_snd, behind_of_other hfirst hgap, ofLexemes_eq_map_raise hleft]
  · cases hread : (readStatement source.length first (gap ++ other :: tail)).1 with
    | none => exact .inl rfl
    | some declaration =>
      right
      refine ⟨?_, declaration, rfl, name_of_readStatement hread⟩
      rcases readStatement_of_other source.length hgap hother hcolon with hnone | hmarker
      · exact absurd (hnone.symm.trans hread) (by simp)
      · exact hmarker

end Other

end Declaration

namespace Resolved

open CodeUnits (ofString)
open Declaration (IsHeading ResumesAt isBlank statements)

/-- Between the name and the value of a declaration there are trivia, `<!--` and `-->`, a colon and
trivia, and nothing else. Only trivia is around the colon just if there is no `<!--` and no `-->`. A
name with something other than a colon behind it is no declaration, except where a `<!--` or `-->`
stands there; the declarations behind it are those of the text from where its statement is skipped
to. -/
theorem headings_all (table : Table) (source : CodeUnits) :
    let text := source.addressable
    (∀ resolved ∈ all table source,
      Run text resolved.declaration.name.stop (resolved.declaration.heading text)
          resolved.declaration.value.start ∧
        IsHeading isBlank (resolved.declaration.heading text) ∧
        (IsHeading Token.Kind.isTrivia (resolved.declaration.heading text) ↔
          ∀ lexeme ∈ resolved.declaration.heading text,
            lexeme.kind ≠ .cdo ∧ lexeme.kind ≠ .cdc)) ∧
      ∀ name gap other tail, name :: (gap ++ other :: tail) ∈ statements (Lexeme.all source) →
        name.kind = .ident → (∀ lexeme ∈ gap, lexeme.isTrivia = true) → other.isTrivia = false →
        other.kind ≠ .colon →
        ∃ earlier found stop, ResumesAt text.length (other :: tail) stop ∧ name.stop ≤ stop ∧
          all table source =
            earlier ++ (found ++ (all table (text.drop stop)).map (raise stop)) ∧
          (∀ resolved ∈ earlier, resolved.declaration.semicolonEnd ≤ name.start) ∧
          (found = [] ∨ (other.kind = .cdo ∨ other.kind = .cdc) ∧
            ∃ resolved, found = [resolved] ∧ resolved.declaration.name = name.span) := by
  intro text
  constructor
  · intro resolved hmem
    obtain ⟨declaration, hdeclaration, rfl⟩ := List.mem_map.mp hmem
    obtain ⟨layout, hfits, before, hbefore⟩ := Declaration.exists_layout_of_mem hdeclaration
    have heq := hfits.heading_eq hbefore
    have hheading : IsHeading isBlank (declaration.heading text) :=
      ⟨_, _, _, heq, hfits.blanks, hfits.colon, hfits.parts.lead⟩
    exact ⟨by rw [ofDeclaration, heq]; exact hfits.run_heading, hheading, hheading.isTrivia_iff⟩
  · intro name gap other tail hstatement hname hgap hother hcolon
    obtain ⟨earlier, found, stop, hresumes, hle, hstop, hall, hend, hfound⟩ :=
      Declaration.exists_parts_of_other hstatement hname hgap hother hcolon
    refine ⟨earlier.map (ofDeclaration table text.toArray),
      found.map (ofDeclaration table text.toArray), stop, hresumes, hle, ?_, ?_, ?_⟩
    · rw [all, all, source.addressable_drop, ofText, hall, List.map_append, List.map_append,
        map_raise table hstop]
    · intro resolved hmem
      obtain ⟨declaration, hdeclaration, rfl⟩ := List.mem_map.mp hmem
      exact hend declaration hdeclaration
    · rcases hfound with rfl | ⟨hmarker, declaration, rfl, hspan⟩
      · exact .inl rfl
      · exact .inr ⟨hmarker, _, rfl, hspan⟩

/-- `a` has the documented heading, `e` has not, and `c` is skipped to the `;` behind `d`. -/
theorem headings_all_of_marker :
    let source := ofString "a/**/: b;c d;e<!--:f"
    let plain : Declaration := ⟨⟨0, 1⟩, ⟨7, 8⟩, false, 9⟩
    let marked : Declaration := ⟨⟨13, 14⟩, ⟨19, 20⟩, false, 20⟩
    all .empty source = [⟨plain, .none⟩, ⟨marked, .none⟩] ∧
      IsHeading Token.Kind.isTrivia (plain.heading source) ∧
      IsHeading isBlank (marked.heading source) ∧
      ¬IsHeading Token.Kind.isTrivia (marked.heading source) ∧
      ∃ earlier stop, 10 ≤ stop ∧
        all .empty source = earlier ++ (all .empty (source.drop stop)).map (raise stop) ∧
        ∀ resolved ∈ earlier, resolved.declaration.semicolonEnd ≤ 9 := by
  intro source plain marked
  have hsource : source.addressable = source := CodeUnits.addressable_of_length_le (by decide)
  have hall : all .empty source = [⟨plain, .none⟩, ⟨marked, .none⟩] := by decide +kernel
  obtain ⟨hheadings, hskipped⟩ := headings_all .empty source
  rw [hsource] at hheadings hskipped
  obtain ⟨-, -, hplain⟩ := hheadings ⟨plain, .none⟩ (by rw [hall]; exact .head _)
  obtain ⟨-, hblank, hmarked⟩ := hheadings ⟨marked, .none⟩ (by rw [hall]; exact .tail _ (.head _))
  have hplainFree : ∀ lexeme ∈ plain.heading source, lexeme.kind ≠ .cdo ∧ lexeme.kind ≠ .cdc := by
    decide +kernel
  have hmarkedFree : ¬∀ lexeme ∈ marked.heading source,
      lexeme.kind ≠ .cdo ∧ lexeme.kind ≠ .cdc := by decide +kernel
  refine ⟨hall, hplain.mpr hplainFree, hblank, fun h => hmarkedFree (hmarked.mp h), ?_⟩
  obtain ⟨earlier, found, stop, hresumes, hle, hparts, hend, hfound⟩ :=
    hskipped ⟨9, ⟨.ident, 1, .empty⟩, ofString "c"⟩ [⟨10, ⟨.whitespace, 1, .empty⟩, ofString " "⟩]
      ⟨11, ⟨.ident, 1, .empty⟩, ofString "d"⟩ ((Lexeme.all source).drop 9) (by decide +kernel) rfl
      (by decide) (by decide) (by decide)
  rcases hfound with rfl | ⟨hmarker, -⟩
  · exact ⟨earlier, stop, hle, hparts, hend⟩
  · exact absurd hmarker (by decide)

/-- A declaration with a `<!--` between its name and its colon. -/
theorem not_isHeading_of_marker :
    let source := ofString "a<!--:b"
    ∃ resolved ∈ all .empty source,
      ¬IsHeading Token.Kind.isTrivia (resolved.declaration.heading source) := by
  intro source
  have hall : all .empty source = [⟨⟨⟨0, 1⟩, ⟨6, 7⟩, false, 7⟩, .none⟩] := by decide +kernel
  refine ⟨_, by rw [hall]; exact .head _, fun h => ?_⟩
  have hmarked : ¬∀ lexeme ∈ (Declaration.mk ⟨0, 1⟩ ⟨6, 7⟩ false 7).heading source,
      lexeme.kind ≠ .cdo ∧ lexeme.kind ≠ .cdc := by decide +kernel
  exact hmarked h.ne_marker

end Resolved

end StyleRules
