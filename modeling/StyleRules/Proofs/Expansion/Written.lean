import StyleRules.Expansion.Style
import StyleRules.Proofs.Declaration.Written
import StyleRules.Proofs.Expansion.Emission
import StyleRules.Proofs.Token.Closed

/-!
# Written declarations are found again

Declarations that are written one behind the other, each with a `;` behind it, as the declarations
for the children of an element are. What is written is found exactly (`Resolved.all_written`) if the
values are whole, no value ends with a backslash in its last token, which might take the `;`, and
offsets reach through all of the text.
-/

namespace StyleRules

open CodeUnits (maxLength ofString)
open Lexeme (pieces)
open Value (Core Mark Unmarked)

instance (core : List Lexeme) : Decidable (Core core) :=
  decidable_of_iff (core ≠ [] ∧ (∀ first ∈ core.head?, first.isTrivia = false) ∧
      (∀ last ∈ core.getLast?, last.isTrivia = false) ∧
      (∀ lexeme ∈ core, lexeme.isTrivia = false → lexeme.isMalformed = false) ∧
      Nesting.top.walk? core = some .top)
    ⟨fun ⟨hne, hfirst, hlast, hcomplete, hwalk⟩ => ⟨hne, hfirst, hlast, hcomplete, hwalk⟩,
      fun h => ⟨h.ne_nil, h.first, h.last, h.complete, h.walk⟩⟩

namespace Emitted

variable {emitted : Emitted} {isImportant : Bool} {rest : CodeUnits}

/-- A declaration that is found again when it is written: its name is one identifier, its value is
whole and does not end in `!important`, and there is no backslash in the last token of the value. -/
structure IsWritable (emitted : Emitted) : Prop where
  name : (Token.ofText (ofString emitted.name)).map Token.kind = [.ident]
  value : Core (pieces emitted.value)
  unmarked : Unmarked (pieces emitted.value)
  closed : ∀ last ∈ (pieces emitted.value).getLast?, CodeUnit.backslash ∉ last.units

instance (emitted : Emitted) : Decidable emitted.IsWritable :=
  decidable_of_iff ((Token.ofText (ofString emitted.name)).map Token.kind = [.ident] ∧
      Core (pieces emitted.value) ∧
      Value.splitImportant (Value.significant (pieces emitted.value)) =
        (Value.significant (pieces emitted.value), false) ∧
      ∀ last ∈ (pieces emitted.value).getLast?, CodeUnit.backslash ∉ last.units)
    ⟨fun ⟨hname, hvalue, hunmarked, hclosed⟩ => ⟨hname, hvalue, hunmarked, hclosed⟩,
      fun h => ⟨h.name, h.value, h.unmarked, h.closed⟩⟩

/-- Declarations written one behind the other, each with a `;` behind it. The flag says whether a
declaration is important. -/
def written (declarations : List (Emitted × Bool)) : CodeUnits :=
  declarations.flatMap fun declaration =>
    declaration.1.units declaration.2 ++ [CodeUnit.semicolon]

def place (start : Nat) (isImportant : Bool) (emitted : Emitted) : Declaration :=
  let colon := start + (ofString emitted.name).length
  ⟨⟨start, colon⟩, ⟨colon + 1, colon + 1 + emitted.value.length⟩, isImportant,
    start + (emitted.units isImportant).length + 1⟩

def places (start : Nat) : List (Emitted × Bool) → List Declaration
  | [] => []
  | (emitted, isImportant) :: rest =>
    let declaration := emitted.place start isImportant
    declaration :: places declaration.semicolonEnd rest

theorem semicolonEnd_place_zero (isImportant : Bool) (emitted : Emitted) :
    (emitted.place 0 isImportant).semicolonEnd = (emitted.units isImportant).length + 1 := by
  show 0 + (emitted.units isImportant).length + 1 = _
  rw [Nat.zero_add]

theorem raise_place (n start : Nat) (isImportant : Bool) (emitted : Emitted) :
    (emitted.place start isImportant).raise n = emitted.place (n + start) isImportant := by
  simp only [place, Declaration.raise, Span.raise, Nat.add_assoc]

theorem map_raise_places (n start : Nat) (declarations : List (Emitted × Bool)) :
    (places start declarations).map (Declaration.raise n) = places (n + start) declarations := by
  induction declarations generalizing start with
  | nil => rfl
  | cons declaration rest ih =>
    rw [places, places, List.map_cons, raise_place, ih]
    simp only [place, Nat.add_assoc]

/-! ## One declaration -/

theorem IsWritable.pieces_units (h : emitted.IsWritable) (isImportant : Bool) (rest : CodeUnits) :
    ∃ token mark, token.kind = .ident ∧ Mark (pieces emitted.value) mark isImportant ∧
      pieces (emitted.units isImportant ++ CodeUnit.semicolon :: rest) =
        ⟨0, token, ofString emitted.name⟩ :: ⟨0, .plain .colon 1, [CodeUnit.colon]⟩ ::
          (pieces emitted.value ++ mark ++
            ⟨0, .plain .semicolon 1, [CodeUnit.semicolon]⟩ :: pieces rest) := by
  obtain ⟨token, htokens, hkind⟩ := List.map_eq_singleton_iff.mp h.name
  have hcolon : ∀ y, pieces (CodeUnit.colon :: y) =
      ⟨0, .plain .colon 1, [CodeUnit.colon]⟩ :: pieces y :=
    fun y => Lexeme.pieces_mark (by decide) rfl
  have hsemicolon : pieces (CodeUnit.semicolon :: rest) =
      ⟨0, .plain .semicolon 1, [CodeUnit.semicolon]⟩ :: pieces rest :=
    Lexeme.pieces_mark (by decide) rfl
  have hlast : ∀ last, (pieces emitted.value).getLast? = some last →
      last.isTrivia = false ∧ CodeUnit.backslash ∉ last.units :=
    fun last hend => ⟨h.value.last last hend, h.closed last hend⟩
  rw [Emitted.units_eq, Lexeme.pieces_append_of_ident htokens hkind (by decide) rfl, hcolon]
  cases isImportant with
  | false =>
    refine ⟨token, [], hkind, ⟨fun _ hmem => absurd hmem List.not_mem_nil,
      fun _ hmem => absurd hmem List.not_mem_nil, fun h => absurd h (by decide),
      fun _ => ⟨rfl, h.unmarked⟩⟩, ?_⟩
    rw [if_neg Bool.false_ne_true, List.nil_append, List.append_nil,
      Lexeme.pieces_append_of_closed (by decide) (by decide) h.value.complete hlast
        (Token.Break.of_not rfl (by decide)), hsemicolon]
  | true =>
    refine ⟨token, _, hkind, Value.mark_space_bangImportant _, ?_⟩
    have hbreak : Token.Break CodeUnit.space (CodeUnit.exclamationMark :: ofString "important" ++
        CodeUnit.semicolon :: rest) := ⟨fun _ => rfl, fun hbang => absurd hbang (by decide)⟩
    have hbang := Lexeme.pieces_bangImportant (w := CodeUnit.semicolon :: rest) rfl
    rw [if_pos rfl, CodeUnits.ofString_important, List.cons_append,
      Lexeme.pieces_append_of_closed (by decide) (by decide) h.value.complete hlast hbreak,
      Lexeme.pieces_space rfl, hbang, hsemicolon, List.append_assoc]
    rfl

/-- A written declaration is found where it is written, and what is behind it is read as if it
stood alone. -/
theorem IsWritable.ofText_append (h : emitted.IsWritable) (isImportant : Bool) (rest : CodeUnits) :
    Declaration.ofText (emitted.units isImportant ++ CodeUnit.semicolon :: rest) =
        emitted.place 0 isImportant :: (Declaration.ofText rest).map
          (Declaration.raise (emitted.place 0 isImportant).semicolonEnd) ∧
      (emitted.place 0 isImportant).reading
          (emitted.units isImportant ++ CodeUnit.semicolon :: rest) =
        emitted.reading isImportant := by
  obtain ⟨token, mark, hkind, hmark, hpieces⟩ := h.pieces_units isImportant rest
  have htrail : ∀ lexeme ∈ ([] : List Lexeme), lexeme.isTrivia = true := by simp
  have hparts := h.value.parts hmark htrail
  have hwalk := h.value.walk_body hmark htrail
  rw [List.append_nil] at hparts hwalk
  have hfirst : ∀ first, (pieces emitted.value ++ mark).head? = some first →
      first.isTrivia = false := by
    intro first hhead
    obtain ⟨lexeme, core, hcore⟩ := List.exists_cons_of_ne_nil h.value.ne_nil
    apply h.value.first
    rw [hcore] at hhead ⊢
    exact hhead
  have hlength : (emitted.units isImportant ++ CodeUnit.semicolon :: rest).length =
      (emitted.place 0 isImportant).semicolonEnd + rest.length := by
    rw [List.length_append, List.length_cons, semicolonEnd_place_zero]
    omega
  obtain ⟨declaration, hall, hplace, hreading⟩ := Declaration.ofText_of_pieces hpieces hkind rfl rfl
    hwalk hfirst hparts.text?_eq hlength
  rw [Lexeme.units_pieces] at hplace hreading
  have hself : declaration = emitted.place 0 isImportant := by
    rw [hplace, place, Nat.zero_add]
    rfl
  rw [hself] at hall hreading
  exact ⟨hall, hreading⟩

end Emitted

theorem Declaration.reading_raise {source : CodeUnits} {n : Nat} (hn : n ≤ source.length)
    (declaration : Declaration) :
    (declaration.raise n).reading source = declaration.reading (source.drop n) := by
  simp only [reading, raise, Span.slice_raise hn]

/-! ## Lists of declarations -/

theorem Emitted.drop_units (emitted : Emitted) (isImportant : Bool) (rest : CodeUnits) :
    (emitted.place 0 isImportant).semicolonEnd ≤
        (emitted.units isImportant ++ CodeUnit.semicolon :: rest).length ∧
      (emitted.units isImportant ++ CodeUnit.semicolon :: rest).drop
        (emitted.place 0 isImportant).semicolonEnd = rest := by
  rw [semicolonEnd_place_zero]
  constructor
  · rw [List.length_append, List.length_cons]
    omega
  · rw [← List.singleton_append, ← List.append_assoc]
    exact List.drop_left' (by rw [List.length_append, List.length_singleton])

theorem Emitted.declarations_written {declarations : List (Emitted × Bool)}
    (h : ∀ declaration ∈ declarations, declaration.1.IsWritable) :
    Declaration.ofText (written declarations) = places 0 declarations ∧
      (Declaration.ofText (written declarations)).map (Declaration.reading (written declarations)) =
        declarations.map fun declaration => declaration.1.reading declaration.2 := by
  induction declarations with
  | nil => exact ⟨by decide +kernel, by decide +kernel⟩
  | cons declaration rest ih =>
    obtain ⟨emitted, isImportant⟩ := declaration
    have hfirst : emitted.IsWritable := h _ List.mem_cons_self
    obtain ⟨hplaces, hreadings⟩ :=
      ih fun declaration hmem => h declaration (List.mem_cons_of_mem _ hmem)
    have htext : written ((emitted, isImportant) :: rest) =
        emitted.units isImportant ++ CodeUnit.semicolon :: written rest := by
      rw [written, List.flatMap_cons, List.append_assoc, List.singleton_append]
      rfl
    obtain ⟨hall, hreading⟩ := hfirst.ofText_append isImportant (written rest)
    rw [← htext] at hall hreading
    obtain ⟨hle, hdrop⟩ := drop_units emitted isImportant (written rest)
    rw [← htext] at hle hdrop
    constructor
    · rw [hall, hplaces, map_raise_places, places]
      rfl
    · rw [hall, List.map_cons, hreading, List.map_map, List.map_cons, ← hreadings]
      congr 1
      apply List.map_congr_left
      intro found _
      rw [Function.comp_apply, Declaration.reading_raise hle, hdrop]

/-- Behind a written declaration the others are resolved as if they stood alone. -/
theorem Emitted.IsWritable.resolved_append {emitted : Emitted} (h : emitted.IsWritable)
    (table : Table) (isImportant : Bool) (rest : CodeUnits) :
    ∃ first, Resolved.ofText table (emitted.units isImportant ++ CodeUnit.semicolon :: rest) =
      first :: (Resolved.ofText table rest).map
        (Resolved.raise (emitted.place 0 isImportant).semicolonEnd) := by
  obtain ⟨hlength, hdrop⟩ := drop_units emitted isImportant rest
  have hall := Resolved.map_raise table hlength
  rw [hdrop] at hall
  rw [← hall, Resolved.ofText, (h.ofText_append isImportant rest).1]
  exact ⟨_, rfl⟩

theorem Emitted.exists_mem_places {declarations : List (Emitted × Bool)} (h : declarations ≠ [])
    (start : Nat) : ∃ declaration ∈ places start declarations,
      declaration.semicolonEnd = start + (written declarations).length := by
  induction declarations generalizing start with
  | nil => exact absurd rfl h
  | cons declaration rest ih =>
    obtain ⟨emitted, isImportant⟩ := declaration
    have hlength : (written ((emitted, isImportant) :: rest)).length =
        (emitted.units isImportant).length + 1 + (written rest).length := by
      rw [written, List.flatMap_cons, List.length_append, List.length_append,
        List.length_singleton]
      rfl
    by_cases hrest : rest = []
    · refine ⟨_, List.mem_cons_self, ?_⟩
      rw [hlength, hrest]
      rfl
    · obtain ⟨last, hmem, hlast⟩ := ih hrest (emitted.place start isImportant).semicolonEnd
      refine ⟨last, List.mem_cons_of_mem _ hmem, ?_⟩
      rw [hlast, hlength]
      simp only [place, Nat.add_assoc]

namespace Resolved

/-- Under every table, a scan of written declarations reports just these: each lies where it is
written, is complete just past its `;`, and says what was written. -/
theorem all_written (table : Table) {declarations : List (Emitted × Bool)}
    (h : ∀ declaration ∈ declarations, declaration.1.IsWritable)
    (hfits : (Emitted.written declarations).length ≤ maxLength) :
    (all table (Emitted.written declarations)).map declaration = Emitted.places 0 declarations ∧
      ((all table (Emitted.written declarations)).map fun resolved =>
          resolved.declaration.reading (Emitted.written declarations)) =
        declarations.map fun declaration => declaration.1.reading declaration.2 := by
  obtain ⟨hplaces, hreadings⟩ := Emitted.declarations_written h
  have hdeclarations : (ofText table (Emitted.written declarations)).map declaration =
      Declaration.ofText (Emitted.written declarations) := by
    rw [ofText, List.map_map]
    exact List.map_id _
  rw [all, CodeUnits.addressable_of_length_le hfits]
  refine ⟨hdeclarations.trans hplaces, ?_⟩
  rw [← hreadings, ← hdeclarations, List.map_map]
  rfl

/-- A `;` within parentheses ends nothing, and the `!important` behind it is found. -/
theorem all_written_block :
    let declarations := [(⟨"a", ofString "b(;)"⟩, true), (⟨"--c", ofString "d"⟩, false)]
    (∀ declaration ∈ declarations, Emitted.IsWritable declaration.1) ∧
      (Emitted.written declarations).length ≤ maxLength ∧
      (all .empty (Emitted.written declarations)).map declaration =
        [⟨⟨0, 1⟩, ⟨2, 6⟩, true, 18⟩, ⟨⟨18, 21⟩, ⟨22, 23⟩, false, 24⟩] := by
  intro declarations
  have hwritable : ∀ declaration ∈ declarations, Emitted.IsWritable declaration.1 := by
    decide +kernel
  have hfits : (Emitted.written declarations).length ≤ maxLength := by decide
  have hplaces : Emitted.places 0 declarations =
      [⟨⟨0, 1⟩, ⟨2, 6⟩, true, 18⟩, ⟨⟨18, 21⟩, ⟨22, 23⟩, false, 24⟩] := by decide
  exact ⟨hwritable, hfits, (all_written .empty hwritable hfits).1.trans hplaces⟩

/-- Only declarations whose text offsets reach to its end are found where they are written. -/
theorem length_written_le {table : Table} {declarations : List (Emitted × Bool)}
    (h : (all table (Emitted.written declarations)).map declaration =
      Emitted.places 0 declarations) : (Emitted.written declarations).length ≤ maxLength := by
  by_cases hnil : declarations = []
  · rw [hnil]
    exact Nat.zero_le _
  · obtain ⟨last, hlast, hend⟩ := Emitted.exists_mem_places hnil 0
    rw [← h] at hlast
    obtain ⟨resolved, hresolved, rfl⟩ := List.mem_map.mp hlast
    have hle := (semicolonEnd_le hresolved).2
    omega

/-- Written 1073741824 times, `a:b;` is longer than offsets reach, so the last `;` is not found. -/
theorem all_written_repeated :
    let declarations := List.replicate 1073741824 ((⟨"a", ofString "b"⟩ : Emitted), false)
    (∀ declaration ∈ declarations, Emitted.IsWritable declaration.1) ∧
      (all .empty (Emitted.written declarations)).map declaration ≠
        Emitted.places 0 declarations := by
  intro declarations
  constructor
  · intro declaration hmem
    rw [List.eq_of_mem_replicate hmem]
    decide +kernel
  · intro hplaces
    have hfits := length_written_le hplaces
    have hlength : (Emitted.written declarations).length = 4294967296 := by
      have hone : (Emitted.units false ⟨"a", ofString "b"⟩ ++ [CodeUnit.semicolon]).length = 4 := by
        decide
      rw [Emitted.written, List.length_flatMap, List.map_replicate, hone, List.sum_replicate_nat]
    rw [hlength] at hfits
    exact absurd hfits (by decide)

end Resolved

/-- The declarations for the children of an element are written in this way. -/
theorem RuleSet.childrenStyleUnits_eq_written (rules : RuleSet) (source : CodeUnits) :
    rules.childrenStyleUnits source =
      Emitted.written ((Resolved.all rules.table source).flatMap fun resolved =>
        (Expansion.ofResolved rules source.addressable.toArray resolved).children.map fun emitted =>
          (emitted, resolved.declaration.isImportant)) := by
  simp only [childrenStyleUnits, childrenOfText, Resolved.all, Emitted.written,
    List.flatMap_assoc, List.flatMap_map]
  rfl

end StyleRules
