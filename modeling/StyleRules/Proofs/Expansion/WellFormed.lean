import StyleRules.Proofs.Expansion.Closure
import StyleRules.Proofs.Expansion.Reach
import StyleRules.Proofs.Report.Intact
import StyleRules.Proofs.Token.Whole

/-!
# Well-formed texts stay well-formed

A text is cut at token boundaries only, which lie within no surrogate pair: its tokens, the names
and values of its declarations and the pieces that an expansion copies are well-formed if the text
is. So a rewritten style and the reports of a text have a U+FFFD only where the text or the rules
have one (`CodeUnits.IsWellFormed.keepsCharacters`).
-/

namespace StyleRules

open CodeUnits (IsText IsWellFormed SplitsPair ahead maxLength ofString)
open Lexeme (Run)

variable {source : CodeUnits} {origin : Prop}

/-- A text of characters that has a U+FFFD only if `origin` tells where it is from. -/
structure CodeUnits.IsDrawn (origin : Prop) (s : CodeUnits) : Prop where
  isText : IsText s
  origin_of_mem : CodeUnit.replacement ∈ s → origin

namespace CodeUnits.IsDrawn

variable {x y : CodeUnits}

theorem nil : IsDrawn origin [] := ⟨isText_nil, fun h => absurd h List.not_mem_nil⟩

theorem append (hx : IsDrawn origin x) (hy : IsDrawn origin y) : IsDrawn origin (x ++ y) := by
  refine ⟨hx.isText.append hy.isText, fun h => ?_⟩
  rcases List.mem_append.mp h with h | h
  · exact hx.origin_of_mem h
  · exact hy.origin_of_mem h

theorem flatMap {α : Type} {f : α → CodeUnits} {xs : List α} (h : ∀ a ∈ xs, IsDrawn origin (f a)) :
    IsDrawn origin (xs.flatMap f) := by
  induction xs with
  | nil => exact nil
  | cons a xs ih =>
    rw [List.flatMap_cons]
    exact (h a List.mem_cons_self).append (ih fun b hb => h b (List.mem_cons_of_mem a hb))

theorem ofString {text : String} (h : '\uFFFD' ∈ text.toList → origin) :
    IsDrawn origin (ofString text) :=
  ⟨isText_ofString text, fun hmem => h (replacement_mem_ofString_iff.mp hmem)⟩

theorem literal {text : String} (h : Text.IsIntact text) :
    IsDrawn origin (CodeUnits.ofString text) :=
  ofString fun hmem => absurd hmem h

theorem mono {other : Prop} (h : IsDrawn origin x) (hother : origin → other) : IsDrawn other x :=
  ⟨h.isText, fun hmem => hother (h.origin_of_mem hmem)⟩

/-- Read as a string, it has a U+FFFD only if `origin` tells where it is from, and nothing of it is
lost. -/
theorem toText (h : IsDrawn origin x) :
    CodeUnits.ofString x.toText = x ∧ ('\uFFFD' ∈ x.toText.toList → origin) := by
  refine ⟨h.isText.ofString_toText, fun hmem => h.origin_of_mem ?_⟩
  exact (isWellFormed_of_isText h.isText).replacement_mem_iff.mp hmem

end CodeUnits.IsDrawn

open CodeUnits (IsDrawn)

theorem CodeUnits.IsWellFormed.isDrawn_slice (h : IsWellFormed source) {i j : Nat}
    (hi : ¬SplitsPair source i) (hj : ¬SplitsPair source j) :
    IsDrawn (CodeUnit.replacement ∈ source) (source.slice i j) := by
  refine ⟨isText_of_isWellFormed (h.slice hi hj), fun hmem => ?_⟩
  exact List.mem_of_mem_take (List.mem_of_mem_drop hmem)

/-! ## Lexemes and declarations -/

theorem Lexeme.StandsIn.isDrawn_units {lexeme : Lexeme} (h : lexeme.StandsIn source)
    (hstart : ¬SplitsPair source lexeme.start) (hsource : IsWellFormed source) :
    IsDrawn (CodeUnit.replacement ∈ source) lexeme.units := by
  have hdrawn := hsource.isDrawn_slice hstart h.not_splitsPair_stop
  rwa [CodeUnits.slice, List.drop_take, Lexeme.stop, Nat.add_sub_cancel_left, ← h.units] at hdrawn

theorem Lexeme.isDrawn_units_of_mem {lexeme : Lexeme} (h : lexeme ∈ Lexeme.ofText source)
    (hsource : IsWellFormed source) : IsDrawn (CodeUnit.replacement ∈ source) lexeme.units := by
  have hrun := Lexeme.run_ofText source
  have hstands := hrun.stands h
  obtain ⟨before, behind, hall⟩ := List.append_of_mem h
  rw [hall] at hrun
  obtain ⟨i, hbefore, hrest⟩ := Run.append_iff.mp hrun
  obtain ⟨rfl, -, -⟩ := Run.cons_iff.mp hrest
  have hstart := hbefore.not_splitsPair (CodeUnits.not_splitsPair_zero source)
  exact hstands.isDrawn_units hstart hsource

namespace Declaration

variable {declaration : Declaration}

theorem not_splitsPair_of_mem (h : declaration ∈ ofText source) :
    ∀ i ∈ [declaration.name.start, declaration.name.stop, declaration.value.start,
      declaration.value.stop, declaration.replacedEnd source.toArray], ¬SplitsPair source i := by
  obtain ⟨layout, hfits, before, hbefore⟩ := exists_layout_of_mem h
  have hstart := hbefore.not_splitsPair (CodeUnits.not_splitsPair_zero source)
  have hname := hfits.run_name.not_splitsPair hstart
  have hvalue := hfits.run_heading.not_splitsPair hname
  have hstop := hfits.run_value.not_splitsPair hvalue
  have hend := hfits.run_mark.1.not_splitsPair hstop
  simp only [List.mem_cons, List.not_mem_nil, or_false, forall_eq_or_imp, forall_eq]
  exact ⟨hstart, hname, hvalue, hstop, hend⟩

theorem isDrawn_of_mem (h : declaration ∈ ofText source) (hsource : IsWellFormed source) :
    IsDrawn (CodeUnit.replacement ∈ source) (declaration.name.slice source) ∧
      IsDrawn (CodeUnit.replacement ∈ source) (declaration.value.slice source) := by
  have hcuts := not_splitsPair_of_mem h
  have hpart : ∀ span : Span, ¬SplitsPair source span.start → ¬SplitsPair source span.stop →
      IsDrawn (CodeUnit.replacement ∈ source) (span.slice source) := by
    intro span hstart hstop
    unfold Span.slice
    split
    · exact hsource.isDrawn_slice hstart hstop
    · exact .nil
  exact ⟨hpart _ (hcuts _ (by simp)) (hcuts _ (by simp)),
    hpart _ (hcuts _ (by simp)) (hcuts _ (by simp))⟩

end Declaration

/-! ## What is emitted -/

def Action.texts : Action → List String
  | rename target => [target]
  | replace declarations => declarations.flatMap fun declaration => [declaration.1, declaration.2]

def RuleSet.HasReplacement (rules : RuleSet) : Prop :=
  ∃ action ∈ rules.actions, ∃ text ∈ action.texts, '\uFFFD' ∈ text.toList

namespace Emitted

def IsDrawn (origin : Prop) (emitted : Emitted) : Prop :=
  CodeUnits.IsDrawn origin (ofString emitted.name) ∧ CodeUnits.IsDrawn origin emitted.value

variable {emitted : Emitted} {declarations : List Emitted} {declared : CodeUnits}

theorem IsDrawn.units (h : emitted.IsDrawn origin) (isImportant : Bool) :
    CodeUnits.IsDrawn origin (emitted.units isImportant) := by
  have hcolon : CodeUnits.IsDrawn origin [CodeUnit.colon] :=
    .literal (show Text.IsIntact ":" by decide)
  have hmark : CodeUnits.IsDrawn origin (if isImportant then ofString " !important" else []) := by
    split
    · exact .literal (by decide)
    · exact .nil
  exact (h.1.append (hcolon.append h.2)).append hmark

theorem isDrawn_joined (h : ∀ emitted ∈ declarations, emitted.IsDrawn origin)
    (isImportant : Bool) : CodeUnits.IsDrawn origin (joined isImportant declarations) := by
  induction declarations with
  | nil => exact .nil
  | cons first rest ih =>
    have hfirst := (h first List.mem_cons_self).units isImportant
    cases rest with
    | nil =>
      rw [joined, List.map_singleton, List.intercalate_singleton]
      exact hfirst
    | cons second rest =>
      have hsemicolon : CodeUnits.IsDrawn origin [CodeUnit.semicolon] :=
        .literal (show Text.IsIntact ";" by decide)
      rw [joined_cons]
      exact hfirst.append
        (hsemicolon.append (ih fun one hmem => h one (List.mem_cons_of_mem _ hmem)))

theorem isDrawn_ofAction {action : Action} (hdeclared : CodeUnits.IsDrawn origin declared)
    (htexts : ∀ text ∈ action.texts, '\uFFFD' ∈ text.toList → origin) :
    ∀ emitted ∈ ofAction declared action, emitted.IsDrawn origin := by
  intro emitted hmem
  cases action with
  | rename target =>
    obtain rfl := List.mem_singleton.mp hmem
    exact ⟨.ofString (htexts target List.mem_cons_self), hdeclared⟩
  | replace declarations =>
    obtain ⟨declaration, hdeclaration, rfl⟩ := List.mem_map.mp hmem
    have htext : ∀ text ∈ [declaration.1, declaration.2], '\uFFFD' ∈ text.toList → origin :=
      fun text htext => htexts text (List.mem_flatMap.mpr ⟨declaration, hdeclaration, htext⟩)
    exact ⟨.ofString (htext _ (by simp)), .ofString (htext _ (by simp))⟩

theorem isDrawn_ofSpecial (hdeclared : CodeUnits.IsDrawn origin declared)
    {declarations : SpecialDeclarations}
    (h : ∀ declaration ∈ declarations, Text.IsIntact declaration.1 ∧
      ∀ text, declaration.2 = .literal text → Text.IsIntact text) :
    ∀ emitted ∈ declarations.map (ofSpecial declared), emitted.IsDrawn origin := by
  intro emitted hmem
  obtain ⟨⟨name, value⟩, hdeclaration, rfl⟩ := List.mem_map.mp hmem
  obtain ⟨hname, hvalue⟩ := h _ hdeclaration
  cases value with
  | literal text => exact ⟨.literal hname, .literal (hvalue text rfl)⟩
  | declared => exact ⟨.literal hname, hdeclared⟩

end Emitted

theorem SpecialRule.isIntact_of_mem {declaration : String × SpecialValue}
    (h : declaration ∈ added ++ weightSumForChildren) : Text.IsIntact declaration.1 ∧
      ∀ text, declaration.2 = .literal text → Text.IsIntact text := by
  simp only [added, gradientColor, plainColor, weightBasis, weightSumForChildren,
    List.cons_append, List.nil_append, List.mem_cons, List.not_mem_nil, or_false] at h
  rcases h with rfl | rfl | rfl | rfl | rfl | rfl | rfl | rfl | rfl | rfl <;>
    refine ⟨by decide, fun text htext => ?_⟩ <;> cases htext <;> decide

theorem SpecialRule.children_subset (rule : SpecialRule) :
    rule.children ⊆ weightSumForChildren := by
  cases rule with
  | color => exact List.nil_subset _
  | linearWeight => exact List.nil_subset _
  | linearWeightSum => exact fun _ h => h

namespace Expansion

/-- A declaration that takes the place of another comes from its action or its special rule. -/
theorem mem_declarations {expansion : Expansion} {emitted : Emitted} :
    emitted ∈ expansion.declarations ↔
      (∃ action, expansion.action = some action ∧
        emitted ∈ Emitted.ofAction expansion.declared action) ∨
      emitted ∈ expansion.special := by
  unfold declarations
  cases expansion.action with
  | none => simp
  | some action => simp

theorem declared_eq (rules : RuleSet) (buffer : Buffer) (resolved : Resolved) :
    (ofResolved rules buffer resolved).declared = resolved.declaration.value.cut buffer := by
  unfold ofResolved
  dsimp only
  split <;> rfl

/-- What a special rule adds is one of its fixed declarations, with the declared value. -/
theorem exists_of_mem_added {rules : RuleSet} {buffer : Buffer} {resolved : Resolved}
    {emitted : Emitted} (h : emitted ∈ (ofResolved rules buffer resolved).special ++
      (ofResolved rules buffer resolved).children) :
    ∃ declaration ∈ SpecialRule.added ++ SpecialRule.weightSumForChildren,
      Emitted.ofSpecial (resolved.declaration.value.cut buffer) declaration = emitted := by
  unfold ofResolved at h
  dsimp only at h
  split at h
  · exact absurd h List.not_mem_nil
  next rule _ =>
    rw [← List.map_append] at h
    obtain ⟨declaration, hmem, rfl⟩ := List.mem_map.mp h
    refine ⟨declaration, ?_, rfl⟩
    rcases List.mem_append.mp hmem with hmem | hmem
    · exact List.mem_append_left _ (rule.declarations_subset _ _ hmem)
    · exact List.mem_append_right _ (rule.children_subset hmem)

/-- What a declaration of a well-formed text becomes is drawn from the text and the actions. -/
theorem isDrawn_ofResolved (rules : RuleSet) {resolved : Resolved}
    (h : resolved.declaration ∈ Declaration.ofText source) (hsource : IsWellFormed source) :
    ∀ emitted ∈ (ofResolved rules source.toArray resolved).declarations ++
        (ofResolved rules source.toArray resolved).children,
      emitted.IsDrawn (CodeUnit.replacement ∈ source ∨ rules.HasReplacement) := by
  have hdeclared : IsDrawn (CodeUnit.replacement ∈ source ∨ rules.HasReplacement)
      (resolved.declaration.value.cut source.toArray) := by
    rw [Span.cut_toArray]
    exact (Declaration.isDrawn_of_mem h hsource).2.mono .inl
  have haction : ∀ action, rules.action? resolved.outcome.id = some action →
      ∀ text ∈ action.texts, '\uFFFD' ∈ text.toList →
        CodeUnit.replacement ∈ source ∨ rules.HasReplacement := by
    intro action haction text htext hmem
    unfold RuleSet.action? at haction
    split at haction
    · exact absurd haction (by simp)
    · exact .inr ⟨action, List.mem_of_getElem? haction, text, htext, hmem⟩
  have hadded : ∀ emitted ∈ (ofResolved rules source.toArray resolved).special ++
        (ofResolved rules source.toArray resolved).children,
      emitted.IsDrawn (CodeUnit.replacement ∈ source ∨ rules.HasReplacement) := by
    intro emitted hmem
    obtain ⟨declaration, hdeclaration, rfl⟩ := exists_of_mem_added hmem
    exact Emitted.isDrawn_ofSpecial hdeclared (fun _ => SpecialRule.isIntact_of_mem) _
      (List.mem_map_of_mem hdeclaration)
  intro emitted hmem
  rcases List.mem_append.mp hmem with hmem | hmem
  · rcases mem_declarations.mp hmem with ⟨action, hsome, hmem⟩ | hmem
    · rw [declared_eq] at hmem
      rw [action_eq] at hsome
      exact Emitted.isDrawn_ofAction hdeclared (haction action hsome) emitted hmem
    · exact hadded emitted (List.mem_append_left _ hmem)
  · exact hadded emitted (List.mem_append_right _ hmem)

end Expansion

/-! ## Expanded styles -/

namespace Edit

variable {edits : List Edit}

theorem isDrawn_kept (hsource : IsWellFormed source) {copied : Nat}
    (hcopied : ¬SplitsPair source copied)
    (h : ∀ edit ∈ edits, ¬SplitsPair source edit.start ∧ ¬SplitsPair source edit.stop) :
    ∀ piece ∈ kept source copied edits, IsDrawn (CodeUnit.replacement ∈ source) piece := by
  intro piece hmem
  induction edits generalizing copied with
  | nil =>
    obtain rfl := List.mem_singleton.mp hmem
    exact hsource.isDrawn_slice hcopied (CodeUnits.not_splitsPair_length source)
  | cons edit edits ih =>
    obtain ⟨hstart, hstop⟩ := h edit List.mem_cons_self
    rcases List.mem_cons.mp hmem with rfl | hmem
    · exact hsource.isDrawn_slice hcopied hstart
    · exact ih hstop (fun edit hedit => h edit (List.mem_cons_of_mem _ hedit)) hmem

theorem isDrawn_weave {pieces others : List CodeUnits}
    (hpieces : ∀ piece ∈ pieces, IsDrawn origin piece)
    (hothers : ∀ other ∈ others, IsDrawn origin other) : IsDrawn origin (weave pieces others) := by
  fun_induction weave pieces others with
  | case1 piece pieces other others ih =>
    refine ((hpieces piece List.mem_cons_self).append (hothers other List.mem_cons_self)).append ?_
    exact ih (fun piece hmem => hpieces piece (List.mem_cons_of_mem _ hmem))
      fun other hmem => hothers other (List.mem_cons_of_mem _ hmem)
  | case2 pieces others =>
    rw [← List.flatMap_id]
    exact .flatMap hpieces

end Edit

namespace RuleSet

variable (rules : RuleSet)

theorem isDrawn_kept (hsource : IsWellFormed source) :
    ∀ piece ∈ Edit.kept source 0 (rules.editsOfText source),
      IsDrawn (CodeUnit.replacement ∈ source) piece := by
  refine Edit.isDrawn_kept hsource (CodeUnits.not_splitsPair_zero source) fun edit hedit => ?_
  rw [editsOfText_eq_map] at hedit
  obtain ⟨resolved, hresolved, rfl⟩ := List.mem_map.mp hedit
  obtain ⟨declaration, hmem, rfl⟩ := List.mem_map.mp (List.mem_of_mem_filter hresolved)
  have hcuts := Declaration.not_splitsPair_of_mem hmem
  exact ⟨hcuts _ (by simp [Resolved.ofDeclaration]), hcuts _ (by simp [Resolved.ofDeclaration])⟩

theorem isDrawn_styleOfText (hsource : IsWellFormed source) :
    IsDrawn (CodeUnit.replacement ∈ source ∨ rules.HasReplacement)
      (rules.styleOfText source) := by
  rw [styleOfText, Edit.splice_eq_weave]
  refine Edit.isDrawn_weave (fun piece hmem => (rules.isDrawn_kept hsource piece hmem).mono .inl)
    fun other hmem => ?_
  rw [editsOfText_eq_map, List.map_map] at hmem
  obtain ⟨resolved, hresolved, rfl⟩ := List.mem_map.mp hmem
  obtain ⟨declaration, hdeclaration, rfl⟩ := List.mem_map.mp (List.mem_of_mem_filter hresolved)
  exact Emitted.isDrawn_joined (fun emitted hemitted =>
    Expansion.isDrawn_ofResolved rules hdeclaration hsource emitted
      (List.mem_append_left _ hemitted)) _

theorem isDrawn_childrenOfText (hsource : IsWellFormed source) :
    IsDrawn (CodeUnit.replacement ∈ source ∨ rules.HasReplacement)
      (rules.childrenOfText source) := by
  refine .flatMap fun resolved hresolved => .flatMap fun emitted hemitted => ?_
  obtain ⟨declaration, hdeclaration, rfl⟩ := List.mem_map.mp hresolved
  have hdrawn := Expansion.isDrawn_ofResolved rules hdeclaration hsource emitted
    (List.mem_append_right _ hemitted)
  exact (hdrawn.units _).append (.literal (show Text.IsIntact ";" by decide))

end RuleSet

/-- The characters of a text are kept whole, and a U+FFFD comes from the text or from the rules. -/
structure CodeUnits.KeepsCharacters (source : CodeUnits) : Prop where
  boundaries : ∀ n, ¬SplitsPair source ((Cursor.ofUnits source).afterTokens n).pos
  lexemes : ∀ lexeme ∈ Lexeme.all source, IsWellFormed lexeme.units
  declarations : ∀ table, ∀ resolved ∈ Resolved.all table source,
    IsWellFormed (resolved.declaration.name.slice source) ∧
      IsWellFormed (resolved.declaration.value.slice source)
  /-- The pieces that an expansion copies. -/
  kept : ∀ rules : RuleSet, ∀ piece ∈ Edit.kept source.addressable 0 (rules.edits source),
    IsWellFormed piece
  /-- An expanded style is these pieces with what is emitted between them. -/
  woven : ∀ rules : RuleSet, rules.styleUnits source =
    Edit.weave (Edit.kept source.addressable 0 (rules.edits source))
      ((rules.edits source).map Edit.replacement)
  /-- Nothing is lost where an expanded style becomes a string. -/
  style_eq : ∀ rules : RuleSet,
    ofString (ExpandedStyle.ofUnits rules source).style = rules.styleUnits source ∧
      ofString (ExpandedStyle.ofUnits rules source).children = rules.childrenStyleUnits source
  style : ∀ rules : RuleSet, '\uFFFD' ∈ (ExpandedStyle.ofUnits rules source).style.toList ∨
    '\uFFFD' ∈ (ExpandedStyle.ofUnits rules source).children.toList →
      CodeUnit.replacement ∈ source ∨ rules.HasReplacement
  tokensReport : ∀ format, '\uFFFD' ∈ (Report.tokens format source).toList →
    CodeUnit.replacement ∈ source
  declarationsReport : ∀ format table, '\uFFFD' ∈ (Report.declarations format table source).toList →
    CodeUnit.replacement ∈ source

/-- Whatever the table and the rules, the characters of a text are kept whole if what is read of it
is well-formed. -/
theorem CodeUnits.IsWellFormed.keepsCharacters (hsource : IsWellFormed source.addressable) :
    KeepsCharacters source := by
  have hread : CodeUnit.replacement ∈ source.addressable → CodeUnit.replacement ∈ source :=
    List.mem_of_mem_take
  have hwellFormed : ∀ {origin : Prop} {x : CodeUnits}, IsDrawn origin x → IsWellFormed x :=
    fun h => isWellFormed_of_isText h.isText
  have hparts : ∀ (table : Table) (resolved : Resolved), resolved ∈ Resolved.all table source →
      IsDrawn (CodeUnit.replacement ∈ source.addressable)
          (resolved.declaration.name.slice source.addressable) ∧
        IsDrawn (CodeUnit.replacement ∈ source.addressable)
          (resolved.declaration.value.slice source.addressable) := by
    intro table resolved hmem
    obtain ⟨declaration, hdeclaration, rfl⟩ := List.mem_map.mp hmem
    exact Declaration.isDrawn_of_mem hdeclaration hsource
  have hintact : ∀ {x : CodeUnits}, IsDrawn (CodeUnit.replacement ∈ source.addressable) x →
      CodeUnit.replacement ∉ source → Text.IsIntact x.toText :=
    fun h hnone hmem => hnone (hread (h.toText.2 hmem))
  have hstyle : ∀ rules : RuleSet, IsDrawn (CodeUnit.replacement ∈ source ∨ rules.HasReplacement)
      (rules.styleUnits source) :=
    fun rules => (rules.isDrawn_styleOfText hsource).mono (Or.imp_left hread)
  have hchildren : ∀ rules : RuleSet,
      IsDrawn (CodeUnit.replacement ∈ source ∨ rules.HasReplacement)
        (rules.childrenStyleUnits source) :=
    fun rules => (rules.isDrawn_childrenOfText hsource).mono (Or.imp_left hread)
  exact
    { boundaries := fun n => hsource.not_splitsPair_of_addressable
        (Nat.le_trans ((Cursor.ofUnits source).afterTokens n).pos_le
          ((Cursor.ofUnits source).afterTokens n).length_le)
        (Cursor.not_splitsPair_afterTokens source n)
      lexemes := fun lexeme hmem => hwellFormed (Lexeme.isDrawn_units_of_mem hmem hsource)
      declarations := fun table resolved hmem => by
        obtain ⟨hname, hvalue⟩ := Resolved.slice_addressable hmem
        rw [← hname, ← hvalue]
        exact ⟨hwellFormed (hparts table resolved hmem).1,
          hwellFormed (hparts table resolved hmem).2⟩
      kept := fun rules piece hmem => hwellFormed (rules.isDrawn_kept hsource piece hmem)
      woven := fun rules => Edit.splice_eq_weave source.addressable 0 (rules.edits source)
      style_eq := fun rules => ⟨(hstyle rules).toText.1, (hchildren rules).toText.1⟩
      style := fun rules hmem => hmem.elim (hstyle rules).toText.2 (hchildren rules).toText.2
      tokensReport := fun format hmem => by
        by_contra hnone
        exact Report.intact_tokens format (fun lexeme hlexeme =>
          hintact (Lexeme.isDrawn_units_of_mem hlexeme hsource) hnone) hmem
      declarationsReport := fun format table hmem => by
        by_contra hnone
        exact Report.intact_declarations format (fun resolved hresolved =>
          ⟨hintact (hparts table resolved hresolved).1 hnone,
            hintact (hparts table resolved hresolved).2 hnone⟩) hmem }

/-- A pair behind a backslash in a name, one in a value that is copied, and one behind an escape. -/
theorem CodeUnits.keepsCharacters_of_pairs :
    let source := ofString "\\😀:url(😀);color:\\1f600 😀"
    let rules : RuleSet := ⟨[], []⟩
    Resolved.all rules.table source =
        [⟨⟨⟨0, 3⟩, ⟨4, 11⟩, false, 12⟩, .none⟩, ⟨⟨⟨12, 17⟩, ⟨18, 27⟩, false, 27⟩, .none⟩] ∧
      IsWellFormed source.addressable ∧ KeepsCharacters source ∧
      '\uFFFD' ∉ (ExpandedStyle.ofUnits rules source).style.toList := by
  intro source rules
  have hall : Resolved.all rules.table source =
      [⟨⟨⟨0, 3⟩, ⟨4, 11⟩, false, 12⟩, .none⟩, ⟨⟨⟨12, 17⟩, ⟨18, 27⟩, false, 27⟩, .none⟩] := by
    decide +kernel
  have hsource : IsWellFormed (CodeUnits.addressable source) := by
    rw [addressable_of_length_le (by decide)]
    exact isWellFormed_ofString _
  have hkeeps := hsource.keepsCharacters
  have hnone : CodeUnit.replacement ∉ source := by decide +kernel
  refine ⟨hall, hsource, hkeeps, fun hmem => ?_⟩
  rcases hkeeps.style rules (.inl hmem) with hin | ⟨action, haction, -⟩
  · exact hnone hin
  · exact absurd haction List.not_mem_nil

/-- A pair that the largest offset lies within is cut in two by the end of the last token. -/
theorem CodeUnits.exists_splitsPair_afterTokens :
    let source := List.replicate (maxLength - 1) CodeUnit.semicolon ++ ofString "😀"
    IsWellFormed source ∧ ∃ n, SplitsPair source ((Cursor.ofUnits source).afterTokens n).pos := by
  intro source
  have hpair : ofString "😀" = [0xD83D, 0xDE00] := by decide +kernel
  have hwellFormed : ∀ n, IsWellFormed (List.replicate n CodeUnit.semicolon ++ ofString "😀") := by
    intro n
    induction n with
    | zero => exact isWellFormed_ofString _
    | succ n ih => exact (isWellFormed_cons_iff (by decide)).mpr ih
  have hread : (addressable source).length = maxLength := by
    rw [length_addressable, List.length_append, List.length_replicate, hpair]
    decide
  -- Behind all tokens the cursor is at the end of what is read.
  obtain ⟨-, hend⟩ := Lexeme.run_boundary source (Lexeme.all source).length
  rw [List.drop_length] at hend
  refine ⟨hwellFormed _, (Lexeme.all source).length, ?_⟩
  have hahead : ∀ i, ahead source (maxLength - 1 + i) = ahead [0xD83D, 0xDE00] i := by
    intro i
    rw [ahead, ahead, List.getD_append_right _ _ _ _ (by rw [List.length_replicate]; omega), hpair,
      List.length_replicate, Nat.add_sub_cancel_left]
  have hhigh : ahead source (maxLength - 1) = 0xD83D := hahead 0
  have hlow : ahead source maxLength = 0xDE00 := hahead 1
  rw [hend.eq_of_nil, hread]
  refine ⟨maxLength - 1, rfl, ?_⟩
  rw [hhigh, hlow]
  decide

end StyleRules
