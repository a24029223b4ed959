import StyleRules.Expansion.Style
import StyleRules.Proofs.Declaration.Order
import StyleRules.Proofs.Expansion.Joined

/-!
# An expanded style is a splice

The edits of a style come one behind the other, since the declarations that they expand do. What
stands around and between them is the same in the source and in the expanded style.
-/

namespace StyleRules

theorem CodeUnits.slice_append_slice (s : CodeUnits) {i j k : Nat} (hij : i ≤ j) (hjk : j ≤ k) :
    s.slice i j ++ s.slice j k = s.slice i k := by
  unfold slice
  have hfront : s.take j = (s.take k).take j := by
    rw [List.take_take, Nat.min_eq_left hjk]
  have hback : (s.take k).drop j = ((s.take k).drop i).drop (j - i) := by
    rw [List.drop_drop, Nat.add_sub_cancel' hij]
  rw [hfront, hback, List.drop_take, List.take_append_drop]

theorem CodeUnits.slice_zero_length (s : CodeUnits) : s.slice 0 s.length = s := by
  unfold slice
  rw [List.take_length, List.drop_zero]

namespace Edit

/-- Edits that come one behind the other in a text of length `size`, none before `copied`. -/
def InOrder (size : Nat) : Nat → List Edit → Prop
  | copied, [] => copied ≤ size
  | copied, edit :: edits =>
    copied ≤ edit.start ∧ edit.start ≤ edit.stop ∧ InOrder size edit.stop edits

def kept (source : CodeUnits) (copied : Nat) : List Edit → List CodeUnits
  | [] => [source.slice copied source.length]
  | edit :: edits => source.slice copied edit.start :: kept source edit.stop edits

/-- Pieces of a text with one other piece in each gap between them. -/
def weave : List CodeUnits → List CodeUnits → CodeUnits
  | piece :: pieces, between :: others => piece ++ between ++ weave pieces others
  | pieces, _ => pieces.flatten

theorem InOrder.mono {size i j : Nat} {edits : List Edit} (hle : i ≤ j)
    (h : InOrder size j edits) : InOrder size i edits := by
  cases edits with
  | nil => exact Nat.le_trans hle h
  | cons edit edits => exact ⟨Nat.le_trans hle h.1, h.2⟩

theorem InOrder.le {size i : Nat} {edits : List Edit} (h : InOrder size i edits) : i ≤ size := by
  induction edits generalizing i with
  | nil => exact h
  | cons edit edits ih =>
    obtain ⟨hstart, hstop, hrest⟩ := h
    exact Nat.le_trans hstart (Nat.le_trans hstop (ih hrest))

theorem splice_eq_weave (source : CodeUnits) (copied : Nat) (edits : List Edit) :
    splice source.toArray copied edits =
      weave (kept source copied edits) (edits.map replacement) := by
  induction edits generalizing copied with
  | nil =>
    rw [splice, Buffer.slice_toArray, List.size_toArray]
    exact (List.append_nil _).symm
  | cons edit edits ih =>
    rw [splice, Buffer.slice_toArray, ih]
    rfl

theorem InOrder.le_start {size i : Nat} {before after : List Edit} {edit : Edit}
    (h : InOrder size i (before ++ edit :: after)) : i ≤ edit.start := by
  induction before generalizing i with
  | nil => exact h.1
  | cons first before ih =>
    obtain ⟨hstart, hstop, hrest⟩ := h
    exact Nat.le_trans hstart (Nat.le_trans hstop (ih hrest))

/-- What an edit writes stands between what the edits before it make of the text before it, and what
those behind it make of the text behind it. -/
theorem splice_append {source : CodeUnits} {copied : Nat} {before after : List Edit} {edit : Edit}
    (h : InOrder source.length copied (before ++ edit :: after)) :
    splice source.toArray copied (before ++ edit :: after) =
      splice (source.take edit.start).toArray copied before ++
        (edit.replacement ++ splice source.toArray edit.stop after) := by
  induction before generalizing copied with
  | nil =>
    rw [List.nil_append, splice, splice, Buffer.slice_toArray, Buffer.slice_toArray,
      List.size_toArray, List.append_assoc, CodeUnits.slice, CodeUnits.slice, List.take_length]
  | cons first before ih =>
    obtain ⟨-, hstop, hrest⟩ := h
    have hle : first.start ≤ edit.start := Nat.le_trans hstop hrest.le_start
    have hsame : CodeUnits.slice (source.take edit.start) copied first.start =
        source.slice copied first.start := by
      rw [CodeUnits.slice, CodeUnits.slice, List.take_take, Nat.min_eq_left hle]
    rw [List.cons_append, splice, splice, Buffer.slice_toArray, Buffer.slice_toArray, hsame,
      ih hrest]
    simp only [List.append_assoc]

theorem weave_replaced {source : CodeUnits} {copied : Nat} {edits : List Edit}
    (h : InOrder source.length copied edits) :
    weave (kept source copied edits) (edits.map fun edit => source.slice edit.start edit.stop) =
      source.slice copied source.length := by
  induction edits generalizing copied with
  | nil => exact List.append_nil _
  | cons edit edits ih =>
    obtain ⟨hstart, hstop, hrest⟩ := h
    show source.slice copied edit.start ++ source.slice edit.start edit.stop ++ weave _ _ = _
    rw [ih hrest, List.append_assoc, CodeUnits.slice_append_slice _ hstop hrest.le,
      CodeUnits.slice_append_slice _ hstart (Nat.le_trans hstop hrest.le)]

end Edit

/-! ## The edits of a style -/

theorem importantLength_le (tail : CodeUnits) : importantLength tail ≤ tail.length := by
  unfold importantLength
  dsimp only
  split
  · exact Nat.zero_le _
  · next last hlast =>
    have hmem := List.mem_of_getLast? hlast
    have hall : last ∈ Lexeme.ofText tail :=
      (List.takeWhile_sublist _).subset (List.filter_sublist.subset hmem)
    exact (Lexeme.run_ofText tail).stop_le hall

theorem Declaration.replacedEnd_bounds (source : CodeUnits) {declaration : Declaration}
    (h : declaration.value.stop ≤ declaration.semicolonEnd) :
    declaration.value.stop ≤ declaration.replacedEnd source.toArray ∧
      declaration.replacedEnd source.toArray ≤ declaration.semicolonEnd := by
  unfold replacedEnd
  split
  · have hle := importantLength_le
      (source.slice declaration.value.stop declaration.semicolonEnd)
    rw [CodeUnits.length_slice] at hle
    rw [Buffer.slice_toArray]
    omega
  · exact ⟨Nat.le_refl _, h⟩

namespace RuleSet

theorem inOrder_edits_of_inOrder (rules : RuleSet) (source : CodeUnits)
    {declarations : List Declaration} {i : Nat}
    (h : Declaration.InOrder source.length i declarations) :
    Edit.InOrder source.length i
      ((declarations.map (Resolved.ofDeclaration rules.table source.toArray)).filterMap
        (Edit.ofResolved? rules source.toArray)) := by
  induction declarations generalizing i with
  | nil => exact h
  | cons declaration rest ih =>
    obtain ⟨hstart, hname, hcolon, hvalue, hstop, hrest⟩ := h
    obtain ⟨hfrom, hto⟩ := Declaration.replacedEnd_bounds source hstop
    rw [List.map_cons, List.filterMap_cons]
    split
    · exact (ih hrest).mono (by omega)
    · next edit hedit =>
      unfold Edit.ofResolved? at hedit
      dsimp only at hedit
      split at hedit
      · exact absurd hedit (by simp)
      · obtain rfl := Option.some.inj hedit
        refine ⟨hstart, ?_, (ih hrest).mono hto⟩
        show declaration.name.start ≤ declaration.replacedEnd source.toArray
        omega

/-- The edits of a style: one for each declaration that does not stay as it is. -/
theorem editsOfText_eq_map (rules : RuleSet) (text : CodeUnits) :
    rules.editsOfText text =
      ((Resolved.ofText rules.table text).filter fun resolved =>
        !(Expansion.ofResolved rules text.toArray resolved).isTrivial).map fun resolved =>
          ⟨resolved.declaration.name.start, resolved.declaration.replacedEnd text.toArray,
            Emitted.joined resolved.declaration.isImportant
              (Expansion.ofResolved rules text.toArray resolved).declarations⟩ := by
  unfold editsOfText
  induction Resolved.ofText rules.table text with
  | nil => rfl
  | cons resolved rest ih =>
    rw [List.filterMap_cons, List.filter_cons, ih]
    unfold Edit.ofResolved?
    dsimp only
    cases (Expansion.ofResolved rules text.toArray resolved).isTrivial <;> rfl

theorem inOrder_editsOfText (rules : RuleSet) (text : CodeUnits) :
    Edit.InOrder text.length 0 (rules.editsOfText text) :=
  rules.inOrder_edits_of_inOrder text (Declaration.inOrder_ofText text)

/-- The expanded style is what is read of the source with the text of each expanded declaration,
from its name through its value and its `!important`, replaced by the expansion; the pieces around
and between them are those of the source, in order and without overlap. An expansion is written as
the declarations of its action and then those of its special rule, each behind the one before. -/
theorem styleUnits_eq_weave (rules : RuleSet) (source : CodeUnits) :
    let text := source.addressable
    ∃ edits : List Edit,
      edits = ((Resolved.all rules.table source).filter fun resolved =>
        !(Expansion.ofResolved rules text.toArray resolved).isTrivial).map (fun resolved =>
          ⟨resolved.declaration.name.start, resolved.declaration.replacedEnd text.toArray,
            Emitted.joined resolved.declaration.isImportant
              (Expansion.ofResolved rules text.toArray resolved).declarations⟩) ∧
      Edit.InOrder text.length 0 edits ∧
      Edit.weave (Edit.kept text 0 edits)
        (edits.map fun edit => text.slice edit.start edit.stop) = text ∧
      Edit.weave (Edit.kept text 0 edits) (edits.map Edit.replacement) = rules.styleUnits source ∧
      (rules.childrenStyleUnits source = (Resolved.all rules.table source).flatMap fun resolved =>
        (Expansion.ofResolved rules text.toArray resolved).children.flatMap fun emitted =>
          emitted.units resolved.declaration.isImportant ++ [CodeUnit.semicolon]) ∧
      ∀ resolved : Resolved,
        let expansion := Expansion.ofResolved rules text.toArray resolved
        let value := resolved.declaration.value.slice text
        let action := rules.action? resolved.outcome.id
        let special := SpecialRule.forProperty? (resolved.declaration.name.slice text)
        let replaced := action.elim [] (Emitted.ofAction value)
        let added := special.elim [] fun rule =>
          (rule.declarations value action.isSome).map (Emitted.ofSpecial value)
        (expansion.isTrivial = true ↔ action = none ∧ added = []) ∧
        (expansion.children = special.elim [] fun rule =>
          rule.children.map (Emitted.ofSpecial value)) ∧
        ∀ out : CodeUnits,
          (replaced ++ added).foldl (Emitted.push resolved.declaration.isImportant out.length) out =
            out ++ Emitted.joined resolved.declaration.isImportant expansion.declarations := by
  intro text
  have horder := rules.inOrder_editsOfText text
  refine ⟨rules.editsOfText text, rules.editsOfText_eq_map text, horder, ?_, ?_, rfl,
    fun resolved => ?_⟩
  · rw [Edit.weave_replaced horder, CodeUnits.slice_zero_length]
  · exact (Edit.splice_eq_weave text 0 (rules.editsOfText text)).symm
  · intro expansion value action special replaced added
    have hexpansion : expansion = ⟨action, added, special.elim [] fun rule =>
        rule.children.map (Emitted.ofSpecial value), value⟩ :=
      Expansion.ofResolved_eq rules text resolved
    have hdeclarations : expansion.declarations = replaced ++ added := by
      rw [hexpansion, Expansion.declarations]
      cases h : action <;> simp only [replaced, h] <;> rfl
    rw [hdeclarations, hexpansion]
    refine ⟨?_, rfl, fun out => Emitted.foldl_push out⟩
    rw [Expansion.isTrivial, Bool.and_eq_true, Option.isNone_iff_eq_none, List.isEmpty_iff]

end RuleSet

end StyleRules
