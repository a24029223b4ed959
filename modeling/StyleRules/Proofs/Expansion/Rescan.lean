import StyleRules.Proofs.Expansion.Agreement
import StyleRules.Proofs.Expansion.Between
import StyleRules.Proofs.Expansion.Site
import StyleRules.Proofs.Expansion.Splice

/-!
# Expanded styles are read back

The declarations that an expanded style holds are those of the source, each replaced by what it
expands to, just if the emitted values are sealed. The proof follows the statements of the source
and reads, for each of them, the text that the edits make of it.
-/

namespace StyleRules

open CodeUnits (Apart IsText ahead ofString)
open Declaration (behind isPassedOver)
open Emitted (AreSealed)
open Lexeme (Run loosen pieces)

/-! ## What is expected -/

namespace Resolved

/-- What is expected to be read back for a declaration: the declaration itself if it stays, and
otherwise what is emitted for it. -/
def readings (rules : RuleSet) (source : CodeUnits) (resolved : Resolved) : List Reading :=
  let expansion := Expansion.ofResolved rules source.toArray resolved
  if expansion.isTrivial then [resolved.declaration.reading source]
  else expansion.declarations.map (Emitted.reading resolved.declaration.isImportant)

/-- Whether the declarations emitted for a declaration are read back one by one. -/
def IsKept (rules : RuleSet) (source : CodeUnits) (resolved : Resolved) : Prop :=
  (Expansion.ofResolved rules source.toArray resolved).isTrivial = false →
    AreSealed resolved.declaration.isImportant
      (Expansion.ofResolved rules source.toArray resolved).declarations

end Resolved

variable {rules : RuleSet} {source : CodeUnits} {i j : Nat} {declarations : List Declaration}

namespace RuleSet

/-- What the edits for `declarations` make of the text from offset `i` on. -/
def styleFrom (rules : RuleSet) (source : CodeUnits) (i : Nat) (declarations : List Declaration) :
    CodeUnits :=
  Edit.splice source.toArray i
    ((declarations.map (Resolved.ofDeclaration rules.table source.toArray)).filterMap
      (Edit.ofResolved? rules source.toArray))

abbrev resolve (rules : RuleSet) (source : CodeUnits) (declaration : Declaration) : Resolved :=
  Resolved.ofDeclaration rules.table source.toArray declaration

end RuleSet

theorem CodeUnits.slice_length (s : CodeUnits) (i : Nat) : s.slice i s.length = s.drop i := by
  rw [slice, List.take_length]

theorem Edit.splice_of_le {edits : List Edit} (hij : i ≤ j) (h : InOrder source.length j edits) :
    splice source.toArray i edits = source.slice i j ++ splice source.toArray j edits := by
  cases edits with
  | nil =>
    rw [splice, splice, Buffer.slice_toArray, Buffer.slice_toArray, List.size_toArray,
      CodeUnits.slice_append_slice source hij h]
  | cons edit edits =>
    rw [splice, splice, Buffer.slice_toArray, Buffer.slice_toArray,
      ← CodeUnits.slice_append_slice source hij h.1]
    simp only [List.append_assoc]

namespace RuleSet

theorem styleFrom_nil (rules : RuleSet) (source : CodeUnits) (i : Nat) :
    rules.styleFrom source i [] = source.drop i := by
  show Edit.splice source.toArray i [] = _
  rw [Edit.splice, Buffer.slice_toArray, List.size_toArray, CodeUnits.slice_length]

theorem styleFrom_of_run {lexemes : List Lexeme} (h : Run source i lexemes j)
    (horder : Declaration.InOrder source.length j declarations) :
    rules.styleFrom source i declarations =
      lexemes.flatMap Lexeme.units ++ rules.styleFrom source j declarations := by
  rw [styleFrom, Edit.splice_of_le h.le (rules.inOrder_edits_of_inOrder source horder), h.slice_eq]
  rfl

theorem styleFrom_trivial {declaration : Declaration}
    (h : (Expansion.ofResolved rules source.toArray
      (rules.resolve source declaration)).isTrivial = true) :
    rules.styleFrom source i (declaration :: declarations) =
      rules.styleFrom source i declarations := by
  have hnone : Edit.ofResolved? rules source.toArray (rules.resolve source declaration) = none :=
    if_pos h
  rw [styleFrom, List.map_cons, List.filterMap_cons, hnone]
  rfl

theorem styleFrom_expanded {declaration : Declaration}
    (h : (Expansion.ofResolved rules source.toArray
      (rules.resolve source declaration)).isTrivial = false) :
    rules.styleFrom source declaration.name.start (declaration :: declarations) =
      Emitted.joined declaration.isImportant (Expansion.ofResolved rules source.toArray
        (rules.resolve source declaration)).declarations ++
      rules.styleFrom source (declaration.replacedEnd source.toArray) declarations := by
  have hedit : Edit.ofResolved? rules source.toArray (rules.resolve source declaration) =
      some ⟨declaration.name.start, declaration.replacedEnd source.toArray,
        Emitted.joined declaration.isImportant (Expansion.ofResolved rules source.toArray
          (rules.resolve source declaration)).declarations⟩ :=
    if_neg (by rw [h]; exact Bool.false_ne_true)
  have hnone : source.slice declaration.name.start declaration.name.start = [] := by
    apply List.length_eq_zero_iff.mp
    rw [CodeUnits.length_slice]
    omega
  rw [styleFrom, List.map_cons, List.filterMap_cons, hedit]
  dsimp only
  rw [Edit.splice, Buffer.slice_toArray]
  dsimp only
  rw [hnone, List.nil_append]
  rfl

end RuleSet

/-! ## What is found -/

/-- How the text that the edits make from offset `i` on relates to what is left there. -/
structure Rescanned (rules : RuleSet) (source : CodeUnits) (i : Nat)
    (declarations : List Declaration) : Prop where
  head : (ahead (source.drop i) 0).isWhitespace = false →
    (ahead (rules.styleFrom source i declarations) 0).isWhitespace = false
  nil : source.drop i = [] → rules.styleFrom source i declarations = []
  text : IsText (source.drop i) → IsText (rules.styleFrom source i declarations)
  agrees : Reading.Agrees
    ((declarations.map (rules.resolve source)).flatMap (Resolved.readings rules source))
    (Reading.ofLexemes (pieces (rules.styleFrom source i declarations)))
    (∀ resolved ∈ declarations.map (rules.resolve source), resolved.IsKept rules source)

namespace Rescanned

theorem ahead_append {x : CodeUnits} (hx : x ≠ []) (y : CodeUnits) :
    ahead (x ++ y) 0 = ahead x 0 := by
  cases x with
  | nil => exact absurd rfl hx
  | cons u x => rfl

theorem of_copied {lexemes : List Lexeme} {rest : List Declaration}
    (h : Run source i lexemes j) (hne : lexemes ≠ [])
    (hcopied : rules.styleFrom source i declarations =
      lexemes.flatMap Lexeme.units ++ rules.styleFrom source j rest)
    (hapart : Apart (lexemes.flatMap Lexeme.units) (source.drop j))
    (hrest : Rescanned rules source j rest)
    (hagrees : Reading.Agrees
      ((declarations.map (rules.resolve source)).flatMap (Resolved.readings rules source))
      (Reading.ofLexemes (pieces (lexemes.flatMap Lexeme.units ++ rules.styleFrom source j rest)))
      (∀ resolved ∈ declarations.map (rules.resolve source), resolved.IsKept rules source)) :
    Rescanned rules source i declarations := by
  have hunits : lexemes.flatMap Lexeme.units ≠ [] := by
    intro hnil
    have hlength := h.length_units
    have hlt := h.lt_of_ne_nil hne
    rw [hnil, List.length_nil] at hlength
    omega
  have hsplit := h.drop_eq
  refine ⟨fun hhead => ?_, fun hnil => ?_, fun htext => ?_, ?_⟩
  · rw [hsplit, ahead_append hunits] at hhead
    rw [hcopied, ahead_append hunits]
    exact hhead
  · rw [hsplit] at hnil
    exact absurd (List.append_eq_nil_iff.mp hnil).1 hunits
  · rw [hsplit] at htext
    obtain ⟨hfront, hback⟩ := htext.of_append hapart
    rw [hcopied]
    exact hfront.append (hrest.text hback)
  · rw [hcopied]
    exact hagrees

theorem of_passedOver {first : Lexeme} {rest : List Lexeme}
    (h : Run source i (first :: rest) source.length) (hpassed : isPassedOver first.kind = true)
    (horder : Declaration.InOrder source.length first.stop declarations)
    (hrest : Rescanned rules source first.stop declarations) :
    Rescanned rules source i declarations := by
  obtain ⟨rfl, hstands, -⟩ := Run.cons_iff.mp h
  have hrun : Run source first.start [first] first.stop := .cons hstands (.nil _)
  have hpieces := hstands.pieces_passedOver hpassed hrest.nil hrest.head
  refine of_copied hrun (List.cons_ne_nil _ _) (rules.styleFrom_of_run hrun horder) ?_ hrest ?_
  · rw [List.flatMap_singleton]
    exact hstands.apart_passedOver hpassed
  · rw [List.flatMap_singleton, hpieces, Reading.ofLexemes, Lexeme.kind_loosen, if_pos hpassed]
    exact hrest.agrees

/-- A statement that is no declaration, or a declaration that stays, makes no edit, and what is
expected of it is what is read from it. -/
theorem staying_eq {first : Lexeme} {rest : List Lexeme}
    (h : Run source i (first :: rest) source.length) (declarations : List Declaration)
    (htrivial : ∀ declaration,
      (Declaration.readStatement source.length first rest).1 = some declaration →
        (Expansion.ofResolved rules source.toArray
          (rules.resolve source declaration)).isTrivial = true) :
    rules.styleFrom source i
        ((Declaration.readStatement source.length first rest).1.toList ++ declarations) =
      rules.styleFrom source i declarations ∧
    (((Declaration.readStatement source.length first rest).1.toList ++ declarations).map
        (rules.resolve source)).flatMap (Resolved.readings rules source) =
      (Reading.ofStatement? first rest).toList ++
        (declarations.map (rules.resolve source)).flatMap (Resolved.readings rules source) ∧
    ((∀ resolved ∈ declarations.map (rules.resolve source), resolved.IsKept rules source) ↔
      ∀ resolved ∈ ((Declaration.readStatement source.length first rest).1.toList ++
        declarations).map (rules.resolve source), resolved.IsKept rules source) := by
  rw [Reading.ofStatement?_eq_map h]
  cases hread : (Declaration.readStatement source.length first rest).1 with
  | none => exact ⟨rfl, rfl, Iff.rfl⟩
  | some declaration =>
    have hstays := htrivial declaration hread
    refine ⟨rules.styleFrom_trivial hstays, ?_, ?_⟩
    · show Resolved.readings rules source (rules.resolve source declaration) ++ _ = _
      rw [Resolved.readings, if_pos hstays]
      rfl
    · show _ ↔ ∀ resolved ∈ rules.resolve source declaration :: declarations.map _, _
      rw [List.forall_mem_cons, and_iff_right]
      intro hexpanded
      exact absurd (hstays.symm.trans hexpanded) (by decide)

/-- A statement that is no declaration, or a declaration that stays, is copied. -/
theorem of_staying {first : Lexeme} {rest : List Lexeme}
    (h : Run source i (first :: rest) source.length) (hpassed : isPassedOver first.kind = false)
    (htrivial : ∀ declaration,
      (Declaration.readStatement source.length first rest).1 = some declaration →
        (Expansion.ofResolved rules source.toArray
          (rules.resolve source declaration)).isTrivial = true)
    (hbehind : behind first rest = [] → declarations = [])
    (hrest : ∀ j, Run source j (behind first rest) source.length →
      Declaration.InOrder source.length j declarations ∧
        Rescanned rules source j declarations) :
    Rescanned rules source i
      ((Declaration.readStatement source.length first rest).1.toList ++ declarations) := by
  obtain ⟨hstyle, hreadings, hkept⟩ := staying_eq h declarations htrivial
  rcases @Reading.statement_cases first rest hpassed with
    hnone | ⟨inner, last, hparts, hlast, hlocal⟩
  · obtain rfl := hbehind hnone
    obtain ⟨horder, hend⟩ := hrest source.length (by rw [hnone]; exact .nil _)
    have hcopied := rules.styleFrom_of_run h horder
    have hempty : source.drop source.length = [] := List.drop_length
    refine of_copied h (List.cons_ne_nil _ _) (hstyle.trans hcopied) ?_ hend ?_
    · rw [hempty]
      exact Apart.of_head fun v hv => absurd hv (by simp)
    · have hpieces := h.pieces_drop
      rw [hempty, Lexeme.pieces_nil, List.append_nil] at hpieces
      rw [hreadings, ← hcopied, rules.styleFrom_nil, hpieces, Reading.ofLexemes_map_loosen,
        Reading.ofLexemes, if_neg (by rw [hpassed]; exact Bool.false_ne_true), hnone,
        Reading.ofLexemes]
      apply (Reading.Agrees.refl _).congr
      exact (iff_of_true trivial fun _ hmem => absurd hmem List.not_mem_nil).trans hkept
  · have hall : first :: rest = (first :: (inner ++ [last])) ++ behind first rest := by
      rw [List.cons_append, List.append_assoc, List.singleton_append, ← hparts]
    have hrun := h
    rw [hall] at hrun
    obtain ⟨j, hcopy, hleft⟩ := Run.append_iff.mp hrun
    obtain ⟨horder, hafter⟩ := hrest j hleft
    obtain ⟨k, hfront, hback⟩ := Run.append_iff.mp (show Run source i ((first :: inner) ++ [last]) j
      from hcopy)
    obtain ⟨rfl, hstands, hdone⟩ := Run.cons_iff.mp hback
    obtain rfl := hdone.eq_of_nil
    have hcopied := rules.styleFrom_of_run hcopy horder
    refine of_copied hcopy (List.cons_ne_nil _ _) (hstyle.trans hcopied) ?_ hafter ?_
    · have hclosed : ClosedBy source [last] last.stop := .inl ⟨last, rfl, hstands, hlast⟩
      have hapart := hclosed.apart ((first :: inner).flatMap Lexeme.units)
      rwa [← List.flatMap_append] at hapart
    · rw [hparts] at h hlocal
      rw [Reading.ofLexemes_statement h hpassed hlast hlocal hafter.nil, hreadings, ← hparts]
      apply ((Reading.Agrees.refl _).append hafter.agrees).congr
      exact (and_iff_right trivial).trans hkept

/-! ### Expanded declarations -/

theorem declared_eq (rules : RuleSet) (source : CodeUnits) (declaration : Declaration) :
    (Expansion.ofResolved rules source.toArray (rules.resolve source declaration)).declared =
      declaration.value.slice source := by
  unfold Expansion.ofResolved
  dsimp only
  rw [← Span.cut_toArray]
  split <;> rfl

theorem isWhitespace_of_isWord {s : CodeUnits} (hs : s.isWord = true) (y : CodeUnits) :
    (ahead (s ++ y) 0).isWhitespace = false := by
  cases s with
  | nil => exact absurd hs (by decide)
  | cons u s =>
    rw [CodeUnits.isWord, List.all_cons, Bool.and_eq_true, Bool.and_eq_true] at hs
    show u.isWhitespace = false
    rw [Bool.eq_false_iff]
    intro hspace
    have hname := hs.1.1
    simp only [CodeUnit.isWhitespace, CodeUnit.isNewline, Bool.or_eq_true, beq_iff_eq] at hspace
    rcases hspace with (((rfl | rfl) | rfl) | rfl) | rfl <;> exact absurd hname (by decide)

theorem joined_starts (isImportant : Bool) (first : Emitted) (rest : List Emitted) :
    ∃ tail, Emitted.joined isImportant (first :: rest) = ofString first.name ++ tail := by
  cases rest with
  | nil =>
    rw [Emitted.joined, List.map_singleton, List.intercalate_singleton, Emitted.units,
      List.append_assoc]
    exact ⟨_, rfl⟩
  | cons second rest =>
    rw [Emitted.joined_cons, Emitted.units_eq]
    exact ⟨_, rfl⟩

theorem isText_units {emitted : Emitted} (h : IsText emitted.value) (isImportant : Bool) :
    IsText (emitted.units isImportant) := by
  have hcolon : IsText [CodeUnit.colon] := CodeUnits.isText_ofString ":"
  have hmark : IsText (if isImportant then ofString " !important" else []) := by
    split
    · exact CodeUnits.isText_ofString _
    · exact CodeUnits.isText_nil
  exact ((CodeUnits.isText_ofString _).append (hcolon.append h)).append hmark

theorem isText_joined {emitted : List Emitted} (h : ∀ one ∈ emitted, IsText one.value)
    (isImportant : Bool) : IsText (Emitted.joined isImportant emitted) := by
  induction emitted with
  | nil => exact CodeUnits.isText_nil
  | cons first rest ih =>
    have hfirst := isText_units (h first List.mem_cons_self) isImportant
    cases rest with
    | nil =>
      rw [Emitted.joined, List.map_singleton, List.intercalate_singleton]
      exact hfirst
    | cons second rest =>
      have hsemicolon : IsText [CodeUnit.semicolon] := CodeUnits.isText_ofString ";"
      rw [Emitted.joined_cons]
      exact hfirst.append
        (hsemicolon.append (ih fun one hmem => h one (List.mem_cons_of_mem _ hmem)))

/-- The text of an expanded declaration and what the edits make of the text behind it. -/
theorem styleFrom_site {declaration : Declaration} {front mark trailing : CodeUnits} {stop : Nat}
    (hsite : Declaration.Site source declaration front mark trailing stop)
    (hstop : stop ≤ source.length)
    (horder : Declaration.InOrder source.length stop declarations)
    (hexpanded : (Expansion.ofResolved rules source.toArray
      (rules.resolve source declaration)).isTrivial = false) :
    rules.styleFrom source declaration.name.start (declaration :: declarations) =
      Emitted.joined declaration.isImportant (Expansion.ofResolved rules source.toArray
        (rules.resolve source declaration)).declarations ++
      (trailing ++ rules.styleFrom source stop declarations) := by
  have hsplit : source.drop declaration.name.start =
      (front ++ (declaration.value.slice source ++ mark)) ++ (trailing ++ source.drop stop) := by
    rw [hsite.split]
    simp only [List.append_assoc]
  have hdrop : source.drop (declaration.replacedEnd source.toArray) =
      trailing ++ source.drop stop := by
    rw [hsite.replaced, ← List.drop_drop, hsplit, List.drop_left]
  have hvalue : declaration.value.slice source ≠ [] := by
    intro hnil
    have hne := hsite.core.ne_nil
    rw [hnil, Lexeme.pieces_nil] at hne
    exact absurd rfl hne
  have hend : declaration.replacedEnd source.toArray + trailing.length = stop := by
    have hlength := congrArg List.length hsplit
    have hpos := List.length_pos_iff.mpr hvalue
    have hreplaced := hsite.replaced
    simp only [List.length_append, List.length_drop] at hlength hreplaced
    omega
  have hslice : source.slice (declaration.replacedEnd source.toArray) stop = trailing := by
    rw [CodeUnits.slice, List.drop_take, hdrop, List.take_left']
    omega
  rw [rules.styleFrom_expanded hexpanded, RuleSet.styleFrom,
    Edit.splice_of_le (by omega) (rules.inOrder_edits_of_inOrder source horder), hslice]
  rfl

theorem isText_site {declaration : Declaration} {front mark trailing : CodeUnits} {stop : Nat}
    (hsite : Declaration.Site source declaration front mark trailing stop)
    (htext : IsText (source.drop declaration.name.start)) :
    IsText (declaration.value.slice source) ∧ IsText trailing ∧ IsText (source.drop stop) := by
  rw [hsite.split] at htext
  obtain ⟨-, htext⟩ := htext.of_append (Apart.of_last hsite.front_last)
  obtain ⟨hvalue, htext⟩ := htext.of_append
    (Apart.of_head (CodeUnits.isSurrogate_of_startsApart hsite.mark_apart))
  obtain ⟨-, htext⟩ := htext.of_append
    (Apart.of_head (CodeUnits.isSurrogate_of_startsApart hsite.trailing_apart))
  obtain ⟨htrailing, hbehind⟩ := htext.of_append hsite.stop_apart
  exact ⟨hvalue, htrailing, hbehind⟩

theorem of_expanded (hrules : rules.IsSpelledOut) {declaration : Declaration}
    {front mark trailing : CodeUnits} {stop : Nat}
    (hsite : Declaration.Site source declaration front mark trailing stop)
    (hstop : stop ≤ source.length)
    (horder : Declaration.InOrder source.length stop declarations)
    (hexpanded : (Expansion.ofResolved rules source.toArray
      (rules.resolve source declaration)).isTrivial = false)
    (hrest : Rescanned rules source stop declarations) :
    Rescanned rules source declaration.name.start (declaration :: declarations) := by
  have hstyle := styleFrom_site hsite hstop horder hexpanded
  have hshape := Expansion.declarations_shape hrules hexpanded
  have hdeclared := declared_eq rules source declaration
  generalize hexpansion : Expansion.ofResolved rules source.toArray
    (rules.resolve source declaration) = expansion at hstyle hshape hdeclared hexpanded
  rw [hdeclared] at hshape
  have hword := hshape.2.isPlain
  refine ⟨fun _ => ?_, fun hnil => ?_, fun htext => ?_, ?_⟩
  · rw [hstyle]
    cases hemitted : expansion.declarations with
    | nil => exact absurd hemitted hshape.1
    | cons first rest =>
      obtain ⟨tail, htail⟩ := joined_starts declaration.isImportant first rest
      rw [htail, List.append_assoc]
      apply isWhitespace_of_isWord
      apply (hword first _).1
      rw [hemitted]
      exact List.mem_cons_self
  · have hne := hsite.core.ne_nil
    rw [hsite.split, List.append_eq_nil_iff, List.append_eq_nil_iff] at hnil
    rw [hnil.2.1, Lexeme.pieces_nil] at hne
    exact absurd rfl hne
  · obtain ⟨hvalue, htrailing, hbehind⟩ := isText_site hsite htext
    rw [hstyle]
    refine (isText_joined (fun emitted hmem => ?_) _).append
      (htrailing.append (hrest.text hbehind))
    rcases (hword emitted hmem).2 with hspelled | hvalueEq
    · exact hspelled.2
    · rw [hvalueEq]
      exact hvalue
  · have hagrees := Emitted.agrees_joined hshape.1 hshape.2 (hsite.finishes _ hrest.nil) hsite.core
      hsite.unmarked (fun hplain => hsite.plain hplain _ hrest.nil) hrest.agrees
    have hreadings : Resolved.readings rules source (rules.resolve source declaration) =
        expansion.declarations.map (Emitted.reading declaration.isImportant) := by
      rw [Resolved.readings, hexpansion]
      exact if_neg (by rw [hexpanded]; exact Bool.false_ne_true)
    rw [hstyle, List.map_cons, List.flatMap_cons, hreadings]
    apply hagrees.congr
    rw [List.forall_mem_cons]
    apply and_congr_left'
    rw [Resolved.IsKept, hexpansion]
    exact ⟨fun hsealed _ => hsealed, fun hkept => hkept hexpanded⟩

end Rescanned

theorem rescanned_ofLexemes (hrules : rules.IsSpelledOut) {lexemes : List Lexeme}
    (h : Run source i lexemes source.length) :
    Rescanned rules source i (Declaration.ofLexemes source.length lexemes) := by
  fun_induction Declaration.ofLexemes source.length lexemes generalizing i with
  | case1 =>
    obtain rfl := h.eq_of_nil
    have hempty : source.drop source.length = [] := List.drop_length
    refine ⟨?_, ?_, ?_, ?_⟩
    all_goals rw [rules.styleFrom_nil]
    · exact id
    · exact id
    · exact id
    · rw [hempty, Lexeme.pieces_nil, Reading.ofLexemes]
      apply (Reading.Agrees.refl _).congr
      exact iff_of_true trivial fun _ hmem => absurd hmem List.not_mem_nil
  | case2 first rest hpassed ih =>
    obtain ⟨rfl, -, hrest⟩ := Run.cons_iff.mp h
    exact .of_passedOver h hpassed (Declaration.inOrder_ofLexemes hrest) (ih hrest)
  | case3 first rest hpassed statement =>
    rename_i ih
    rw [Bool.not_eq_true] at hpassed
    have hleft : statement.2 = behind first rest := Declaration.readStatement_snd _ first rest
    rw [hleft] at ih ⊢
    by_cases hstays : ∀ declaration, statement.1 = some declaration →
        (Expansion.ofResolved rules source.toArray
          (rules.resolve source declaration)).isTrivial = true
    · refine .of_staying h hpassed hstays (fun hnone => ?_) fun j hrun =>
        ⟨Declaration.inOrder_ofLexemes hrun, ih hrun⟩
      rw [hnone, Declaration.ofLexemes]
    · obtain ⟨declaration, hone⟩ := Classical.not_forall.mp hstays
      obtain ⟨hread, hexpanded⟩ := Classical.not_imp.mp hone
      rw [Bool.not_eq_true] at hexpanded
      obtain ⟨rfl, front, mark, trailing, stop, hsite, hrun⟩ := Declaration.exists_site h hread
      rw [hread]
      exact .of_expanded hrules hsite hrun.le (Declaration.inOrder_ofLexemes hrun) hexpanded
        (ih hrun)

end StyleRules
