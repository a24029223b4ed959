import StyleRules.Proofs.Checked.Scan
import StyleRules.Proofs.Declaration.Soundness
import StyleRules.Proofs.Expansion.Splice

/-!
# The rewriter in checked steps

The rewriter takes the declarations as they are reported and notes up to where it has copied the
text. Where the text that it replaces ends is an offset in the text behind the value added to the
end of the value; both lie within the text, and so does their sum. It writes the expanded style of
the text (`rewrite?_eq`).
-/

namespace StyleRules

/-- A text has no more declarations than units, since each of them has a name. -/
theorem Declaration.InOrder.length_le {size start : Nat} {declarations : List Declaration}
    (h : InOrder size start declarations) : start + declarations.length ≤ size := by
  induction declarations generalizing start with
  | nil => exact h
  | cons declaration rest ih =>
    obtain ⟨hstart, hname, hcolon, hvalue, hend, hrest⟩ := h
    have := ih hrest
    rw [List.length_cons]
    omega

namespace Checked

def lastEndLoop? : Nat → Cursor → Nat → Option Nat
  | 0, _, _ => none
  | left + 1, cursor, last => do
    let (token, behind) ← next? cursor
    if token.kind = .eof ∨ token.kind = .semicolon ∨ token.kind = .rightBrace then return last
    else if token.kind.isTrivia then lastEndLoop? left behind last
    else lastEndLoop? left behind behind.pos

def lastEnd? (tail : CodeUnits) : Option Nat :=
  lastEndLoop? (rounds tail) (Cursor.ofUnits tail) 0

def replacedEnd? (source : CodeUnits) (declaration : Declaration) : Option Nat := do
  let start := declaration.value.stop
  if declaration.isImportant then
    let stop := min declaration.semicolonEnd source.length
    if start ≤ stop then
      add? .word start (← lastEnd? (source.slice start stop))
    else return start
  else return start

structure Rewriter where
  out : CodeUnits
  children : CodeUnits
  copied : Nat
  rewritten : Nat

namespace Rewriter

def initial : Rewriter := ⟨[], [], 0, 0⟩

def copyTo (source : CodeUnits) (rewriter : Rewriter) (stop : Nat) : Rewriter :=
  let stop := min stop source.length
  if rewriter.copied < stop then
    { rewriter with
      out := rewriter.out ++ source.slice rewriter.copied stop
      copied := stop }
  else rewriter

def take? (rules : RuleSet) (source : CodeUnits) (rewriter : Rewriter) (resolved : Resolved) :
    Option Rewriter := do
  let declaration := resolved.declaration
  let expansion := Expansion.ofResolved rules source.toArray resolved
  let children := rewriter.children ++ childrenUnits rules source.toArray resolved
  if expansion.isTrivial then return { rewriter with children := children }
  else
    let stop ← replacedEnd? source declaration
    let copied := rewriter.copyTo source declaration.name.start
    return {
      out := expansion.declarations.foldl
        (Emitted.push declaration.isImportant copied.out.length) copied.out
      children := children
      copied := stop
      rewritten := ← add? .size rewriter.rewritten 1 }

end Rewriter

def rewrite? (rules : RuleSet) (source : CodeUnits) : Option ExpandedStyle := do
  let _room ← add? .size source.length 16
  let resolved ← scan? rules.table source
  let rewriter ← resolved.foldlM (Rewriter.take? rules source) Rewriter.initial
  return ⟨(rewriter.copyTo source source.length).out.toText, rewriter.children.toText⟩

variable {source : CodeUnits} {lexemes : List Lexeme} {cursor : Cursor}

/-! ## Where a replacement ends -/

theorem lastEndLoop?_eq {left : Nat} (hleft : lexemes.length ≤ left)
    (h : LexemesAhead source lexemes cursor) (last : Nat) :
    lastEndLoop? (left + 1) cursor last =
      some ((((lexemes.takeWhile fun lexeme => !endsImportant lexeme).filter
        fun lexeme => !lexeme.isTrivia).getLast?.map Lexeme.stop).getD last) := by
  induction lexemes generalizing cursor last left with
  | nil =>
    rw [lastEndLoop?, h.next?_nil]
    rfl
  | cons lexeme rest ih =>
    obtain ⟨left, rfl, hless⟩ := exists_round hleft
    obtain ⟨behind, hnext, hahead, hstop⟩ := h.next?_cons
    obtain ⟨-, hstands, -⟩ := Lexeme.Run.cons_iff.mp h.run
    have hends : (lexeme.token.kind = .eof ∨ lexeme.token.kind = .semicolon ∨
        lexeme.token.kind = .rightBrace) ↔ endsImportant lexeme = true := by
      simp [endsImportant, Lexeme.kind, hstands.kind_ne_eof]
    rw [lastEndLoop?, hnext]
    simp only [Option.bind_eq_bind, Option.bind_some]
    cases hend : endsImportant lexeme with
    | true =>
      rw [if_pos (hends.mpr hend), List.takeWhile_cons, hend]
      rfl
    | false =>
      rw [if_neg fun hkind => absurd (hends.mp hkind) (by simp [hend]), List.takeWhile_cons, hend]
      simp only [Bool.not_false, if_true, List.filter_cons]
      cases htrivia : lexeme.token.kind.isTrivia with
      | true =>
        have hskipped : lexeme.isTrivia = true := htrivia
        simpa [hskipped] using ih hless hahead last
      | false =>
        have hkept : lexeme.isTrivia = false := htrivia
        simp only [hkept, Bool.not_false, if_true, Bool.false_eq_true, if_false,
          ih hless hahead, hstop, List.getLast?_cons, Option.map_some, Option.getD_some]
        cases List.getLast? _ with
        | none => rfl
        | some last => rfl

section

variable (hlength : source.length ≤ Width.word.max)

include hlength

theorem lastEnd?_eq : lastEnd? source = some (importantLength source) := by
  have hall := LexemesAhead.ofUnits hlength
  rw [lastEnd?, rounds, lastEndLoop?_eq hall.length_le hall, importantLength, Lexeme.all,
    CodeUnits.addressable_of_length_le hlength]
  cases List.getLast? _ with
  | none => rfl
  | some last => rfl

theorem replacedEnd?_eq {declaration : Declaration} (h : declaration.IsSound source) :
    replacedEnd? source declaration = some (declaration.replacedEnd source.toArray) := by
  obtain ⟨-, hle⟩ := Declaration.replacedEnd_bounds source h.value_le
  have hinside := h.end_le
  unfold replacedEnd? Declaration.replacedEnd at *
  split
  · next himportant =>
    rw [if_pos himportant] at hle
    rw [Nat.min_eq_left hinside, if_pos h.value_le]
    rw [Buffer.slice_toArray] at hle ⊢
    -- What is added is an offset in the tail, which ends within the text.
    generalize htail : source.slice declaration.value.stop declaration.semicolonEnd = tail at hle ⊢
    have hshort : tail.length ≤ Width.word.max := by
      rw [← htail, CodeUnits.length_slice]
      omega
    rw [lastEnd?_eq hshort]
    exact add?_eq (by omega)
  · rfl

end

/-! ## What is written -/

namespace Rewriter

/-- What is copied is the text between the offset that was reached and the next one. -/
theorem out_copyTo (rewriter : Rewriter) {stop : Nat} (hstop : stop ≤ source.length) :
    (rewriter.copyTo source stop).out = rewriter.out ++ source.slice rewriter.copied stop := by
  unfold copyTo
  rw [Nat.min_eq_left hstop]
  dsimp only
  split
  · rfl
  · have hnone : (source.slice rewriter.copied stop).length = 0 := by
      rw [CodeUnits.length_slice]
      omega
    rw [List.length_eq_zero_iff.mp hnone, List.append_nil]

/-- One declaration more is counted at most, and what is copied behind it, with any edits that are
still to come, completes what was written. -/
theorem take?_eq (hlength : source.length ≤ Width.word.max) (rules : RuleSet) (before : Rewriter)
    {resolved : Resolved} (hsound : resolved.declaration.IsSound source)
    (hroom : before.rewritten < Width.size.max) :
    ∃ after, take? rules source before resolved = some after ∧
      after.rewritten ≤ before.rewritten + 1 ∧
      after.children = before.children ++ childrenUnits rules source.toArray resolved ∧
      ∀ edits, after.out ++ Edit.splice source.toArray after.copied edits =
        before.out ++ Edit.splice source.toArray before.copied
          ((Edit.ofResolved? rules source.toArray resolved).toList ++ edits) := by
  unfold take? Edit.ofResolved?
  dsimp only
  cases htrivial : (Expansion.ofResolved rules source.toArray resolved).isTrivial with
  | true => exact ⟨_, rfl, Nat.le_succ _, rfl, fun _ => rfl⟩
  | false =>
    have hstart : resolved.declaration.name.start ≤ source.length :=
      Nat.le_trans hsound.start_le (Nat.le_trans hsound.value_le hsound.end_le)
    have hadd : add? .size before.rewritten 1 = some (before.rewritten + 1) := add?_eq (by omega)
    rw [replacedEnd?_eq hlength hsound, hadd]
    refine ⟨_, rfl, Nat.le_refl _, rfl, fun edits => ?_⟩
    simp only [Bool.false_eq_true, if_false, Option.toList_some, List.singleton_append,
      Edit.splice, Buffer.slice_toArray, Emitted.foldl_push, out_copyTo _ hstart,
      List.append_assoc]

theorem foldlM_take?_eq (hlength : source.length ≤ Width.word.max) (rules : RuleSet)
    (before : Rewriter) {reported : List Resolved}
    (hsound : ∀ resolved ∈ reported, resolved.declaration.IsSound source)
    (hroom : before.rewritten + reported.length ≤ Width.size.max) :
    ∃ after, reported.foldlM (take? rules source) before = some after ∧
      after.children =
        before.children ++ reported.flatMap (childrenUnits rules source.toArray) ∧
      after.out ++ Edit.splice source.toArray after.copied [] =
        before.out ++ Edit.splice source.toArray before.copied
          (reported.filterMap (Edit.ofResolved? rules source.toArray)) := by
  induction reported generalizing before with
  | nil => exact ⟨before, rfl, (List.append_nil _).symm, rfl⟩
  | cons resolved rest ih =>
    rw [List.length_cons] at hroom
    obtain ⟨next, htake, hcount, hchildren, hsplice⟩ := take?_eq hlength rules before
      (hsound resolved List.mem_cons_self) (by omega)
    obtain ⟨after, hrun, hlast, hout⟩ := ih next
      (fun other hmem => hsound other (List.mem_cons_of_mem resolved hmem)) (by omega)
    refine ⟨after, ?_, ?_, ?_⟩
    · rw [List.foldlM_cons, htake]
      exact hrun
    · rw [hlast, hchildren, List.flatMap_cons, List.append_assoc]
    · rw [hout, hsplice, List.filterMap_cons]
      cases Edit.ofResolved? rules source.toArray resolved with
      | none => rfl
      | some edit => rfl

end Rewriter

theorem rewrite?_eq (hlength : source.length ≤ Width.word.max) (rules : RuleSet) :
    rewrite? rules source = some (ExpandedStyle.ofUnits rules source) := by
  have hsize := word_le_size hlength
  have hroom : add? .size source.length 16 = some (source.length + 16) := add?_eq hsize
  have hread : source.addressable = source := CodeUnits.addressable_of_length_le hlength
  have hfew : (Resolved.ofText rules.table source).length ≤ source.length := by
    have := (Declaration.inOrder_ofText source).length_le
    rw [Resolved.ofText, List.length_map]
    omega
  have hcount : Rewriter.initial.rewritten + (Resolved.ofText rules.table source).length ≤
      Width.size.max := by
    show 0 + _ ≤ _
    omega
  obtain ⟨after, hrun, hchildren, hout⟩ :=
    Rewriter.foldlM_take?_eq hlength rules Rewriter.initial
      (fun _ => Resolved.isSound_declaration) hcount
  have hstyle : (after.copyTo source source.length).out = rules.styleUnits source := by
    rw [after.out_copyTo (Nat.le_refl source.length), RuleSet.styleUnits, hread]
    rw [Edit.splice, Buffer.slice_toArray, List.size_toArray] at hout
    exact hout
  have hadded : after.children = rules.childrenStyleUnits source := by
    rw [hchildren, RuleSet.childrenStyleUnits, hread]
    rfl
  rw [rewrite?, hroom, scan?_eq hlength, Resolved.all, hread]
  simp only [Option.bind_eq_bind, Option.bind_some, hrun, hstyle, hadded]
  rfl

end Checked

end StyleRules
