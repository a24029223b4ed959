import StyleRules.Proofs.Declaration.Pass
import StyleRules.Proofs.Expansion.Site

/-!
# How far an expansion reaches

What is replaced of a declaration ends with its value, or with the `!important` behind it, which is
looked for again in the text behind the value. The word that is found there is the one that the pass
over the lexemes ended on (`Pass.EndsOn`), and only trivia and a `;` are left behind it
(`Resolved.replacedEnd_of_mem`).
-/

namespace StyleRules

open Declaration (isBlank)
open Lexeme (Run within)
open Value (significant)

variable {source : CodeUnits}

/-! ## The pass over `!important` -/

namespace Pass

variable {bang word last : Lexeme} {lexemes : List Lexeme}

theorem Bang.ofLexemes_bang (hbang : bang.isBang = true) (seen : List Lexeme) :
    ofLexemes (seen ++ [bang]) = .mark (seen.getLast?.map Lexeme.stop) := by
  rw [← advance_ofLexemes]
  exact if_pos hbang

theorem Bang.ofLexemes_important (hbang : bang.isBang = true)
    (hword : word.isImportantWord = true) (seen : List Lexeme) :
    ofLexemes (seen ++ [bang] ++ [word]) = .important (seen.getLast?.map Lexeme.stop) := by
  rw [← advance_ofLexemes, ofLexemes_bang hbang, advance, isBang_of_isImportantWord hword,
    if_neg Bool.false_ne_true]
  exact if_pos hword

theorem State.foldl_of_isTrivia (state : State) (h : ∀ lexeme ∈ lexemes, lexeme.isTrivia = true) :
    lexemes.foldl step state = state := by
  induction lexemes with
  | nil => rfl
  | cons lexeme rest ih =>
    rw [List.foldl_cons, step, if_pos (h lexeme List.mem_cons_self)]
    exact ih fun lexeme hmem => h lexeme (List.mem_cons_of_mem _ hmem)

/-- Behind a value, the state knows what the lexemes that are no trivia end with. -/
theorem State.bang_foldl {lead value tail : List Lexeme}
    (hlead : ∀ lexeme ∈ lead, lexeme.isTrivia = true) (hvalue : Nesting.top.walk? value = some .top)
    (htail : ∀ lexeme ∈ tail, lexeme.kind.isNeutral = true) :
    ((lead ++ value ++ tail).foldl step initial).bang =
      .ofLexemes (significant value ++ significant tail) := by
  have hneutral : ∀ lexeme ∈ lead, lexeme.kind.isNeutral = true := fun lexeme hmem =>
    Lexeme.isNeutral_of_isTrivia (hlead lexeme hmem)
  have htop : ((lead ++ value ++ tail).foldl step initial).nesting = .top := by
    apply nesting_foldl
    show Nesting.top.walk? _ = _
    rw [Nesting.walk?_around .top hneutral htail, hvalue]
  have hbang := (describes_initial.foldl (lead ++ value ++ tail)).bang
  rw [htop, Nesting.isTop_top, if_pos rfl] at hbang
  rw [hbang, List.nil_append, Value.significant_append, Value.significant_append,
    Value.significant_of_isTrivia hlead, List.nil_append]

/-- Reading a value from the lexemes, the pass sees a `!` behind offset `stop`, then `word`, which
makes it `!important`, and ends in the state that it has there. -/
def EndsOn (lexemes : List Lexeme) (word : Lexeme) (stop : Nat) : Prop :=
  ∃ front back, lexemes = front ++ word :: back ∧
    (front.foldl State.step .initial).bang = .mark (some stop) ∧
    ((front ++ [word]).foldl State.step .initial).bang = .important (some stop) ∧
    (State.initial.read lexemes).state = (front ++ [word]).foldl State.step .initial

end Pass

theorem Value.significant_mark {gap gap' : List Lexeme} {bang word : Lexeme}
    (hgap : ∀ lexeme ∈ gap, lexeme.isTrivia = true)
    (hgap' : ∀ lexeme ∈ gap', lexeme.isTrivia = true) (hbang : bang.isBang = true)
    (hword : word.isImportantWord = true) :
    significant (gap ++ bang :: gap') = [bang] ∧
      significant (gap ++ bang :: gap' ++ [word]) = [bang] ++ [word] := by
  have hone : significant (gap ++ bang :: gap') = [bang] := by
    rw [significant_append, significant_of_isTrivia hgap, significant,
      List.filter_cons_of_pos (by rw [(isNeutral_of_isBang hbang).2.1]; rfl), ← significant,
      significant_of_isTrivia hgap', List.nil_append]
  refine ⟨hone, ?_⟩
  rw [significant_append, hone, significant,
    List.filter_cons_of_pos (by rw [(isNeutral_of_isImportantWord hword).2.1]; rfl),
    List.filter_nil]

/-! ## Layouts -/

namespace Declaration

def behindColon (source : CodeUnits) (declaration : Declaration) : List Lexeme :=
  ((within ⟨declaration.name.stop, source.length⟩ (Lexeme.ofText source)).dropWhile
    fun lexeme => isBlank lexeme.kind).tail

namespace Layout.Fits

variable {layout : Layout} {declaration : Declaration} {before : List Lexeme}

theorem behindColon_eq (h : layout.Fits source declaration)
    (hbefore : Run source 0 before declaration.name.start) :
    declaration.behindColon source = layout.body ++ (layout.closing ++ layout.left) := by
  have hvalue := h.run_heading.append (h.run_value.append
    (h.run_tail.append (h.run_closing.append h.run_left)))
  have hrun := (hbefore.append h.run_name).within_ofText hvalue
  rw [List.append_assoc, List.cons_append] at hrun
  rw [behindColon, hrun, dropWhile_isBlank h.blanks (by rw [h.colon]; rfl), List.tail_cons, body]
  simp only [List.append_assoc]

theorem body_read (h : layout.Fits source declaration) :
    (Stretch.read .top (layout.body ++ (layout.closing ++ layout.left))).body = layout.body := by
  rcases h.closed with ⟨last, hlast, -, hending⟩ | ⟨hnone, hend⟩
  · obtain ⟨ending, hending⟩ := Option.isSome_iff_exists.mp hending
    rw [hlast, List.singleton_append, Stretch.read_of_ending h.walk hending]
  · have hleft : layout.left = [] := by
      have hrun := h.run_left
      rw [List.drop_eq_nil_iff] at hend
      cases hleft : layout.left with
      | nil => rfl
      | cons first rest =>
        rw [hleft] at hrun
        exact absurd (hrun.lt_of_ne_nil (List.cons_ne_nil first rest)) (Nat.not_lt.mpr hend)
    rw [hnone, hleft, List.append_nil, List.append_nil, Stretch.read_of_end h.walk]

theorem run_mark (h : layout.Fits source declaration) :
    Run source declaration.value.stop layout.mark (declaration.replacedEnd source.toArray) ∧
      Run source (declaration.replacedEnd source.toArray) layout.trail layout.bodyStop := by
  obtain ⟨k, hmark, htrail⟩ := Run.append_iff.mp h.run_tail
  have hend : declaration.replacedEnd source.toArray = k := by
    rw [h.placed.replacedEnd_eq h.complete, hmark.length_units]
  rw [hend]
  exact ⟨hmark, htrail⟩

theorem getLast?_value (h : layout.Fits source declaration) :
    (significant layout.value).getLast?.map Lexeme.stop = some declaration.value.stop := by
  have hlast := List.getLast?_eq_some_getLast h.parts.ne_nil
  have hhead := List.head?_eq_some_head h.parts.ne_nil
  rw [Value.getLast?_significant hlast (h.parts.last _ hlast), Option.map_some,
    (h.run_value.span_slice hhead hlast).2.1]

/-- The pass over the body of an important declaration ends on the word of its mark. -/
theorem endsOn (h : layout.Fits source declaration) {gap gap' : List Lexeme} {bang word : Lexeme}
    (hmark : layout.mark = gap ++ bang :: (gap' ++ [word]))
    (hgap : ∀ lexeme ∈ gap, lexeme.isTrivia = true)
    (hgap' : ∀ lexeme ∈ gap', lexeme.isTrivia = true) (hbang : bang.isBang = true)
    (hword : word.isImportantWord = true) :
    Pass.EndsOn (layout.body ++ (layout.closing ++ layout.left)) word declaration.value.stop := by
  obtain ⟨hone, hboth⟩ := Value.significant_mark hgap hgap' hbang hword
  have hparts : layout.mark = gap ++ bang :: gap' ++ [word] := by
    rw [hmark, List.append_assoc, List.cons_append]
  have hneutral : ∀ lexeme ∈ gap ++ bang :: gap' ++ [word], lexeme.kind.isNeutral = true := by
    rw [← hparts]
    exact fun lexeme hmem => h.parts.isNeutral_tail lexeme (List.mem_append_left _ hmem)
  have hwalk := h.parts.walk_core h.walk
  have hbody : layout.body =
      layout.lead ++ layout.value ++ (gap ++ bang :: gap') ++ [word] ++ layout.trail := by
    rw [body, hparts]
    simp only [List.append_assoc]
  refine ⟨layout.lead ++ layout.value ++ (gap ++ bang :: gap'),
    layout.trail ++ (layout.closing ++ layout.left), ?_, ?_, ?_, ?_⟩
  · rw [hbody]
    simp only [List.append_assoc, List.cons_append, List.nil_append]
  · rw [Pass.State.bang_foldl h.parts.lead hwalk fun lexeme hmem =>
      hneutral lexeme (List.mem_append_left _ hmem), hone, Pass.Bang.ofLexemes_bang hbang,
      h.getLast?_value]
  · rw [List.append_assoc (layout.lead ++ layout.value), Pass.State.bang_foldl h.parts.lead hwalk
      hneutral, hboth, ← List.append_assoc, Pass.Bang.ofLexemes_important hbang hword,
      h.getLast?_value]
  · have hread := Pass.State.read_eq .initial (layout.body ++ (layout.closing ++ layout.left))
    rw [hread]
    show List.foldl _ _ (Stretch.read .top _).body = _
    rw [h.body_read, hbody, List.foldl_append, Pass.State.foldl_of_isTrivia _ h.tail.trail]

end Layout.Fits

/-- Behind the value of a declaration stands its `!important`, which ends with `word` at offset
`stop` and is the one that the pass ends on, and behind that trivia with perhaps a `;`. -/
structure IsMarkedBy (source : CodeUnits) (declaration : Declaration) (word : Lexeme)
    (stop : Nat) : Prop where
  lt : declaration.value.stop < stop
  le : stop ≤ declaration.semicolonEnd
  word_stop : word.stop = stop
  run_mark : Run source declaration.value.stop
    (within ⟨declaration.value.stop, stop⟩ (Lexeme.ofText source)) stop
  mark : ∃ gap bang gap',
    within ⟨declaration.value.stop, stop⟩ (Lexeme.ofText source) = gap ++ bang :: (gap' ++ [word]) ∧
      (∀ lexeme ∈ gap, lexeme.isTrivia = true) ∧ bang.isBang = true ∧
      (∀ lexeme ∈ gap', lexeme.isTrivia = true) ∧ word.isImportantWord = true
  endsOn : Pass.EndsOn (declaration.behindColon source) word declaration.value.stop
  run_behind : Run source stop
    (within ⟨stop, declaration.semicolonEnd⟩ (Lexeme.ofText source)) declaration.semicolonEnd
  behind : ∃ trail last,
    within ⟨stop, declaration.semicolonEnd⟩ (Lexeme.ofText source) = trail ++ last ∧
      (∀ lexeme ∈ trail, lexeme.isTrivia = true) ∧
      (last = [] ∨ ∃ semicolon, last = [semicolon] ∧ semicolon.kind = .semicolon)

theorem Layout.Fits.exists_isMarkedBy {layout : Layout} {declaration : Declaration}
    {before : List Lexeme} (h : layout.Fits source declaration)
    (hbefore : Run source 0 before declaration.name.start)
    (himportant : declaration.isImportant = true) :
    ∃ word, declaration.IsMarkedBy source word (declaration.replacedEnd source.toArray) := by
  obtain ⟨gap, bang, gap', word, hmark, hgap, hgap', hbang, hword⟩ := h.tail.marked himportant
  obtain ⟨hrun, htrail⟩ := h.run_mark
  obtain ⟨last, hlast, hsemicolon⟩ := h.exists_end
  have hfront := (hbefore.append (h.run_name.append h.run_heading)).append h.run_value
  have hwithin := hfront.within_ofText hrun
  have hbehind := (hfront.append hrun).within_ofText (htrail.append hlast)
  have hstop : word.stop = declaration.replacedEnd source.toArray := by
    have hend : layout.mark.getLast? = some word := by
      rw [hmark, ← List.cons_append, ← List.append_assoc, List.getLast?_concat]
    have hhead := List.head?_eq_some_head (List.ne_nil_of_mem (List.mem_of_getLast? hend))
    exact (hrun.span_slice hhead hend).2.1.symm
  exact ⟨word,
    { lt := hrun.lt_of_ne_nil (by rw [hmark]; simp)
      le := (htrail.append hlast).le
      word_stop := hstop
      run_mark := by rw [hwithin]; exact hrun
      mark := ⟨gap, bang, gap', by rw [hwithin, hmark], hgap, hbang, hgap', hword⟩
      endsOn := by
        rw [h.behindColon_eq hbefore]
        exact h.endsOn hmark hgap hgap' hbang hword
      run_behind := by rw [hbehind]; exact htrail.append hlast
      behind := ⟨layout.trail, last, hbehind, h.tail.trail, hsemicolon⟩ }⟩

end Declaration

namespace Resolved

open CodeUnits (ofString)

/-- What is replaced of a declaration that is not important ends with its value. What is replaced of
an important one ends with the `!important` that the pass ended on. -/
theorem replacedEnd_of_mem {table : Table} {resolved : Resolved} (h : resolved ∈ all table source) :
    let text := source.addressable
    (resolved.declaration.isImportant = false →
        resolved.declaration.replacedEnd text.toArray = resolved.declaration.value.stop) ∧
      (resolved.declaration.isImportant = true →
        ∃ word, resolved.declaration.IsMarkedBy text word
          (resolved.declaration.replacedEnd text.toArray)) := by
  obtain ⟨declaration, hmem, rfl⟩ := List.mem_map.mp h
  obtain ⟨layout, hfits, before, hbefore⟩ := Declaration.exists_layout_of_mem hmem
  refine ⟨fun hplain => ?_, hfits.exists_isMarkedBy hbefore⟩
  have hrun := hfits.run_mark.1
  rw [hfits.tail.unmarked hplain] at hrun
  exact hrun.eq_of_nil.symm

/-- The first `!important` belongs to the value; the `;` in the comment ends nothing. -/
theorem replacedEnd_of_two_marks :
    let source := ofString "a:b!important/*;*/! Important ;c:d"
    let marked : Declaration := ⟨⟨0, 1⟩, ⟨2, 13⟩, true, 31⟩
    let plain : Declaration := ⟨⟨31, 32⟩, ⟨33, 34⟩, false, 34⟩
    all .empty source = [⟨marked, .none⟩, ⟨plain, .none⟩] ∧
      plain.replacedEnd source.toArray = 34 ∧ marked.replacedEnd source.toArray = 29 ∧
      ∃ word, marked.IsMarkedBy source word 29 := by
  intro source marked plain
  have hsource : source.addressable = source := CodeUnits.addressable_of_length_le (by decide)
  have hall : all .empty source = [⟨marked, .none⟩, ⟨plain, .none⟩] := by decide +kernel
  have hstop : marked.replacedEnd source.toArray = 29 := by decide +kernel
  have hfirst : ⟨marked, .none⟩ ∈ all .empty source := by
    rw [hall]
    exact .head _
  have hsecond : ⟨plain, .none⟩ ∈ all .empty source := by
    rw [hall]
    exact .tail _ (.head _)
  have hmarked := (replacedEnd_of_mem hfirst).2 rfl
  have hplain := (replacedEnd_of_mem hsecond).1 rfl
  rw [hsource] at hmarked hplain
  rw [hstop] at hmarked
  exact ⟨hall, hplain, hstop, hmarked⟩

end Resolved

end StyleRules
