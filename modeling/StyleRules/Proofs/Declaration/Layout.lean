import StyleRules.Proofs.Declaration.Cut

/-!
# Declarations laid out on lexemes

The lexemes of a declaration are its name, what stands up to its value, the value, and what stands
behind it up to the ending. `Declaration.Layout` names them, `Declaration.exists_layout_of_mem`
finds them for every declaration of a text, and the lexemes of the text between two of its offsets
are those of the layout there (`Lexeme.Run.within_ofText`).
-/

namespace StyleRules

open Lexeme (Run)

variable {source : CodeUnits}

/-! ## Lexemes between two offsets -/

namespace Lexeme

def within (span : Span) (lexemes : List Lexeme) : List Lexeme :=
  lexemes.filter fun lexeme => span.start ≤ lexeme.start && lexeme.stop ≤ span.stop

theorem within_append (span : Span) (front back : List Lexeme) :
    within span (front ++ back) = within span front ++ within span back := List.filter_append ..

namespace Run

variable {lexemes : List Lexeme} {i j : Nat}

theorem within_self (h : Run source i lexemes j) : within ⟨i, j⟩ lexemes = lexemes := by
  apply List.filter_eq_self.mpr
  intro lexeme hmem
  rw [Bool.and_eq_true, decide_eq_true_iff, decide_eq_true_iff]
  exact ⟨h.le_start hmem, h.stop_le hmem⟩

/-- A run that ends before a span, or starts behind it, has no lexeme in it. -/
theorem within_eq_nil (h : Run source i lexemes j) {span : Span}
    (hapart : j ≤ span.start ∨ span.stop ≤ i) : within span lexemes = [] := by
  apply List.filter_eq_nil_iff.mpr
  intro lexeme hmem
  rw [Bool.and_eq_true, decide_eq_true_iff, decide_eq_true_iff]
  have hlt := (h.stands hmem).start_lt_stop
  have hstart := h.le_start hmem
  have hstop := h.stop_le hmem
  omega

theorem append {others : List Lexeme} {k : Nat} (h : Run source i lexemes j)
    (hothers : Run source j others k) : Run source i (lexemes ++ others) k :=
  append_iff.mpr ⟨j, h, hothers⟩

theorem le_length (h : Run source i lexemes j) (hi : i ≤ source.length) : j ≤ source.length := by
  induction h with
  | nil => exact hi
  | cons hstands _ ih => exact ih hstands.stop_le

/-- Lexemes laid end to end from a place where one starts are those of the text between their
offsets. -/
theorem within_ofText {before : List Lexeme} (hbefore : Run source 0 before i)
    (h : Run source i lexemes j) : within ⟨i, j⟩ (ofText source) = lexemes := by
  have hfront := hbefore.append h
  have hafter := run_place (hfront.le_length (Nat.zero_le _))
  have hall : ofText source = before ++ lexemes ++ _ := ((hfront.append hafter).eq_place).symm
  rw [hall, within_append, within_append, hbefore.within_eq_nil (.inl (Nat.le_refl i)),
    h.within_self, hafter.within_eq_nil (.inr (Nat.le_refl j)), List.nil_append, List.append_nil]

end Run

end Lexeme

/-! ## What stands behind the core of a value -/

namespace Value

variable {body lead core tail : List Lexeme} {isImportant : Bool}

theorem isTrivia_or_mem_significant {lexemes : List Lexeme} {lexeme : Lexeme}
    (hmem : lexeme ∈ lexemes) : lexeme.isTrivia = true ∨ lexeme ∈ significant lexemes := by
  cases htrivia : lexeme.isTrivia with
  | true => exact .inl rfl
  | false => exact .inr (List.mem_filter.mpr ⟨hmem, by rw [htrivia]; rfl⟩)

theorem Parts.isNeutral_tail (h : Parts body lead core tail isImportant) :
    ∀ lexeme ∈ tail, lexeme.kind.isNeutral = true := by
  intro lexeme hmem
  rcases isTrivia_or_mem_significant hmem with htrivia | hsignificant
  · exact Lexeme.isNeutral_of_isTrivia htrivia
  · cases isImportant with
    | true =>
      obtain ⟨bang, word, hpair, hbang, hword⟩ := h.mark rfl
      rw [hpair] at hsignificant
      simp only [List.mem_cons, List.not_mem_nil, or_false] at hsignificant
      rcases hsignificant with rfl | rfl
      · exact (isNeutral_of_isBang hbang).1
      · exact (isNeutral_of_isImportantWord hword).1
    | false =>
      rw [(h.unmarked rfl).1] at hsignificant
      exact absurd hsignificant List.not_mem_nil

theorem Parts.walk_core (h : Parts body lead core tail isImportant)
    (hwalk : Nesting.top.walk? body = some .top) : Nesting.top.walk? core = some .top := by
  have hlead : ∀ lexeme ∈ lead, lexeme.kind.isNeutral = true := fun lexeme hmem =>
    Lexeme.isNeutral_of_isTrivia (h.lead lexeme hmem)
  rw [← Nesting.walk?_around _ hlead h.isNeutral_tail, ← h.split, hwalk]

theorem exists_gaps {bang word : Lexeme} (h : significant tail = [bang, word]) :
    ∃ gap gap' trail, tail = gap ++ bang :: (gap' ++ word :: trail) ∧
      (∀ lexeme ∈ gap, lexeme.isTrivia = true) ∧ (∀ lexeme ∈ gap', lexeme.isTrivia = true) ∧
      ∀ lexeme ∈ trail, lexeme.isTrivia = true := by
  obtain ⟨gap, rest, rfl, hgap, -, hrest⟩ := List.filter_eq_cons_iff.mp h
  obtain ⟨gap', trail, rfl, hgap', -, htrail⟩ := List.filter_eq_cons_iff.mp hrest
  refine ⟨gap, gap', trail, rfl, ?_, ?_, ?_⟩
  · intro lexeme hmem
    simpa using hgap lexeme hmem
  · intro lexeme hmem
    simpa using hgap' lexeme hmem
  · intro lexeme hmem
    exact isTrivia_of_significant htrail hmem

/-- What stands behind the core of a value in its place: trivia and `!important`, or trivia. -/
structure Tail (tail : List Lexeme) (mark trail : List Lexeme) (isImportant : Bool) :
    Prop where
  split : tail = mark ++ trail
  trail : ∀ lexeme ∈ trail, lexeme.isTrivia = true
  marked : isImportant = true → ∃ gap bang gap' word, mark = gap ++ bang :: (gap' ++ [word]) ∧
    (∀ lexeme ∈ gap, lexeme.isTrivia = true) ∧ (∀ lexeme ∈ gap', lexeme.isTrivia = true) ∧
    bang.isBang = true ∧ word.isImportantWord = true
  unmarked : isImportant = false → mark = []

theorem Parts.exists_tail (h : Parts body lead core tail isImportant) :
    ∃ mark trail, Tail tail mark trail isImportant := by
  cases isImportant with
  | true =>
    obtain ⟨bang, word, hpair, hbang, hword⟩ := h.mark rfl
    obtain ⟨gap, gap', trail, rfl, hgap, hgap', htrail⟩ := exists_gaps hpair
    refine ⟨gap ++ bang :: (gap' ++ [word]), trail, ?_, htrail,
      fun _ => ⟨gap, bang, gap', word, rfl, hgap, hgap', hbang, hword⟩,
      fun h => absurd h (by decide)⟩
    simp only [List.append_assoc, List.cons_append, List.nil_append]
  | false =>
    obtain ⟨hnone, -⟩ := h.unmarked rfl
    exact ⟨[], tail, rfl, fun lexeme hmem => isTrivia_of_significant hnone hmem,
      fun h => absurd h (by decide), fun _ => rfl⟩

end Value

theorem Stretch.exists_closing {lexemes : List Lexeme} {i complete : Nat}
    (h : Run source i lexemes source.length)
    (hcomplete : (read .top lexemes).ending.stop? source.length = some complete) :
    ∃ closing j stop, Run source i (read .top lexemes).body j ∧ Run source j closing stop ∧
      Run source stop (read .top lexemes).rest source.length ∧ ClosedBy source closing stop ∧
      (complete = j ∨
        complete = stop ∧ ∀ last, closing.head? = some last → last.kind = .semicolon) ∧
      ∀ last ending, closing = [last] → Ending.ofLexeme? last = some ending →
        (ending.stop? 0).isSome = true := by
  rcases read_parts .top lexemes with ⟨last, hparts, hlast⟩ | ⟨hbody, hrest, hending⟩
  · rw [hparts] at h
    obtain ⟨j, hbody, hbehind⟩ := Run.append_iff.mp h
    obtain ⟨rfl, hstands, hrest⟩ := Run.cons_iff.mp hbehind
    refine ⟨[last], _, _, hbody, .cons hstands (.nil _), hrest,
      .inl ⟨last, rfl, hstands, by rw [hlast]; rfl⟩, ?_, ?_⟩
    · rcases Ending.stop?_cases hlast hcomplete with ⟨hkind, rfl⟩ | ⟨-, rfl⟩
      · right
        refine ⟨rfl, ?_⟩
        rintro other ⟨⟩
        exact hkind
      · exact .inl rfl
    · intro other ending hone hother
      obtain rfl := (List.cons.inj hone).1
      rw [hlast] at hother
      obtain rfl := Option.some.inj hother
      generalize (read .top lexemes).ending = ending at hcomplete
      cases ending <;> first | rfl | exact absurd hcomplete (by simp [Ending.stop?])
  · rw [hrest, ← hbody]
    refine ⟨[], _, _, h, .nil _, .nil _, .inr ⟨rfl, List.drop_length⟩, ?_,
      fun last _ hone => absurd hone (by simp)⟩
    rcases hending with hend | hend
    · rw [hend] at hcomplete
      exact .inl (Option.some.inj hcomplete).symm
    · rw [hend] at hcomplete
      exact absurd hcomplete (by simp [Ending.stop?])

/-! ## Layouts -/

namespace Declaration

variable {declaration : Declaration} {i : Nat}

/-- The lexemes of a declaration, one part behind the other, and those that are left behind it. -/
structure Layout where
  name : Lexeme
  /-- Up to the colon. -/
  blanks : List Lexeme
  colon : Lexeme
  /-- Up to the value. -/
  lead : List Lexeme
  value : List Lexeme
  /-- `!important` and what stands in front of it. -/
  mark : List Lexeme
  trail : List Lexeme
  /-- The lexeme of the ending, if it is not the end of the text. -/
  closing : List Lexeme
  left : List Lexeme
  /-- The offset behind `trail`. -/
  bodyStop : Nat
  /-- The offset behind `closing`. -/
  stop : Nat

namespace Layout

def body (layout : Layout) : List Lexeme :=
  layout.lead ++ layout.value ++ (layout.mark ++ layout.trail)

/-- A layout of a declaration on the lexemes of a text. -/
structure Fits (layout : Layout) (source : CodeUnits) (declaration : Declaration) : Prop where
  name_kind : layout.name.kind = .ident
  blanks : ∀ lexeme ∈ layout.blanks, isBlank lexeme.kind = true
  colon : layout.colon.kind = .colon
  run_name : Run source declaration.name.start [layout.name] declaration.name.stop
  run_heading : Run source declaration.name.stop
    (layout.blanks ++ layout.colon :: layout.lead) declaration.value.start
  run_value : Run source declaration.value.start layout.value declaration.value.stop
  run_tail : Run source declaration.value.stop (layout.mark ++ layout.trail) layout.bodyStop
  run_closing : Run source layout.bodyStop layout.closing layout.stop
  run_left : Run source layout.stop layout.left source.length
  parts : Value.Parts layout.body layout.lead layout.value (layout.mark ++ layout.trail)
    declaration.isImportant
  walk : Nesting.top.walk? layout.body = some .top
  tail : Value.Tail (layout.mark ++ layout.trail) layout.mark layout.trail declaration.isImportant
  closed : ClosedBy source layout.closing layout.stop
  complete : declaration.semicolonEnd = layout.bodyStop ∨
    declaration.semicolonEnd = layout.stop ∧
      ∀ last, layout.closing.head? = some last → last.kind = .semicolon
  completes : ∀ last ending, layout.closing = [last] → Ending.ofLexeme? last = some ending →
    (ending.stop? 0).isSome = true

namespace Fits

variable {layout : Layout}

theorem value_stop_le (h : layout.Fits source declaration) :
    declaration.value.stop ≤ source.length :=
  Nat.le_trans h.run_tail.le (Nat.le_trans h.run_closing.le h.run_left.le)

theorem slice_value (h : layout.Fits source declaration) :
    declaration.value.slice source = layout.value.flatMap Lexeme.units := by
  rw [← h.run_value.slice_eq, Span.slice, if_pos ⟨h.run_value.le, h.value_stop_le⟩]

theorem exists_end (h : layout.Fits source declaration) :
    ∃ last, Run source layout.bodyStop last declaration.semicolonEnd ∧
      (last = [] ∨ ∃ semicolon, last = [semicolon] ∧ semicolon.kind = .semicolon) := by
  rcases h.complete with hend | ⟨hend, hkind⟩
  · rw [hend]
    exact ⟨[], .nil _, .inl rfl⟩
  · rw [hend]
    refine ⟨layout.closing, h.run_closing, ?_⟩
    rcases h.closed with ⟨last, hlast, -, -⟩ | ⟨hnone, -⟩
    · exact .inr ⟨last, hlast, hkind last (by rw [hlast]; rfl)⟩
    · exact .inl hnone

end Fits

end Layout

theorem exists_layout {first : Lexeme} {rest : List Lexeme}
    (h : Run source i (first :: rest) source.length)
    (hread : (readStatement source.length first rest).1 = some declaration) :
    i = declaration.name.start ∧ ∃ layout : Layout, layout.Fits source declaration ∧
      layout.left = behind first rest := by
  obtain ⟨hident, blanks, colon, text, rfl, hblanks, hcolon, hstretch, hleft⟩ :=
    readStatement_eq_some hread
  obtain ⟨rfl, hfirst, hrest⟩ := Run.cons_iff.mp h
  obtain ⟨_, hblanksRun, hbehind⟩ := Run.append_iff.mp hrest
  obtain ⟨rfl, hstands, htext⟩ := Run.cons_iff.mp hbehind
  rw [readStatement_snd] at hleft
  unfold ofStretch? at hstretch
  split at hstretch
  · next complete value hcomplete hvalue =>
    obtain rfl := Option.some.inj hstretch
    have hclosed : (Stretch.read .top text).ending ≠ .unclosed := by
      intro hunclosed
      rw [hunclosed] at hcomplete
      exact absurd hcomplete (by simp [Ending.stop?])
    have hwalk := Stretch.walk?_body .top text hclosed
    obtain ⟨closing, k, stop, hbody, hclosing, hrun, hend, hreach, hstop⟩ :=
      Stretch.exists_closing htext hcomplete
    obtain ⟨lead, core, tail, head, last, hparts, hhead, hlast, hspan⟩ :=
      Value.parts_of_ofBody? hvalue
    obtain ⟨mark, trail, hsplit⟩ := hparts.exists_tail
    obtain rfl := hsplit.split
    have hself := hparts.split
    rw [hself] at hbody
    obtain ⟨j, hinner, htailRun⟩ := Run.append_iff.mp hbody
    obtain ⟨i, hlead, hcore⟩ := Run.append_iff.mp hinner
    obtain ⟨hi, hj, -⟩ := hcore.span_slice hhead hlast
    have hvalueSpan : value.span = ⟨i, j⟩ := by rw [hspan, hi, hj]
    rw [hself] at hparts hwalk
    refine ⟨rfl, ⟨first, blanks, colon, lead, core, mark, trail, closing, _, k, stop⟩, ?_,
      hleft.symm⟩
    exact
      { name_kind := hident
        blanks := hblanks
        colon := hcolon
        run_name := .cons hfirst (.nil _)
        run_heading := by
          rw [hvalueSpan]
          exact hblanksRun.append (.cons hstands hlead)
        run_value := by rwa [hvalueSpan]
        run_tail := by rwa [hvalueSpan]
        run_closing := hclosing
        run_left := hrun
        parts := hparts
        walk := hwalk
        tail := hsplit
        closed := hend
        complete := hreach
        completes := hstop }
  · exact absurd hstretch (by simp)

theorem exists_layout_of_mem (h : declaration ∈ ofText source) :
    ∃ layout : Layout, layout.Fits source declaration ∧
      ∃ before, Run source 0 before declaration.name.start := by
  obtain ⟨first, rest, ⟨before, hbefore⟩, hread⟩ := exists_statement_of_mem h
  have hrun := Lexeme.run_ofText source
  rw [← hbefore] at hrun
  obtain ⟨i, hfront, hstatement⟩ := Run.append_iff.mp hrun
  obtain ⟨rfl, layout, hfits, -⟩ := exists_layout hstatement hread
  exact ⟨layout, hfits, before, hfront⟩

end Declaration

end StyleRules
