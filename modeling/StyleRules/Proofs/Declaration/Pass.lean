import StyleRules.Declaration.Resolved
import StyleRules.Proofs.Declaration.Statement

/-!
# Scanning in one pass

A scan that looks at each lexeme once, keeps a state of fixed size for the value that it is in, and
asks the table as soon as a declaration is complete. The state says about the lexemes behind it what
is read from all of them at once (`Pass.State.Describes`), so the pass reports the resolved
declarations of the text (`Pass.all_eq`).
-/

namespace StyleRules

open Declaration (isBlank isPassedOver skip)
open Value (cover? significant splitImportant)

namespace Pass

/-! ## The state within a value -/

inductive Bang where
  | none
  /-- A `!` outside all blocks. -/
  | mark (before : Option Nat)
  /-- A `!` and `important`, as long as only trivia is behind them. -/
  | important (before : Option Nat)
  deriving DecidableEq, Repr

/-- One more lexeme outside all blocks, the value having ended at `stop` before it. -/
def Bang.advance (bang : Bang) (stop : Option Nat) (lexeme : Lexeme) : Bang :=
  if lexeme.isBang then .mark stop
  else
    match bang with
    | .mark before => if lexeme.isImportantWord then .important before else .none
    | _ => .none

/-- Where the value ends that was read through `stop`, and whether it is important. -/
def Bang.close (bang : Bang) (stop : Option Nat) : Option Nat × Bool :=
  match bang with
  | .important before => (before, true)
  | _ => (stop, false)

structure State where
  nesting : Nesting
  bang : Bang
  start : Option Nat
  stop : Option Nat
  isMalformed : Bool
  deriving DecidableEq, Repr

/-- What is known at the end of a value: the state, the ending, and what is left behind it. -/
structure Reached where
  state : State
  ending : Ending
  left : List Lexeme
  deriving DecidableEq, Repr

namespace State

/-- Behind the colon. -/
def initial : State := ⟨.top, .none, none, none, false⟩

def step (state : State) (lexeme : Lexeme) : State :=
  if lexeme.isTrivia then state
  else
    ⟨state.nesting.after lexeme.kind,
      if state.nesting.isTop then state.bang.advance state.stop lexeme else .none,
      some (state.start.getD lexeme.start), some lexeme.stop,
      state.isMalformed || lexeme.isMalformed⟩

def read (state : State) : List Lexeme → Reached
  | [] => ⟨state, if state.nesting.isTop then .endOfText else .unclosed, []⟩
  | lexeme :: rest =>
    match if state.nesting.isTop then Ending.ofLexeme? lexeme else none with
    | some ending => ⟨state, ending, rest⟩
    | none => read (state.step lexeme) rest

def value? (state : State) : Option Value :=
  let (stop, isImportant) := state.bang.close state.stop
  match state.start, stop with
  | some start, some stop =>
    if state.isMalformed then none else some ⟨⟨start, stop⟩, isImportant⟩
  | _, _ => none

/-! ## What a state says -/

theorem nesting_step (state : State) (lexeme : Lexeme) :
    (state.step lexeme).nesting = state.nesting.after lexeme.kind := by
  unfold step
  split
  · next htrivia =>
    exact (Nesting.after_of_isNeutral _ (Lexeme.isNeutral_of_isTrivia htrivia)).symm
  · rfl

theorem nesting_foldl {state : State} {lexemes : List Lexeme} {inner : Nesting}
    (hwalk : state.nesting.walk? lexemes = some inner) :
    (lexemes.foldl step state).nesting = inner := by
  induction lexemes generalizing state with
  | nil => exact Option.some.inj hwalk
  | cons lexeme rest ih =>
    rw [Nesting.walk?] at hwalk
    split at hwalk
    · exact absurd hwalk (by simp)
    · rw [← nesting_step] at hwalk
      exact ih hwalk

theorem read_eq (state : State) (lexemes : List Lexeme) :
    state.read lexemes =
      ⟨(Stretch.read state.nesting lexemes).body.foldl step state,
        (Stretch.read state.nesting lexemes).ending,
        (Stretch.read state.nesting lexemes).rest⟩ := by
  induction lexemes generalizing state with
  | nil => rfl
  | cons lexeme rest ih =>
    rw [read, Stretch.read]
    cases if state.nesting.isTop then Ending.ofLexeme? lexeme else none with
    | some ending => rfl
    | none =>
      dsimp only
      rw [ih, nesting_step]
      rfl

end State

/-- What lexemes that are no trivia end with. -/
def Bang.ofLexemes (lexemes : List Lexeme) : Bang :=
  match lexemes.reverse with
  | [] => .none
  | last :: before =>
    if last.isBang then .mark (before.head?.map Lexeme.stop)
    else
      match before with
      | [] => .none
      | bang :: front =>
        if bang.isBang && last.isImportantWord then .important (front.head?.map Lexeme.stop)
        else .none

/-- What a state says about the lexemes that were read, trivia left out. -/
structure State.Describes (state : State) (seen : List Lexeme) : Prop where
  start : state.start = seen.head?.map Lexeme.start
  stop : state.stop = seen.getLast?.map Lexeme.stop
  isMalformed : state.isMalformed = seen.any Lexeme.isMalformed
  bang : state.bang = if state.nesting.isTop then .ofLexemes seen else .none

theorem Bang.advance_ofLexemes (seen : List Lexeme) (lexeme : Lexeme) :
    (ofLexemes seen).advance (seen.getLast?.map Lexeme.stop) lexeme =
      ofLexemes (seen ++ [lexeme]) := by
  unfold advance ofLexemes
  rw [List.reverse_append, List.reverse_singleton, List.singleton_append,
    List.getLast?_eq_head?_reverse]
  dsimp only
  split
  · rfl
  · rcases seen.reverse with _ | ⟨last, _ | ⟨bang, front⟩⟩
    · rfl
    · cases hlast : last.isBang with
      | false => simp [hlast]
      | true => simp [hlast]
    · cases hlast : last.isBang with
      | false =>
        cases hbang : bang.isBang && last.isImportantWord <;> simp [hlast, hbang]
      | true => simp [hlast]

theorem Bang.of_not_isNeutral {lexeme : Lexeme} (h : lexeme.kind.isNeutral = false)
    (seen : List Lexeme) : ofLexemes (seen ++ [lexeme]) = .none := by
  have hbang : lexeme.isBang = false := by
    rw [Bool.eq_false_iff]
    intro hself
    exact absurd ((Value.isNeutral_of_isBang hself).1.symm.trans h) (by decide)
  have hword : lexeme.isImportantWord = false := by
    rw [Bool.eq_false_iff]
    intro hself
    exact absurd ((Value.isNeutral_of_isImportantWord hself).1.symm.trans h) (by decide)
  unfold ofLexemes
  rw [List.reverse_append, List.reverse_singleton, List.singleton_append]
  dsimp only
  rw [hbang, hword]
  cases seen.reverse <;> simp

theorem isBang_of_isImportantWord {word : Lexeme} (h : word.isImportantWord = true) :
    word.isBang = false := by
  rw [Lexeme.isImportantWord, Bool.and_eq_true, beq_iff_eq] at h
  rw [Lexeme.isBang, h.1]
  rfl

/-- A value that is closed ends where it ends without a final `!important`. -/
theorem Bang.close_ofLexemes (seen : List Lexeme) :
    (ofLexemes seen).close (seen.getLast?.map Lexeme.stop) =
      ((splitImportant seen).1.getLast?.map Lexeme.stop, (splitImportant seen).2) := by
  obtain ⟨reversed, rfl⟩ : ∃ reversed, seen = reversed.reverse :=
    ⟨seen.reverse, (List.reverse_reverse seen).symm⟩
  unfold ofLexemes splitImportant
  rw [List.reverse_reverse, List.getLast?_reverse]
  rcases reversed with _ | ⟨word, _ | ⟨bang, front⟩⟩
  · rfl
  · dsimp only
    rw [List.getLast?_reverse]
    split <;> rfl
  · dsimp only
    cases hmark : bang.isBang && word.isImportantWord with
    | false =>
      rw [if_neg Bool.false_ne_true, if_neg Bool.false_ne_true, List.getLast?_reverse]
      split <;> rfl
    | true =>
      rw [Bool.and_eq_true] at hmark
      rw [isBang_of_isImportantWord hmark.2, if_neg Bool.false_ne_true, if_pos rfl, if_pos rfl,
        List.getLast?_reverse]
      rfl

namespace State

variable {state : State} {seen : List Lexeme}

theorem describes_initial : initial.Describes [] := ⟨rfl, rfl, rfl, rfl⟩

theorem Describes.step (h : state.Describes seen) (lexeme : Lexeme) :
    (state.step lexeme).Describes (seen ++ significant [lexeme]) := by
  unfold State.step
  cases htrivia : lexeme.isTrivia with
  | true =>
    have hnone : significant [lexeme] = [] := by simp [significant, htrivia]
    rw [hnone, List.append_nil, if_pos rfl]
    exact h
  | false =>
    have hone : significant [lexeme] = [lexeme] := by simp [significant, htrivia]
    rw [hone, if_neg Bool.false_ne_true]
    refine ⟨?_, ?_, ?_, ?_⟩
    · rw [h.start, List.head?_append]
      cases seen.head? <;> rfl
    · rw [List.getLast?_concat]
      rfl
    · rw [h.isMalformed, List.any_append, List.any_cons, List.any_nil, Bool.or_false]
    · show (if state.nesting.isTop then state.bang.advance state.stop lexeme else .none) =
        if (state.nesting.after lexeme.kind).isTop then Bang.ofLexemes (seen ++ [lexeme]) else .none
      rw [h.bang, h.stop]
      cases hneutral : lexeme.kind.isNeutral with
      | true =>
        rw [Nesting.after_of_isNeutral _ hneutral]
        cases htop : state.nesting.isTop with
        | true =>
          rw [if_pos rfl, if_pos rfl, if_pos rfl]
          exact Bang.advance_ofLexemes seen lexeme
        | false => rfl
      | false =>
        -- A block is opened or closed, so nothing is left of a `!` whatever the nesting.
        rw [Bang.of_not_isNeutral hneutral, ite_self]
        cases htop : state.nesting.isTop with
        | true =>
          rw [if_pos rfl, if_pos rfl, Bang.advance_ofLexemes, Bang.of_not_isNeutral hneutral]
        | false => rfl

theorem Describes.foldl (h : state.Describes seen) (lexemes : List Lexeme) :
    (lexemes.foldl State.step state).Describes (seen ++ significant lexemes) := by
  induction lexemes generalizing state seen with
  | nil => rwa [significant, List.filter_nil, List.append_nil]
  | cons lexeme rest ih =>
    have hsplit : significant (lexeme :: rest) = significant [lexeme] ++ significant rest :=
      Value.significant_append [lexeme] rest
    rw [List.foldl_cons, hsplit, ← List.append_assoc]
    exact ih (h.step lexeme)

/-- Outside all blocks, the value of a state is that of the lexemes that it describes. -/
theorem Describes.value?_eq (h : state.Describes seen) (htop : state.nesting.isTop = true) :
    state.value? =
      if seen.any Lexeme.isMalformed then none
      else (cover? (splitImportant seen).1).map fun span => ⟨span, (splitImportant seen).2⟩ := by
  have hclose : state.bang.close state.stop =
      ((splitImportant seen).1.getLast?.map Lexeme.stop, (splitImportant seen).2) := by
    rw [h.bang, htop, if_pos rfl, h.stop, Bang.close_ofLexemes]
  obtain ⟨behind, hbehind⟩ := Value.splitImportant_prefix seen
  unfold value? cover?
  rw [hclose, h.start, h.isMalformed]
  generalize splitImportant seen = split at hbehind ⊢
  obtain ⟨front, isImportant⟩ := split
  dsimp only at hbehind ⊢
  cases front with
  | nil => cases seen.head? <;> simp
  | cons first rest =>
    rw [← hbehind, List.cons_append, List.head?_cons, List.head?_cons,
      List.getLast?_eq_some_getLast (List.cons_ne_nil first rest)]
    dsimp only [Option.map_some]

end State

/-- A value that is read up to its ending is that of its stretch, which ends there. -/
theorem read_initial (lexemes : List Lexeme) :
    (State.initial.read lexemes).ending = (Stretch.read .top lexemes).ending ∧
      (State.initial.read lexemes).left = (Stretch.read .top lexemes).rest ∧
      ((Stretch.read .top lexemes).ending ≠ .unclosed →
        (State.initial.read lexemes).state.value? =
          Value.ofBody? (Stretch.read .top lexemes).body) := by
  rw [State.read_eq]
  refine ⟨rfl, rfl, fun hclosed => ?_⟩
  have hwalk := Stretch.walk?_body .top lexemes hclosed
  have htop : ((Stretch.read .top lexemes).body.foldl State.step State.initial).nesting = .top :=
    State.nesting_foldl hwalk
  have hdescribes := State.describes_initial.foldl (Stretch.read .top lexemes).body
  rw [List.nil_append] at hdescribes
  exact hdescribes.value?_eq (by rw [htop]; rfl)

/-! ## The pass -/

def report? (table : Table) (buffer : Buffer) (name : Lexeme) (reached : Reached) :
    Option Resolved :=
  match reached.ending.stop? buffer.size, reached.state.value? with
  | some stop, some value =>
    some ⟨⟨name.span, value.span, value.isImportant, stop⟩,
      table.resolve (name.span.cut buffer) (value.span.cut buffer)⟩
  | _, _ => none

def statement (table : Table) (buffer : Buffer) (first : Lexeme) (rest : List Lexeme) :
    Option Resolved × List Lexeme :=
  if first.kind = .ident then
    match rest.dropWhile fun lexeme => isBlank lexeme.kind with
    | [] => (none, [])
    | colon :: behind =>
      if colon.kind = .colon then
        let reached := State.initial.read behind
        (report? table buffer first reached, reached.left)
      else (none, skip (colon :: behind))
  else (none, skip (first :: rest))

theorem report?_eq (table : Table) (buffer : Buffer) (name : Lexeme) (lexemes : List Lexeme) :
    report? table buffer name (State.initial.read lexemes) =
      (Declaration.ofStretch? buffer.size name (Stretch.read .top lexemes)).map
        (Resolved.ofDeclaration table buffer) := by
  obtain ⟨hending, -, hvalue⟩ := read_initial lexemes
  unfold report? Declaration.ofStretch?
  rw [hending]
  cases hstop : (Stretch.read .top lexemes).ending.stop? buffer.size with
  | none => rfl
  | some stop =>
    rw [hvalue fun hopen => absurd hstop (by simp [hopen, Ending.stop?])]
    cases Value.ofBody? (Stretch.read .top lexemes).body <;> rfl

/-- The table tells what a statement is reported with, and nothing about what is left behind it. -/
theorem statement_eq (table : Table) (buffer : Buffer) (first : Lexeme) (rest : List Lexeme) :
    statement table buffer first rest =
      ((Declaration.readStatement buffer.size first rest).1.map
          (Resolved.ofDeclaration table buffer),
        (Declaration.readStatement buffer.size first rest).2) := by
  unfold statement Declaration.readStatement
  split
  · cases rest.dropWhile fun lexeme => isBlank lexeme.kind with
    | nil => rfl
    | cons colon behind =>
      dsimp only
      split
      · rw [report?_eq, (read_initial behind).2.1]
      · rfl
  · rfl

def run (table : Table) (buffer : Buffer) (lexemes : List Lexeme) : List Resolved :=
  match lexemes with
  | [] => []
  | first :: rest =>
    if isPassedOver first.kind then run table buffer rest
    else
      let taken := statement table buffer first rest
      taken.1.toList ++ run table buffer taken.2
termination_by lexemes.length
decreasing_by
  · simp
  · have := Declaration.length_readStatement_le buffer.size first rest
    rw [statement_eq]
    simp only [List.length_cons]
    omega

def all (table : Table) (source : CodeUnits) : List Resolved :=
  run table source.addressable.toArray (Lexeme.all source)

theorem run_eq (table : Table) (buffer : Buffer) (lexemes : List Lexeme) :
    run table buffer lexemes =
      (Declaration.ofLexemes buffer.size lexemes).map (Resolved.ofDeclaration table buffer) := by
  fun_induction run table buffer lexemes with
  | case1 => rw [Declaration.ofLexemes, List.map_nil]
  | case2 first rest hpassed ih => rw [Declaration.ofLexemes, if_pos hpassed, ih]
  | case3 first rest hpassed taken ih =>
    have htaken : taken = _ := statement_eq table buffer first rest
    rw [Declaration.ofLexemes, if_neg hpassed, ih, htaken, List.map_append, Option.toList_map]

theorem all_eq (table : Table) (source : CodeUnits) :
    all table source = Resolved.all table source :=
  run_eq table source.addressable.toArray (Lexeme.all source)

end Pass

end StyleRules
