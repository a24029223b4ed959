import StyleRules.Proofs.Checked.Tokenizer
import StyleRules.Proofs.Declaration.Order
import StyleRules.Proofs.Declaration.Pass

/-!
# The scan in checked steps

The scanner asks for one token after the other and keeps a state of fixed size for the value that it
is in. Its counters stay below the offset that was reached, since every token that opens a block has
a unit. It reports the resolved declarations of the text (`scan?_eq`).
-/

namespace StyleRules

theorem Lexeme.StandsIn.kind_ne_eof {source : CodeUnits} {lexeme : Lexeme}
    (h : lexeme.StandsIn source) : lexeme.token.kind ≠ .eof := by
  rw [h.token]
  exact Token.kind_read_ne_eof h.ne_nil

theorem Lexeme.Run.add_length_le {source : CodeUnits} {lexemes : List Lexeme} {i j : Nat}
    (h : Run source i lexemes j) : i + lexemes.length ≤ j := by
  induction h with
  | nil => exact Nat.le_refl _
  | cons hstands hrest ih =>
    have := hstands.start_lt_stop
    rw [List.length_cons]
    omega

namespace Checked

open Declaration (isBlank isPassedOver skip)
open Pass (Bang Reached State)

/-! ## Cursors before lexemes -/

structure LexemesAhead (source : CodeUnits) (lexemes : List Lexeme) (cursor : Cursor) : Prop where
  source_eq : cursor.source = source
  lexemes_eq : Lexeme.place cursor.pos cursor.rest (Token.ofText cursor.rest) = lexemes

variable {source : CodeUnits} {lexemes rest : List Lexeme} {lexeme : Lexeme} {cursor : Cursor}

namespace LexemesAhead

theorem ofUnits (hlength : source.length ≤ Width.word.max) :
    LexemesAhead source (Lexeme.all source) (Cursor.ofUnits source) :=
  ⟨CodeUnits.addressable_of_length_le hlength, rfl⟩

theorem run (h : LexemesAhead source lexemes cursor) :
    Lexeme.Run source cursor.pos lexemes source.length := by
  obtain ⟨rfl, rfl⟩ := h
  exact Lexeme.run_place cursor.pos_le

theorem length_le (h : LexemesAhead source lexemes cursor) : lexemes.length ≤ source.length :=
  Nat.le_trans (Nat.le_add_left _ _) h.run.add_length_le

theorem rest_of_nil (h : LexemesAhead source [] cursor) : cursor.rest = [] := by
  by_contra hne
  have hlexemes := h.lexemes_eq
  rw [Token.ofText_of_ne_nil hne] at hlexemes
  exact absurd hlexemes (List.cons_ne_nil _ _)

theorem next?_nil (h : LexemesAhead source [] cursor) :
    next? cursor = some (Token.eof, cursor) := by
  have hend : cursor.next.1.kind = .eof := by
    rw [Cursor.next, h.rest_of_nil]
    rfl
  rw [next?_eq cursor, Cursor.next_of_eof hend]

/-- The next token is that of the first lexeme, and the cursor is before the others. -/
theorem next?_cons (h : LexemesAhead source (lexeme :: rest) cursor) :
    ∃ behind, next? cursor = some (lexeme.token, behind) ∧ LexemesAhead source rest behind ∧
      behind.pos = lexeme.stop := by
  have hlexemes := h.lexemes_eq
  have hne : cursor.rest ≠ [] := by
    intro hnil
    rw [hnil, Token.ofText] at hlexemes
    exact absurd hlexemes.symm (List.cons_ne_nil _ _)
  rw [Token.ofText_of_ne_nil hne, Lexeme.place, List.cons.injEq] at hlexemes
  obtain ⟨hfirst, hrest⟩ := hlexemes
  have htoken : cursor.next.1 = lexeme.token := by rw [← hfirst]; rfl
  refine ⟨cursor.next.2, ?_, ⟨h.source_eq, ?_⟩, ?_⟩
  · rw [next?_eq cursor, ← htoken]
  · rw [Cursor.pos_next, Cursor.rest_next]
    exact hrest
  · rw [Cursor.pos_next, ← hfirst]
    rfl

end LexemesAhead

/-! ## Blanks and stretches that are skipped -/

def nextSignificantLoop? : Nat → Cursor → Option (Nat × Token × Cursor)
  | 0, _ => none
  | left + 1, cursor => do
    let (token, behind) ← next? cursor
    if isBlank token.kind then nextSignificantLoop? left behind
    else return (cursor.pos, token, behind)

def nextSignificant? (cursor : Cursor) : Option (Nat × Token × Cursor) :=
  nextSignificantLoop? (rounds cursor.source) cursor

def nestingAfter? (nesting : Nesting) (kind : Token.Kind) : Option Nesting := do
  if kind = .function ∨ kind = .leftParen then
    return { nesting with paren := ← add? .word nesting.paren 1 }
  else if kind = .leftBracket then
    return { nesting with bracket := ← add? .word nesting.bracket 1 }
  else if kind = .leftBrace then return { nesting with brace := ← add? .word nesting.brace 1 }
  else return nesting.after kind

def endsStretch (nesting : Nesting) (kind : Token.Kind) : Bool :=
  nesting.isTop && (kind == .semicolon || kind == .leftBrace || kind == .rightBrace)

def recoverLoop? : Nat → Nesting → Token → Cursor → Option Cursor
  | 0, _, _, _ => none
  | left + 1, nesting, token, cursor => do
    if token.kind = .eof then return cursor
    else if endsStretch nesting token.kind then return cursor
    else
      let inner ← nestingAfter? nesting token.kind
      let (next, behind) ← next? cursor
      recoverLoop? left inner next behind

def recover? (token : Token) (cursor : Cursor) : Option Cursor :=
  recoverLoop? (rounds cursor.source) .top token cursor

structure Within (bound : Nat) (nesting : Nesting) : Prop where
  brace_le : nesting.brace ≤ bound
  paren_le : nesting.paren ≤ bound
  bracket_le : nesting.bracket ≤ bound

theorem within_top (bound : Nat) : Within bound .top :=
  ⟨Nat.zero_le _, Nat.zero_le _, Nat.zero_le _⟩

theorem Within.after {bound more : Nat} {nesting : Nesting} (h : Within bound nesting)
    (hlt : bound < more) (kind : Token.Kind) : Within more (nesting.after kind) := by
  obtain ⟨hbrace, hparen, hbracket⟩ := h
  cases kind <;> constructor <;> simp only [Nesting.after] <;> omega

theorem nestingAfter?_eq {bound : Nat} {nesting : Nesting} (h : Within bound nesting)
    (hlt : bound < Width.word.max) (kind : Token.Kind) :
    nestingAfter? nesting kind = some (nesting.after kind) := by
  obtain ⟨hbrace, hparen, hbracket⟩ := h
  have hadd : ∀ n, n ≤ bound → add? .word n 1 = some (n + 1) := fun n hn => add?_eq (by omega)
  cases kind <;> simp [nestingAfter?, Nesting.after, hadd, hbrace, hparen, hbracket]

theorem endsStretch_eq (nesting : Nesting) (lexeme : Lexeme) :
    endsStretch nesting lexeme.token.kind =
      (if nesting.isTop then Ending.ofLexeme? lexeme else none).isSome := by
  unfold endsStretch Ending.ofLexeme? Lexeme.kind
  cases nesting.isTop with
  | false => rfl
  | true => cases lexeme.token.kind <;> rfl

theorem nextSignificantLoop?_nil {left : Nat} (hleft : lexemes.length ≤ left)
    (h : LexemesAhead source lexemes cursor)
    (hblank : (lexemes.dropWhile fun lexeme => isBlank lexeme.kind) = []) :
    ∃ behind, nextSignificantLoop? (left + 1) cursor = some (behind.pos, Token.eof, behind) ∧
      LexemesAhead source [] behind := by
  induction lexemes generalizing cursor left with
  | nil =>
    refine ⟨cursor, ?_, h⟩
    rw [nextSignificantLoop?, h.next?_nil]
    rfl
  | cons lexeme rest ih =>
    obtain ⟨left, rfl, hless⟩ := exists_round hleft
    rw [List.dropWhile_cons] at hblank
    split at hblank
    · next hkind =>
      obtain ⟨behind, hnext, hahead, -⟩ := h.next?_cons
      obtain ⟨last, hlast, hend⟩ := ih hless hahead hblank
      refine ⟨last, ?_, hend⟩
      rw [nextSignificantLoop?, hnext]
      exact (if_pos hkind).trans hlast
    · exact absurd hblank (List.cons_ne_nil _ _)

theorem nextSignificantLoop?_cons {left : Nat} (hleft : lexemes.length ≤ left)
    (h : LexemesAhead source lexemes cursor)
    (hblank : (lexemes.dropWhile fun lexeme => isBlank lexeme.kind) = lexeme :: rest) :
    ∃ behind, nextSignificantLoop? (left + 1) cursor =
        some (lexeme.start, lexeme.token, behind) ∧
      LexemesAhead source rest behind ∧ behind.pos = lexeme.stop ∧ lexeme.StandsIn source := by
  induction lexemes generalizing cursor left with
  | nil => exact absurd hblank.symm (List.cons_ne_nil _ _)
  | cons first others ih =>
    obtain ⟨left, rfl, hless⟩ := exists_round hleft
    obtain ⟨behind, hnext, hahead, hstop⟩ := h.next?_cons
    rw [List.dropWhile_cons] at hblank
    split at hblank
    · next hkind =>
      obtain ⟨last, hlast, hend⟩ := ih hless hahead hblank
      refine ⟨last, ?_, hend⟩
      rw [nextSignificantLoop?, hnext]
      exact (if_pos hkind).trans hlast
    · next hkind =>
      obtain ⟨rfl, rfl⟩ := List.cons.inj hblank
      obtain ⟨hstart, hstands, -⟩ := Lexeme.Run.cons_iff.mp h.run
      refine ⟨behind, ?_, hahead, hstop, hstands⟩
      rw [nextSignificantLoop?, hnext, hstart]
      exact if_neg hkind

theorem nextSignificant?_nil (h : LexemesAhead source lexemes cursor)
    (hblank : (lexemes.dropWhile fun lexeme => isBlank lexeme.kind) = []) :
    ∃ behind, nextSignificant? cursor = some (behind.pos, Token.eof, behind) ∧
      LexemesAhead source [] behind := by
  rw [nextSignificant?, h.source_eq]
  exact nextSignificantLoop?_nil h.length_le h hblank

theorem nextSignificant?_cons (h : LexemesAhead source lexemes cursor)
    (hblank : (lexemes.dropWhile fun lexeme => isBlank lexeme.kind) = lexeme :: rest) :
    ∃ behind, nextSignificant? cursor = some (lexeme.start, lexeme.token, behind) ∧
      LexemesAhead source rest behind ∧ behind.pos = lexeme.stop ∧ lexeme.StandsIn source := by
  rw [nextSignificant?, h.source_eq]
  exact nextSignificantLoop?_cons h.length_le h hblank

theorem recoverLoop?_eof (left : Nat) (nesting : Nesting) (cursor : Cursor) :
    recoverLoop? (left + 1) nesting Token.eof cursor = some cursor := by
  rw [recoverLoop?]
  exact if_pos rfl

variable (hlength : source.length ≤ Width.word.max)

include hlength

/-- A lexeme outside all blocks may end what is skipped; otherwise the next one is asked for. -/
theorem recoverLoop?_step (left : Nat) {nesting : Nesting} (hstands : lexeme.StandsIn source)
    (hwithin : Within lexeme.start nesting) (cursor : Cursor) :
    recoverLoop? (left + 1) nesting lexeme.token cursor =
      if (if nesting.isTop then Ending.ofLexeme? lexeme else none).isSome then some cursor
      else (next? cursor).bind fun next =>
        recoverLoop? left (nesting.after lexeme.kind) next.1 next.2 := by
  have hafter := nestingAfter?_eq hwithin (Nat.lt_of_lt_of_le hstands.start_lt hlength)
    lexeme.token.kind
  rw [recoverLoop?, if_neg hstands.kind_ne_eof, endsStretch_eq, hafter]
  rfl

/-- What is skipped is a stretch, and the counters stay below the offset that was reached. -/
theorem recoverLoop?_eq {left : Nat} {nesting : Nesting} (hleft : rest.length ≤ left)
    (hstands : lexeme.StandsIn source) (h : LexemesAhead source rest cursor)
    (hpos : cursor.pos = lexeme.stop) (hwithin : Within lexeme.start nesting) :
    ∃ behind, recoverLoop? (left + 2) nesting lexeme.token cursor = some behind ∧
      LexemesAhead source (Stretch.read nesting (lexeme :: rest)).rest behind := by
  induction rest generalizing lexeme nesting cursor left with
  | nil =>
    refine ⟨cursor, ?_, ?_⟩
    · rw [recoverLoop?_step hlength _ hstands hwithin, h.next?_nil, Option.bind_some,
        recoverLoop?_eof, ite_self]
    · rw [Stretch.read]
      cases if nesting.isTop then Ending.ofLexeme? lexeme else none <;> exact h
  | cons next others ih =>
    obtain ⟨left, rfl, hless⟩ := exists_round hleft
    rw [recoverLoop?_step hlength _ hstands hwithin, Stretch.read]
    cases if nesting.isTop then Ending.ofLexeme? lexeme else none with
    | some ending => exact ⟨cursor, rfl, h⟩
    | none =>
      obtain ⟨behind, hnext, hahead, hstop⟩ := h.next?_cons
      obtain ⟨hstart, hstands', -⟩ := Lexeme.Run.cons_iff.mp h.run
      have hlt := hstands.start_lt_stop
      have hinner : Within next.start (nesting.after lexeme.kind) :=
        hwithin.after (by omega) lexeme.kind
      rw [hnext]
      exact ih hless hstands' hahead hstop hinner

omit hlength in
theorem recover?_eof (cursor : Cursor) : recover? Token.eof cursor = some cursor :=
  recoverLoop?_eof _ _ _

theorem recover?_eq (hstands : lexeme.StandsIn source) (h : LexemesAhead source rest cursor)
    (hpos : cursor.pos = lexeme.stop) :
    ∃ behind, recover? lexeme.token cursor = some behind ∧
      LexemesAhead source (skip (lexeme :: rest)) behind := by
  have hlt := hstands.start_lt_stop
  have hroom := h.run.add_length_le
  obtain ⟨left, hsize, hleft⟩ := exists_round (show rest.length + 1 ≤ source.length by omega)
  rw [recover?, h.source_eq, rounds, hsize]
  exact recoverLoop?_eq hlength hleft hstands h hpos (within_top _)

omit hlength

/-! ## Values -/

def bang? (source : CodeUnits) (bang : Bang) (start : Nat) (token : Token) (stop : Option Nat) :
    Option Bang := do
  if token.kind = .delim then
    let units := source.slice start (← add? .word start token.length)
    return if units == [CodeUnit.exclamationMark] then .mark stop else .none
  else if token.kind = .ident then
    match bang with
    | .mark before =>
      let units := source.slice start (← add? .word start token.length)
      return if units.equalsFolded "important" then .important before else .none
    | _ => return .none
  else return .none

/-- Inside a block nothing is seen of `!important`. -/
def bangAfter? (source : CodeUnits) (state : State) (start : Nat) (token : Token) : Option Bang :=
  if state.nesting.isTop then bang? source state.bang start token state.stop else some .none

def stateStep? (source : CodeUnits) (state : State) (start : Nat) (token : Token) :
    Option State := do
  if token.kind.isTrivia then return state
  else
    let bang ← bangAfter? source state start token
    let nesting ← nestingAfter? state.nesting token.kind
    let stop ← add? .word start token.length
    return ⟨nesting, bang, some (state.start.getD start), some stop,
      state.isMalformed || (token.kind.isError || token.flags.unterminated)⟩

def valueLoop? (source : CodeUnits) : Nat → State → Cursor → Option ((State × Ending) × Cursor)
  | 0, _, _ => none
  | left + 1, state, cursor => do
    let start := cursor.pos
    let (token, behind) ← next? cursor
    if token.kind = .eof then
      return ((state, if state.nesting.isTop then .endOfText else .unclosed), behind)
    else if state.nesting.isTop && token.kind == .semicolon then
      return ((state, .semicolon (← add? .word start token.length)), behind)
    else if state.nesting.isTop && token.kind == .rightBrace then
      return ((state, .closeBrace start), behind)
    else if state.nesting.isTop && token.kind == .leftBrace then
      return ((state, .openBrace), behind)
    else valueLoop? source left (← stateStep? source state start token) behind

def value? (cursor : Cursor) : Option ((State × Ending) × Cursor) :=
  valueLoop? cursor.source (rounds cursor.source) .initial cursor

def report? (table : Table) (source : CodeUnits) (name : Span) (state : State) (ending : Ending) :
    Option (Option Resolved) := do
  match ending.stop? source.length with
  | none => return none
  | some semicolonEnd =>
    let (stop, isImportant) := state.bang.close state.stop
    match state.start, stop with
    | some start, some stop =>
      if state.isMalformed then return none
      else
        let value ← span? start stop
        return some ⟨⟨name, value, isImportant, semicolonEnd⟩,
          table.resolve (source.slice name.start name.stop) (source.slice value.start value.stop)⟩
    | _, _ => return none

def statement? (table : Table) (start : Nat) (name : Token) (cursor : Cursor) :
    Option (Option Resolved × Cursor) := do
  let name ← span? start (← add? .word start name.length)
  let (_, colon, behind) ← nextSignificant? cursor
  if colon.kind = .colon then
    let ((state, ending), left) ← value? behind
    return (← report? table cursor.source name state ending, left)
  else return (none, ← recover? colon behind)

def scanLoop? (table : Table) : Nat → Cursor → Option (List Resolved)
  | 0, _ => none
  | left + 1, cursor => do
    let (start, token, behind) ← nextSignificant? cursor
    if token.kind = .eof then return []
    else if token.kind = .ident then
      let (resolved, next) ← statement? table start token behind
      return resolved.toList ++ (← scanLoop? table left next)
    else if token.kind = .leftBrace ∨ token.kind = .rightBrace ∨ token.kind = .semicolon then
      scanLoop? table left behind
    else scanLoop? table left (← recover? token behind)

def scan? (table : Table) (source : CodeUnits) : Option (List Resolved) :=
  scanLoop? table (rounds source) (Cursor.ofUnits source)

theorem slice_stands (h : lexeme.StandsIn source) :
    source.slice lexeme.start (lexeme.start + lexeme.token.length) = lexeme.units := by
  rw [h.units, CodeUnits.slice, List.drop_take, Nat.add_sub_cancel_left]

include hlength

theorem stop?_eq (h : lexeme.StandsIn source) :
    add? .word lexeme.start lexeme.token.length = some lexeme.stop :=
  add?_eq (Nat.le_trans h.stop_le hlength)

theorem bang?_eq (h : lexeme.StandsIn source) (bang : Bang) (stop : Option Nat) :
    bang? source bang lexeme.start lexeme.token stop = some (bang.advance stop lexeme) := by
  unfold bang? Bang.advance
  rw [stop?_eq hlength h]
  simp only [Option.bind_eq_bind, Option.bind_some, Lexeme.stop, slice_stands h]
  by_cases hdelim : lexeme.token.kind = .delim
  · have hbang : lexeme.isBang = (lexeme.units == [CodeUnit.exclamationMark]) := by
      rw [Lexeme.isBang, Lexeme.kind, hdelim]
      rfl
    have hword : lexeme.isImportantWord = false := by
      rw [Lexeme.isImportantWord, Lexeme.kind, hdelim]
      rfl
    rw [if_pos hdelim, hbang, hword]
    cases lexeme.units == [CodeUnit.exclamationMark] <;> cases bang <;> rfl
  · have hbang : lexeme.isBang = false := by
      rw [Lexeme.isBang, Lexeme.kind, beq_eq_false_iff_ne.mpr hdelim, Bool.false_and]
    rw [if_neg hdelim, hbang]
    by_cases hident : lexeme.token.kind = .ident
    · have hword : lexeme.isImportantWord = lexeme.units.equalsFolded "important" := by
        rw [Lexeme.isImportantWord, Lexeme.kind, hident]
        rfl
      rw [if_pos hident, hword]
      cases bang <;> rfl
    · have hword : lexeme.isImportantWord = false := by
        rw [Lexeme.isImportantWord, Lexeme.kind, beq_eq_false_iff_ne.mpr hident, Bool.false_and]
      rw [if_neg hident, hword]
      cases bang <;> rfl

theorem stateStep?_eq (h : lexeme.StandsIn source) {state : State}
    (hwithin : Within lexeme.start state.nesting) :
    stateStep? source state lexeme.start lexeme.token = some (state.step lexeme) := by
  have hafter := nestingAfter?_eq hwithin (Nat.lt_of_lt_of_le h.start_lt hlength)
    lexeme.token.kind
  have hbang : bangAfter? source state lexeme.start lexeme.token =
      some (if state.nesting.isTop then state.bang.advance state.stop lexeme else .none) := by
    unfold bangAfter?
    split
    · exact bang?_eq hlength h _ _
    · rfl
  unfold stateStep? State.step
  rw [hafter, hbang, stop?_eq hlength h]
  show (if lexeme.isTrivia = true then _ else _) = _
  split <;> rfl

theorem valueLoop?_eq {left : Nat} (hleft : lexemes.length ≤ left)
    (h : LexemesAhead source lexemes cursor) {state : State}
    (hwithin : Within cursor.pos state.nesting) :
    ∃ behind, valueLoop? source (left + 1) state cursor =
        some (((state.read lexemes).state, (state.read lexemes).ending), behind) ∧
      LexemesAhead source (state.read lexemes).left behind := by
  induction lexemes generalizing cursor state left with
  | nil =>
    refine ⟨cursor, ?_, h⟩
    rw [valueLoop?, h.next?_nil]
    rfl
  | cons lexeme rest ih =>
    obtain ⟨left, rfl, hless⟩ := exists_round hleft
    obtain ⟨behind, hnext, hahead, hstop⟩ := h.next?_cons
    obtain ⟨hstart, hstands, -⟩ := Lexeme.Run.cons_iff.mp h.run
    have hlt := hstands.start_lt_stop
    rw [hstart] at hwithin
    rw [valueLoop?, hnext, hstart, State.read]
    simp only [Option.bind_eq_bind, Option.bind_some]
    rw [if_neg hstands.kind_ne_eof, stop?_eq hlength hstands, stateStep?_eq hlength hstands hwithin]
    have hinner : Within behind.pos (state.step lexeme).nesting := by
      rw [State.nesting_step]
      exact hwithin.after (by omega) _
    cases htop : state.nesting.isTop with
    | false => exact ih hless hahead hinner
    | true =>
      unfold Ending.ofLexeme? Lexeme.kind
      cases lexeme.token.kind with
      | semicolon => exact ⟨behind, rfl, hahead⟩
      | rightBrace => exact ⟨behind, rfl, hahead⟩
      | leftBrace => exact ⟨behind, rfl, hahead⟩
      | _ => exact ih hless hahead hinner

theorem value?_eq (h : LexemesAhead source lexemes cursor) :
    ∃ behind, value? cursor = some (((State.initial.read lexemes).state,
        (State.initial.read lexemes).ending), behind) ∧
      LexemesAhead source (State.initial.read lexemes).left behind := by
  rw [value?, h.source_eq]
  exact valueLoop?_eq hlength h.length_le h (within_top _)

/-! ## Statements -/

omit hlength in
theorem bounds_of_read (h : LexemesAhead source lexemes cursor) {semicolonEnd : Nat} {value : Value}
    (hstop : (State.initial.read lexemes).ending.stop? source.length = some semicolonEnd)
    (hvalue : (State.initial.read lexemes).state.value? = some value) :
    value.span.start ≤ value.span.stop ∧ value.span.stop ≤ source.length := by
  obtain ⟨hending, -, hread⟩ := Pass.read_initial lexemes
  have hclosed : (Stretch.read .top lexemes).ending ≠ .unclosed := by
    rw [← hending]
    intro hopen
    rw [hopen] at hstop
    exact absurd hstop (by simp [Ending.stop?])
  obtain ⟨j, k, hbody, hle, hbehind, -⟩ := Stretch.run_read h.run .top
  rw [hread hclosed] at hvalue
  obtain ⟨-, hlt, hinside⟩ := Value.ofBody?_bounds hbody hvalue
  have hend := hbehind.le
  omega

omit hlength in
theorem report?_eq {name : Lexeme} (hname : name.StandsIn source)
    (h : LexemesAhead source lexemes cursor) (table : Table) :
    report? table source name.span (State.initial.read lexemes).state
        (State.initial.read lexemes).ending =
      some (Pass.report? table source.toArray name (State.initial.read lexemes)) := by
  have hbounds : ∀ semicolonEnd value,
      (State.initial.read lexemes).ending.stop? source.length = some semicolonEnd →
      (State.initial.read lexemes).state.value? = some value →
      value.span.start ≤ value.span.stop ∧ value.span.stop ≤ source.length :=
    fun _ _ => bounds_of_read h
  have hcut : name.span.cut source.toArray = source.slice name.span.start name.span.stop := by
    rw [Span.cut_toArray]
    exact if_pos ⟨Nat.le_of_lt hname.start_lt_stop, hname.stop_le⟩
  unfold report? Pass.report?
  rw [List.size_toArray, hcut]
  generalize State.initial.read lexemes = reached at hbounds ⊢
  cases hstop : reached.ending.stop? source.length with
  | none => rfl
  | some semicolonEnd =>
    have hvalue := hbounds semicolonEnd
    unfold State.value? at hvalue ⊢
    generalize reached.state.bang.close reached.state.stop = closed at hvalue ⊢
    obtain ⟨stop, isImportant⟩ := closed
    cases hstart : reached.state.start with
    | none => rfl
    | some start =>
      cases stop with
      | none => rfl
      | some stop =>
        cases hmalformed : reached.state.isMalformed with
        | true => rfl
        | false =>
          rw [hstart, hmalformed] at hvalue
          obtain ⟨hle, hinside⟩ : start ≤ stop ∧ stop ≤ source.length := hvalue _ hstop rfl
          have hspan : Span.cut ⟨start, stop⟩ source.toArray = source.slice start stop := by
            rw [Span.cut_toArray]
            exact if_pos ⟨hle, hinside⟩
          simp [span?_eq hle, hspan]

theorem statement?_eq {name : Lexeme} (hname : name.StandsIn source) (hkind : name.kind = .ident)
    (h : LexemesAhead source rest cursor) (table : Table) :
    ∃ behind, statement? table name.start name.token cursor =
        some ((Pass.statement table source.toArray name rest).1, behind) ∧
      LexemesAhead source (Pass.statement table source.toArray name rest).2 behind := by
  have hspan : span? name.start name.stop = some name.span :=
    span?_eq (Nat.le_of_lt hname.start_lt_stop)
  unfold statement? Pass.statement
  rw [stop?_eq hlength hname, if_pos hkind]
  simp only [Option.bind_eq_bind, Option.bind_some, hspan]
  cases hblank : rest.dropWhile fun lexeme => isBlank lexeme.kind with
  | nil =>
    obtain ⟨behind, hnext, hend⟩ := nextSignificant?_nil h hblank
    refine ⟨behind, ?_, hend⟩
    rw [hnext]
    simp only [Option.bind_some]
    rw [if_neg (by decide), recover?_eof]
    rfl
  | cons colon others =>
    obtain ⟨behind, hnext, hahead, hpos, hstands⟩ := nextSignificant?_cons h hblank
    rw [hnext, h.source_eq]
    simp only [Option.bind_some]
    by_cases hcolon : colon.kind = .colon
    · obtain ⟨left, hvalue, hleft⟩ := value?_eq hlength hahead
      rw [if_pos hcolon]
      refine ⟨left, ?_, hleft⟩
      rw [if_pos (show colon.token.kind = .colon from hcolon), hvalue, Option.bind_some,
        report?_eq hname hahead]
      rfl
    · obtain ⟨left, hskip, hleft⟩ := recover?_eq hlength hstands hahead hpos
      rw [if_neg hcolon]
      refine ⟨left, ?_, hleft⟩
      rw [if_neg (show ¬colon.token.kind = .colon from hcolon), hskip]
      rfl

omit hlength in
theorem length_statement_le (table : Table) (source : CodeUnits) (first : Lexeme)
    (rest : List Lexeme) :
    (Pass.statement table source.toArray first rest).2.length ≤ rest.length := by
  rw [Pass.statement_eq]
  exact Declaration.length_readStatement_le _ first rest

omit hlength in
theorem run_dropWhile_isBlank (table : Table) (lexemes : List Lexeme) :
    Pass.run table source.toArray (lexemes.dropWhile fun lexeme => isBlank lexeme.kind) =
      Pass.run table source.toArray lexemes := by
  induction lexemes with
  | nil => rfl
  | cons first rest ih =>
    rw [List.dropWhile_cons]
    split
    · next hblank =>
      have hpassed : isPassedOver first.kind = true := by simp [isPassedOver, hblank]
      rw [ih, Pass.run.eq_def table source.toArray (first :: rest)]
      exact (if_pos hpassed).symm
    · rfl

theorem scanLoop?_eq {left : Nat} (hleft : lexemes.length < left)
    (h : LexemesAhead source lexemes cursor) (table : Table) :
    scanLoop? table left cursor = some (Pass.run table source.toArray lexemes) := by
  induction left generalizing cursor lexemes with
  | zero => exact absurd hleft (Nat.not_lt_zero _)
  | succ left ih =>
    have hshort := (lexemes.dropWhile_sublist fun lexeme => isBlank lexeme.kind).length_le
    have hfirst := List.head?_dropWhile_not (fun lexeme => isBlank lexeme.kind) lexemes
    -- A statement starts behind blanks, and takes at least the lexeme that it starts with.
    rw [scanLoop?, ← run_dropWhile_isBlank]
    cases hblank : lexemes.dropWhile fun lexeme => isBlank lexeme.kind with
    | nil =>
      obtain ⟨behind, hnext, hend⟩ := nextSignificant?_nil h hblank
      rw [hnext, Pass.run]
      rfl
    | cons first rest =>
      rw [hblank] at hshort hfirst
      obtain ⟨behind, hnext, hahead, hpos, hstands⟩ := nextSignificant?_cons h hblank
      rw [List.length_cons] at hshort
      replace hfirst : isBlank first.kind = false := hfirst
      rw [hnext, Pass.run]
      simp only [Option.bind_eq_bind, Option.bind_some]
      rw [if_neg hstands.kind_ne_eof, show first.token.kind = first.kind from rfl]
      by_cases hident : first.kind = .ident
      · have hpassed : ¬isPassedOver first.kind = true := by
          rw [hident]
          decide
        obtain ⟨next, hstatement, hbehind⟩ := statement?_eq hlength hstands hident hahead table
        have hless := length_statement_le table source first rest
        rw [if_pos hident, if_neg hpassed, hstatement]
        simp only [Option.bind_some, ih (by omega) hbehind]
        rfl
      · rw [if_neg hident]
        have hpassed : isPassedOver first.kind = true ↔ first.kind = .leftBrace ∨
            first.kind = .rightBrace ∨ first.kind = .semicolon := by
          simp [isPassedOver, hfirst, or_assoc]
        by_cases hbrace : first.kind = .leftBrace ∨ first.kind = .rightBrace ∨
            first.kind = .semicolon
        · rw [if_pos hbrace, if_pos (hpassed.mpr hbrace)]
          exact ih (by omega) hahead
        · obtain ⟨next, hskip, hbehind⟩ := recover?_eq hlength hstands hahead hpos
          have hless : (skip (first :: rest)).length ≤ rest.length :=
            Stretch.length_rest_cons_le .top first rest
          have htaken : Pass.statement table source.toArray first rest =
              (none, skip (first :: rest)) := if_neg hident
          rw [if_neg hbrace, if_neg (mt hpassed.mp hbrace), hskip, htaken]
          exact ih (Nat.lt_of_le_of_lt hless (by omega)) hbehind

theorem scan?_eq (table : Table) : scan? table source = some (Resolved.all table source) := by
  have hall := LexemesAhead.ofUnits hlength
  have hleft : (Lexeme.all source).length < rounds source := Nat.lt_succ_of_le hall.length_le
  rw [scan?, scanLoop?_eq hlength hleft hall, ← Pass.all_eq, Pass.all,
    CodeUnits.addressable_of_length_le hlength]

end Checked

end StyleRules
