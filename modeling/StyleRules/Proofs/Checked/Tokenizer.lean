import StyleRules.Proofs.Checked.Tokens

/-!
# The tokenizer in checked steps

The first unit of a token tells how it is read. Whatever it is, the cursor ends behind the token
that is read off the text (`next?_eq`).
-/

namespace StyleRules.Checked

open CodeUnits (ahead whitespaceRun startsEscape startsIdentifier startsNumber)
open Token (isUrlName readByUnit readIdentLike readMarked readNumeric readOther singleKind)

def isUrlName? (name : CodeUnits) (escaped : Bool) : Option Bool :=
  if escaped then equalsFolded? name 0 (literalBytes "url") else some (name.equalsFolded "url")

def identLike? (cursor : Cursor) (start : Nat) : Option (Token × Cursor) := do
  let (flags, behind) ← name? cursor
  if peek behind 0 != CodeUnit.leftParen then token? behind start .ident flags
  else
    let name := behind.sliceFrom start
    let inside ← step? behind
    if ← isUrlName? name flags.escaped then
      let probe ← skipWhile? inside CodeUnit.isWhitespace
      if (peek probe 0).isQuote then token? inside start .function flags else url? inside start
    else token? inside start .function flags

def marked? (cursor : Cursor) (start : Nat) (kind : Token.Kind) : Option (Token × Cursor) := do
  let (flags, behind) ← name? (← step? cursor)
  token? behind start kind flags

def hyphen? (cursor : Cursor) (start : Nat) : Option (Token × Cursor) :=
  if CodeUnit.startsNumber (peek cursor 0) (peek cursor 1) (peek cursor 2) then
    numeric? cursor start
  else if peek cursor 1 == CodeUnit.hyphen && peek cursor 2 == CodeUnit.greaterThan then
    token? (jump cursor 3) start .cdc .empty
  else if CodeUnit.startsIdentifier (peek cursor 0) (peek cursor 1) (peek cursor 2) then
    identLike? cursor start
  else single? cursor start .delim

def other? (cursor : Cursor) (start : Nat) : Option (Token × Cursor) := do
  let unit := peek cursor 0
  if unit.isWhitespace then
    token? (← skipWhile? cursor CodeUnit.isWhitespace) start .whitespace .empty
  else if unit.isQuote then string? (← step? cursor) start unit
  else if unit == CodeUnit.numberSign then
    if (peek cursor 1).isName || CodeUnit.isValidEscape (peek cursor 1) (peek cursor 2) then
      marked? cursor start .hash
    else single? cursor start .delim
  else if unit == CodeUnit.atSign then
    if CodeUnit.startsIdentifier (peek cursor 1) (peek cursor 2) (peek cursor 3) then
      marked? cursor start .atKeyword
    else single? cursor start .delim
  else if unit == CodeUnit.solidus then
    if peek cursor 1 == CodeUnit.asterisk then comment? (jump cursor 2) start
    else single? cursor start .delim
  else if unit == CodeUnit.lessThan then
    if peek cursor 1 == CodeUnit.exclamationMark && peek cursor 2 == CodeUnit.hyphen &&
        peek cursor 3 == CodeUnit.hyphen then
      token? (jump cursor 4) start .cdo .empty
    else single? cursor start .delim
  else single? cursor start (singleKind unit)

def byUnit? (cursor : Cursor) (start : Nat) : Option (Token × Cursor) :=
  let unit := peek cursor 0
  if unit.isDigit then numeric? cursor start
  else if unit == CodeUnit.plusSign || unit == CodeUnit.fullStop then
    if CodeUnit.startsNumber unit (peek cursor 1) (peek cursor 2) then numeric? cursor start
    else single? cursor start .delim
  else if unit == CodeUnit.hyphen then hyphen? cursor start
  else if unit == CodeUnit.backslash then
    if CodeUnit.isValidEscape unit (peek cursor 1) then identLike? cursor start
    else single? cursor start .delim
  else if unit.isNameStart then identLike? cursor start
  else other? cursor start

def next? (cursor : Cursor) : Option (Token × Cursor) :=
  if cursor.atEnd then some (Token.eof, cursor) else byUnit? cursor cursor.pos

variable {cursor : Cursor} {start : Nat}

theorem startsNumber_peek (cursor : Cursor) :
    CodeUnit.startsNumber (peek cursor 0) (peek cursor 1) (peek cursor 2) =
      startsNumber cursor.rest := by
  rw [peek_eq cursor, peek_eq cursor, peek_eq cursor]
  rfl

theorem startsIdentifier_peek (cursor : Cursor) :
    CodeUnit.startsIdentifier (peek cursor 0) (peek cursor 1) (peek cursor 2) =
      startsIdentifier cursor.rest := by
  rw [peek_eq cursor, peek_eq cursor, peek_eq cursor]
  rfl

theorem isUrlName?_eq {name : CodeUnits} (hsize : name.length + 2 ≤ Width.size.max)
    (escaped : Bool) : isUrlName? name escaped = some (isUrlName name escaped) := by
  unfold isUrlName? isUrlName
  split
  · exact equalsFolded?_eq hsize 0 _
  · rfl

theorem identLike?_eq (cursor : Cursor) :
    identLike? cursor cursor.pos =
      some (reached cursor cursor.pos (readIdentLike cursor.rest)) := by
  have hinside := Name.length_extent_le cursor.rest
  have hname := name?_eq cursor
  unfold identLike? readIdentLike
  generalize Name.extent cursor.rest = name at hinside hname ⊢
  rw [hname]
  simp only [Option.bind_eq_bind, Option.bind_some, peek_advance cursor]
  split
  · exact token?_advance (Nat.le_refl _) hinside .ident _
  · next hparen =>
    have hslice : (cursor.advance name.length).sliceFrom cursor.pos =
        cursor.rest.take name.length := by
      rw [Cursor.sliceFrom, Cursor.slice, CodeUnits.slice, Cursor.pos_advance hinside,
        List.drop_take, Nat.add_sub_cancel_left]
      rfl
    have hsize : (cursor.rest.take name.length).length + 2 ≤ Width.size.max := by
      have hsum := cursor.length_rest
      have hroom := word_le_size cursor.length_le
      rw [List.length_take]
      omega
    have hopen : name.length + 1 ≤ cursor.rest.length := by
      rw [bne, Bool.not_eq_true, Bool.not_eq_false'] at hparen
      have hlt := CodeUnits.lt_length_of_ahead (by decide) hparen
      rw [List.length_drop] at hlt
      omega
    have hstep : step? (cursor.advance name.length) = some (cursor.advance (name.length + 1)) := by
      rw [step?_eq (cursor.advance _), Cursor.advance_advance]
    have hfunction := token?_advance (Nat.le_refl _) hopen .function name.flags
    have hurl := url?_eq (cursor.advance (name.length + 1)) (cursor.pos_le_pos_advance _)
    rw [Cursor.rest_advance, reached_advance (Nat.le_refl _) hopen] at hurl
    have hprobe : skipWhile? (cursor.advance (name.length + 1)) CodeUnit.isWhitespace =
        some (cursor.advance (name.length + 1 +
          whitespaceRun (cursor.rest.drop (name.length + 1)))) := skipWhile?_advance cursor _ _
    have hescaped : name.flags.escaped = name.escaped := rfl
    rw [hstep, hslice]
    simp only [Option.bind_some, hfunction, hurl, hprobe, hescaped,
      peek_advance cursor, List.drop_drop, isUrlName?_eq hsize]
    cases isUrlName (cursor.rest.take name.length) name.escaped with
    | false => rfl
    | true =>
      cases (ahead (cursor.rest.drop (name.length + 1 +
        whitespaceRun (cursor.rest.drop (name.length + 1)))) 0).isQuote with
      | true => rfl
      | false =>
        simp only [Token.grow, Nat.add_assoc]
        rfl

theorem marked?_eq (cursor : Cursor) (hstart : start ≤ cursor.pos) (kind : Token.Kind)
    {u : CodeUnit} {rest : CodeUnits} (hs : cursor.rest = u :: rest) :
    marked? cursor start kind = some (reached cursor start (readMarked kind rest)) := by
  have hname := name?_eq (cursor.advance 1)
  have hinside := Name.length_extent_le rest
  rw [Cursor.rest_advance_one hs, Cursor.advance_advance] at hname
  rw [marked?, step?_eq cursor]
  simp only [Option.bind_eq_bind, Option.bind_some, hname]
  exact token?_advance hstart (by rw [hs, List.length_cons]; omega) kind _

theorem whitespace_eq (hstart : start ≤ cursor.pos) {u : CodeUnit} {rest : CodeUnits}
    (hs : cursor.rest = u :: rest) (hspace : u.isWhitespace = true) :
    token? (cursor.skipWhile CodeUnit.isWhitespace) start .whitespace .empty =
      some (reached cursor start (Token.plain .whitespace (1 + whitespaceRun rest))) := by
  have hrun : cursor.skipWhile CodeUnit.isWhitespace =
      cursor.advance (1 + whitespaceRun rest) := by
    rw [Cursor.skipWhile, hs, List.takeWhile_cons_of_pos hspace, List.length_cons, Nat.add_comm]
    rfl
  have hinside := CodeUnits.whitespaceRun_le rest
  rw [hrun]
  exact token?_advance hstart (by rw [hs, List.length_cons]; omega) .whitespace .empty

theorem quoted_eq (cursor : Cursor) (hstart : start ≤ cursor.pos) {u : CodeUnit}
    {rest : CodeUnits} (hs : cursor.rest = u :: rest) :
    string? (cursor.advance 1) start u =
      some (reached cursor start ((Token.readString u rest).grow 1)) := by
  have hstring := string?_eq (cursor.advance 1) (Cursor.le_pos_advance hstart 1) u
  rw [Cursor.rest_advance_one hs,
    reached_advance hstart (Cursor.one_le_length_rest hs)] at hstring
  exact hstring

theorem comment_eq (cursor : Cursor) (hstart : start ≤ cursor.pos) {u : CodeUnit}
    {rest : CodeUnits} (hs : cursor.rest = u :: rest)
    (hstar : (ahead rest 0 == CodeUnit.asterisk) = true) :
    comment? (cursor.advance 2) start =
      some (reached cursor start ((Token.readComment (rest.drop 1)).grow 2)) := by
  have hinside : 1 < (u :: rest).length := CodeUnits.lt_length_of_ahead (by decide) hstar
  have hcomment := comment?_eq (cursor.advance 2) (Cursor.le_pos_advance hstart 2)
  rw [Cursor.rest_advance, reached_advance hstart (by rw [hs]; exact hinside), hs] at hcomment
  exact hcomment

theorem cdo_eq (hstart : start ≤ cursor.pos) {u : CodeUnit} {rest : CodeUnits}
    (hs : cursor.rest = u :: rest) (hhyphen : (ahead rest 2 == CodeUnit.hyphen) = true) :
    token? (cursor.advance 4) start .cdo .empty =
      some (reached cursor start (Token.plain .cdo 4)) := by
  have hinside : 3 < (u :: rest).length := CodeUnits.lt_length_of_ahead (by decide) hhyphen
  exact token?_advance hstart (by rw [hs]; exact hinside) .cdo .empty

theorem other?_eq (cursor : Cursor) (hstart : start ≤ cursor.pos) {u : CodeUnit}
    {rest : CodeUnits} (hs : cursor.rest = u :: rest) :
    other? cursor start = some (reached cursor start (readOther u rest)) := by
  have hone := Cursor.one_le_length_rest hs
  unfold other? readOther startsEscape startsIdentifier
  simp only [peek_eq cursor, jump_eq cursor, step?_eq cursor, skipWhile?_eq cursor,
    single?_eq cursor hstart hone, marked?_eq cursor hstart _ hs, hs, CodeUnits.ahead_cons_zero,
    CodeUnits.ahead_cons_succ]
  split
  · next hspace => exact whitespace_eq hstart hs hspace
  split
  · exact quoted_eq cursor hstart hs
  split
  · next hhash =>
    obtain rfl := beq_iff_eq.mp hhash
    cases (ahead rest 0).isName || CodeUnit.isValidEscape (ahead rest 0) (ahead rest 1) <;> rfl
  split
  · next hat =>
    obtain rfl := beq_iff_eq.mp hat
    cases CodeUnit.startsIdentifier (ahead rest 0) (ahead rest 1) (ahead rest 2) <;> rfl
  split
  · next hsolidus =>
    obtain rfl := beq_iff_eq.mp hsolidus
    cases hstar : ahead rest 0 == CodeUnit.asterisk with
    | true => exact comment_eq cursor hstart hs hstar
    | false => rfl
  split
  · next hhash hat hsolidus hless =>
    obtain rfl := beq_iff_eq.mp hless
    have hother : readOther CodeUnit.lessThan rest =
        if ahead rest 0 == CodeUnit.exclamationMark && ahead rest 1 == CodeUnit.hyphen &&
          ahead rest 2 == CodeUnit.hyphen then Token.plain .cdo 4
        else Token.plain .delim 1 := rfl
    show _ = some (reached cursor start (readOther CodeUnit.lessThan rest))
    rw [hother]
    split
    · next hcdo => exact cdo_eq hstart hs (Bool.and_eq_true_iff.mp hcdo).2
    · rfl
  · next hhash hat hsolidus hless =>
    rw [Bool.not_eq_true] at hhash hat hsolidus hless
    simp only [hhash, hat, hsolidus, hless, Bool.false_and, Bool.false_eq_true, if_false]

theorem hyphen?_eq (cursor : Cursor) {u : CodeUnit} {rest : CodeUnits}
    (hs : cursor.rest = u :: rest) :
    hyphen? cursor cursor.pos = some (reached cursor cursor.pos
      (if startsNumber (u :: rest) then readNumeric (u :: rest)
      else if ahead rest 0 == CodeUnit.hyphen && ahead rest 1 == CodeUnit.greaterThan then
        Token.plain .cdc 3
      else if startsIdentifier (u :: rest) then readIdentLike (u :: rest)
      else Token.plain .delim 1)) := by
  have hone := Cursor.one_le_length_rest hs
  rw [hyphen?, startsNumber_peek cursor, startsIdentifier_peek cursor,
    numeric?_eq cursor (Nat.le_refl _), identLike?_eq cursor,
    single?_eq cursor (Nat.le_refl _) hone, jump_eq cursor, peek_eq cursor, peek_eq cursor, hs,
    CodeUnits.ahead_cons_succ, CodeUnits.ahead_cons_succ]
  cases startsNumber (u :: rest) with
  | true => rw [if_pos rfl, if_pos rfl]
  | false =>
    rw [if_neg Bool.false_ne_true, if_neg Bool.false_ne_true]
    cases hcdc : ahead rest 0 == CodeUnit.hyphen && ahead rest 1 == CodeUnit.greaterThan with
    | true =>
      have hinside : 2 < (u :: rest).length :=
        CodeUnits.lt_length_of_ahead (by decide) (Bool.and_eq_true_iff.mp hcdc).2
      exact token?_advance (Nat.le_refl _) (by rw [hs]; exact hinside) .cdc .empty
    | false =>
      rw [if_neg Bool.false_ne_true, if_neg Bool.false_ne_true]
      split <;> rfl

theorem byUnit?_eq (cursor : Cursor) {u : CodeUnit} {rest : CodeUnits}
    (hs : cursor.rest = u :: rest) :
    byUnit? cursor cursor.pos = some (reached cursor cursor.pos (readByUnit (u :: rest))) := by
  have hone := Cursor.one_le_length_rest hs
  have hunit : peek cursor 0 = u := by rw [peek_eq cursor, hs]; rfl
  have hnext : peek cursor 1 = ahead rest 0 := by rw [peek_eq cursor, hs]; rfl
  have hnumber := startsNumber_peek cursor
  rw [hunit, hs] at hnumber
  rw [byUnit?, readByUnit, numeric?_eq cursor (Nat.le_refl _), identLike?_eq cursor,
    single?_eq cursor (Nat.le_refl _) hone, other?_eq cursor (Nat.le_refl _) hs, hs]
  rw [hunit, hnumber, hnext]
  split
  · rfl
  split
  · split <;> rfl
  split
  · exact hyphen?_eq cursor hs
  split
  · split <;> rfl
  · split <;> rfl

theorem next?_eq (cursor : Cursor) : next? cursor = some cursor.next := by
  rw [next?, cursor.atEnd_eq, Cursor.next, Token.read_eq_readByUnit]
  cases hs : cursor.rest with
  | nil =>
    rw [readByUnit, Token.eof, Token.length_plain, Cursor.advance_zero]
    rfl
  | cons u rest =>
    rw [if_neg (by simp), byUnit?_eq cursor hs, reached, Nat.sub_self]
    simp only [Token.grow, Nat.zero_add]

end StyleRules.Checked
