import StyleRules.Proofs.Checked.Names
import StyleRules.Proofs.Token.Names

/-!
# Tokens in checked steps

The tokenizer as a cursor that walks: each token is begun at an offset, the cursor moves through it,
and its length is the difference of the two offsets. It answers with the token that is read off the
text, so no move and no difference leaves its type (`next?_eq`).
-/

namespace StyleRules

def Token.addFlags (flags : Flags) (token : Token) : Token :=
  { token with flags := flags.union token.flags }

namespace Token

@[simp] theorem addFlags_plain (flags : Flags) (kind : Kind) (n : Nat) :
    addFlags flags (plain kind n) = ⟨kind, n, flags⟩ := by
  cases flags
  simp [addFlags, plain, Flags.union, Flags.empty]

theorem addFlags_empty (token : Token) : addFlags .empty token = token := by
  simp [addFlags, Flags.union, Flags.empty]

theorem addFlags_grow (flags : Flags) (n : Nat) (token : Token) :
    addFlags flags (token.grow n) = (addFlags flags token).grow n := rfl

theorem addFlags_markEscaped (flags : Flags) (token : Token) :
    addFlags flags token.markEscaped = addFlags { flags with escaped := true } token := by
  simp [addFlags, markEscaped, Flags.union]

theorem addFlags_markUnterminated (flags : Flags) (token : Token) :
    addFlags flags token.markUnterminated =
      addFlags { flags with unterminated := true } token := by
  simp [addFlags, markUnterminated, Flags.union]

end Token

theorem CodeUnits.lt_length_of_ahead {s : CodeUnits} {i : Nat} {u : CodeUnit} (hu : u ≠ 0)
    (h : (s.ahead i == u) = true) : i < s.length := by
  apply ahead_ne_zero
  rw [beq_iff_eq.mp h]
  exact hu

namespace Checked

open CodeUnits (ahead whitespaceRun startsIdentifier startsNumber)
open Token (readString readComment readUrl readUrlEnd badUrl badUrlLength readNumeric readIdentLike)

/-- The token that was begun at `start` and ends at the cursor. -/
def token? (cursor : Cursor) (start : Nat) (kind : Token.Kind) (flags : Flags) :
    Option (Token × Cursor) := do
  return (⟨kind, ← sub? cursor.pos start, flags⟩, cursor)

def single? (cursor : Cursor) (start : Nat) (kind : Token.Kind) : Option (Token × Cursor) := do
  token? (← step? cursor) start kind .empty

/-- The token that was begun at `start` and goes on with `token` from the cursor on, and the cursor
behind it. -/
def reached (cursor : Cursor) (start : Nat) (token : Token) : Token × Cursor :=
  (token.grow (cursor.pos - start), cursor.advance token.length)

section

variable {cursor : Cursor} {start : Nat}

theorem token?_eq (hstart : start ≤ cursor.pos) (kind : Token.Kind) (flags : Flags) :
    token? cursor start kind flags = some (reached cursor start ⟨kind, 0, flags⟩) := by
  rw [token?, sub?_eq hstart, reached, Cursor.advance_zero]
  rfl

theorem reached_advance (hstart : start ≤ cursor.pos) {n : Nat} (hn : n ≤ cursor.rest.length)
    (token : Token) :
    reached (cursor.advance n) start token = reached cursor start (token.grow n) := by
  rw [reached, reached, Cursor.pos_advance hn, Cursor.advance_advance, Nat.sub_add_comm hstart]
  simp only [Token.grow, Nat.add_assoc]

theorem token?_advance (hstart : start ≤ cursor.pos) {n : Nat} (hn : n ≤ cursor.rest.length)
    (kind : Token.Kind) (flags : Flags) :
    token? (cursor.advance n) start kind flags = some (reached cursor start ⟨kind, n, flags⟩) := by
  rw [token?_eq (Cursor.le_pos_advance hstart n), reached_advance hstart hn]
  rfl

theorem single?_eq (cursor : Cursor) (hstart : start ≤ cursor.pos)
    (hone : 1 ≤ cursor.rest.length) (kind : Token.Kind) :
    single? cursor start kind = some (reached cursor start (Token.plain kind 1)) := by
  rw [single?, step?_eq cursor]
  exact token?_advance hstart hone kind .empty

end

/-! ## Comments and strings -/

def commentLoop? (start : Nat) : Nat → Cursor → Option (Token × Cursor)
  | 0, _ => none
  | left + 1, cursor => do
    if cursor.atEnd then token? cursor start .comment ⟨true, false⟩
    else if peek cursor 0 == CodeUnit.asterisk && peek cursor 1 == CodeUnit.solidus then
      token? (jump cursor 2) start .comment .empty
    else commentLoop? start left (← step? cursor)

def comment? (cursor : Cursor) (start : Nat) : Option (Token × Cursor) :=
  commentLoop? start (rounds cursor.source) cursor

def inString? (cursor : Cursor) : Option Cursor :=
  if (peek cursor 0).isNewline then skipNewline? cursor else escape? cursor

def stringLoop? (start : Nat) (quote : CodeUnit) : Nat → Cursor → Flags → Option (Token × Cursor)
  | 0, _, _ => none
  | left + 1, cursor, flags => do
    if cursor.atEnd then token? cursor start .string { flags with unterminated := true }
    else if peek cursor 0 == quote then token? (← step? cursor) start .string flags
    else if (peek cursor 0).isNewline then token? cursor start .badString flags
    else
      let behind ← step? cursor
      if peek cursor 0 == CodeUnit.backslash && !behind.atEnd then
        stringLoop? start quote left (← inString? behind) { flags with escaped := true }
      else stringLoop? start quote left behind flags

def string? (cursor : Cursor) (start : Nat) (quote : CodeUnit) : Option (Token × Cursor) :=
  stringLoop? start quote (rounds cursor.source) cursor .empty

theorem inString?_eq (cursor : Cursor) :
    inString? cursor = some (cursor.advance (Escape.lengthInString cursor.rest)) := by
  unfold inString? Escape.lengthInString
  rw [peek_eq cursor, skipNewline?_eq cursor, escape?_eq cursor]
  unfold Cursor.skipNewline CodeUnits.newlineLength
  simp only [Cursor.ahead_eq_rest]
  split
  · split <;> rfl
  · rfl

section

variable (cursor : Cursor) {start : Nat}
  (hstart : start ≤ cursor.pos)

include hstart

theorem commentLoop?_eq {left : Nat} (hleft : cursor.rest.length ≤ left) :
    commentLoop? start (left + 1) cursor =
      some (reached cursor start (readComment cursor.rest)) := by
  generalize hs : cursor.rest = s at hleft ⊢
  fun_induction readComment s generalizing cursor left with
  | case1 =>
    rw [commentLoop?, cursor.atEnd_eq, hs, token?_eq hstart]
    rfl
  | case2 u rest hstop =>
    have htwo : 2 ≤ cursor.rest.length := by
      have hread := Token.length_readComment_le (u :: rest)
      rw [readComment, if_pos hstop, Token.length_plain] at hread
      rwa [hs]
    rw [commentLoop?, cursor.atEnd_eq, peek_eq cursor, peek_eq cursor, hs,
      CodeUnits.ahead_cons_zero, CodeUnits.ahead_cons_succ, if_neg (by simp), if_pos hstop,
      jump_eq cursor, token?_advance hstart htwo]
    rfl
  | case3 u rest hstop ih =>
    obtain ⟨left, rfl, hless⟩ := exists_round hleft
    have hone := Cursor.one_le_length_rest hs
    have htail := ih (cursor.advance 1)
      (Cursor.le_pos_advance hstart 1) (Cursor.rest_advance_one hs) hless
    rw [commentLoop?, cursor.atEnd_eq, peek_eq cursor, peek_eq cursor, hs,
      CodeUnits.ahead_cons_zero, CodeUnits.ahead_cons_succ, if_neg (by simp), if_neg hstop,
      step?_eq cursor, ← reached_advance hstart hone]
    exact htail

theorem comment?_eq :
    comment? cursor start = some (reached cursor start (readComment cursor.rest)) :=
  commentLoop?_eq cursor hstart cursor.length_rest_le

theorem stringLoop?_eq {left : Nat} (hleft : cursor.rest.length ≤ left) (quote : CodeUnit)
    (flags : Flags) :
    stringLoop? start quote (left + 1) cursor flags =
      some (reached cursor start ((readString quote cursor.rest).addFlags flags)) := by
  generalize hs : cursor.rest = s at hleft ⊢
  fun_induction readString quote s generalizing cursor flags left with
  | case1 =>
    rw [stringLoop?, cursor.atEnd_eq, hs, token?_eq hstart, Token.addFlags_markUnterminated,
      Token.addFlags_plain]
    rfl
  | case2 u rest hquote =>
    have hone := Cursor.one_le_length_rest hs
    rw [stringLoop?, cursor.atEnd_eq, peek_eq cursor, hs, CodeUnits.ahead_cons_zero,
      if_neg (by simp), if_pos hquote, step?_eq cursor, Token.addFlags_plain]
    exact token?_advance hstart hone .string flags
  | case3 u rest hquote hnewline =>
    rw [stringLoop?, cursor.atEnd_eq, peek_eq cursor, hs, CodeUnits.ahead_cons_zero,
      if_neg (by simp), if_neg hquote, if_pos hnewline, token?_eq hstart, Token.addFlags_plain]
  | case4 u rest hquote hnewline hescape body =>
    rename_i ih
    obtain ⟨left, rfl, hless⟩ := exists_round hleft
    have hbehind := Cursor.rest_advance_one hs
    have hinside : 1 + body ≤ cursor.rest.length := by
      have := Escape.lengthInString_le rest
      rw [hs, List.length_cons]
      omega
    have hbody := inString?_eq (cursor.advance 1)
    rw [hbehind, Cursor.advance_advance] at hbody
    have hrest := Cursor.rest_advance_add hs body
    have htail := ih (cursor.advance (1 + body))
      (Cursor.le_pos_advance hstart _) { flags with escaped := true } hrest
      (Nat.le_trans (rest.drop_sublist body).length_le hless)
    rw [Bool.and_eq_true] at hescape
    rw [stringLoop?, cursor.atEnd_eq, peek_eq cursor, hs, CodeUnits.ahead_cons_zero,
      if_neg (by simp), if_neg hquote, if_neg hnewline, step?_eq cursor,
      Token.addFlags_markEscaped, Token.addFlags_grow, ← reached_advance hstart hinside, ← htail]
    simp only [Option.bind_eq_bind, Option.bind_some, Cursor.atEnd_eq, hbehind, hescape.1,
      hescape.2, Bool.and_self, if_true, hbody]
    rfl
  | case5 u rest hquote hnewline hescape ih =>
    obtain ⟨left, rfl, hless⟩ := exists_round hleft
    have hone := Cursor.one_le_length_rest hs
    have hbehind := Cursor.rest_advance_one hs
    have htail := ih (cursor.advance 1)
      (Cursor.le_pos_advance hstart 1) flags hbehind hless
    rw [stringLoop?, cursor.atEnd_eq, peek_eq cursor, hs, CodeUnits.ahead_cons_zero,
      if_neg (by simp), if_neg hquote, if_neg hnewline, step?_eq cursor, Token.addFlags_grow,
      ← reached_advance hstart hone, ← htail]
    simp only [Option.bind_eq_bind, Option.bind_some, Cursor.atEnd_eq, hbehind]
    rw [if_neg hescape]

theorem string?_eq (quote : CodeUnit) :
    string? cursor start quote = some (reached cursor start (readString quote cursor.rest)) := by
  rw [string?, rounds, stringLoop?_eq cursor hstart cursor.length_rest_le, Token.addFlags_empty]

end

/-! ## Urls -/

def badUrlLoop? (start : Nat) (flags : Flags) : Nat → Cursor → Option (Token × Cursor)
  | 0, _ => none
  | left + 1, cursor => do
    if cursor.atEnd then token? cursor start .badUrl flags
    else if peek cursor 0 == CodeUnit.rightParen then token? cursor start .badUrl flags
    else if CodeUnit.isValidEscape (peek cursor 0) (peek cursor 1) then
      badUrlLoop? start flags left (← backslash? cursor)
    else badUrlLoop? start flags left (← step? cursor)

def badUrl? (cursor : Cursor) (start : Nat) (flags : Flags) : Option (Token × Cursor) :=
  badUrlLoop? start flags (rounds cursor.source) cursor

def urlEnd? (cursor : Cursor) (start : Nat) (flags : Flags) : Option (Token × Cursor) := do
  if cursor.atEnd then token? cursor start .url { flags with unterminated := true }
  else if peek cursor 0 == CodeUnit.rightParen then token? (← step? cursor) start .url flags
  else badUrl? cursor start flags

def urlLoop? (start : Nat) : Nat → Cursor → Flags → Option (Token × Cursor)
  | 0, _, _ => none
  | left + 1, cursor, flags => do
    if cursor.atEnd then token? cursor start .url { flags with unterminated := true }
    else if peek cursor 0 == CodeUnit.rightParen then token? (← step? cursor) start .url flags
    else if (peek cursor 0).isWhitespace then
      urlEnd? (← skipWhile? cursor CodeUnit.isWhitespace) start flags
    else if Token.endsUrlBadly (peek cursor 0) then badUrl? cursor start flags
    else if peek cursor 0 == CodeUnit.backslash then
      if CodeUnit.isValidEscape (peek cursor 0) (peek cursor 1) then
        urlLoop? start left (← backslash? cursor) { flags with escaped := true }
      else badUrl? cursor start flags
    else urlLoop? start left (← step? cursor) flags

def url? (cursor : Cursor) (start : Nat) : Option (Token × Cursor) := do
  urlLoop? start (rounds cursor.source) (← skipWhile? cursor CodeUnit.isWhitespace) .empty

section

variable (cursor : Cursor) {start : Nat}
  (hstart : start ≤ cursor.pos)

include hstart

theorem badUrlLoop?_eq {left : Nat} (hleft : cursor.rest.length ≤ left) (flags : Flags) :
    badUrlLoop? start flags (left + 1) cursor =
      some (reached cursor start ((badUrl cursor.rest).addFlags flags)) := by
  rw [badUrl, Token.addFlags_plain]
  generalize hs : cursor.rest = s at hleft ⊢
  fun_induction badUrlLength s generalizing cursor left with
  | case1 => rw [badUrlLoop?, cursor.atEnd_eq, hs, token?_eq hstart]; rfl
  | case2 u rest hparen =>
    rw [badUrlLoop?, cursor.atEnd_eq, peek_eq cursor, hs, CodeUnits.ahead_cons_zero,
      if_neg (by simp), if_pos hparen, token?_eq hstart]
  | case3 u rest hparen hescape body =>
    rename_i ih
    obtain ⟨left, rfl, hless⟩ := exists_round hleft
    have hinside : 1 + body ≤ cursor.rest.length := by
      have := Escape.length_le rest
      rw [hs, List.length_cons]
      omega
    have hbehind := Cursor.rest_advance_add hs body
    have htail := ih (cursor.advance (1 + body))
      (Cursor.le_pos_advance hstart _) hbehind
      (Nat.le_trans (rest.drop_sublist body).length_le hless)
    rw [reached_advance hstart hinside] at htail
    rw [badUrlLoop?, cursor.atEnd_eq, peek_eq cursor, peek_eq cursor, hs, CodeUnits.ahead_cons_zero,
      CodeUnits.ahead_cons_succ, backslash?_eq cursor hs, if_neg (by simp), if_neg hparen,
      if_pos hescape]
    exact htail
  | case4 u rest hparen hescape ih =>
    obtain ⟨left, rfl, hless⟩ := exists_round hleft
    have hone := Cursor.one_le_length_rest hs
    have htail := ih (cursor.advance 1)
      (Cursor.le_pos_advance hstart 1) (Cursor.rest_advance_one hs) hless
    rw [reached_advance hstart hone] at htail
    rw [badUrlLoop?, cursor.atEnd_eq, peek_eq cursor, peek_eq cursor, hs, CodeUnits.ahead_cons_zero,
      CodeUnits.ahead_cons_succ, step?_eq cursor, if_neg (by simp), if_neg hparen,
      if_neg hescape]
    exact htail

theorem badUrl?_eq (flags : Flags) :
    badUrl? cursor start flags =
      some (reached cursor start ((badUrl cursor.rest).addFlags flags)) :=
  badUrlLoop?_eq cursor hstart cursor.length_rest_le flags

theorem urlEnd?_eq (flags : Flags) :
    urlEnd? cursor start flags =
      some (reached cursor start ((readUrlEnd cursor.rest).addFlags flags)) := by
  rw [urlEnd?, cursor.atEnd_eq, peek_eq cursor, step?_eq cursor, badUrl?_eq cursor hstart]
  cases hs : cursor.rest with
  | nil =>
    rw [token?_eq hstart, readUrlEnd, Token.addFlags_markUnterminated, Token.addFlags_plain]
    rfl
  | cons u rest =>
    have hone := Cursor.one_le_length_rest hs
    rw [readUrlEnd, CodeUnits.ahead_cons_zero, if_neg (by simp)]
    split
    · rw [Token.addFlags_plain]
      exact token?_advance hstart hone .url flags
    · rfl

theorem urlLoop?_eq {left : Nat} (hleft : cursor.rest.length ≤ left) (flags : Flags) :
    urlLoop? start (left + 1) cursor flags =
      some (reached cursor start ((readUrl cursor.rest).addFlags flags)) := by
  generalize hs : cursor.rest = s at hleft ⊢
  fun_induction readUrl s generalizing cursor flags left with
  | case1 =>
    rw [urlLoop?, cursor.atEnd_eq, hs, token?_eq hstart, Token.addFlags_markUnterminated,
      Token.addFlags_plain]
    rfl
  | case2 u rest hparen =>
    have hone := Cursor.one_le_length_rest hs
    rw [urlLoop?, cursor.atEnd_eq, peek_eq cursor, hs, CodeUnits.ahead_cons_zero,
      if_neg (by simp), if_pos hparen, step?_eq cursor, Token.addFlags_plain]
    exact token?_advance hstart hone .url flags
  | case3 u rest hparen hspace =>
    have hblank : whitespaceRun (u :: rest) ≤ cursor.rest.length := by
      rw [hs]
      exact CodeUnits.whitespaceRun_le _
    have hskip : cursor.skipWhile CodeUnit.isWhitespace =
        cursor.advance (whitespaceRun (u :: rest)) := by rw [Cursor.skipWhile, hs]; rfl
    have hend := urlEnd?_eq (cursor.advance (whitespaceRun (u :: rest)))
      (Cursor.le_pos_advance hstart _) flags
    rw [Cursor.rest_advance, hs, reached_advance hstart hblank] at hend
    rw [urlLoop?, cursor.atEnd_eq, peek_eq cursor, hs, CodeUnits.ahead_cons_zero,
      if_neg (by simp), if_neg hparen, if_pos hspace, skipWhile?_eq cursor, hskip]
    exact hend
  | case4 u rest hparen hspace hbad =>
    rw [urlLoop?, cursor.atEnd_eq, peek_eq cursor, hs, CodeUnits.ahead_cons_zero,
      if_neg (by simp), if_neg hparen, if_neg hspace, if_pos hbad, badUrl?_eq cursor hstart, hs]
  | case5 u rest hparen hspace hbad hslash hescape body =>
    rename_i ih
    obtain ⟨left, rfl, hless⟩ := exists_round hleft
    have hinside : 1 + body ≤ cursor.rest.length := by
      have := Escape.length_le rest
      rw [hs, List.length_cons]
      omega
    have hbehind := Cursor.rest_advance_add hs body
    have htail := ih (cursor.advance (1 + body))
      (Cursor.le_pos_advance hstart _) { flags with escaped := true } hbehind
      (Nat.le_trans (rest.drop_sublist body).length_le hless)
    rw [reached_advance hstart hinside] at htail
    rw [urlLoop?, cursor.atEnd_eq, peek_eq cursor, peek_eq cursor, hs, CodeUnits.ahead_cons_zero,
      CodeUnits.ahead_cons_succ, backslash?_eq cursor hs, if_neg (by simp), if_neg hparen,
      if_neg hspace, if_neg hbad, if_pos hslash, if_pos hescape, Token.addFlags_markEscaped]
    exact htail
  | case6 u rest hparen hspace hbad hslash hescape =>
    rw [urlLoop?, cursor.atEnd_eq, peek_eq cursor, peek_eq cursor, hs, CodeUnits.ahead_cons_zero,
      CodeUnits.ahead_cons_succ, if_neg (by simp), if_neg hparen, if_neg hspace, if_neg hbad,
      if_pos hslash, if_neg hescape, badUrl?_eq cursor hstart, hs]
  | case7 u rest hparen hspace hbad hslash ih =>
    obtain ⟨left, rfl, hless⟩ := exists_round hleft
    have hone := Cursor.one_le_length_rest hs
    have htail := ih (cursor.advance 1)
      (Cursor.le_pos_advance hstart 1) flags (Cursor.rest_advance_one hs)
      hless
    rw [reached_advance hstart hone] at htail
    rw [urlLoop?, cursor.atEnd_eq, peek_eq cursor, hs, CodeUnits.ahead_cons_zero,
      step?_eq cursor, if_neg (by simp), if_neg hparen, if_neg hspace, if_neg hbad,
      if_neg hslash]
    exact htail

theorem url?_eq :
    url? cursor start = some (reached cursor start
      ((readUrl (cursor.rest.drop (whitespaceRun cursor.rest))).grow
        (whitespaceRun cursor.rest))) := by
  have hblank := CodeUnits.whitespaceRun_le cursor.rest
  have hrest := urlLoop?_eq (cursor.advance (whitespaceRun cursor.rest))
    (Cursor.le_pos_advance hstart _)
    (cursor.advance (whitespaceRun cursor.rest)).length_rest_le .empty
  rw [Cursor.rest_advance, reached_advance hstart hblank, Token.addFlags_empty] at hrest
  rw [url?, skipWhile?_eq cursor]
  exact hrest

end

/-! ## Numbers -/

def sign? (cursor : Cursor) : Option Cursor :=
  if peek cursor 0 == CodeUnit.plusSign || peek cursor 0 == CodeUnit.hyphen then step? cursor
  else some cursor

def fraction? (cursor : Cursor) : Option Cursor := do
  if peek cursor 0 == CodeUnit.fullStop && (peek cursor 1).isDigit then
    skipWhile? (← step? cursor) CodeUnit.isDigit
  else return cursor

def exponent? (cursor : Cursor) : Option Cursor :=
  if Number.isExponentLetter (peek cursor 0) then
    let next := peek cursor 1
    let signed := next == CodeUnit.plusSign || next == CodeUnit.hyphen
    if next.isDigit || (signed && (peek cursor 2).isDigit) then
      skipWhile? (jump cursor (if signed then 2 else 1)) CodeUnit.isDigit
    else some cursor
  else some cursor

def number? (cursor : Cursor) : Option Cursor := do
  exponent? (← fraction? (← skipWhile? (← sign? cursor) CodeUnit.isDigit))

def numeric? (cursor : Cursor) (start : Nat) : Option (Token × Cursor) := do
  let behind ← number? cursor
  if CodeUnit.startsIdentifier (peek behind 0) (peek behind 1) (peek behind 2) then
    let (flags, last) ← name? behind
    token? last start .dimension flags
  else if peek behind 0 == CodeUnit.percentSign then single? behind start .percentage
  else token? behind start .number .empty

section

variable (cursor : Cursor)

theorem sign?_eq : sign? cursor = some (cursor.advance (Number.signLength cursor.rest)) := by
  rw [sign?, Number.signLength, peek_eq cursor, step?_eq cursor]
  split
  · rfl
  · rw [Cursor.advance_zero]

theorem fraction?_eq :
    fraction? cursor = some (cursor.advance (Number.fractionLength cursor.rest)) := by
  rw [fraction?, Number.fractionLength, peek_eq cursor, peek_eq cursor, step?_eq cursor]
  split
  · exact skipWhile?_advance cursor 1 CodeUnit.isDigit
  · rw [Cursor.advance_zero]
    rfl

theorem exponent?_eq :
    exponent? cursor = some (cursor.advance (Number.exponentLength cursor.rest)) := by
  unfold exponent? Number.exponentLength
  simp only [peek_eq cursor, jump_eq cursor]
  split
  · have hsigned : Number.signLength (cursor.rest.drop 1) =
        if ahead cursor.rest 1 == CodeUnit.plusSign || ahead cursor.rest 1 == CodeUnit.hyphen then 1
        else 0 := by
      rw [Number.signLength, CodeUnits.ahead_drop]
    rw [hsigned]
    cases hsign : ahead cursor.rest 1 == CodeUnit.plusSign ||
        ahead cursor.rest 1 == CodeUnit.hyphen with
    | true =>
      have hdigit : (ahead cursor.rest 1).isDigit = false := by
        rw [Bool.or_eq_true, beq_iff_eq, beq_iff_eq] at hsign
        rcases hsign with h | h <;> rw [h] <;> rfl
      rw [hdigit, Bool.false_or, Bool.true_and, if_pos rfl, if_pos rfl]
      split
      · exact skipWhile?_advance cursor 2 CodeUnit.isDigit
      · rw [Cursor.advance_zero]
    | false =>
      rw [Bool.false_and, Bool.or_false, if_neg Bool.false_ne_true, if_neg Bool.false_ne_true]
      split
      · exact skipWhile?_advance cursor 1 CodeUnit.isDigit
      · rw [Cursor.advance_zero]
  · rw [Cursor.advance_zero]

theorem number?_eq : number? cursor = some (cursor.advance (Number.length cursor.rest)) := by
  have hdigits : skipWhile? (cursor.advance (Number.signLength cursor.rest)) CodeUnit.isDigit =
      some (cursor.advance (Number.signLength cursor.rest +
        Number.digitsLength (cursor.rest.drop (Number.signLength cursor.rest)))) :=
    skipWhile?_advance cursor _ CodeUnit.isDigit
  have hfraction := fraction?_eq (cursor.advance (Number.signLength cursor.rest +
    Number.digitsLength (cursor.rest.drop (Number.signLength cursor.rest))))
  rw [Cursor.rest_advance, Cursor.advance_advance] at hfraction
  unfold number? Number.length
  dsimp only
  generalize Number.signLength cursor.rest +
    Number.digitsLength (cursor.rest.drop (Number.signLength cursor.rest)) = whole
    at hdigits hfraction ⊢
  have hexponent := exponent?_eq (cursor.advance (whole +
    Number.fractionLength (cursor.rest.drop whole)))
  rw [Cursor.rest_advance, Cursor.advance_advance] at hexponent
  rw [sign?_eq cursor]
  simp only [Option.bind_eq_bind, Option.bind_some, hdigits, hfraction, hexponent]

theorem numeric?_eq {start : Nat} (hstart : start ≤ cursor.pos) :
    numeric? cursor start = some (reached cursor start (readNumeric cursor.rest)) := by
  have hnumber := Number.length_le cursor.rest
  unfold numeric? readNumeric startsIdentifier
  rw [number?_eq cursor]
  generalize Number.length cursor.rest = number at hnumber ⊢
  simp only [Option.bind_eq_bind, Option.bind_some, peek_advance cursor]
  split
  · have hname := name?_eq (cursor.advance number)
    have hinside := Name.length_extent_le (cursor.rest.drop number)
    rw [List.length_drop] at hinside
    rw [Cursor.rest_advance, Cursor.advance_advance] at hname
    rw [hname]
    exact token?_advance hstart (by omega) .dimension _
  · split
    · next hpercent =>
      have hone : 1 ≤ (cursor.advance number).rest.length := by
        rw [Cursor.rest_advance]
        exact CodeUnits.lt_length_of_ahead (by decide) hpercent
      rw [single?_eq (cursor.advance number) (Cursor.le_pos_advance hstart _) hone,
        reached_advance hstart hnumber]
      rfl
    · exact token?_advance hstart hnumber .number .empty

end

end Checked

end StyleRules
