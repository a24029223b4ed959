import StyleRules.Proofs.Token.Break

/-!
# What tokens are spelled with

The kind of a token tells which reader it comes from, and so what stands at its start. Where a kind
has one spelling only, the token is that spelling; trivia is read up to its own end.
-/

namespace StyleRules

open CodeUnits (ahead whitespaceRun startsIdentifier startsNumber)

theorem CodeUnits.whitespaceRun_of_all {s : CodeUnits} (h : ∀ u ∈ s, u.isWhitespace = true) :
    whitespaceRun s = s.length := by
  calc whitespaceRun s = ((s ++ []).takeWhile CodeUnit.isWhitespace).length := by
        rw [List.append_nil]
        rfl
    _ = s.length := by
        rw [List.takeWhile_append_of_pos h, List.takeWhile_nil, List.append_nil]

theorem CodeUnits.whitespaceRun_split (s : CodeUnits) :
    whitespaceRun (s.take (whitespaceRun s)) = (s.take (whitespaceRun s)).length ∧
      (ahead (s.drop (whitespaceRun s)) 0).isWhitespace = false := by
  have htake : s.take (whitespaceRun s) = s.takeWhile CodeUnit.isWhitespace :=
    (List.prefix_iff_eq_take.mp (List.takeWhile_prefix _)).symm
  have hdrop : s.drop (whitespaceRun s) = s.dropWhile CodeUnit.isWhitespace := by
    calc s.drop (whitespaceRun s)
        = (s.takeWhile CodeUnit.isWhitespace ++ s.dropWhile CodeUnit.isWhitespace).drop
          (s.takeWhile CodeUnit.isWhitespace).length := by
            rw [List.takeWhile_append_dropWhile]
            rfl
      _ = s.dropWhile CodeUnit.isWhitespace := List.drop_left
  rw [htake, hdrop]
  constructor
  · exact whitespaceRun_of_all fun u => List.all_eq_true.mp List.all_takeWhile u
  · have hhead := List.head?_dropWhile_not CodeUnit.isWhitespace s
    cases hrest : s.dropWhile CodeUnit.isWhitespace with
    | nil => rfl
    | cons u rest =>
      rw [hrest] at hhead
      exact hhead

theorem CodeUnits.ahead_take (s : CodeUnits) {i n : Nat} (hi : i < n) :
    ahead (s.take n) i = ahead s i := by
  unfold ahead
  rw [List.getD_eq_getElem?_getD, List.getD_eq_getElem?_getD, List.getElem?_take_of_lt hi]

theorem CodeUnits.ahead_drop (s : CodeUnits) (n i : Nat) :
    ahead (s.drop n) i = ahead s (n + i) := by
  unfold ahead
  rw [List.getD_eq_getElem?_getD, List.getD_eq_getElem?_getD, List.getElem?_drop]

theorem CodeUnits.exists_of_ahead {s : CodeUnits} {u : CodeUnit} (h : ahead s 0 = u) (hu : u ≠ 0) :
    ∃ rest, s = u :: rest := by
  cases s with
  | nil => exact absurd h.symm hu
  | cons v rest =>
    obtain rfl : v = u := h
    exact ⟨rest, rfl⟩

theorem CodeUnits.exists_of_three_ahead {s : CodeUnits} {a b c : CodeUnit} (ha : ahead s 0 = a)
    (hb : ahead s 1 = b) (hc : ahead s 2 = c) (ha0 : a ≠ 0) (hb0 : b ≠ 0) (hc0 : c ≠ 0) :
    ∃ rest, s = a :: b :: c :: rest := by
  obtain ⟨s, rfl⟩ := exists_of_ahead ha ha0
  obtain ⟨s, rfl⟩ := exists_of_ahead (s := s) hb hb0
  obtain ⟨s, rfl⟩ := exists_of_ahead (s := s) hc hc0
  exact ⟨s, rfl⟩

namespace CodeUnit

theorem isNameStart_ne {u : CodeUnit} (hu : u.isNameStart = true) :
    u.isDigit = false ∧ (u == plusSign) = false ∧ (u == hyphen) = false ∧
      (u == fullStop) = false ∧ (u == backslash) = false := by
  have hmark : ∀ v ∈ [plusSign, hyphen, fullStop, backslash], u ≠ v := by
    intro v hv huv
    subst huv
    revert hu
    revert hv
    simp only [List.mem_cons, List.not_mem_nil, or_false]
    rintro (rfl | rfl | rfl | rfl) <;> decide
  refine ⟨?_, ?_, ?_, ?_, ?_⟩
  · rw [Bool.eq_false_iff]
    intro hdigit
    simp only [isNameStart, isLetter, isUpper, isLower, isDigit, Bool.and_eq_true, Bool.or_eq_true,
      decide_eq_true_eq, beq_iff_eq, UInt16.le_iff_toNat_le, ← UInt16.toNat_inj] at hu hdigit
    have hnumerals : (0x30 : UInt16).toNat = 48 ∧ (0x39 : UInt16).toNat = 57 ∧
        (0x41 : UInt16).toNat = 65 ∧ (0x61 : UInt16).toNat = 97 ∧ (0x80 : UInt16).toNat = 128 ∧
        underscore.toNat = 95 := by decide
    omega
  all_goals
    rw [beq_eq_false_iff_ne]
    apply hmark
    simp

theorem eq_backslash_of_isValidEscape {u v : CodeUnit} (h : isValidEscape u v = true) :
    u = backslash := by
  rw [isValidEscape, Bool.and_eq_true, Bool.and_eq_true, beq_iff_eq] at h
  exact h.1.1

theorem startsNumber_of_startsIdentifier {first second third : CodeUnit}
    (h : startsIdentifier first second third = true) : startsNumber first second third = false := by
  have hmark : ∀ u : CodeUnit, u.isNameStart = true ∨ u = hyphen ∨ u = backslash →
      u.isDigit = false ∧ (u == fullStop) = false := by
    rintro u (hname | rfl | rfl)
    · obtain ⟨hdigit, -, -, hstop, -⟩ := isNameStart_ne hname
      exact ⟨hdigit, hstop⟩
    · decide
    · decide
  unfold startsIdentifier at h
  unfold startsNumber
  split at h
  · next hhyphen =>
    obtain ⟨hdigit, hstop⟩ := hmark second (by
      rw [Bool.or_eq_true, Bool.or_eq_true, beq_iff_eq] at h
      rcases h with (hname | hsecond) | hescape
      · exact .inl hname
      · exact .inr (.inl hsecond)
      · exact .inr (.inr (eq_backslash_of_isValidEscape hescape)))
    rw [hhyphen, Bool.or_true, if_pos rfl, hdigit, hstop]
    rfl
  · next hhyphen =>
    have hfirst : (first == plusSign) = false ∧ first.isDigit = false ∧
        (first == fullStop) = false := by
      split at h
      · next hslash =>
        obtain rfl := beq_iff_eq.mp hslash
        decide
      · obtain ⟨hdigit, hplus, -, hstop, -⟩ := isNameStart_ne h
        exact ⟨hplus, hdigit, hstop⟩
    rw [hfirst.1, Bool.false_or, if_neg hhyphen, hfirst.2.2, if_neg Bool.false_ne_true, hfirst.2.1]

end CodeUnit

theorem CodeUnits.ne_nil_of_startsIdentifier {s : CodeUnits} (h : startsIdentifier s = true) :
    s ≠ [] := by
  rintro rfl
  exact absurd h (by decide)

namespace Token

/-! ## Readers and kinds -/

/-- What a token begins with, told by its kind. -/
inductive Kind.Start where
  | number
  | arrow
  | name
  | other
  | nothing
  deriving DecidableEq

def Kind.startsWith : Kind → Kind.Start
  | number | percentage | dimension => .number
  | cdc => .arrow
  | ident | function | url | badUrl => .name
  | eof => .nothing
  | _ => .other

theorem startsWith_readNumeric (s : CodeUnits) : (readNumeric s).kind.startsWith = .number := by
  unfold readNumeric
  dsimp only
  split
  · rfl
  · split <;> rfl

theorem kind_readUrl (s : CodeUnits) : (readUrl s).kind = .url ∨ (readUrl s).kind = .badUrl := by
  fun_induction readUrl s with
  | case1 => exact .inl rfl
  | case2 => exact .inl rfl
  | case3 u rest =>
    show (readUrlEnd _).kind = .url ∨ (readUrlEnd _).kind = .badUrl
    unfold readUrlEnd
    split
    · exact .inl rfl
    · split
      · exact .inl rfl
      · exact .inr rfl
  | case4 => exact .inr rfl
  | case5 u rest hclose hspace hbadly hback hescape body ih => exact ih
  | case6 => exact .inr rfl
  | case7 u rest hclose hspace hbadly hback ih => exact ih

theorem startsWith_readUrl (s : CodeUnits) : (readUrl s).kind.startsWith = .name := by
  rcases kind_readUrl s with hkind | hkind <;> rw [hkind] <;> rfl

theorem startsWith_readIdentLike (s : CodeUnits) :
    (readIdentLike s).kind.startsWith = .name := by
  unfold readIdentLike
  dsimp only
  split
  · rfl
  · split
    · exact startsWith_readUrl _
    · rfl

theorem kind_readString (quote : CodeUnit) (s : CodeUnits) :
    (readString quote s).kind = .string ∨ (readString quote s).kind = .badString := by
  fun_induction readString quote s with
  | case1 => exact .inl rfl
  | case2 => exact .inl rfl
  | case3 => exact .inr rfl
  | case4 u rest hclose hline hescape body ih => exact ih
  | case5 u rest hclose hline hescape ih => exact ih

theorem kind_readComment (s : CodeUnits) : (readComment s).kind = .comment := by
  fun_induction readComment s with
  | case1 => rfl
  | case2 => rfl
  | case3 u rest hclose ih => exact ih

/-- What the kind of a token says about the unit `u` at its start, what is behind that unit and the
token itself. -/
def Kind.Spells (u : CodeUnit) (rest : CodeUnits) (token : Token) : Kind → Prop
  | whitespace => u.isWhitespace = true ∧ token = plain .whitespace (1 + whitespaceRun rest)
  | comment => u = CodeUnit.solidus ∧ ahead rest 0 = CodeUnit.asterisk ∧
      token = (readComment (rest.drop 1)).grow 2
  | cdo => u = CodeUnit.lessThan ∧ startsCdoTail rest = true ∧ token = plain .cdo 4
  | colon => u = CodeUnit.colon ∧ token = plain .colon 1
  | semicolon => u = CodeUnit.semicolon ∧ token = plain .semicolon 1
  | leftBrace => u = CodeUnit.leftBrace ∧ token = plain .leftBrace 1
  | rightBrace => u = CodeUnit.rightBrace ∧ token = plain .rightBrace 1
  | _ => True

/-- What holds of each unit with a kind of its own, and of any unit as a delimiter, holds of every
unit and its kind. -/
theorem singleKind_elim {motive : CodeUnit → Kind → Prop}
    (leftParen : motive CodeUnit.leftParen .leftParen)
    (rightParen : motive CodeUnit.rightParen .rightParen)
    (comma : motive CodeUnit.comma .comma) (colon : motive CodeUnit.colon .colon)
    (semicolon : motive CodeUnit.semicolon .semicolon)
    (leftBracket : motive CodeUnit.leftBracket .leftBracket)
    (rightBracket : motive CodeUnit.rightBracket .rightBracket)
    (leftBrace : motive CodeUnit.leftBrace .leftBrace)
    (rightBrace : motive CodeUnit.rightBrace .rightBrace) (delim : ∀ u, motive u .delim)
    (u : CodeUnit) : motive u (singleKind u) := by
  have hself : ∀ {c : CodeUnit} {kind : Kind}, motive c kind → (u == c) = true → motive u kind := by
    intro c kind hkind hu
    rwa [beq_iff_eq.mp hu]
  unfold singleKind
  refine iteInduction (motive := motive u) (hself leftParen) fun _ => ?_
  refine iteInduction (motive := motive u) (hself rightParen) fun _ => ?_
  refine iteInduction (motive := motive u) (hself comma) fun _ => ?_
  refine iteInduction (motive := motive u) (hself colon) fun _ => ?_
  refine iteInduction (motive := motive u) (hself semicolon) fun _ => ?_
  refine iteInduction (motive := motive u) (hself leftBracket) fun _ => ?_
  refine iteInduction (motive := motive u) (hself rightBracket) fun _ => ?_
  refine iteInduction (motive := motive u) (hself leftBrace) fun _ => ?_
  exact iteInduction (motive := motive u) (hself rightBrace) fun _ => delim u

theorem spells_singleKind (u : CodeUnit) (rest : CodeUnits) :
    (singleKind u).Spells u rest (plain (singleKind u) 1) := by
  apply singleKind_elim (motive := fun u kind => kind.Spells u rest (plain kind 1))
  case delim => exact fun _ => trivial
  all_goals first | exact trivial | exact ⟨rfl, rfl⟩

theorem spells_readOther (u : CodeUnit) (rest : CodeUnits) :
    (readOther u rest).kind.Spells u rest (readOther u rest) := by
  unfold readOther
  split
  · next hspace => exact ⟨hspace, rfl⟩
  split
  · show (readString u rest).kind.Spells u rest _
    rcases kind_readString u rest with h | h <;> rw [h] <;> exact trivial
  split
  · exact trivial
  split
  · exact trivial
  split
  · next hcomment =>
    rw [Bool.and_eq_true, beq_iff_eq, beq_iff_eq] at hcomment
    show (readComment (rest.drop 1)).kind.Spells u rest _
    rw [kind_readComment]
    exact ⟨hcomment.1, hcomment.2, rfl⟩
  split
  · next hcdo =>
    rw [Bool.and_assoc, Bool.and_assoc, Bool.and_eq_true, beq_iff_eq] at hcdo
    refine ⟨hcdo.1, ?_, rfl⟩
    rw [startsCdoTail, Bool.and_assoc]
    exact hcdo.2
  · exact spells_singleKind u rest

theorem startsWith_readOther (u : CodeUnit) (rest : CodeUnits) :
    (readOther u rest).kind.startsWith = .other := by
  unfold readOther
  split
  · rfl
  split
  · show (readString u rest).kind.startsWith = .other
    rcases kind_readString u rest with h | h <;> rw [h] <;> rfl
  split
  · rfl
  split
  · rfl
  split
  · show (readComment (rest.drop 1)).kind.startsWith = .other
    rw [kind_readComment]
    rfl
  split
  · rfl
  · apply singleKind_elim (motive := fun _ kind => kind.startsWith = .other)
    case delim => exact fun _ => rfl
    all_goals rfl

/-- What stands at the start of a text, and the reader that its token comes from. -/
def Kind.Start.At (s : CodeUnits) : Kind.Start → Prop
  | number => startsNumber s = true ∧ read s = readNumeric s
  | arrow => startsCdc s = true ∧ read s = plain .cdc 3
  | name => startsIdentifier s = true ∧ read s = readIdentLike s
  | other => startsIdentifier s = false ∧ ∃ u rest, s = u :: rest ∧ read s = readOther u rest
  | nothing => s = []

theorem at_startsWith_read (s : CodeUnits) : (read s).kind.startsWith.At s := by
  by_cases hs : s = []
  · rw [hs]
    rfl
  cases hnumber : startsNumber s with
  | true =>
    have hread := read_of_number hs hnumber
    rw [hread, startsWith_readNumeric]
    exact ⟨hnumber, hread⟩
  | false =>
  cases hcdc : startsCdc s with
  | true =>
    have hread := read_of_cdc hs hnumber hcdc
    rw [hread]
    exact ⟨hcdc, hread⟩
  | false =>
  cases hident : startsIdentifier s with
  | true =>
    have hread := read_of_identifier hs hnumber hcdc hident
    rw [hread, startsWith_readIdentLike]
    exact ⟨hident, hread⟩
  | false =>
    obtain ⟨u, rest, rfl⟩ := List.exists_cons_of_ne_nil hs
    have hread := read_of_other hnumber hcdc hident
    rw [hread, startsWith_readOther]
    exact ⟨hident, u, rest, rfl, hread⟩

theorem at_of_startsWith {s : CodeUnits} {start : Kind.Start}
    (h : (read s).kind.startsWith = start) : start.At s := h ▸ at_startsWith_read s

/-- A token begins with a name where an identifier starts that is not `-->`. -/
theorem startsWith_read_eq_name_iff {s : CodeUnits} : (read s).kind.startsWith = .name ↔
    startsIdentifier s = true ∧ startsCdc s = false := by
  constructor
  · intro hkind
    obtain ⟨hident, hread⟩ := at_of_startsWith hkind
    have hs := CodeUnits.ne_nil_of_startsIdentifier hident
    refine ⟨hident, ?_⟩
    rw [Bool.eq_false_iff]
    intro hcdc
    rw [read_of_cdc hs (CodeUnit.startsNumber_of_startsIdentifier hident) hcdc] at hkind
    exact absurd hkind (by decide)
  · rintro ⟨hident, hcdc⟩
    have hs := CodeUnits.ne_nil_of_startsIdentifier hident
    rw [read_of_identifier hs (CodeUnit.startsNumber_of_startsIdentifier hident) hcdc hident]
    exact startsWith_readIdentLike s

theorem spells_read {s : CodeUnits} (hother : (read s).kind.startsWith = .other) :
    ∃ u rest, s = u :: rest ∧ (read s).kind.Spells u rest (read s) := by
  obtain ⟨-, u, rest, hs, hread⟩ := at_of_startsWith hother
  refine ⟨u, rest, hs, ?_⟩
  rw [hread]
  exact spells_readOther u rest

theorem read_of_kind_cdc {s : CodeUnits} (hkind : (read s).kind = .cdc) :
    startsCdc s = true ∧ read s = plain .cdc 3 := by
  have hstart : (read s).kind.startsWith = .arrow := by rw [hkind]; rfl
  exact at_of_startsWith hstart

/-! ## Trivia -/

variable {s : CodeUnits}

theorem read_of_whitespace (hkind : (read s).kind = .whitespace) :
    (ahead s 0).isWhitespace = true ∧ read s = plain .whitespace (whitespaceRun s) := by
  obtain ⟨u, rest, rfl, hspells⟩ := spells_read (s := s) (by rw [hkind]; rfl)
  rw [hkind] at hspells
  refine ⟨hspells.1, hspells.2.trans ?_⟩
  unfold whitespaceRun
  rw [List.takeWhile_cons, hspells.1, if_pos rfl, List.length_cons, Nat.add_comm]

theorem read_of_comment (hkind : (read s).kind = .comment) :
    ∃ rest, s = CodeUnit.solidus :: CodeUnit.asterisk :: rest ∧
      read s = (readComment rest).grow 2 := by
  obtain ⟨u, rest, rfl, hspells⟩ := spells_read (s := s) (by rw [hkind]; rfl)
  rw [hkind] at hspells
  obtain ⟨rfl, hstar, hread⟩ := hspells
  cases rest with
  | nil => exact absurd hstar (by decide)
  | cons v rest =>
    obtain rfl : v = CodeUnit.asterisk := hstar
    exact ⟨rest, rfl, hread⟩

def isMark (u : CodeUnit) : Bool :=
  !(u.isNameStart || u == CodeUnit.hyphen || u == CodeUnit.backslash || u.isDigit ||
    u == CodeUnit.plusSign || u == CodeUnit.fullStop)

theorem read_of_isMark {u : CodeUnit} (hu : isMark u = true) (rest : CodeUnits) :
    read (u :: rest) = readOther u rest := by
  simp only [isMark, Bool.not_eq_true', Bool.or_eq_false_iff] at hu
  obtain ⟨⟨⟨⟨⟨hname, hhyphen⟩, hslash⟩, hdigit⟩, hplus⟩, hstop⟩ := hu
  apply read_of_other
  · show CodeUnit.startsNumber u _ _ = false
    unfold CodeUnit.startsNumber
    rw [hplus, hhyphen, hstop, hdigit]
    rfl
  · show (u == CodeUnit.hyphen && _ && _) = false
    rw [hhyphen]
    rfl
  · show CodeUnit.startsIdentifier u _ _ = false
    unfold CodeUnit.startsIdentifier
    rw [hhyphen, hslash, hname]
    rfl

theorem isMark_of_isWhitespace {u : CodeUnit} (hu : u.isWhitespace = true) : isMark u = true := by
  simp only [CodeUnit.isWhitespace, CodeUnit.isNewline, Bool.or_eq_true, beq_iff_eq] at hu
  rcases hu with (((rfl | rfl) | rfl) | rfl) | rfl <;> decide

theorem read_whitespace_append {x y : CodeUnits} (hx : x ≠ []) (hall : whitespaceRun x = x.length)
    (hy : (ahead y 0).isWhitespace = false) :
    read (x ++ y) = plain .whitespace x.length := by
  cases x with
  | nil => exact absurd rfl hx
  | cons u rest =>
    have hfull : (u :: rest).takeWhile CodeUnit.isWhitespace = u :: rest :=
      (List.takeWhile_sublist _).eq_of_length hall
    have hu : u.isWhitespace = true := by
      apply List.all_eq_true.mp List.all_takeWhile u
      rw [hfull]
      exact List.mem_cons_self
    have hrest : whitespaceRun (rest ++ y) = rest.length := by
      rw [List.takeWhile_cons, hu, if_pos rfl] at hfull
      have htail := (List.cons.inj hfull).2
      have hend : y.takeWhile CodeUnit.isWhitespace = [] := by
        cases y with
        | nil => rfl
        | cons v y => exact List.takeWhile_cons_of_neg (by simpa using hy)
      unfold whitespaceRun
      rw [List.takeWhile_append, htail, if_pos rfl, hend, List.append_nil]
    rw [List.cons_append, read_of_isMark (isMark_of_isWhitespace hu), readOther, if_pos hu, hrest,
      List.length_cons, Nat.add_comm]

/-- A comment that ends with the text is cut off, and any other has its last two units. -/
theorem readComment_ends (s : CodeUnits) :
    ((readComment s).flags.unterminated = true ∧ (readComment s).length = s.length) ∨
      2 ≤ (readComment s).length ∧ (readComment s).flags.unterminated = false ∧
        ∀ y, readComment (s.take (readComment s).length ++ y) = readComment s := by
  fun_induction readComment s with
  | case1 => exact .inl ⟨rfl, rfl⟩
  | case2 u rest hclose =>
    right
    refine ⟨Nat.le_refl _, rfl, fun y => ?_⟩
    cases rest with
    | nil =>
      rw [Bool.and_eq_true, beq_iff_eq, beq_iff_eq] at hclose
      exact absurd hclose.2 (by decide)
    | cons v rest => exact if_pos hclose
  | case3 u rest hclose ih =>
    rcases ih with ⟨hcut, hlength⟩ | ⟨htwo, hcomplete, hagain⟩
    · left
      refine ⟨hcut, ?_⟩
      rw [length_grow, hlength, List.length_cons, Nat.add_comm]
    · right
      refine ⟨?_, hcomplete, fun y => ?_⟩
      · rw [length_grow]
        omega
      · have hlong := length_readComment_le rest
        have hfirst : ahead (rest.take (readComment rest).length ++ y) 0 = ahead rest 0 := by
          cases rest with
          | nil => exact absurd htwo (by rw [readComment]; decide)
          | cons v rest =>
            obtain ⟨n, hn⟩ := Nat.exists_eq_add_of_le' (Nat.le_of_succ_le htwo)
            rw [hn]
            rfl
        rw [length_grow, Nat.add_comm, List.take_succ_cons, List.cons_append, readComment, hfirst,
          if_neg hclose, hagain]

theorem getLast?_of_readComment (s : CodeUnits) :
    (readComment s).flags.unterminated = true ∨
      (s.take (readComment s).length).getLast? = some CodeUnit.solidus := by
  fun_induction readComment s with
  | case1 => exact .inl rfl
  | case2 u rest hclose =>
    right
    rw [Bool.and_eq_true, beq_iff_eq, beq_iff_eq] at hclose
    cases rest with
    | nil => exact absurd hclose.2 (by decide)
    | cons v rest =>
      obtain rfl : v = CodeUnit.solidus := hclose.2
      rfl
  | case3 u rest hclose ih =>
    rcases ih with hcut | hlast
    · exact .inl hcut
    · right
      rw [length_grow, Nat.add_comm, List.take_succ_cons, List.getLast?_cons, hlast]
      rfl

theorem length_read_of_malformed_trivia (htrivia : (read s).kind.isTrivia = true)
    (hmalformed : (read s).isMalformed = true) : (read s).length = s.length := by
  rw [Kind.isTrivia, Bool.or_eq_true, beq_iff_eq, beq_iff_eq] at htrivia
  rcases htrivia with hkind | hkind
  · rw [(read_of_whitespace hkind).2] at hmalformed
    exact absurd hmalformed Bool.false_ne_true
  · obtain ⟨rest, rfl, hread⟩ := read_of_comment hkind
    rw [isMalformed, hkind, hread] at hmalformed
    rcases readComment_ends rest with ⟨-, hlength⟩ | ⟨-, hcomplete, -⟩
    · rw [hread, length_grow, hlength, List.length_cons, List.length_cons, Nat.add_comm]
    · exact absurd (hcomplete.symm.trans hmalformed) Bool.false_ne_true

/-! ## Identifiers -/

theorem readIdentLike_of_opened
    (h : ahead (s.drop (Name.extent s).length) 0 = CodeUnit.leftParen) :
    (readIdentLike s).kind ≠ .ident ∧ (Name.extent s).length < (readIdentLike s).length := by
  have hparen : ¬(ahead (s.drop (Name.extent s).length) 0 != CodeUnit.leftParen) = true := by
    rw [h]
    decide
  unfold readIdentLike
  dsimp only
  rw [if_neg hparen]
  split
  · constructor
    · show (readUrl _).kind ≠ .ident
      rcases kind_readUrl (((s.drop (Name.extent s).length).drop 1).drop
        (whitespaceRun ((s.drop (Name.extent s).length).drop 1))) with hkind | hkind <;>
        rw [hkind] <;> decide
    · rw [length_grow]
      omega
  · exact ⟨nofun, Nat.lt_succ_self _⟩

theorem read_of_kind_ident (hkind : (read s).kind = .ident) :
    read s = ⟨.ident, (Name.extent s).length, (Name.extent s).flags⟩ := by
  have hname : (read s).kind.startsWith = .name := by
    rw [hkind]
    rfl
  obtain ⟨-, hread⟩ := at_of_startsWith hname
  rw [hread] at hkind ⊢
  apply readIdentLike_of_ident
  intro hparen
  exact (readIdentLike_of_opened hparen).1 hkind

theorem length_read_of_ident (hkind : (read s).kind = .ident) :
    startsIdentifier s = true ∧ (read s).length = (Name.extent s).length := by
  have hname : (read s).kind.startsWith = .name := by rw [hkind]; rfl
  refine ⟨(at_of_startsWith hname).1, ?_⟩
  rw [read_of_kind_ident hkind]

theorem two_le_length_extent {u : CodeUnit} {rest : CodeUnits}
    (hescape : CodeUnit.isValidEscape u (ahead rest 0) = true) :
    2 ≤ (Name.extent (u :: rest)).length := by
  have hu : u.isName = false := by
    obtain rfl := CodeUnit.eq_backslash_of_isValidEscape hescape
    rfl
  have hbody := Escape.length_pos (CodeUnits.ne_nil_of_isValidEscape hescape)
  rw [Name.extent, if_neg (by rw [hu]; exact Bool.false_ne_true), if_pos hescape]
  dsimp only
  omega

theorem startsIdentifier_take_extent (hstart : startsIdentifier s = true) :
    startsIdentifier (s.take (Name.extent s).length) = true := by
  cases s with
  | nil => exact absurd hstart (by decide)
  | cons u rest =>
    have hpos := length_extent_pos_of_startsIdentifier hstart
    unfold startsIdentifier CodeUnit.startsIdentifier at hstart ⊢
    rw [CodeUnits.ahead_take _ hpos]
    rw [CodeUnits.ahead_cons_zero] at hstart ⊢
    split at hstart
    · next hhyphen =>
      obtain rfl := beq_iff_eq.mp hhyphen
      have hlength : (Name.extent (CodeUnit.hyphen :: rest)).length =
          1 + (Name.extent rest).length := by
        rw [Name.extent, if_pos (by decide)]
      rw [if_pos hhyphen]
      rw [CodeUnits.ahead_cons_succ] at hstart
      cases hname : (ahead rest 0).isNameStart || ahead rest 0 == CodeUnit.hyphen with
      | true =>
        have hlonger : 0 < (Name.extent rest).length := by
          cases rest with
          | nil => exact absurd hname (by decide)
          | cons v rest =>
            apply Name.length_extent_pos_of_isName
            rw [CodeUnits.ahead_cons_zero, Bool.or_eq_true] at hname
            rcases hname with hname | hname <;> simp [CodeUnit.isName, hname]
        rw [CodeUnits.ahead_take _ (by omega), CodeUnits.ahead_cons_succ, hname, Bool.true_or]
      | false =>
        rw [hname, Bool.false_or] at hstart
        have hlonger : 2 ≤ (Name.extent rest).length := by
          cases rest with
          | nil => exact absurd hstart (by decide)
          | cons v rest => exact two_le_length_extent hstart
        rw [CodeUnits.ahead_take _ (by omega), CodeUnits.ahead_take _ (by omega),
          CodeUnits.ahead_cons_succ, hname, Bool.false_or]
        exact hstart
    · next hhyphen =>
      rw [if_neg hhyphen]
      split at hstart
      · next hslash =>
        rw [if_pos hslash, CodeUnits.ahead_take _ (two_le_length_extent hstart)]
        exact hstart
      · next hslash =>
        rw [if_neg hslash]
        exact hstart

theorem startsIdentifier_of_ident (hkind : (read s).kind = .ident) :
    startsIdentifier (s.take (read s).length) = true := by
  obtain ⟨hstart, hlength⟩ := length_read_of_ident hkind
  rw [hlength]
  exact startsIdentifier_take_extent hstart

/-! ## Kinds with one spelling -/

section Fixed

open CodeUnits (ofString)

def Kind.isSingle : Kind → Bool
  | colon | semicolon | comma | leftBracket | rightBracket | leftParen | rightParen | leftBrace
  | rightBrace | delim => true
  | _ => false

theorem Kind.startsWith_of_isSingle {kind : Kind} (h : kind.isSingle = true) :
    kind.startsWith = .other := by
  cases kind <;> first | rfl | exact absurd h Bool.false_ne_true

theorem ofString_of_lexeme?_singleKind (u : CodeUnit) :
    ∀ text, (singleKind u).lexeme? = some text → ofString text = [u] := by
  apply singleKind_elim (motive := fun u kind => ∀ text, kind.lexeme? = some text →
    ofString text = [u])
  case delim => exact fun _ _ h => absurd h (by simp [Kind.lexeme?])
  all_goals
    intro text h
    obtain rfl := Option.some.inj h
    decide

theorem readOther_of_isSingle {u : CodeUnit} {rest : CodeUnits}
    (h : (readOther u rest).kind.isSingle = true) : readOther u rest = plain (singleKind u) 1 := by
  have hstring : (readString u rest).kind.isSingle = false := by
    rcases kind_readString u rest with hkind | hkind <;> rw [hkind] <;> rfl
  have hcomment : (readComment (rest.drop 1)).kind.isSingle = false := by
    rw [kind_readComment]
    rfl
  unfold readOther at h ⊢
  split at h
  · exact absurd h Bool.false_ne_true
  split at h
  · exact absurd (hstring.symm.trans h) Bool.false_ne_true
  split at h
  · exact absurd h Bool.false_ne_true
  split at h
  · exact absurd h Bool.false_ne_true
  split at h
  · exact absurd (hcomment.symm.trans h) Bool.false_ne_true
  split at h
  · exact absurd h Bool.false_ne_true
  · simp only [*]
    rfl

theorem read_of_isSingle (h : (read s).kind.isSingle = true) :
    startsIdentifier s = false ∧ ∃ u rest, s = u :: rest ∧ read s = plain (singleKind u) 1 := by
  obtain ⟨hident, u, rest, hs, hread⟩ := at_of_startsWith (Kind.startsWith_of_isSingle h)
  rw [hread] at h
  exact ⟨hident, u, rest, hs, hread.trans (readOther_of_isSingle h)⟩

theorem take_read_of_cdo (hkind : (read s).kind = .cdo) :
    s.take (read s).length = ofString "<!--" := by
  obtain ⟨u, rest, rfl, hspells⟩ := spells_read (s := s) (by rw [hkind]; rfl)
  rw [hkind] at hspells
  obtain ⟨rfl, hstart, hread⟩ := hspells
  rw [startsCdoTail, Bool.and_eq_true, Bool.and_eq_true, beq_iff_eq, beq_iff_eq, beq_iff_eq]
    at hstart
  obtain ⟨left, rfl⟩ := CodeUnits.exists_of_three_ahead hstart.1.1 hstart.1.2 hstart.2
    (by decide) (by decide) (by decide)
  rw [hread]
  rfl

theorem take_read_of_cdc (hkind : (read s).kind = .cdc) :
    s.take (read s).length = ofString "-->" := by
  obtain ⟨hstart, hread⟩ := read_of_kind_cdc hkind
  rw [startsCdc, Bool.and_eq_true, Bool.and_eq_true, beq_iff_eq, beq_iff_eq, beq_iff_eq] at hstart
  obtain ⟨left, rfl⟩ := CodeUnits.exists_of_three_ahead hstart.1.1 hstart.1.2 hstart.2
    (by decide) (by decide) (by decide)
  rw [hread]
  rfl

theorem Kind.cases_of_lexeme? {kind : Kind} {text : String} (h : kind.lexeme? = some text) :
    kind.isSingle = true ∨ kind = .cdo ∧ text = "<!--" ∨ kind = .cdc ∧ text = "-->" := by
  cases kind <;> simp_all [Kind.lexeme?, Kind.isSingle]

theorem take_read_of_lexeme? {text : String} (h : (read s).kind.lexeme? = some text) :
    s.take (read s).length = ofString text := by
  rcases Kind.cases_of_lexeme? h with hsingle | ⟨hkind, rfl⟩ | ⟨hkind, rfl⟩
  · obtain ⟨-, u, rest, rfl, hread⟩ := read_of_isSingle hsingle
    rw [hread] at h ⊢
    exact (ofString_of_lexeme?_singleKind u text h).symm
  · exact take_read_of_cdo hkind
  · exact take_read_of_cdc hkind

theorem take_read_of_delim (hkind : (read s).kind = .delim) :
    ∃ u, s.take (read s).length = [u] ∧ u < 0x80 := by
  obtain ⟨hident, u, rest, rfl, hread⟩ := read_of_isSingle (s := s) (by rw [hkind]; rfl)
  refine ⟨u, by rw [hread]; rfl, ?_⟩
  apply Nat.lt_of_not_le
  intro hle
  have hhyphen : (u == CodeUnit.hyphen) = false := by
    rw [beq_eq_false_iff_ne]
    rintro rfl
    exact absurd hle (by decide)
  have hslash : (u == CodeUnit.backslash) = false := by
    rw [beq_eq_false_iff_ne]
    rintro rfl
    exact absurd hle (by decide)
  have hname : u.isNameStart = true := by
    rw [CodeUnit.isNameStart, Bool.or_eq_true]
    exact .inr (decide_eq_true hle)
  change CodeUnit.startsIdentifier u _ _ = false at hident
  rw [CodeUnit.startsIdentifier, hhyphen, hslash] at hident
  exact absurd (hname.symm.trans hident) Bool.noConfusion

theorem take_read_of_whitespace (hkind : (read s).kind = .whitespace) :
    (∀ u ∈ s.take (read s).length, u.isWhitespace = true) ∧
      (ahead (s.drop (read s).length) 0).isWhitespace = false := by
  obtain ⟨-, hread⟩ := read_of_whitespace hkind
  refine ⟨fun u hu => ?_, ?_⟩
  · rw [hread, length_plain, whitespaceRun, ← List.prefix_iff_eq_take.mp (List.takeWhile_prefix _)]
      at hu
    exact List.all_eq_true.mp List.all_takeWhile u hu
  · rw [hread]
    exact (CodeUnits.whitespaceRun_split s).2

end Fixed

end Token

end StyleRules
