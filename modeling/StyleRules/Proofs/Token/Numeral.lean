import StyleRules.Proofs.Token.Longest
import StyleRules.Proofs.Token.Tiling

/-!
# Numbers as longest texts

A number is an optional sign, digits with or without a fraction or a fraction alone, and an optional
exponent. It is read part by part from the left, and a part that is not complete is left to what
follows. What is read so is the longest number at its place in the addressable text, and what stands
behind it tells the kind of the token.
-/

namespace StyleRules

open CodeUnits (ahead startsIdentifier startsNumber)

namespace Number

/-! ## The grammar -/

structure IsDigits (x : CodeUnits) : Prop where
  ne_nil : x ≠ []
  isDigit : ∀ u ∈ x, u.isDigit = true

inductive IsSign : CodeUnits → Prop
  | none : IsSign []
  | plus : IsSign [CodeUnit.plusSign]
  | minus : IsSign [CodeUnit.hyphen]

inductive IsMantissa : CodeUnits → Prop
  | whole {digits : CodeUnits} (hdigits : IsDigits digits) : IsMantissa digits
  | decimal {digits fraction : CodeUnits} (hdigits : IsDigits digits)
      (hfraction : IsDigits fraction) : IsMantissa (digits ++ CodeUnit.fullStop :: fraction)
  | fraction {fraction : CodeUnits} (hfraction : IsDigits fraction) :
      IsMantissa (CodeUnit.fullStop :: fraction)

inductive IsExponent : CodeUnits → Prop
  | none : IsExponent []
  | power {letter : CodeUnit} {sign digits : CodeUnits} (hletter : isExponentLetter letter = true)
      (hsign : IsSign sign) (hdigits : IsDigits digits) : IsExponent (letter :: (sign ++ digits))

inductive IsNumeral : CodeUnits → Prop
  | parts {sign mantissa exponent : CodeUnits} (hsign : IsSign sign)
      (hmantissa : IsMantissa mantissa) (hexponent : IsExponent exponent) :
      IsNumeral (sign ++ (mantissa ++ exponent))

/-! ## Digits and signs -/

variable {s x : CodeUnits}

theorem isDigits_take (h : (ahead s 0).isDigit = true) : IsDigits (s.take (digitsLength s)) := by
  have htake : s.take (digitsLength s) = s.takeWhile CodeUnit.isDigit :=
    (List.prefix_iff_eq_take.mp (List.takeWhile_prefix _)).symm
  constructor
  · rw [← List.length_pos_iff, List.length_take_of_le (digitsLength_le s)]
    exact digitsLength_pos h
  · rw [htake]
    exact fun u => List.all_eq_true.mp List.all_takeWhile u

theorem digitsLength_of_not (h : (ahead s 0).isDigit = false) : digitsLength s = 0 := by
  cases s with
  | nil => rfl
  | cons u rest =>
    have hu : ¬u.isDigit = true := by
      rw [CodeUnits.ahead_cons_zero] at h
      simp [h]
    rw [digitsLength, List.takeWhile_cons_of_neg hu, List.length_nil]

theorem IsDigits.digitsLength_append (h : IsDigits x) (y : CodeUnits) :
    digitsLength (x ++ y) = x.length + digitsLength y := by
  rw [digitsLength, List.takeWhile_append_of_pos h.isDigit, List.length_append, digitsLength]

theorem IsDigits.isDigit_ahead (h : IsDigits x) (y : CodeUnits) :
    (ahead (x ++ y) 0).isDigit = true := by
  cases x with
  | nil => exact absurd rfl h.ne_nil
  | cons u x => exact h.isDigit u List.mem_cons_self

def startsMantissa (s : CodeUnits) : Bool :=
  (ahead s 0).isDigit || (ahead s 0 == CodeUnit.fullStop && (ahead s 1).isDigit)

theorem isSign_take (s : CodeUnits) : IsSign (s.take (signLength s)) := by
  unfold signLength
  split
  · next hsign =>
    rw [Bool.or_eq_true, beq_iff_eq, beq_iff_eq] at hsign
    rcases hsign with hsign | hsign
    · obtain ⟨rest, rfl⟩ := CodeUnits.exists_of_ahead hsign (by decide)
      exact .plus
    · obtain ⟨rest, rfl⟩ := CodeUnits.exists_of_ahead hsign (by decide)
      exact .minus
  · exact .none

theorem signLength_of_startsMantissa (h : startsMantissa s = true) : signLength s = 0 := by
  apply if_neg
  intro hsign
  rw [Bool.or_eq_true, beq_iff_eq, beq_iff_eq] at hsign
  unfold startsMantissa at h
  rcases hsign with hsign | hsign <;> rw [hsign] at h <;> exact absurd h Bool.false_ne_true

theorem IsSign.signLength_append (h : IsSign x) (hs : startsMantissa s = true) :
    signLength (x ++ s) = x.length := by
  cases h with
  | none => exact signLength_of_startsMantissa hs
  | plus => rfl
  | minus => rfl

/-- A number starts where digits or a fraction do, behind a sign if there is one. -/
theorem startsNumber_eq (s : CodeUnits) :
    startsNumber s = startsMantissa (s.drop (signLength s)) := by
  rw [startsNumber, CodeUnit.startsNumber, startsMantissa, CodeUnits.ahead_drop,
    CodeUnits.ahead_drop]
  cases hsign : ahead s 0 == CodeUnit.plusSign || ahead s 0 == CodeUnit.hyphen with
  | true =>
    have hone : signLength s = 1 := if_pos hsign
    rw [hone, if_pos rfl]
  | false =>
    have hzero : signLength s = 0 := by
      rw [signLength, hsign]
      rfl
    rw [hzero, if_neg Bool.false_ne_true]
    cases hstop : ahead s 0 == CodeUnit.fullStop with
    | true =>
      have hdigit : (ahead s 0).isDigit = false := by
        rw [beq_iff_eq.mp hstop]
        rfl
      rw [hdigit, if_pos rfl]
      rfl
    | false => rw [if_neg Bool.false_ne_true, Bool.false_and, Bool.or_false]

/-! ## Mantissas -/

def mantissaLength (s : CodeUnits) : Nat :=
  digitsLength s + fractionLength (s.drop (digitsLength s))

theorem fractionLength_cases (s : CodeUnits) :
    (∃ fraction, IsDigits fraction ∧
        s.take (fractionLength s) = CodeUnit.fullStop :: fraction) ∨
      fractionLength s = 0 ∧
        (ahead s 0 == CodeUnit.fullStop && (ahead s 1).isDigit) = false := by
  cases hstarts : ahead s 0 == CodeUnit.fullStop && (ahead s 1).isDigit with
  | true =>
    left
    have hlength : fractionLength s = 1 + digitsLength (s.drop 1) := if_pos hstarts
    rw [Bool.and_eq_true, beq_iff_eq] at hstarts
    obtain ⟨rest, rfl⟩ := CodeUnits.exists_of_ahead hstarts.1 (by decide)
    refine ⟨rest.take (digitsLength rest), isDigits_take hstarts.2, ?_⟩
    rw [hlength, Nat.add_comm]
    rfl
  | false =>
    right
    refine ⟨?_, rfl⟩
    rw [fractionLength, hstarts]
    rfl

theorem isMantissa_take (h : startsMantissa s = true) :
    IsMantissa (s.take (mantissaLength s)) := by
  rw [mantissaLength, List.take_add]
  cases hdigit : (ahead s 0).isDigit with
  | true =>
    rcases fractionLength_cases (s.drop (digitsLength s)) with ⟨fraction, hfraction, htake⟩ | hnone
    · rw [htake]
      exact .decimal (isDigits_take hdigit) hfraction
    · rw [hnone.1, List.take_zero, List.append_nil]
      exact .whole (isDigits_take hdigit)
  | false =>
    rw [digitsLength_of_not hdigit, List.take_zero, List.drop_zero, List.nil_append]
    rw [startsMantissa, hdigit, Bool.false_or] at h
    rcases fractionLength_cases s with ⟨fraction, hfraction, htake⟩ | hnone
    · rw [htake]
      exact .fraction hfraction
    · exact absurd (hnone.2.symm.trans h) Bool.false_ne_true

theorem mantissaLength_of_not (h : startsMantissa s = false) : mantissaLength s = 0 := by
  rw [startsMantissa, Bool.or_eq_false_iff] at h
  rw [mantissaLength, digitsLength_of_not h.1, List.drop_zero, fractionLength, h.2]
  rfl

theorem IsDigits.mantissaLength_append (h : IsDigits x) (y : CodeUnits) :
    mantissaLength (x ++ y) = x.length + mantissaLength y := by
  unfold mantissaLength
  rw [h.digitsLength_append, List.drop_length_add_append, Nat.add_assoc]

theorem IsDigits.mantissaLength_fullStop (h : IsDigits x) (y : CodeUnits) :
    mantissaLength (CodeUnit.fullStop :: (x ++ y)) = 1 + x.length + digitsLength y := by
  have hnone : digitsLength (CodeUnit.fullStop :: (x ++ y)) = 0 := digitsLength_of_not rfl
  have hfraction : fractionLength (CodeUnit.fullStop :: (x ++ y)) = 1 + digitsLength (x ++ y) :=
    if_pos (h.isDigit_ahead y)
  rw [mantissaLength, hnone, List.drop_zero, hfraction, h.digitsLength_append]
  omega

/-- A mantissa is taken whole, and nothing else where no digit and no full stop is behind it. -/
theorem IsMantissa.exists_mantissaLength_append (h : IsMantissa x) (y : CodeUnits) :
    ∃ n, mantissaLength (x ++ y) = x.length + n ∧
      ((ahead y 0).isDigit = false → ahead y 0 ≠ CodeUnit.fullStop → n = 0) := by
  cases h with
  | whole hdigits =>
    refine ⟨mantissaLength y, hdigits.mantissaLength_append y, fun hdigit hstop => ?_⟩
    apply mantissaLength_of_not
    rw [startsMantissa, hdigit, beq_eq_false_iff_ne.mpr hstop]
    rfl
  | @decimal digits fraction hdigits hfraction =>
    refine ⟨digitsLength y, ?_, fun hdigit _ => digitsLength_of_not hdigit⟩
    rw [List.append_assoc, hdigits.mantissaLength_append, List.cons_append,
      hfraction.mantissaLength_fullStop, List.length_append, List.length_cons]
    omega
  | fraction hfraction =>
    refine ⟨digitsLength y, ?_, fun hdigit _ => digitsLength_of_not hdigit⟩
    rw [List.cons_append, hfraction.mantissaLength_fullStop, List.length_cons]
    omega

theorem IsDigits.startsMantissa (h : IsDigits x) (y : CodeUnits) :
    startsMantissa (x ++ y) = true := by
  rw [Number.startsMantissa, h.isDigit_ahead, Bool.true_or]

theorem IsMantissa.startsMantissa (h : IsMantissa x) (y : CodeUnits) :
    startsMantissa (x ++ y) = true := by
  cases h with
  | whole hdigits => exact hdigits.startsMantissa y
  | decimal hdigits _ =>
    rw [List.append_assoc]
    exact hdigits.startsMantissa _
  | fraction hfraction => exact hfraction.isDigit_ahead y

/-! ## Exponents -/

theorem isDigit_of_isExponentLetter {u : CodeUnit} (h : isExponentLetter u = true) :
    u.isDigit = false ∧ u ≠ CodeUnit.fullStop := by
  rw [isExponentLetter, Bool.or_eq_true, beq_iff_eq, beq_iff_eq] at h
  rcases h with rfl | rfl <;> decide

theorem exponentLength_cons (letter : CodeUnit) (rest : CodeUnits) :
    exponentLength (letter :: rest) =
      if isExponentLetter letter && (ahead (rest.drop (signLength rest)) 0).isDigit then
        1 + signLength rest + digitsLength (rest.drop (signLength rest))
      else 0 := by
  rw [exponentLength, CodeUnits.ahead_cons_zero, List.drop_one, List.tail_cons]
  generalize signLength rest = sign
  have hfirst : ahead (rest.drop sign) 0 = ahead rest sign := CodeUnits.ahead_drop rest sign 0
  dsimp only
  rw [Nat.add_comm 1 sign, CodeUnits.ahead_cons_succ, List.drop_succ_cons, hfirst]
  cases isExponentLetter letter with
  | true => rw [if_pos rfl, Bool.true_and]
  | false => rfl

theorem isExponent_take (s : CodeUnits) : IsExponent (s.take (exponentLength s)) := by
  cases s with
  | nil => exact .none
  | cons letter rest =>
    rw [exponentLength_cons]
    split
    · next hstarts =>
      rw [Bool.and_eq_true] at hstarts
      rw [Nat.add_comm 1, Nat.add_right_comm, List.take_succ_cons, List.take_add]
      exact .power hstarts.1 (isSign_take rest) (isDigits_take hstarts.2)
    · exact .none

theorem IsExponent.length_le (h : IsExponent x) (y : CodeUnits) :
    x.length ≤ exponentLength (x ++ y) := by
  cases h with
  | none => exact Nat.zero_le _
  | @power letter sign digits hletter hsign hdigits =>
    have hsigned := hsign.signLength_append (hdigits.startsMantissa y)
    rw [List.cons_append, List.append_assoc, exponentLength_cons, hsigned, List.drop_left, hletter,
      hdigits.isDigit_ahead, Bool.true_and, if_pos rfl, hdigits.digitsLength_append,
      List.length_cons, List.length_append]
    omega

/-! ## Numbers -/

theorem length_eq (s : CodeUnits) : length s = signLength s +
    (mantissaLength (s.drop (signLength s)) +
      exponentLength ((s.drop (signLength s)).drop (mantissaLength (s.drop (signLength s))))) := by
  unfold length mantissaLength
  dsimp only
  rw [List.drop_drop, List.drop_drop]
  simp only [Nat.add_assoc]

theorem isNumeral_take (h : startsNumber s = true) : IsNumeral (s.take (length s)) := by
  rw [startsNumber_eq] at h
  rw [length_eq, List.take_add, List.take_add]
  exact .parts (isSign_take s) (isMantissa_take h) (isExponent_take _)

theorem IsNumeral.length_le (h : IsNumeral x) (y : CodeUnits) : x.length ≤ length (x ++ y) := by
  cases h with
  | @parts sign mantissa exponent hsign hmantissa hexponent =>
    have hsigned := hsign.signLength_append (hmantissa.startsMantissa (exponent ++ y))
    have hlonger := hexponent.length_le y
    obtain ⟨n, hlength, hexact⟩ := hmantissa.exists_mantissaLength_append (exponent ++ y)
    rw [List.append_assoc, List.append_assoc, length_eq, hsigned, List.drop_left, hlength,
      List.drop_length_add_append, List.length_append, List.length_append]
    cases hexponent with
    | none =>
      rw [List.length_nil]
      omega
    | @power letter _ _ hletter =>
      -- A letter ends the mantissa.
      obtain ⟨hdigit, hstop⟩ := isDigit_of_isExponentLetter hletter
      rw [hexact hdigit hstop, List.drop_zero]
      omega

theorem isLongest_take (h : startsNumber s = true) :
    CodeUnits.IsLongest IsNumeral s (s.take (length s)) := by
  refine .of_take (length_le s) (isNumeral_take h) ?_
  rintro x rest hx rfl
  exact hx.length_le rest

/-- A sign and a fraction are taken; an exponent letter and a sign with no digit are left. -/
example : length (CodeUnits.ofString "-.5e+x") = 3 := by decide

end Number

/-! ## Numeric tokens -/

namespace Token

variable {s : CodeUnits}

/-- What a numeric token is made of: the longest number at the start of the text, and a unit, a
percent sign or nothing behind it. -/
structure IsNumeric (s number : CodeUnits) (token : Token) : Prop where
  longest : CodeUnits.IsLongest Number.IsNumeral s number
  dimension_iff : token.kind = .dimension ↔ startsIdentifier (s.drop number.length) = true
  percentage_iff : token.kind = .percentage ↔
    startsIdentifier (s.drop number.length) = false ∧
      ahead s number.length = CodeUnit.percentSign
  dimension : token.kind = .dimension →
    token = ⟨.dimension, number.length + (Name.extent (s.drop number.length)).length,
      (Name.extent (s.drop number.length)).flags⟩
  percentage : token.kind = .percentage → token = plain .percentage (number.length + 1)
  number : token.kind = .number → token = plain .number number.length

theorem IsNumeric.length_le {token : Token} {number : CodeUnits} (h : token.IsNumeric s number)
    (hkind : token.kind ∈ [.number, .percentage, .dimension]) : number.length ≤ token.length := by
  simp only [List.mem_cons, List.not_mem_nil, or_false] at hkind
  rcases hkind with hkind | hkind | hkind
  · rw [h.number hkind]
    exact Nat.le_refl _
  · rw [h.percentage hkind]
    exact Nat.le_succ _
  · rw [h.dimension hkind]
    exact Nat.le_add_right _ _

theorem startsWith_read_iff_startsNumber :
    (read s).kind.startsWith = .number ↔ startsNumber s = true := by
  constructor
  · intro hkind
    exact (at_of_startsWith hkind).1
  · intro hstarts
    have hs : s ≠ [] := by
      rintro rfl
      exact absurd hstarts (by decide)
    rw [read_of_number hs hstarts]
    exact startsWith_readNumeric s

theorem Kind.startsWith_eq_number_iff {kind : Kind} :
    kind.startsWith = .number ↔ kind ∈ [.number, .percentage, .dimension] := by
  cases kind <;> decide

theorem isNumeric_readNumeric (hstarts : startsNumber s = true) :
    (readNumeric s).IsNumeric s (s.take (Number.length s)) := by
  have hlongest := Number.isLongest_take hstarts
  have hlength := List.length_take_of_le (Number.length_le s)
  generalize s.take (Number.length s) = number at hlongest hlength ⊢
  have hbehind : ahead (s.drop number.length) 0 = ahead s number.length :=
    CodeUnits.ahead_drop s number.length 0
  unfold readNumeric
  dsimp only
  rw [← hlength, hbehind]
  split
  · next hident =>
    refine ⟨hlongest, iff_of_true rfl hident, iff_of_false nofun ?_, fun _ => rfl, nofun, nofun⟩
    rw [hident]
    exact fun h => Bool.noConfusion h.1
  · next hident =>
    rw [Bool.not_eq_true] at hident
    have hno : ¬startsIdentifier (s.drop number.length) = true := by
      rw [hident]
      exact Bool.false_ne_true
    split
    · next hpercent =>
      exact ⟨hlongest, iff_of_false nofun hno, iff_of_true rfl ⟨hident, beq_iff_eq.mp hpercent⟩,
        nofun, fun _ => rfl, nofun⟩
    · next hpercent =>
      exact ⟨hlongest, iff_of_false nofun hno,
        iff_of_false nofun fun h => hpercent (beq_iff_eq.mpr h.2), nofun, nofun, fun _ => rfl⟩

end Token

/-- A token at a cursor is numeric just where the three units there start a number, and it is then
the longest number there with what the units behind that number make of it. -/
theorem Cursor.next_numeric (cursor : Cursor) :
    (cursor.next.1.kind ∈ [.number, .percentage, .dimension] ↔
      CodeUnit.startsNumber (cursor.ahead 0) (cursor.ahead 1) (cursor.ahead 2) = true) ∧
    (cursor.next.1.kind ∈ [.number, .percentage, .dimension] →
      ∃ number, cursor.next.1.IsNumeric cursor.rest number) := by
  rw [← Token.Kind.startsWith_eq_number_iff]
  constructor
  · rw [ahead_eq_rest, ahead_eq_rest, ahead_eq_rest]
    exact Token.startsWith_read_iff_startsNumber
  · intro hkind
    obtain ⟨hstarts, hread⟩ := Token.at_of_startsWith hkind
    refine ⟨cursor.rest.take (Number.length cursor.rest), ?_⟩
    show (Token.read cursor.rest).IsNumeric cursor.rest _
    rw [hread]
    exact Token.isNumeric_readNumeric hstarts

/-- The number behind the colon takes its exponent, and the unit behind it makes it a dimension. -/
theorem Cursor.next_numeric_of_dimension :
    let cursor : Cursor := ⟨CodeUnits.ofString "a:-1.5e3px", 2, by decide, by decide⟩
    cursor.next.1 = ⟨.dimension, 8, ⟨false, false⟩⟩ ∧
      ∃ number, cursor.next.1.IsNumeric cursor.rest number := by
  intro cursor
  have hstarts :
      CodeUnit.startsNumber (cursor.ahead 0) (cursor.ahead 1) (cursor.ahead 2) = true := by
    decide +kernel
  obtain ⟨hkind, hnumeric⟩ := cursor.next_numeric
  exact ⟨by decide +kernel, hnumeric (hkind.mpr hstarts)⟩

/-- A number of 4294967296 digits is not read to its end. -/
theorem Cursor.next_of_long_number :
    let source : CodeUnits := List.replicate (CodeUnits.maxLength + 1) CodeUnit.digitZero
    (Cursor.ofUnits source).next.1.kind ∈ [.number, .percentage, .dimension] ∧
      ¬∃ number, (Cursor.ofUnits source).next.1.IsNumeric source number := by
  intro source
  have hkind : (Cursor.ofUnits source).next.1.kind ∈ [.number, .percentage, .dimension] := by
    rw [← Token.Kind.startsWith_eq_number_iff]
    show (Token.read (Cursor.ofUnits source).rest).kind.startsWith = _
    rw [Cursor.rest_ofUnits_replicate, Token.startsWith_read_iff_startsNumber]
    rfl
  have hnumeral : Number.IsNumeral source := by
    have hdigits : Number.IsDigits source := by
      refine ⟨List.cons_ne_nil _ _, fun u hmem => ?_⟩
      rw [List.eq_of_mem_replicate hmem]
      rfl
    have hwhole := Number.IsNumeral.parts .none (.whole hdigits) .none
    rwa [List.nil_append, List.append_nil] at hwhole
  refine ⟨hkind, fun ⟨number, hnumeric⟩ => ?_⟩
  have hlonger := hnumeric.longest.longest source (List.prefix_refl _) hnumeral
  have hshort := (Cursor.ofUnits source).length_next_le
  have hlength : source.length = CodeUnits.maxLength + 1 := List.length_replicate
  have hle := hnumeric.length_le hkind
  omega

end StyleRules
