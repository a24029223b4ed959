import StyleRules.Proofs.Checked.Arithmetic
import StyleRules.Proofs.CodeUnit.Fold
import StyleRules.Proofs.Token.Bounds

/-!
# Names in checked steps

A cursor goes through a name unit by unit. The name behind it is compared with a literal by index,
and the digits of its escapes are added up in a word.
-/

namespace StyleRules

theorem CodeUnit.hexValue_lt (u : CodeUnit) : u.hexValue < 16 := by
  unfold hexValue
  split
  · next hdigit =>
    have hrange : 48 ≤ u.toNat ∧ u.toNat ≤ 57 := by
      simpa [isDigit, UInt16.le_iff_toNat_le] using hdigit
    omega
  · next hdigit =>
    split
    · next hhex =>
      have hletter : 65 ≤ u.toNat ∧ u.toNat ≤ 70 ∨ 97 ≤ u.toNat ∧ u.toNat ≤ 102 := by
        simpa [isHexDigit, hdigit, UInt16.le_iff_toNat_le] using hhex
      cases hupper : u.isUpper with
      | true =>
        have hrange : 65 ≤ u.toNat ∧ u.toNat ≤ 90 := by
          simpa [isUpper, UInt16.le_iff_toNat_le] using hupper
        rw [toNat_fold_of_isUpper hupper]
        omega
      | false =>
        rw [fold_of_not_isUpper hupper]
        omega
    · decide

namespace Checked

open CodeUnits (ahead whitespaceLength)

/-! ## Escapes -/

def hexDigitsLoop? : Nat → Cursor → Nat → Option Cursor
  | 0, _, _ => none
  | left + 1, cursor, digits => do
    if digits < 6 && (peek cursor 0).isHexDigit then
      hexDigitsLoop? left (← step? cursor) (← add? .int digits 1)
    else return cursor

def hexDigits? (cursor : Cursor) : Option Cursor :=
  hexDigitsLoop? (rounds cursor.source) cursor 0

def whitespace? (cursor : Cursor) : Option Cursor :=
  if (peek cursor 0).isWhitespace then
    if peek cursor 0 == CodeUnit.carriageReturn && peek cursor 1 == CodeUnit.lineFeed then
      some (jump cursor 2)
    else step? cursor
  else some cursor

/-- Through what follows the backslash of an escape. -/
def escape? (cursor : Cursor) : Option Cursor := do
  if (peek cursor 0).isHexDigit then whitespace? (← hexDigits? cursor)
  else if CodeUnit.isPair (peek cursor 0) (peek cursor 1) then return jump cursor 2
  else step? cursor

def backslash? (cursor : Cursor) : Option Cursor := do escape? (← step? cursor)

section

variable (cursor : Cursor)

theorem hexDigitsLoop?_eq {left digits : Nat} (hleft : cursor.rest.length ≤ left)
    (hdigits : digits ≤ 6) :
    hexDigitsLoop? (left + 1) cursor digits = some (cursor.advance
      ((cursor.rest.take (6 - digits)).takeWhile CodeUnit.isHexDigit).length) := by
  generalize hrest : cursor.rest = s at hleft ⊢
  induction s generalizing cursor digits left with
  | nil =>
    rw [hexDigitsLoop?, peek_eq cursor, hrest, CodeUnits.ahead_nil]
    simp [show CodeUnit.isHexDigit 0 = false from rfl]
  | cons u rest ih =>
    obtain ⟨left, rfl, hless⟩ := exists_round hleft
    have hbehind := Cursor.rest_advance_one hrest
    rw [hexDigitsLoop?, peek_eq cursor, hrest, CodeUnits.ahead_cons_zero]
    by_cases hmore : digits < 6
    · obtain ⟨few, hfew⟩ : ∃ few, 6 - digits = few + 1 := ⟨5 - digits, by omega⟩
      rw [hfew, List.take_succ_cons]
      cases hu : u.isHexDigit with
      | false => simp [hu]
      | true =>
        have htail := ih (cursor.advance 1) (Nat.succ_le_of_lt hmore) hbehind hless
        have hcount : add? .int digits 1 = some (digits + 1) :=
          add?_eq (Nat.le_trans hmore (by decide))
        rw [Cursor.advance_advance, show 6 - (digits + 1) = few by omega] at htail
        simp [hu, hmore, step?_eq cursor, hcount, htail, Nat.add_comm]
    · simp [hmore, show 6 - digits = 0 by omega]

theorem hexDigits?_eq : hexDigits? cursor =
    some (cursor.advance (Escape.hexDigits cursor.rest).length) :=
  hexDigitsLoop?_eq cursor cursor.length_rest_le (Nat.zero_le 6)

theorem whitespace?_eq :
    whitespace? cursor = some (cursor.advance (whitespaceLength cursor.rest)) := by
  unfold whitespace? whitespaceLength
  simp only [peek_eq cursor, jump_eq cursor, step?_eq cursor]
  cases hcr : ahead cursor.rest 0 == CodeUnit.carriageReturn with
  | true =>
    have hspace : (ahead cursor.rest 0).isWhitespace = true := by rw [beq_iff_eq.mp hcr]; rfl
    rw [if_pos hspace]
    cases ahead cursor.rest 1 == CodeUnit.lineFeed <;> simp [hspace]
  | false =>
    cases (ahead cursor.rest 0).isWhitespace <;> simp

theorem escape?_eq : escape? cursor = some (cursor.advance (Escape.length cursor.rest)) := by
  unfold escape?
  rw [peek_eq cursor, peek_eq cursor, jump_eq cursor, step?_eq cursor,
    hexDigits?_eq cursor]
  cases hrest : cursor.rest with
  | nil =>
    have hstay := cursor.advance_of_rest hrest
    simp [Escape.length, hstay, show CodeUnit.isHexDigit 0 = false from rfl,
      show CodeUnit.isPair 0 0 = false from rfl]
  | cons u rest =>
    rw [Escape.length, CodeUnits.ahead_cons_zero]
    by_cases hhex : u.isHexDigit = true
    · rw [if_pos hhex, if_pos hhex]
      have hspace := whitespace?_eq (cursor.advance (Escape.hexDigits (u :: rest)).length)
      rw [Cursor.rest_advance, Cursor.advance_advance, hrest] at hspace
      exact hspace
    · rw [if_neg hhex, if_neg hhex]
      split <;> rfl

theorem backslash?_eq {u : CodeUnit} {rest : CodeUnits} (hs : cursor.rest = u :: rest) :
    backslash? cursor = some (cursor.advance (1 + Escape.length rest)) := by
  have hbody := escape?_eq (cursor.advance 1)
  rw [Cursor.rest_advance_one hs, Cursor.advance_advance] at hbody
  rw [backslash?, step?_eq cursor]
  exact hbody

end

/-! ## Names -/

def nameLoop? : Nat → Cursor → Flags → Option (Flags × Cursor)
  | 0, _, _ => none
  | left + 1, cursor, flags => do
    if cursor.atEnd then return (flags, cursor)
    else if (peek cursor 0).isName then nameLoop? left (← step? cursor) flags
    else if CodeUnit.isValidEscape (peek cursor 0) (peek cursor 1) then
      nameLoop? left (← backslash? cursor) { flags with escaped := true }
    else return (flags, cursor)

def name? (cursor : Cursor) : Option (Flags × Cursor) :=
  nameLoop? (rounds cursor.source) cursor .empty

section

variable (cursor : Cursor)

theorem nameLoop?_eq {left : Nat} (hleft : cursor.rest.length ≤ left) (flags : Flags) :
    nameLoop? (left + 1) cursor flags = some (flags.union (Name.extent cursor.rest).flags,
      cursor.advance (Name.extent cursor.rest).length) := by
  generalize hs : cursor.rest = s at hleft
  induction s using Name.extent.induct generalizing cursor left flags with
  | case1 =>
    rw [nameLoop?, cursor.atEnd_eq, hs, Name.extent, Cursor.advance_zero]
    simp [Name.Extent.flags, Flags.union]
  | case2 u rest hname ih =>
    obtain ⟨left, rfl, hless⟩ := exists_round hleft
    have hbehind := Cursor.rest_advance_one hs
    have htail := ih (cursor.advance 1) flags hbehind hless
    rw [Cursor.advance_advance] at htail
    rw [nameLoop?, cursor.atEnd_eq, peek_eq cursor, hs, CodeUnits.ahead_cons_zero, step?_eq cursor,
      Name.extent, if_neg (by simp), if_pos hname, if_pos hname]
    exact htail
  | case3 u rest hname hescape body =>
    rename_i ih
    obtain ⟨left, rfl, hless⟩ := exists_round hleft
    have hbehind := Cursor.rest_advance_add hs body
    have hfewer : (rest.drop body).length ≤ left :=
      Nat.le_trans (rest.drop_sublist body).length_le hless
    have htail := ih (cursor.advance (1 + body)) { flags with escaped := true } hbehind hfewer
    rw [Cursor.advance_advance] at htail
    rw [nameLoop?, cursor.atEnd_eq, peek_eq cursor, peek_eq cursor, hs, CodeUnits.ahead_cons_zero,
      CodeUnits.ahead_cons_succ, backslash?_eq cursor hs, Name.extent, if_neg (by simp),
      if_neg hname, if_pos hescape, if_neg hname, if_pos hescape]
    simp [htail, body, Flags.union, Name.Extent.flags]
  | case4 u rest hname hescape =>
    rw [nameLoop?, cursor.atEnd_eq, peek_eq cursor, peek_eq cursor, hs, CodeUnits.ahead_cons_zero,
      CodeUnits.ahead_cons_succ, Name.extent, if_neg (by simp), if_neg hname, if_neg hescape,
      if_neg hname, if_neg hescape, Cursor.advance_zero]
    simp [Name.Extent.flags, Flags.union]

theorem name?_eq : name? cursor =
    some ((Name.extent cursor.rest).flags, cursor.advance (Name.extent cursor.rest).length) :=
  nameLoop?_eq cursor cursor.length_rest_le .empty

end

/-! ## Comparing a name with its escapes decoded -/

def digitsLoop? (units : CodeUnits) (start : Nat) : Nat → Nat → Nat → Option (Nat × Nat)
  | 0, _, _ => none
  | left + 1, code, stop => do
    match units[stop]? with
    | none => return (code, stop)
    | some unit =>
      if (← sub? stop start) < 6 && unit.isHexDigit then
        let code ← add? .word (← mul? .word code 16) unit.hexValue
        digitsLoop? units start left code (← add? .size stop 1)
      else return (code, stop)

def digits? (units : CodeUnits) (start : Nat) : Option (Nat × Nat) :=
  digitsLoop? units start (rounds units) 0 start

def escapeEnd? (units : CodeUnits) (stop : Nat) : Option Nat := do
  match units[stop]? with
  | none => return stop
  | some unit =>
    if unit == CodeUnit.carriageReturn then
      if units[← add? .size stop 1]? = some CodeUnit.lineFeed then add? .size stop 2
      else add? .size stop 1
    else if unit.isWhitespace then add? .size stop 1
    else return stop

def decode? (units : CodeUnits) (i : Nat) : Option (Nat × Nat) := do
  let unit ← units[i]?
  let next ← add? .size i 1
  match if unit == CodeUnit.backslash then units[next]? else none with
  | none => return (unit.toNat, next)
  | some first =>
    if first.isHexDigit then
      let (code, stop) ← digits? units next
      return (code, ← escapeEnd? units stop)
    else return (first.toNat, ← add? .size i 2)

def equalsFolded? (units : CodeUnits) (i : Nat) : List UInt8 → Option Bool
  | [] => some (decide (units.length ≤ i))
  | byte :: bytes => do
    if i < units.length then
      let (code, next) ← decode? units i
      if Name.foldCodePoint code == byte.toNat then equalsFolded? units next bytes
      else return false
    else return false

section

variable {units : CodeUnits} (hsize : units.length + 2 ≤ Width.size.max)

include hsize

theorem digitsLoop?_eq {left start code stop : Nat} (hleft : (units.drop stop).length ≤ left)
    (hstart : start ≤ stop) (hfew : stop - start ≤ 6) (hcode : code < Nat.pow 16 (stop - start)) :
    digitsLoop? units start (left + 1) code stop =
      some ((((units.drop stop).take (6 - (stop - start))).takeWhile CodeUnit.isHexDigit).foldl
          (fun n u => 16 * n + u.hexValue) code,
        stop + (((units.drop stop).take (6 - (stop - start))).takeWhile
          CodeUnit.isHexDigit).length) := by
  generalize hrest : units.drop stop = s at hleft ⊢
  induction s generalizing code stop left with
  | nil =>
    rw [digitsLoop?, List.getElem?_eq_none (List.drop_eq_nil_iff.mp hrest), List.take_nil]
    rfl
  | cons u rest ih =>
    obtain ⟨left, rfl, hless⟩ := exists_round hleft
    have hget : units[stop]? = some u := by
      rw [← Nat.add_zero stop, ← List.getElem?_drop, hrest]
      rfl
    have hlt : stop < units.length := (List.getElem?_eq_some_iff.mp hget).1
    have hbehind : units.drop (stop + 1) = rest := by
      rw [← List.drop_drop, hrest]
      rfl
    rw [digitsLoop?, hget]
    dsimp only
    rw [sub?_eq hstart]
    by_cases hmore : stop - start < 6
    · obtain ⟨few, hfewer⟩ : ∃ few, 6 - (stop - start) = few + 1 := ⟨5 - (stop - start), by omega⟩
      rw [hfewer, List.take_succ_cons]
      cases hu : u.isHexDigit with
      | false => simp [hu]
      | true =>
        have hvalue := u.hexValue_lt
        have hpow : Nat.pow 16 (stop + 1 - start) = Nat.pow 16 (stop - start) * 16 := by
          rw [show stop + 1 - start = (stop - start) + 1 by omega]
          rfl
        have hroom : Nat.pow 16 (stop + 1 - start) ≤ Nat.pow 16 6 :=
          Nat.pow_le_pow_right (by decide) (by omega)
        have hword : Nat.pow 16 6 ≤ Width.word.max := by decide
        -- The digits so far are a number below `16 ^ 5`, so one more leaves it below `16 ^ 6`.
        have hbound : code * 16 + u.hexValue < Nat.pow 16 (stop + 1 - start) := by omega
        have htail := ih (Nat.le_succ_of_le hstart) (by omega) hbound hbehind hless
        rw [show 6 - (stop + 1 - start) = few by omega] at htail
        have hmul : mul? .word code 16 = some (code * 16) := mul?_eq (by omega)
        have hadd : add? .word (code * 16) u.hexValue = some (code * 16 + u.hexValue) :=
          add?_eq (by omega)
        have hnext : add? .size stop 1 = some (stop + 1) := add?_eq (by omega)
        simp [hu, hmore, hmul, hadd, hnext, htail, Nat.mul_comm, Nat.add_comm, Nat.add_left_comm]
    · simp [hmore, show 6 - (stop - start) = 0 by omega]

theorem digits?_eq (start : Nat) : digits? units start =
    some (Escape.digitsValue (Escape.hexDigits (units.drop start)),
      start + (Escape.hexDigits (units.drop start)).length) := by
  have hleft : (units.drop start).length ≤ units.length := (units.drop_sublist start).length_le
  have hzero : 0 < Nat.pow 16 (start - start) := Nat.pow_pos (by decide)
  have hloop := digitsLoop?_eq hsize hleft (Nat.le_refl start) (by omega) hzero
  rw [Nat.sub_self] at hloop
  exact hloop

theorem escapeEnd?_eq {stop : Nat} (hstop : stop ≤ units.length) :
    escapeEnd? units stop = some (stop + whitespaceLength (units.drop stop)) := by
  unfold escapeEnd?
  have hone : add? .size stop 1 = some (stop + 1) := add?_eq (by omega)
  have htwo : add? .size stop 2 = some (stop + 2) := add?_eq (by omega)
  cases hget : units[stop]? with
  | none =>
    rw [List.drop_eq_nil_iff.mpr (List.getElem?_eq_none_iff.mp hget)]
    rfl
  | some u =>
    have hfirst : ahead (units.drop stop) 0 = u := by
      rw [ahead, List.getD_eq_getElem?_getD, List.getElem?_drop, Nat.add_zero, hget]
      rfl
    have hsecond : (units[stop + 1]? = some CodeUnit.lineFeed) =
        ((ahead (units.drop stop) 1 == CodeUnit.lineFeed) = true) := by
      rw [ahead, List.getD_eq_getElem?_getD, List.getElem?_drop, beq_iff_eq]
      cases units[stop + 1]? with
      | none => simp [show ¬(0 : CodeUnit) = CodeUnit.lineFeed by decide]
      | some v => simp
    unfold whitespaceLength
    rw [hfirst]
    cases hcr : u == CodeUnit.carriageReturn with
    | true =>
      have hspace : u.isWhitespace = true := by rw [beq_iff_eq.mp hcr]; rfl
      simp only [hcr, hspace, hone, htwo, Option.bind_eq_bind, Option.bind_some, hsecond]
      cases ahead (units.drop stop) 1 == CodeUnit.lineFeed <;> rfl
    | false =>
      cases hspace : u.isWhitespace with
      | true => simp [hcr, hspace, hone]
      | false => simp [hcr, hspace]

theorem decode?_eq {i : Nat} (hi : i < units.length) :
    decode? units i = some ((Name.decode (units.drop i)).code,
      i + (Name.decode (units.drop i)).length) := by
  have hone : add? .size i 1 = some (i + 1) := add?_eq (by omega)
  have htwo : add? .size i 2 = some (i + 2) := add?_eq (by omega)
  have hdrop : units.drop i = units[i] :: units.drop (i + 1) := List.drop_eq_getElem_cons hi
  rw [decode?, List.getElem?_eq_getElem hi, hone, hdrop, Name.decode]
  generalize units[i] = u
  simp only [Option.bind_eq_bind, Option.bind_some]
  cases hslash : u == CodeUnit.backslash with
  | false => rfl
  | true =>
    cases hrest : units.drop (i + 1) with
    | nil =>
      rw [List.getElem?_eq_none (List.drop_eq_nil_iff.mp hrest)]
      rfl
    | cons first rest =>
      have hget : units[i + 1]? = some first := by
        rw [← Nat.add_zero (i + 1), ← List.getElem?_drop, hrest]
        rfl
      have hlt : i + 1 < units.length := (List.getElem?_eq_some_iff.mp hget).1
      rw [hget, if_pos rfl]
      dsimp only
      cases hhex : first.isHexDigit with
      | false =>
        simp [hhex, htwo]
      | true =>
        have hread := digits?_eq hsize (i + 1)
        rw [hrest] at hread
        have hinside := Escape.length_hexDigits_le (first :: rest)
        rw [← hrest, List.length_drop, hrest] at hinside
        have hstop : i + 1 + (Escape.hexDigits (first :: rest)).length ≤ units.length := by omega
        have hend := escapeEnd?_eq hsize hstop
        rw [← List.drop_drop, hrest] at hend
        simp [hhex, hread, hend]
        omega

theorem equalsFolded?_eq (i : Nat) (bytes : List UInt8) :
    equalsFolded? units i bytes =
      some (bytes.foldlM Name.behindByte? (units.drop i) == some []) := by
  induction bytes generalizing i with
  | nil =>
    rw [equalsFolded?, List.foldlM_nil, Option.some.injEq, Bool.eq_iff_iff, decide_eq_true_iff,
      beq_iff_eq, ← List.drop_eq_nil_iff]
    exact (Option.some_inj).symm
  | cons byte bytes ih =>
    rw [equalsFolded?, List.foldlM_cons, Name.behindByte?]
    by_cases hi : i < units.length
    · have hne : (units.drop i).isEmpty = false := by
        rw [Bool.eq_false_iff, ne_eq, List.isEmpty_iff, List.drop_eq_nil_iff]
        omega
      rw [if_pos hi, decode?_eq hsize hi, hne]
      simp only [Option.bind_eq_bind, Option.bind_some, Bool.not_false, Bool.true_and]
      split
      · rw [ih, List.drop_drop]
        rfl
      · rfl
    · rw [if_neg hi, List.drop_eq_nil_of_le (by omega)]
      rfl

end

end Checked

end StyleRules
