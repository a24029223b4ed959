import StyleRules.Proofs.Token.Case
import StyleRules.Proofs.Token.Names

/-!
# Names with their escapes decoded

A name is consumed piece by piece: a unit, or a backslash and the longest body of an escape behind
it. The comparison with a literal takes a name apart again, from the name alone. It cuts the name
into the same pieces but where a backslash stands before a surrogate pair: there it takes the first
half for the escape and ends, since no literal has that half in it. So a name is taken for `url`
just where the code points of its pieces spell that word.
-/

namespace StyleRules

open CodeUnits (ahead whitespaceLength whitespaceRun startsIdentifier)

/-! ## Escapes that are cut off behind their end -/

theorem CodeUnits.whitespaceLength_take {s : CodeUnits} {n : Nat} (hn : whitespaceLength s ≤ n) :
    whitespaceLength (s.take n) = whitespaceLength s := by
  match n, s with
  | 0, s => exact (Nat.eq_zero_of_le_zero hn).symm
  | n + 1, [] => rfl
  | 1, u :: rest =>
    -- A CR with a LF behind it would be longer.
    have hpair : (u == CodeUnit.carriageReturn && ahead rest 0 == CodeUnit.lineFeed) = false := by
      rw [Bool.eq_false_iff]
      intro hpair
      have : whitespaceLength (u :: rest) = 2 := if_pos hpair
      omega
    have hzero : ((0 : CodeUnit) == CodeUnit.lineFeed) = false := by decide
    show (if u == CodeUnit.carriageReturn && (0 : CodeUnit) == CodeUnit.lineFeed then 2
        else if u.isWhitespace then 1 else 0) =
      if u == CodeUnit.carriageReturn && ahead rest 0 == CodeUnit.lineFeed then 2
        else if u.isWhitespace then 1 else 0
    rw [hpair, hzero, Bool.and_false]
  | n + 2, [u] => rfl
  | n + 2, u :: v :: rest => rfl

theorem CodeUnit.isHexDigit_of_isPair {u v : CodeUnit} (h : CodeUnit.isPair u v = true) :
    u.isHexDigit = false := by
  rw [CodeUnit.isPair, Bool.and_eq_true] at h
  exact (CodeUnit.isName_of_isHighSurrogate h.1).2

namespace Escape

variable {s : CodeUnits} {n : Nat}

theorem hexDigits_take (hn : (hexDigits s).length ≤ n) : hexDigits (s.take n) = hexDigits s := by
  have hcut : hexDigits (s.take n) = (hexDigits s).take n := by
    unfold hexDigits
    rw [List.take_takeWhile, List.take_take, List.take_take, Nat.min_comm]
  rw [hcut, List.take_of_length_le hn]

theorem isPair_take {u : CodeUnit} {rest : CodeUnits} (hhex : u.isHexDigit = false)
    (hn : length (u :: rest) ≤ n) :
    CodeUnit.isPair u (ahead ((u :: rest).take n) 1) = CodeUnit.isPair u (ahead (u :: rest) 1) ∧
      (CodeUnit.isPair u (ahead (u :: rest) 1) = true →
        ahead ((u :: rest).take n) 1 = ahead (u :: rest) 1) := by
  cases hpair : CodeUnit.isPair u (ahead (u :: rest) 1) with
  | true =>
    have htwo : length (u :: rest) = 2 := by
      rw [length, hhex, hpair]
      rfl
    rw [CodeUnits.ahead_take _ (by omega), hpair]
    exact ⟨rfl, fun _ => rfl⟩
  | false =>
    refine ⟨?_, fun h => absurd h Bool.false_ne_true⟩
    by_cases hone : 1 < n
    · rw [CodeUnits.ahead_take _ hone, hpair]
    · have hzero : ahead ((u :: rest).take n) 1 = 0 := by
        rw [CodeUnits.ahead, List.getD_eq_getElem?_getD, List.getElem?_take, if_neg hone]
        rfl
      rw [hzero]
      exact Bool.and_false _

theorem length_take (hn : length s ≤ n) : length (s.take n) = length s := by
  cases s with
  | nil => rw [List.take_nil]
  | cons u rest =>
    have hpos := length_pos (List.cons_ne_nil u rest)
    obtain ⟨m, rfl⟩ : ∃ m, n = m + 1 := ⟨n - 1, by omega⟩
    cases hhex : u.isHexDigit with
    | true =>
      have hlength : length (u :: rest) = (hexDigits (u :: rest)).length +
          whitespaceLength ((u :: rest).drop (hexDigits (u :: rest)).length) := if_pos hhex
      calc length ((u :: rest).take (m + 1))
          = (hexDigits ((u :: rest).take (m + 1))).length + whitespaceLength
              (((u :: rest).take (m + 1)).drop (hexDigits ((u :: rest).take (m + 1))).length) :=
            if_pos hhex
        _ = (hexDigits (u :: rest)).length +
              whitespaceLength ((u :: rest).drop (hexDigits (u :: rest)).length) := by
            rw [hexDigits_take (by omega), List.drop_take,
              CodeUnits.whitespaceLength_take (by omega)]
        _ = length (u :: rest) := hlength.symm
    | false =>
      have hpair := (isPair_take hhex hn).1
      rw [List.take_succ_cons] at hpair ⊢
      rw [length, length, hhex, hpair]
      rfl

theorem codePoint_take (hn : length s ≤ n) : codePoint (s.take n) = codePoint s := by
  cases s with
  | nil => rw [List.take_nil]
  | cons u rest =>
    have hpos := length_pos (List.cons_ne_nil u rest)
    obtain ⟨m, rfl⟩ : ∃ m, n = m + 1 := ⟨n - 1, by omega⟩
    cases hhex : u.isHexDigit with
    | true =>
      have hlength : length (u :: rest) = (hexDigits (u :: rest)).length +
          whitespaceLength ((u :: rest).drop (hexDigits (u :: rest)).length) := if_pos hhex
      calc codePoint ((u :: rest).take (m + 1))
          = digitsValue (hexDigits ((u :: rest).take (m + 1))) := if_pos hhex
        _ = digitsValue (hexDigits (u :: rest)) := by rw [hexDigits_take (by omega)]
        _ = codePoint (u :: rest) := (if_pos hhex).symm
    | false =>
      obtain ⟨hpair, hsecond⟩ := isPair_take hhex hn
      rw [List.take_succ_cons] at hpair hsecond ⊢
      have hno : ¬u.isHexDigit = true := by
        simp [hhex]
      rw [codePoint, codePoint, hpair, if_neg hno, if_neg hno]
      split
      · next htrue => rw [hsecond htrue]
      · rfl

theorem length_of_isPair (hpair : CodeUnit.isPair (ahead s 0) (ahead s 1) = true) :
    length s = 2 := by
  have hhex := CodeUnit.isHexDigit_of_isPair hpair
  cases s with
  | nil => exact absurd hpair (by decide)
  | cons u rest =>
    rw [CodeUnits.ahead_cons_zero] at hpair hhex
    rw [length, hhex, if_neg Bool.false_ne_true, if_pos hpair]

theorem isPair_body (s : CodeUnits) :
    CodeUnit.isPair (ahead (s.take (length s)) 0) (ahead (s.take (length s)) 1) =
      CodeUnit.isPair (ahead s 0) (ahead s 1) := by
  cases s with
  | nil => rw [List.take_nil]
  | cons u rest =>
    have hpos := length_pos (List.cons_ne_nil u rest)
    rw [CodeUnits.ahead_take _ hpos, CodeUnits.ahead_cons_zero]
    cases hhex : u.isHexDigit with
    | false => exact (isPair_take hhex (Nat.le_refl _)).1
    | true =>
      have hsingle (v : CodeUnit) : CodeUnit.isPair u v = false := by
        rw [Bool.eq_false_iff]
        intro hpair
        rw [CodeUnit.isHexDigit_of_isPair hpair] at hhex
        exact Bool.false_ne_true hhex
      rw [hsingle, hsingle]

end Escape

/-! ## The pieces of a name -/

namespace Name

/-- What a name is consumed in: a unit as it stands, or a backslash and the body of an escape. -/
inductive Piece where
  | unit (u : CodeUnit)
  | escape (body : CodeUnits)
  deriving DecidableEq

namespace Piece

def units : Piece → CodeUnits
  | unit u => [u]
  | escape body => CodeUnit.backslash :: body

def codePoint : Piece → Nat
  | unit u => u.toNat
  | escape body => Escape.codePoint body

def IsPair : Piece → Prop
  | unit _ => False
  | escape body => CodeUnit.isPair (ahead body 0) (ahead body 1) = true

end Piece

def pieces (s : CodeUnits) : List Piece :=
  match s with
  | [] => []
  | u :: rest =>
    if u.isName then .unit u :: pieces rest
    else if CodeUnit.isValidEscape u (ahead rest 0) then
      .escape (rest.take (Escape.length rest)) :: pieces (rest.drop (Escape.length rest))
    else []
termination_by s.length
decreasing_by all_goals simp only [List.length_cons, List.length_drop]; omega

/-- The decoded name at the start of a text is the given word, ASCII case aside. -/
def IsSpelled (s : CodeUnits) (lowercase : String) : Prop :=
  (pieces s).map (fun piece => foldCodePoint piece.codePoint) =
    (literalBytes lowercase).map UInt8.toNat

theorem units_pieces (s : CodeUnits) :
    (pieces s).flatMap Piece.units = s.take (extent s).length := by
  fun_induction extent s with
  | case1 => rw [pieces, List.flatMap_nil, List.take_nil]
  | case2 u rest hname tail ih =>
    rw [pieces, if_pos hname, List.flatMap_cons, ih, Nat.add_comm, List.take_succ_cons]
    rfl
  | case3 u rest hname hescape body tail ih =>
    obtain rfl := CodeUnit.eq_backslash_of_isValidEscape hescape
    rw [pieces, if_neg hname, if_pos hescape, List.flatMap_cons, ih, Nat.add_assoc, Nat.add_comm,
      List.take_succ_cons, List.take_add]
    rfl
  | case4 u rest hname hescape =>
    rw [pieces, if_neg hname, if_neg hescape, List.flatMap_nil, List.take_zero]

theorem Piece.units_ne_nil (piece : Piece) : piece.units ≠ [] := by
  cases piece <;> exact List.cons_ne_nil _ _

/-! ## Comparing piece by piece -/

theorem foldCodePoint_ne_of_le {code : Nat} (hcode : 256 ≤ code) (byte : UInt8) :
    foldCodePoint code ≠ byte.toNat := by
  have hbyte := byte.toNat_lt
  unfold foldCodePoint
  split <;> omega

theorem decode_unit {u : CodeUnit} (hu : u ≠ CodeUnit.backslash) (rest : CodeUnits) :
    decode (u :: rest) = ⟨u.toNat, 1⟩ := by
  rw [decode, if_neg (by simp [hu])]

/-- An escape is decoded to its end, unless it is that of a surrogate pair. -/
theorem decode_escape {rest : CodeUnits} (hrest : rest ≠ [])
    (hpair : CodeUnit.isPair (ahead rest 0) (ahead rest 1) = false) :
    decode (CodeUnit.backslash :: rest) = ⟨Escape.codePoint rest, 1 + Escape.length rest⟩ := by
  obtain ⟨u, more, rfl⟩ := List.exists_cons_of_ne_nil hrest
  rw [CodeUnits.ahead_cons_zero, CodeUnits.ahead_cons_succ] at hpair
  by_cases hhex : u.isHexDigit = true
  · simp [decode, Escape.codePoint, Escape.length, hhex, Nat.add_assoc]
  · simp [decode, Escape.codePoint, Escape.length, hhex, hpair]

theorem decode_pair {rest : CodeUnits}
    (hpair : CodeUnit.isPair (ahead rest 0) (ahead rest 1) = true) :
    decode (CodeUnit.backslash :: rest) = ⟨(ahead rest 0).toNat, 2⟩ := by
  have hhex := CodeUnit.isHexDigit_of_isPair hpair
  cases rest with
  | nil => exact absurd hpair (by decide)
  | cons u more => simp_all [decode]

theorem behindByte?_unit {u : CodeUnit} (hu : u ≠ CodeUnit.backslash) (rest : CodeUnits)
    (byte : UInt8) : behindByte? (u :: rest) byte =
      if foldCodePoint u.toNat = byte.toNat then some rest else none := by
  rw [behindByte?, decode_unit hu]
  simp

theorem behindByte?_pair {rest : CodeUnits}
    (hpair : CodeUnit.isPair (ahead rest 0) (ahead rest 1) = true) (byte : UInt8) :
    foldCodePoint (Escape.codePoint rest) ≠ byte.toNat ∧
      behindByte? (CodeUnit.backslash :: rest) byte = none := by
  have hhigh : (ahead rest 0).isHighSurrogate = true := (Bool.and_eq_true_iff.mp hpair).1
  have hunit : 256 ≤ (ahead rest 0).toNat := by
    simp only [CodeUnit.isHighSurrogate, Bool.and_eq_true, decide_eq_true_eq,
      UInt16.le_iff_toNat_le, UInt16.reduceToNat] at hhigh
    omega
  have hcode : 256 ≤ Escape.codePoint rest := by
    cases rest with
    | nil => exact absurd hpair (by decide)
    | cons u more =>
      have hhex := CodeUnit.isHexDigit_of_isPair hpair
      rw [CodeUnits.ahead_cons_zero] at hpair hhex
      rw [Escape.codePoint, hhex, if_neg Bool.false_ne_true, if_pos hpair]
      unfold CodeUnit.pairCodePoint
      omega
  refine ⟨foldCodePoint_ne_of_le hcode byte, ?_⟩
  rw [behindByte?, decode_pair hpair]
  simp [foldCodePoint_ne_of_le hunit]

theorem behindByte?_escape {rest : CodeUnits} (hrest : rest ≠ []) (byte : UInt8) :
    behindByte? (CodeUnit.backslash :: rest) byte =
      if foldCodePoint (Escape.codePoint rest) = byte.toNat then
        some (rest.drop (Escape.length rest))
      else none := by
  cases hpair : CodeUnit.isPair (ahead rest 0) (ahead rest 1) with
  | true =>
    obtain ⟨hcode, hnone⟩ := behindByte?_pair hpair byte
    rw [hnone, if_neg hcode]
  | false =>
    rw [behindByte?, decode_escape hrest hpair, Nat.add_comm, List.drop_succ_cons]
    simp

/-- What the pieces of a name begin with. Behind a backslash the name is cut off somewhere behind
the escape, which is read from what is left of the name as it was from the text. -/
inductive FirstPiece (s : CodeUnits) : Prop
  | nil (h : pieces s = [])
  | unit {u : CodeUnit} {rest : CodeUnits} (hu : u ≠ CodeUnit.backslash)
      (h : pieces s = .unit u :: pieces rest)
  | escape {tail rest : CodeUnits} (htail : tail ≠ [])
      (h : pieces s = .escape (tail.take (Escape.length tail)) :: pieces rest)
      (hrest : (pieces rest).flatMap Piece.units = tail.drop (Escape.length tail))

theorem firstPiece (s : CodeUnits) : FirstPiece s := by
  cases s with
  | nil => exact .nil (by rw [pieces])
  | cons u rest =>
    by_cases hname : u.isName = true
    · refine @FirstPiece.unit _ u rest ?_ (by rw [pieces, if_pos hname])
      rintro rfl
      exact absurd hname (by decide)
    · by_cases hescape : CodeUnit.isValidEscape u (ahead rest 0) = true
      · have hne := CodeUnits.ne_nil_of_isValidEscape hescape
        have hpos := Escape.length_pos hne
        generalize hn : (extent (rest.drop (Escape.length rest))).length = n
        have hlength : Escape.length (rest.take (Escape.length rest + n)) = Escape.length rest :=
          Escape.length_take (Nat.le_add_right _ n)
        have htail : rest.take (Escape.length rest + n) ≠ [] := by
          rw [← List.length_pos_iff, List.length_take]
          have := List.length_pos_iff.mpr hne
          omega
        refine @FirstPiece.escape _ _ (rest.drop (Escape.length rest)) htail ?_ ?_
        · rw [hlength, List.take_take, Nat.min_eq_left (Nat.le_add_right _ n), pieces,
            if_neg hname, if_pos hescape]
        · rw [hlength, units_pieces, hn, List.drop_take, Nat.add_sub_cancel_left]
      · exact .nil (by rw [pieces, if_neg hname, if_neg hescape])

theorem exists_drop_pieces (s : CodeUnits) (n : Nat) : ∃ rest, (pieces s).drop n = pieces rest := by
  induction n generalizing s with
  | zero => exact ⟨s, rfl⟩
  | succ n ih =>
    cases firstPiece s with
    | nil h => exact ⟨s, by rw [h, List.drop_nil]⟩
    | unit _ h => rw [h]; exact ih _
    | escape _ h _ => rw [h]; exact ih _

/-- The comparison decodes a piece that is ahead to its end, unless it is the escape of a surrogate
pair: of that it takes one unit less, which agrees with no byte. -/
theorem decode_pieces {s : CodeUnits} {piece : Piece} {left : List Piece}
    (h : pieces s = piece :: left) :
    (¬piece.IsPair → decode ((piece :: left).flatMap Piece.units) =
      ⟨piece.codePoint, piece.units.length⟩) ∧
    (piece.IsPair →
      (decode ((piece :: left).flatMap Piece.units)).length + 1 = piece.units.length ∧
        ∀ byte, behindByte? ((piece :: left).flatMap Piece.units) byte = none) := by
  cases firstPiece s with
  | nil hnil =>
    rw [hnil] at h
    cases h
  | unit hu hunit =>
    obtain ⟨rfl, rfl⟩ := List.cons.inj (hunit.symm.trans h)
    exact ⟨fun _ => decode_unit hu _, fun hpair => hpair.elim⟩
  | @escape tail rest htail hescape hrest =>
    obtain ⟨rfl, rfl⟩ := List.cons.inj (hescape.symm.trans h)
    have hunits : (Piece.escape (tail.take (Escape.length tail)) :: pieces rest).flatMap
        Piece.units = CodeUnit.backslash :: tail := by
      rw [List.flatMap_cons, hrest]
      exact congrArg _ (List.take_append_drop _ tail)
    have hlength : (Piece.escape (tail.take (Escape.length tail))).units.length =
        1 + Escape.length tail := by
      rw [Piece.units, List.length_cons, List.length_take_of_le (Escape.length_le tail),
        Nat.add_comm]
    rw [hunits, hlength, Piece.IsPair, Escape.isPair_body, Bool.not_eq_true]
    refine ⟨fun hsingle => ?_, fun hpair => ⟨?_, fun byte => (behindByte?_pair hpair byte).2⟩⟩
    · rw [decode_escape htail hsingle, Piece.codePoint, Escape.codePoint_take (Nat.le_refl _)]
    · rw [decode_pair hpair, Escape.length_of_isPair hpair]

theorem behindByte?_pieces {s : CodeUnits} {piece : Piece} {left : List Piece}
    (h : pieces s = piece :: left) (byte : UInt8) :
    behindByte? ((piece :: left).flatMap Piece.units) byte =
      if foldCodePoint piece.codePoint = byte.toNat then some (left.flatMap Piece.units)
      else none := by
  cases firstPiece s with
  | nil hnil =>
    rw [hnil] at h
    cases h
  | unit hu hunit =>
    obtain ⟨rfl, rfl⟩ := List.cons.inj (hunit.symm.trans h)
    exact behindByte?_unit hu _ byte
  | @escape tail rest htail hescape hrest =>
    obtain ⟨rfl, rfl⟩ := List.cons.inj (hescape.symm.trans h)
    rw [List.flatMap_cons, hrest]
    show behindByte? (CodeUnit.backslash :: (tail.take _ ++ tail.drop _)) byte =
      if foldCodePoint (Escape.codePoint _) = _ then _ else _
    rw [List.take_append_drop, behindByte?_escape htail, Escape.codePoint_take (Nat.le_refl _)]

/-- Comparing the name at the start of a text with some bytes goes through its pieces, one for each
byte, as long as they agree. -/
theorem foldlM_behindByte? (s : CodeUnits) (bytes : List UInt8) :
    bytes.foldlM behindByte? ((pieces s).flatMap Piece.units) =
      if ((pieces s).take bytes.length).map (fun piece => foldCodePoint piece.codePoint) =
          bytes.map UInt8.toNat then
        some (((pieces s).drop bytes.length).flatMap Piece.units)
      else none := by
  induction bytes generalizing s with
  | nil => simp [pure]
  | cons byte bytes ih =>
    rw [List.foldlM_cons]
    cases hpieces : pieces s with
    | nil => simp [behindByte?]
    | cons piece left =>
      obtain ⟨rest, hrest⟩ := exists_drop_pieces s 1
      rw [hpieces, List.drop_one, List.tail_cons] at hrest
      rw [behindByte?_pieces hpieces, hrest]
      by_cases hbyte : foldCodePoint piece.codePoint = byte.toNat
      · simp [hbyte, ih]
      · simp [hbyte]

/-- The comparison of a name with a literal answers whether it decodes to that literal. -/
theorem equalsFolded_name_iff (s : CodeUnits) (lowercase : String) :
    equalsFolded (s.take (extent s).length) lowercase = true ↔ IsSpelled s lowercase := by
  unfold equalsFolded IsSpelled
  rw [← units_pieces, foldlM_behindByte?]
  generalize literalBytes lowercase = bytes
  constructor
  · intro h
    split at h
    · next hagree =>
      have hnone : (pieces s).drop bytes.length = [] := by
        rw [beq_iff_eq, Option.some.injEq, List.flatMap_eq_nil_iff] at h
        rw [List.eq_nil_iff_forall_not_mem]
        exact fun piece hmem => piece.units_ne_nil (h piece hmem)
      rwa [List.take_of_length_le (List.drop_eq_nil_iff.mp hnone)] at hagree
    · exact absurd h (by decide)
  · intro hspelled
    have hlength : (pieces s).length = bytes.length := by
      simpa using congrArg List.length hspelled
    rw [← hlength, List.take_length, if_pos hspelled, List.drop_length]
    rfl

theorem equalsFolded_of_plain {x : CodeUnits} (hx : CodeUnit.backslash ∉ x) (lowercase : String) :
    equalsFolded x lowercase = x.equalsFolded lowercase := by
  unfold equalsFolded CodeUnits.equalsFolded
  generalize literalBytes lowercase = bytes
  induction bytes generalizing x with
  | nil => cases x <;> rfl
  | cons byte bytes ih =>
    cases x with
    | nil => rfl
    | cons u x =>
      obtain ⟨hu, hx⟩ := not_or.mp (List.mem_cons.not.mp hx)
      have hcode : foldCodePoint u.toNat = byte.toNat ↔ u.fold = byte.toUInt16 := by
        rw [← UInt16.toNat_inj, UInt8.toNat_toUInt16, foldCodePoint_toNat]
      rw [List.foldlM_cons, behindByte?_unit (Ne.symm hu), CodeUnits.fold_cons, List.map_cons]
      by_cases hbyte : u.fold = byte.toUInt16
      · rw [if_pos (hcode.mpr hbyte), hbyte]
        simpa using ih hx
      · rw [if_neg (hcode.not.mpr hbyte)]
        simp [hbyte]

end Name

/-! ## Urls -/

namespace CodeUnits

variable {u : CodeUnit} {rest : CodeUnits}

theorem whitespaceRun_cons (h : u.isWhitespace = true) :
    whitespaceRun (u :: rest) = whitespaceRun rest + 1 := by
  simp [whitespaceRun, h]

theorem whitespaceRun_cons_of_not (h : u.isWhitespace = false) :
    whitespaceRun (u :: rest) = 0 := by
  simp [whitespaceRun, h]

end CodeUnits

def CodeUnits.OpensQuoted (s : CodeUnits) : Prop :=
  ∃ quote ∈ s.find? fun u => !u.isWhitespace, quote.isQuote = true

theorem CodeUnits.opensQuoted_iff (s : CodeUnits) :
    OpensQuoted s ↔ (ahead (s.drop (whitespaceRun s)) 0).isQuote = true := by
  induction s with
  | nil => exact iff_of_false (by simp [OpensQuoted]) (by decide)
  | cons u s ih =>
    cases hspace : u.isWhitespace with
    | true =>
      rw [whitespaceRun_cons hspace, List.drop_succ_cons, ← ih]
      simp [OpensQuoted, hspace]
    | false =>
      rw [whitespaceRun_cons_of_not hspace]
      simp [OpensQuoted, hspace]

namespace Token

variable {s : CodeUnits}

theorem isUrlName_iff (s : CodeUnits) :
    isUrlName (s.take (Name.extent s).length) (Name.extent s).escaped = true ↔
      Name.IsSpelled s "url" := by
  rw [← Name.equalsFolded_name_iff]
  unfold isUrlName
  split
  · rfl
  · next hescaped =>
    rw [Name.escaped_extent_iff] at hescaped
    rw [Name.equalsFolded_of_plain hescaped]

theorem starts_of_isSpelled (h : Name.IsSpelled s "url") :
    startsIdentifier s = true ∧ startsCdc s = false := by
  have hurl : (literalBytes "url").map UInt8.toNat = [0x75, 0x72, 0x6C] := by decide
  cases s with
  | nil =>
    rw [Name.IsSpelled, Name.pieces, hurl] at h
    exact absurd h (List.cons_ne_nil _ _).symm
  | cons u rest =>
    rw [Name.IsSpelled, Name.pieces, hurl] at h
    split at h
    · rw [List.map_cons, Name.Piece.codePoint, Name.foldCodePoint_toNat] at h
      have hfold : u.fold = 0x75 := UInt16.toNat_inj.mp (List.cons.inj h).1
      have hletter : u.isLetter = true := by
        rw [← CodeUnit.isLetter_fold, hfold]
        decide
      have hhyphen : (u == CodeUnit.hyphen) = false := by
        rw [beq_eq_false_iff_ne]
        rintro rfl
        exact absurd hletter (by decide)
      have hslash : (u == CodeUnit.backslash) = false := by
        rw [beq_eq_false_iff_ne]
        rintro rfl
        exact absurd hletter (by decide)
      constructor
      · show CodeUnit.startsIdentifier u _ _ = true
        rw [CodeUnit.startsIdentifier, hhyphen, hslash]
        simp [CodeUnit.isNameStart, hletter]
      · show (u == CodeUnit.hyphen && _ && _) = false
        rw [hhyphen]
        rfl
    · split at h
      · next hescape =>
        obtain rfl := CodeUnit.eq_backslash_of_isValidEscape hescape
        exact ⟨hescape, rfl⟩
      · exact absurd h (List.cons_ne_nil _ _).symm

/-- Where a name decodes to `url` and an opening parenthesis is behind it, what follows that
parenthesis decides about the token. -/
theorem read_of_isSpelled (h : Name.IsSpelled s "url")
    (hparen : ahead s (Name.extent s).length = CodeUnit.leftParen) :
    read s = readUrlOpening (Name.extent s) (s.drop ((Name.extent s).length + 1)) := by
  obtain ⟨hident, hcdc⟩ := starts_of_isSpelled h
  have hnumber := CodeUnit.startsNumber_of_startsIdentifier hident
  rw [← Nat.add_zero (Name.extent s).length, ← CodeUnits.ahead_drop] at hparen
  obtain ⟨inside, hinside⟩ := CodeUnits.exists_of_ahead hparen (by decide)
  rw [read_of_identifier (CodeUnits.ne_nil_of_startsIdentifier hident) hnumber hcdc hident,
    readIdentLike_of_paren rfl hinside, if_pos ((isUrlName_iff s).mpr h), ← List.drop_drop, hinside]
  rfl

/-- A token is a url, or a bad one, where a name that decodes to `url` has an opening parenthesis
behind it and no quote behind that. -/
theorem kind_read_url_iff : (read s).kind ∈ [.url, .badUrl] ↔
    Name.IsSpelled s "url" ∧ ahead s (Name.extent s).length = CodeUnit.leftParen ∧
      ¬CodeUnits.OpensQuoted (s.drop ((Name.extent s).length + 1)) := by
  rw [CodeUnits.opensQuoted_iff]
  constructor
  · intro hkind
    have hname : (read s).kind.startsWith = .name := by
      rw [Kind.startsWith_eq_name_iff]
      exact List.mem_of_mem_drop (i := 2) hkind
    obtain ⟨-, hread⟩ := at_of_startsWith hname
    rw [hread] at hkind
    have hparen : ahead (s.drop (Name.extent s).length) 0 = CodeUnit.leftParen := by
      by_contra hother
      rw [readIdentLike_of_ident hother] at hkind
      exact absurd hkind (by simp)
    obtain ⟨inside, hinside⟩ := CodeUnits.exists_of_ahead hparen (by decide)
    have hdrop : s.drop ((Name.extent s).length + 1) = inside := by
      rw [← List.drop_drop, hinside]
      rfl
    rw [CodeUnits.ahead_drop] at hparen
    rw [readIdentLike_of_paren rfl hinside] at hkind
    rw [hdrop, ← isUrlName_iff]
    split at hkind
    · next hurl =>
      refine ⟨hurl, hparen, fun hquote => ?_⟩
      rw [readUrlOpening, if_pos hquote] at hkind
      exact absurd hkind (by simp)
    · exact absurd hkind (by simp)
  · rintro ⟨hspelled, hparen, hquote⟩
    rw [read_of_isSpelled hspelled hparen, readUrlOpening, if_neg hquote]
    have hkinds (rest : CodeUnits) : (readUrl rest).kind ∈ [.url, .badUrl] := by
      rcases kind_readUrl rest with hkind | hkind <;> simp [hkind]
    exact hkinds _

end Token

/-- A name is taken for `url` just where its pieces spell that word, ASCII case aside. To find out,
it is compared piece by piece with the literal, to the end of the name and no further; a name
without a backslash is compared as it is written. The comparison takes the pieces as they were
consumed, but for the escape of a surrogate pair: there it takes the backslash and the first half of
the pair, and ends, since no byte is the code of that half. -/
theorem Cursor.isUrlName_next (cursor : Cursor) :
    let name : CodeUnits := cursor.rest.take (Name.extent cursor.rest).length
    let pieces := Name.pieces cursor.rest
    (Token.isUrlName name (Name.extent cursor.rest).escaped = true ↔
      Name.IsSpelled cursor.rest "url") ∧
    (cursor.next.1.kind ∈ [.url, .badUrl] ↔ Name.IsSpelled cursor.rest "url" ∧
      cursor.ahead name.length = CodeUnit.leftParen ∧
      ¬CodeUnits.OpensQuoted (cursor.rest.drop (name.length + 1))) ∧
    (∀ lowercase, Name.equalsFolded name lowercase = true ↔
      Name.IsSpelled cursor.rest lowercase) ∧
    (∀ (bytes : List UInt8) rest, bytes.foldlM Name.behindByte? name = some rest →
      rest = (pieces.drop bytes.length).flatMap Name.Piece.units ∧
        (pieces.take bytes.length).flatMap Name.Piece.units ++ rest = name) ∧
    (∀ i (hi : i < pieces.length),
      let left := (pieces.drop i).flatMap Name.Piece.units
      (¬pieces[i].IsPair → Name.decode left = ⟨pieces[i].codePoint, pieces[i].units.length⟩) ∧
      (pieces[i].IsPair → (Name.decode left).length + 1 = pieces[i].units.length ∧
        ∀ byte, Name.behindByte? left byte = none)) ∧
    (CodeUnit.backslash ∉ name → ∀ lowercase,
      Name.equalsFolded name lowercase = CodeUnits.equalsFolded name lowercase) := by
  intro name pieces
  have hlength : name.length = (Name.extent cursor.rest).length :=
    List.length_take_of_le (Name.length_extent_le cursor.rest)
  have hunits : pieces.flatMap Name.Piece.units = name := Name.units_pieces cursor.rest
  refine ⟨Token.isUrlName_iff cursor.rest, ?_, Name.equalsFolded_name_iff cursor.rest, ?_, ?_,
    fun hplain => Name.equalsFolded_of_plain hplain⟩
  · rw [hlength, ahead_eq_rest]
    exact Token.kind_read_url_iff
  · intro bytes rest hrest
    rw [← hunits, Name.foldlM_behindByte?] at hrest
    split at hrest
    · obtain rfl := Option.some.inj hrest
      refine ⟨rfl, ?_⟩
      rw [← List.flatMap_append, List.take_append_drop, hunits]
    · cases hrest
  · intro i hi left
    obtain ⟨rest, hrest⟩ := Name.exists_drop_pieces cursor.rest i
    have hleft : pieces.drop i = pieces[i] :: pieces.drop (i + 1) := List.drop_eq_getElem_cons hi
    have hdecode := Name.decode_pieces (hrest.symm.trans hleft)
    rw [← hleft] at hdecode
    exact hdecode

/-- The second piece spells its letter with four digits and the whitespace behind them. -/
theorem Cursor.isUrlName_next_of_escape :
    let cursor : Cursor := ⟨CodeUnits.ofString "a:U\\0072 l(x)", 2, by decide, by decide⟩
    Token.isUrlName (cursor.rest.take 8) true = true ∧
      Name.IsSpelled cursor.rest "url" ∧ cursor.next.1.kind = .url := by
  intro cursor
  have hextent : Name.extent cursor.rest = ⟨8, true⟩ := by decide +kernel
  have hurl : Token.isUrlName (cursor.rest.take 8) true = true := by decide +kernel
  obtain ⟨hspelled, -⟩ := cursor.isUrlName_next
  rw [hextent] at hspelled
  exact ⟨hurl, hspelled.mp hurl, by decide +kernel⟩

/-- Behind a backslash a surrogate pair is one piece of three units, of which the comparison takes
two. And the name behind `#` is consumed, but not compared. -/
theorem Cursor.next_of_escaped_pair :
    (let source : CodeUnits := [CodeUnit.backslash, 0xD83D, 0xDE00, CodeUnit.leftParen]
      let name : CodeUnits := source.take 3
      Name.pieces source = [.escape [0xD83D, 0xDE00]] ∧
        (Cursor.ofUnits source).next.1.kind = .function ∧
        name.length = 3 ∧ (Name.decode name).length = 2) ∧
    let source : CodeUnits := CodeUnits.ofString "#url(x)"
    Name.IsSpelled (source.drop 1) "url" ∧ CodeUnits.ahead source 4 = CodeUnit.leftParen ∧
      (Cursor.ofUnits source).next.1.kind = .hash := by
  unfold Name.IsSpelled
  decide +kernel

end StyleRules
