import StyleRules.Proofs.Declaration.Reading

/-!
# Words

The names and the values that rules spell out are words, the digit `0`, or a word within `var()`.
They are read the same wherever a separator or the end of the text is behind them.
-/

namespace StyleRules

open CodeUnits (ahead startsIdentifier startsNumber)
open Lexeme (pieces)

namespace CodeUnit

def endsWord (u : CodeUnit) : Bool :=
  !(u.isName || u == backslash || u == leftParen || u == greaterThan)

theorem endsWord_of_isSeparator {u : CodeUnit} (hu : u.isSeparator = true) : u.endsWord = true :=
  of_isSeparator hu (by decide)

end CodeUnit

def CodeUnits.isWord (s : CodeUnits) : Bool := s.all CodeUnit.isName && startsIdentifier s

variable {s y : CodeUnits}

theorem Name.extent_of_not {u : CodeUnit} (hname : u.isName = false)
    (hslash : u ≠ CodeUnit.backslash) (rest : CodeUnits) : extent (u :: rest) = ⟨0, false⟩ := by
  rw [extent, hname, if_neg Bool.false_ne_true, CodeUnit.isValidEscape_of_ne hslash,
    if_neg Bool.false_ne_true]

theorem Name.extent_of_endsWord (hy : (ahead y 0).endsWord = true) : extent y = ⟨0, false⟩ := by
  cases y with
  | nil => rw [extent]
  | cons u y =>
    change u.endsWord = true at hy
    simp only [CodeUnit.endsWord, Bool.not_eq_true', Bool.or_eq_false_iff] at hy
    exact extent_of_not hy.1.1.1 (beq_eq_false_iff_ne.mp hy.1.1.2) y

theorem Name.extent_append_of_all (hs : s.all CodeUnit.isName = true)
    (hy : extent y = ⟨0, false⟩) : extent (s ++ y) = ⟨s.length, false⟩ := by
  rw [extent_append_of_isName (fun u => List.all_eq_true.mp hs u), hy, Nat.add_zero]

theorem CodeUnits.starts_of_isNameStart {u : CodeUnit} (hname : u.isNameStart = true)
    (s : CodeUnits) : startsNumber (u :: s) = false ∧ Token.startsCdc (u :: s) = false ∧
      startsIdentifier (u :: s) = true := by
  obtain ⟨hdigit, hplus, hminus, hstop, hslash⟩ := CodeUnit.isNameStart_ne hname
  refine ⟨?_, ?_, ?_⟩
  · show CodeUnit.startsNumber u _ _ = false
    unfold CodeUnit.startsNumber
    rw [hplus, hminus, hstop, hdigit]
    rfl
  · show (u == CodeUnit.hyphen && _ && _) = false
    rw [hminus]
    rfl
  · show CodeUnit.startsIdentifier u _ _ = true
    unfold CodeUnit.startsIdentifier
    rw [hminus, hslash, hname]
    rfl

theorem CodeUnits.starts_of_hyphen {v : CodeUnit}
    (hstart : (v.isNameStart || v == CodeUnit.hyphen) = true)
    (hgreater : (ahead s 0 == CodeUnit.greaterThan) = false) :
    startsNumber (CodeUnit.hyphen :: v :: s) = false ∧
      Token.startsCdc (CodeUnit.hyphen :: v :: s) = false ∧
      startsIdentifier (CodeUnit.hyphen :: v :: s) = true := by
  have hsecond : v.isDigit = false ∧ (v == CodeUnit.fullStop) = false := by
    rw [Bool.or_eq_true] at hstart
    rcases hstart with hstart | hstart
    · obtain ⟨hdigit, -, -, hstop, -⟩ := CodeUnit.isNameStart_ne hstart
      exact ⟨hdigit, hstop⟩
    · obtain rfl := beq_iff_eq.mp hstart
      decide
  refine ⟨?_, ?_, ?_⟩
  · show (v.isDigit || (v == CodeUnit.fullStop && _)) = false
    rw [hsecond.1, hsecond.2]
    rfl
  · show (_ && _ && ahead s 0 == CodeUnit.greaterThan) = false
    rw [hgreater, Bool.and_false]
  · show (v.isNameStart || v == CodeUnit.hyphen || _) = true
    rw [hstart, Bool.true_or]

/-- A word begins with a name start, or with a hyphen and a name start or another hyphen. -/
theorem CodeUnits.isWord_cases (hs : s.isWord = true) :
    (∃ u rest, s = u :: rest ∧ u.isNameStart = true) ∨
      ∃ v rest, s = CodeUnit.hyphen :: v :: rest ∧ rest.all CodeUnit.isName = true ∧
        (v.isNameStart || v == CodeUnit.hyphen) = true := by
  rw [isWord, Bool.and_eq_true] at hs
  obtain ⟨hall, hstart⟩ := hs
  have hescape : ∀ {u v : CodeUnit}, u.isName = true → CodeUnit.isValidEscape u v = false := by
    intro u v hname
    apply CodeUnit.isValidEscape_of_ne
    rintro rfl
    exact absurd hname (by decide)
  match s with
  | [] => exact absurd hstart (by decide)
  | u :: rest =>
    change CodeUnit.startsIdentifier u (ahead rest 0) (ahead rest 1) = true at hstart
    unfold CodeUnit.startsIdentifier at hstart
    rw [List.all_cons, Bool.and_eq_true] at hall
    by_cases hhyphen : (u == CodeUnit.hyphen) = true
    · right
      obtain rfl := beq_iff_eq.mp hhyphen
      rw [if_pos hhyphen] at hstart
      match rest with
      | [] => exact absurd hstart (by decide)
      | v :: rest =>
        rw [List.all_cons, Bool.and_eq_true] at hall
        change (v.isNameStart || v == CodeUnit.hyphen ||
          CodeUnit.isValidEscape v (ahead rest 0)) = true at hstart
        rw [hescape hall.2.1, Bool.or_false] at hstart
        exact ⟨v, rest, rfl, hall.2.2, hstart⟩
    · left
      refine ⟨u, rest, rfl, ?_⟩
      rw [if_neg hhyphen] at hstart
      split at hstart
      · exact absurd ((hescape hall.1).symm.trans hstart) Bool.false_ne_true
      · exact hstart

theorem CodeUnits.isWord_starts (hs : s.isWord = true) (hy : (ahead y 0).endsWord = true) :
    startsNumber (s ++ y) = false ∧ Token.startsCdc (s ++ y) = false ∧
      startsIdentifier (s ++ y) = true := by
  rcases isWord_cases hs with ⟨u, rest, rfl, hname⟩ | ⟨v, rest, rfl, hall, hstart⟩
  · exact starts_of_isNameStart hname _
  · apply starts_of_hyphen hstart
    match rest with
    | [] =>
      simp only [CodeUnit.endsWord, Bool.not_eq_true', Bool.or_eq_false_iff] at hy
      exact hy.2
    | w :: rest =>
      rw [List.all_cons, Bool.and_eq_true] at hall
      show (w == CodeUnit.greaterThan) = false
      rw [beq_eq_false_iff_ne]
      rintro rfl
      exact absurd hall.1 (by decide)

theorem Token.read_word (hs : s.isWord = true) (hy : (ahead y 0).endsWord = true) :
    read (s ++ y) = plain .ident s.length := by
  have hne : s ≠ [] := by
    rintro rfl
    exact absurd hs (by decide)
  obtain ⟨hnumber, hcdc, hident⟩ := CodeUnits.isWord_starts hs hy
  rw [CodeUnits.isWord, Bool.and_eq_true] at hs
  have hextent := Name.extent_append_of_all hs.1 (Name.extent_of_endsWord hy)
  rw [read_of_identifier (by simp [hne]) hnumber hcdc hident, readIdentLike_of_ident, hextent]
  · rfl
  · rw [hextent, List.drop_left]
    simp only [CodeUnit.endsWord, Bool.not_eq_true', Bool.or_eq_false_iff] at hy
    exact beq_eq_false_iff_ne.mp hy.1.2

theorem Lexeme.pieces_word (hs : s.isWord = true) (hy : (ahead y 0).endsWord = true) :
    pieces (s ++ y) = ⟨0, .plain .ident s.length, s⟩ :: pieces y := by
  have hread := Token.read_word hs hy
  rw [pieces_append_of_read ?_ (by rw [hread]; rfl), hread]
  rintro rfl
  exact absurd hs (by decide)

/-! ## Cores -/

/-- Lexemes that may be the core of a value: no trivia at either end, nothing malformed, every block
closed, and no `;`, `{` or `}` outside all blocks. -/
structure Value.Core (core : List Lexeme) : Prop where
  ne_nil : core ≠ []
  first : ∀ first, core.head? = some first → first.isTrivia = false
  last : ∀ last, core.getLast? = some last → last.isTrivia = false
  complete : ∀ lexeme ∈ core, lexeme.isTrivia = false → lexeme.isMalformed = false
  walk : Nesting.top.walk? core = some .top

/-- A core that does not end in `!important`. -/
def Value.Unmarked (core : List Lexeme) : Prop :=
  splitImportant (significant core) = (significant core, false)

theorem CodeUnits.endsWord_of_startsApart (hy : y.startsApart = true) :
    (ahead y 0).endsWord = true := by
  cases y with
  | nil => rfl
  | cons u y => exact CodeUnit.endsWord_of_isSeparator hy

/-- A text that is the core of a value and stays so before whatever starts apart. -/
def CodeUnits.IsFixed (s : CodeUnits) : Prop :=
  ∃ core, Value.Core core ∧ Value.Unmarked core ∧
    ∀ y, y.startsApart = true → pieces (s ++ y) = core ++ pieces y

theorem CodeUnits.isFixed_word (hs : s.isWord = true) : s.IsFixed := by
  refine ⟨[⟨0, .plain .ident s.length, s⟩], ⟨List.cons_ne_nil _ _, ?_, ?_, ?_, rfl⟩, rfl, ?_⟩
  · rintro first ⟨⟩
    rfl
  · rintro last ⟨⟩
    rfl
  · intro lexeme hmem _
    obtain rfl := List.mem_singleton.mp hmem
    rfl
  · intro y hy
    exact Lexeme.pieces_word hs (endsWord_of_startsApart hy)

theorem Lexeme.pieces_zero (hy : y.startsApart = true) :
    pieces (CodeUnit.digitZero :: y) =
      ⟨0, .plain .number 1, [CodeUnit.digitZero]⟩ :: pieces y := by
  have hself : Token.readNumeric [CodeUnit.digitZero] = .plain .number 1 := by decide
  have hnumeric : Token.readNumeric ([CodeUnit.digitZero] ++ y) = .plain .number 1 := by
    cases y with
    | nil => exact hself
    | cons c y =>
      rcases Token.readNumeric_append (x := [CodeUnit.digitZero]) hy with hsame | hextended
      · rw [hsame, hself]
      · have hshort : ((Token.readNumeric [CodeUnit.digitZero, c]).length == 1) = true :=
          CodeUnit.of_isSeparator hy
            (p := fun c => (Token.readNumeric [CodeUnit.digitZero, c]).length == 1) (by decide)
        have hover := hextended.longer []
        rw [List.singleton_append, beq_iff_eq.mp hshort] at hover
        exact absurd hover (Nat.lt_irrefl 1)
  have hread : Token.read ([CodeUnit.digitZero] ++ y) = .plain .number 1 :=
    (Token.read_of_number (by simp) rfl).trans hnumeric
  have hpieces := pieces_append_of_read (List.cons_ne_nil CodeUnit.digitZero [])
    (congrArg Token.length hread)
  rwa [hread] at hpieces

theorem CodeUnits.isFixed_zero : IsFixed [CodeUnit.digitZero] := by
  refine ⟨[⟨0, .plain .number 1, [CodeUnit.digitZero]⟩], ⟨List.cons_ne_nil _ _, ?_, ?_, ?_, rfl⟩,
    rfl, fun y hy => Lexeme.pieces_zero hy⟩
  · rintro first ⟨⟩
    rfl
  · rintro last ⟨⟩
    rfl
  · intro lexeme hmem _
    obtain rfl := List.mem_singleton.mp hmem
    rfl

def CodeUnits.reference : CodeUnits := [0x76, 0x61, 0x72, CodeUnit.leftParen]

theorem Token.read_reference (y : CodeUnits) :
    read (CodeUnits.reference ++ y) = plain .function 4 := by
  have hextent : Name.extent (CodeUnits.reference ++ y) = ⟨3, false⟩ :=
    Name.extent_append_of_all (s := [0x76, 0x61, 0x72]) (by decide)
      (Name.extent_of_not (by decide) (by decide) y)
  have hurl : isUrlName [0x76, 0x61, 0x72] false = false := by decide
  rw [read_of_identifier (by simp [CodeUnits.reference]) rfl rfl rfl,
    readIdentLike_of_paren hextent rfl]
  show (if isUrlName [0x76, 0x61, 0x72] false = true then _ else _) = _
  rw [hurl, if_neg Bool.false_ne_true]
  rfl

theorem CodeUnits.isFixed_reference (hs : s.isWord = true) :
    IsFixed (reference ++ s ++ [CodeUnit.rightParen]) := by
  refine ⟨[⟨0, .plain .function 4, reference⟩, ⟨0, .plain .ident s.length, s⟩,
    ⟨0, .plain .rightParen 1, [CodeUnit.rightParen]⟩], ⟨List.cons_ne_nil _ _, ?_, ?_, ?_, rfl⟩, rfl,
    ?_⟩
  · rintro first ⟨⟩
    rfl
  · rintro last ⟨⟩
    rfl
  · intro lexeme hmem _
    simp only [List.mem_cons, List.not_mem_nil, or_false] at hmem
    rcases hmem with rfl | rfl | rfl <;> rfl
  · intro y _
    have hread := Token.read_reference (s ++ CodeUnit.rightParen :: y)
    have hfirst := Lexeme.pieces_append_of_read (x := reference) (List.cons_ne_nil _ _)
      (congrArg Token.length hread)
    rw [hread] at hfirst
    have hword : pieces (s ++ CodeUnit.rightParen :: y) = _ := Lexeme.pieces_word hs rfl
    have hparen : pieces (CodeUnit.rightParen :: y) = _ := Lexeme.pieces_mark (by decide) rfl
    rw [List.append_assoc, List.append_assoc, List.singleton_append, hfirst, hword, hparen]
    rfl

def CodeUnits.isLiteral (s : CodeUnits) : Bool :=
  s.isWord || s == [CodeUnit.digitZero] ||
    s == reference ++ (s.drop 4).dropLast ++ [CodeUnit.rightParen] && isWord (s.drop 4).dropLast

theorem CodeUnits.isFixed_of_isLiteral (hs : s.isLiteral = true) : s.IsFixed := by
  rw [isLiteral, Bool.or_eq_true, Bool.or_eq_true, Bool.and_eq_true, beq_iff_eq, beq_iff_eq] at hs
  rcases hs with (hword | hzero) | ⟨hreference, hword⟩
  · exact isFixed_word hword
  · rw [hzero]
    exact isFixed_zero
  · rw [hreference]
    exact isFixed_reference hword

end StyleRules
