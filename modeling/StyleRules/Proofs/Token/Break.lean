import StyleRules.Proofs.Token.Open

/-!
# Tokens before a separator

A token that is read up to the end of a text fares in one of three ways when a separator is written
behind the text: it stays what it was, it takes the separator into the name that it ends with, or it
was not complete and goes on (`read_append`).
-/

namespace StyleRules.Token

open CodeUnits (ahead whitespaceRun startsEscape startsIdentifier startsNumber)

variable {x : CodeUnits} {c : CodeUnit}

/-- What stands behind a separator does not tie it to what stands before it: no quote behind
whitespace, which would make a function of `url(`, and no hyphen behind `!`, which may open an HTML
comment. -/
structure Break (c : CodeUnit) (y : CodeUnits) : Prop where
  quote : c.isWhitespace = true → (ahead (y.drop (whitespaceRun y)) 0).isQuote = false
  hyphen : c = CodeUnit.exclamationMark → ahead y 0 ≠ CodeUnit.hyphen

theorem Break.nil (c : CodeUnit) : Break c [] :=
  ⟨fun _ => by rw [List.drop_nil]; decide, fun _ => by decide⟩

theorem Break.of_not {y : CodeUnits} (hspace : c.isWhitespace = false)
    (hbang : c ≠ CodeUnit.exclamationMark) : Break c y :=
  ⟨fun h => absurd (hspace.symm.trans h) Bool.false_ne_true, fun h => absurd h hbang⟩

def Kind.endsInName : Kind → Bool
  | ident | dimension | hash | atKeyword => true
  | _ => false

def Kind.isPlain : Kind → Bool
  | ident | dimension | hash | atKeyword | number | delim => true
  | _ => false

/-- A separator becomes part of the name that a token ends with. Without the separator the token
ends with the text, or before a lone backslash. -/
structure Extended (read : CodeUnits → Token) (x : CodeUnits) (c : CodeUnit) : Prop where
  longer : ∀ y, x.length < (read (x ++ c :: y)).length
  named : c ≠ CodeUnit.carriageReturn → ∀ y,
    ahead (y.drop (Name.extent y).length) 0 ≠ CodeUnit.leftParen →
      (read (x ++ c :: y)).kind.endsInName = true ∧
        (read (x ++ c :: y)).flags.unterminated = false ∧
        (read (x ++ c :: y)).length = x.length + 1 + (Name.extent y).length
  kind : (read x).kind.isPlain = true
  complete : (read x).flags.unterminated = false
  left : x.drop (read x).length = [] ∨ x.drop (read x).length = [CodeUnit.backslash] ∨
    x.drop (read x).length = [CodeUnit.hyphen, CodeUnit.backslash]

theorem Extended.of_eq {inner outer : CodeUnits → Token} (h : Extended inner x c)
    (hself : outer x = inner x) (hlonger : ∀ y, outer (x ++ c :: y) = inner (x ++ c :: y)) :
    Extended outer x c := by
  refine ⟨fun y => ?_, fun hreturn y hparen => ?_, ?_, ?_, ?_⟩
  · rw [hlonger]
    exact h.longer y
  · rw [hlonger]
    exact h.named hreturn y hparen
  · rw [hself]
    exact h.kind
  · rw [hself]
    exact h.complete
  · rw [hself]
    exact h.left

theorem Kind.isPlain_of_endsInName {kind : Kind} (h : kind.endsInName = true) :
    kind.isPlain = true := by
  cases kind <;> first | rfl | exact absurd h Bool.false_ne_true

/-- A token that ends with a name behind its first `n` units is extended where the name is. -/
theorem Extended.of_name {read : CodeUnits → Token} {kind : Kind} {n : Nat} (hn : n ≤ x.length)
    (hkind : kind.endsInName = true)
    (hself : read x = ⟨kind, n + (Name.extent (x.drop n)).length, (Name.extent (x.drop n)).flags⟩)
    (hlonger : ∀ y, read (x ++ c :: y) =
      ⟨kind, n + (Name.extent (x.drop n ++ c :: y)).length,
        (Name.extent (x.drop n ++ c :: y)).flags⟩)
    (htakes : Name.Takes (x.drop n) c) : Extended read x c := by
  have hlength := List.length_drop (i := n) (l := x)
  refine ⟨fun y => ?_, fun hreturn y _ => ?_, ?_, ?_, ?_⟩
  · have := htakes.longer y
    rw [hlonger]
    show x.length < n + _
    omega
  · have := htakes.length_eq hreturn y
    rw [hlonger]
    refine ⟨hkind, rfl, ?_⟩
    show n + _ = _
    omega
  · rw [hself]
    exact Kind.isPlain_of_endsInName hkind
  · rw [hself]
    rfl
  · rw [hself, ← List.drop_drop]
    exact htakes.left.imp_right .inl

/-- A token before a lone backslash is extended where the separator makes an escape of it. -/
theorem Extended.of_lone {read : CodeUnits → Token} {kind : Kind} {n : Nat} (hn : n ≤ x.length)
    (hc : c.isSeparator = true) (hline : c.isNewline = false)
    (hlone : x.drop n = [CodeUnit.backslash] ∨ x.drop n = [CodeUnit.hyphen, CodeUnit.backslash])
    (hkind : kind.endsInName = true)
    (hlonger : ∀ y, read (x ++ c :: y) =
      ⟨kind, n + (Name.extent (x.drop n ++ c :: y)).length,
        (Name.extent (x.drop n ++ c :: y)).flags⟩)
    (hself : (read x).kind.isPlain = true) (hcomplete : (read x).flags.unterminated = false)
    (hlength : (read x).length = n) :
    Extended read x c := by
  have hlengthDrop := List.length_drop (i := n) (l := x)
  refine ⟨fun y => ?_, fun _ y _ => ?_, hself, hcomplete, ?_⟩
  · rw [hlonger, Name.extent_lone hc hline hlone]
    show x.length < n + ((x.drop n).length + 1 + _)
    omega
  · rw [hlonger, Name.extent_lone hc hline hlone]
    refine ⟨hkind, rfl, ?_⟩
    show n + ((x.drop n).length + 1 + _) = _
    omega
  · rw [hlength]
    exact .inr hlone

/-! ## Names and numbers -/

theorem readNumeric_append (hc : c.isSeparator = true) :
    (∀ y, readNumeric (x ++ c :: y) = readNumeric x) ∨ Extended readNumeric x c := by
  have hle := Number.length_le x
  have hdrop : ∀ y, (x ++ c :: y).drop (Number.length (x ++ c :: y)) =
      x.drop (Number.length x) ++ c :: y := by
    intro y
    rw [Number.length_append hc, List.drop_append_of_le_length hle]
  have hdimension : ∀ y, startsIdentifier (x.drop (Number.length x) ++ c :: y) = true →
      readNumeric (x ++ c :: y) = ⟨.dimension,
        Number.length x + (Name.extent (x.drop (Number.length x) ++ c :: y)).length,
        (Name.extent (x.drop (Number.length x) ++ c :: y)).flags⟩ := by
    intro y hstarts
    unfold readNumeric
    dsimp only
    rw [hdrop, if_pos hstarts, Number.length_append hc]
  have hpercent : ∀ y, (ahead (x.drop (Number.length x) ++ c :: y) 0 == CodeUnit.percentSign) =
      (ahead (x.drop (Number.length x)) 0 == CodeUnit.percentSign) := by
    intro y
    apply CodeUnits.test_append y (p := fun u => u == CodeUnit.percentSign) (by decide) ?_
      (Nat.zero_le _)
    simpa using CodeUnit.of_isSeparator hc (p := fun u => !(u == CodeUnit.percentSign)) (by decide)
  have hplain : ∀ y, startsIdentifier (x.drop (Number.length x) ++ c :: y) = false →
      startsIdentifier (x.drop (Number.length x)) = false →
      readNumeric (x ++ c :: y) = readNumeric x := by
    intro y hlonger hself
    unfold readNumeric
    dsimp only
    rw [hdrop, hlonger, hself, hpercent, Number.length_append hc, if_neg Bool.false_ne_true,
      if_neg Bool.false_ne_true]
  rcases startsIdentifier_append (x := x.drop (Number.length x)) hc with hsame | hlone
  · cases hstarts : startsIdentifier (x.drop (Number.length x)) with
    | false => exact .inl fun y => hplain y ((hsame y).trans hstarts) hstarts
    | true =>
      have hself : readNumeric x = ⟨.dimension,
          Number.length x + (Name.extent (x.drop (Number.length x))).length,
          (Name.extent (x.drop (Number.length x))).flags⟩ := by
        unfold readNumeric
        dsimp only
        rw [if_pos hstarts]
      have hlonger := fun y => hdimension y ((hsame y).trans hstarts)
      rcases Name.extent_append (x := x.drop (Number.length x)) hc with hname | hname
      · left
        intro y
        rw [hlonger, hname, hself]
      · exact .inr (Extended.of_name hle rfl hself hlonger hname)
  · obtain ⟨hrest, hstarts, hlonger, hline⟩ := hlone
    have hnone : ¬(ahead (x.drop (Number.length x)) 0 == CodeUnit.percentSign) = true := by
      rcases hrest with hrest | hrest <;> rw [hrest] <;> decide
    have hself : readNumeric x = plain .number (Number.length x) := by
      unfold readNumeric
      dsimp only
      rw [if_neg (by rw [hstarts]; exact Bool.false_ne_true), if_neg hnone]
    right
    apply Extended.of_lone hle hc hline hrest rfl (fun y => hdimension y (hlonger y))
    · rw [hself]
      rfl
    · rw [hself]
      rfl
    · rw [hself]
      rfl

/-- A mark before a name: what is behind it decides whether it begins a token with the name. -/
theorem marked_append {starts : CodeUnits → Bool} {kind : Kind} {u : CodeUnit} {rest : CodeUnits}
    (hc : c.isSeparator = true)
    (hread : ∀ s, readOther u s = if starts s then readMarked kind s else plain .delim 1)
    (hkind : kind.endsInName = true)
    (hstarts : StableOrLoneBackslash starts rest c) :
    (∀ y, readOther u (rest ++ c :: y) = readOther u rest) ∨
      Extended (fun s => readOther u (s.drop 1)) (u :: rest) c := by
  have hone : 1 ≤ (u :: rest).length := Nat.succ_le_of_lt (Nat.succ_pos _)
  rcases hstarts with hsame | ⟨hlone, hself, hlonger, hline⟩
  · cases hname : starts rest with
    | false =>
      left
      intro y
      rw [hread, hread, hsame]
      simp only [hname, Bool.false_eq_true, if_false]
    | true =>
      have hself : readOther u rest = readMarked kind rest := by rw [hread, if_pos hname]
      have hlonger : ∀ y, readOther u (rest ++ c :: y) = readMarked kind (rest ++ c :: y) := by
        intro y
        rw [hread, hsame, if_pos hname]
      rcases Name.extent_append (x := rest) hc with hextent | htakes
      · left
        intro y
        rw [hlonger, hself, readMarked, hextent]
        rfl
      · exact .inr (Extended.of_name hone hkind hself hlonger htakes)
  · have hdelim : readOther u rest = plain .delim 1 := by
      rw [hread, hself, if_neg Bool.false_ne_true]
    right
    apply Extended.of_lone hone hc hline hlone hkind
    · intro y
      show readOther u (rest ++ c :: y) = _
      rw [hread, if_pos (hlonger y)]
      rfl
    · show (readOther u rest).kind.isPlain = true
      rw [hdelim]
      rfl
    · show (readOther u rest).flags.unterminated = false
      rw [hdelim]
      rfl
    · show (readOther u rest).length = 1
      rw [hdelim]
      rfl

theorem readIdentLike_of_ident {s : CodeUnits}
    (h : ahead (s.drop (Name.extent s).length) 0 ≠ CodeUnit.leftParen) :
    readIdentLike s = ⟨.ident, (Name.extent s).length, (Name.extent s).flags⟩ :=
  if_pos (bne_iff_ne.mpr h)

theorem length_extent_le_readIdentLike (s : CodeUnits) :
    (Name.extent s).length ≤ (readIdentLike s).length := by
  unfold readIdentLike
  dsimp only
  split
  · exact Nat.le_refl _
  · split
    · rw [length_grow]
      omega
    · exact Nat.le_succ _

/-- What is read from `x` is cut off by the end of the text, or is whitespace through that end: a
separator behind it is read along with it, or is the newline that breaks a string off. -/
def Unfinished (read : CodeUnits → Token) (x : CodeUnits) (c : CodeUnit) : Prop :=
  ((read x).isMalformed = true ∨ (read x).kind = .whitespace ∧ (read x).length = x.length) ∧
    ∀ y, Break c y → x.length < (read (x ++ c :: y)).length ∨
      c.isNewline = true ∧ (read (x ++ c :: y)).kind = .badString

theorem Open.unfinished {read : CodeUnits → Token} (hopen : Open read x c) :
    Unfinished read x c :=
  ⟨.inl hopen.1, fun y _ => hopen.2 y⟩

theorem Unfinished.of_eq {inner outer : CodeUnits → Token} (h : Unfinished inner x c)
    (hself : outer x = inner x) (hlonger : ∀ y, outer (x ++ c :: y) = inner (x ++ c :: y)) :
    Unfinished outer x c := by
  refine ⟨by rw [hself]; exact h.1, fun y hbreak => ?_⟩
  rw [hlonger]
  exact h.2 y hbreak

/-- What becomes of what is read from `x` when a separator is written behind it: it stays what it
is, the separator becomes part of the name that it ends with, or it was not complete. -/
def StableOrContinued (read : CodeUnits → Token) (x : CodeUnits) (c : CodeUnit) : Prop :=
  (∀ y, Break c y → read (x ++ c :: y) = read x) ∨ Extended read x c ∨ Unfinished read x c

theorem StableOrContinued.of_extended {read : CodeUnits → Token}
    (h : (∀ y, read (x ++ c :: y) = read x) ∨ Extended read x c) : StableOrContinued read x c :=
  h.imp (fun hapart y _ => hapart y) .inl

theorem StableOrOpen.continued {read : CodeUnits → Token} (h : StableOrOpen read x c) :
    StableOrContinued read x c :=
  h.imp (fun hapart y _ => hapart y) fun hopen => .inr hopen.unfinished

theorem StableOrContinued.of_eq {inner outer : CodeUnits → Token} (h : StableOrContinued inner x c)
    (hself : outer x = inner x) (hlonger : ∀ y, outer (x ++ c :: y) = inner (x ++ c :: y)) :
    StableOrContinued outer x c := by
  rcases h with hapart | hextended | hopen
  · left
    intro y hbreak
    rw [hlonger, hself, hapart y hbreak]
  · exact .inr (.inl (hextended.of_eq hself hlonger))
  · exact .inr (.inr (hopen.of_eq hself hlonger))

/-- A name that takes the separator makes an identifier, unless a parenthesis is behind it. -/
theorem readIdentLike_of_extent {y : CodeUnits}
    (hextent : (Name.extent (x ++ c :: y)).length = x.length + 1 + (Name.extent y).length)
    (hparen : ahead (y.drop (Name.extent y).length) 0 ≠ CodeUnit.leftParen) :
    (readIdentLike (x ++ c :: y)).kind.endsInName = true ∧
      (readIdentLike (x ++ c :: y)).flags.unterminated = false ∧
      (readIdentLike (x ++ c :: y)).length = x.length + 1 + (Name.extent y).length := by
  have hdrop : (x ++ c :: y).drop (Name.extent (x ++ c :: y)).length =
      y.drop (Name.extent y).length := by
    rw [hextent, ← List.drop_drop, ← List.drop_drop, List.drop_left, List.drop_succ_cons,
      List.drop_zero]
  rw [readIdentLike_of_ident (by rw [hdrop]; exact hparen)]
  exact ⟨rfl, rfl, hextent⟩

theorem Extended.of_identLike (htakes : Name.Takes x c) : Extended readIdentLike x c := by
  have hself := readIdentLike_of_ident (s := x)
    (by rcases htakes.left with h | h <;> rw [h] <;> decide)
  refine ⟨fun y => ?_, fun hreturn y hparen => ?_, ?_, ?_, ?_⟩
  · exact Nat.lt_of_lt_of_le (htakes.longer y) (length_extent_le_readIdentLike _)
  · exact readIdentLike_of_extent (htakes.length_eq hreturn y) hparen
  · rw [hself]
    rfl
  · rw [hself]
    rfl
  · rw [hself]
    exact htakes.left.imp_right .inl

def readUrlOpening (name : Name.Extent) (inside : CodeUnits) : Token :=
  if (ahead (inside.drop (whitespaceRun inside)) 0).isQuote then
    ⟨.function, name.length + 1, name.flags⟩
  else (readUrl (inside.drop (whitespaceRun inside))).grow (name.length + 1 + whitespaceRun inside)

theorem readUrlOpening_append (hc : c.isSeparator = true) (name : Name.Extent) :
    (∀ y, readUrlOpening name (x ++ c :: y) = readUrlOpening name x) ∨
      (readUrlOpening name x).isMalformed = true ∧ ∀ y, Break c y →
        name.length + 1 + x.length < (readUrlOpening name (x ++ c :: y)).length ∨
          c.isNewline = true ∧ (readUrlOpening name (x ++ c :: y)).kind = .badString := by
  have hrun := whitespaceRun_append (x := x) c
  have hle := CodeUnits.whitespaceRun_le x
  unfold readUrlOpening
  rcases Nat.lt_or_eq_of_le hle with hlt | hall
  · have hbehind : ∀ y, (x ++ c :: y).drop (whitespaceRun x) = x.drop (whitespaceRun x) ++ c :: y :=
      fun y => List.drop_append_of_le_length hle
    have hfirst : ∀ y, ahead (x.drop (whitespaceRun x) ++ c :: y) 0 =
        ahead (x.drop (whitespaceRun x)) 0 := by
      intro y
      apply CodeUnits.ahead_append_of_lt
      rw [List.length_drop]
      omega
    simp only [fun y => (hrun y).1 hlt, hbehind, hfirst]
    split
    · exact .inl fun y => rfl
    · rcases readUrl_append (x := x.drop (whitespaceRun x)) hc with hapart | hopen
      · left
        intro y
        rw [hapart]
      · right
        refine ⟨hopen.1, fun y _ => ?_⟩
        rw [length_grow]
        rcases hopen.2 y with hlonger | hbroken
        · rw [List.length_drop] at hlonger
          left
          omega
        · exact .inr hbroken
  · right
    refine ⟨?_, fun y hbreak => .inl ?_⟩
    · rw [List.drop_eq_nil_of_le (Nat.le_of_eq hall.symm), if_neg (by decide), readUrl]
      rfl
    · cases hspace : c.isWhitespace with
      | true =>
        have hlonger := (hrun y).2.2 hall hspace
        have hbehind : (x ++ c :: y).drop (x.length + 1 + whitespaceRun y) =
            y.drop (whitespaceRun y) := by
          rw [← List.drop_drop, ← List.drop_drop, List.drop_left, List.drop_succ_cons,
            List.drop_zero]
        rw [hlonger, hbehind, if_neg (by rw [hbreak.quote hspace]; exact Bool.false_ne_true),
          length_grow]
        omega
      | false =>
        have hquote : c.isQuote = false := by
          simpa using CodeUnit.of_isSeparator hc (p := fun u => !u.isQuote) (by decide)
        have hpos := length_readUrl_cons_pos hc y
        rw [(hrun y).2.1 hall hspace, List.drop_left, CodeUnits.ahead_cons_zero,
          if_neg (by rw [hquote]; exact Bool.false_ne_true), length_grow]
        omega

theorem readIdentLike_of_paren {s inside : CodeUnits} {name : Name.Extent}
    (hname : Name.extent s = name) (hrest : s.drop name.length = CodeUnit.leftParen :: inside) :
    readIdentLike s =
      if isUrlName (s.take name.length) name.escaped then readUrlOpening name inside
      else ⟨.function, name.length + 1, name.flags⟩ := by
  unfold readIdentLike readUrlOpening
  dsimp only
  rw [hname, hrest, CodeUnits.ahead_cons_zero, if_neg (by simp), List.drop_succ_cons,
    List.drop_zero]
  cases isUrlName (s.take name.length) name.escaped
  · rfl
  · cases (ahead (inside.drop (whitespaceRun inside)) 0).isQuote <;> rfl

theorem readIdentLike_append (hc : c.isSeparator = true) : StableOrContinued readIdentLike x c := by
  rcases Name.extent_append (x := x) hc with hsame | htakes
  · have hle := Name.length_extent_le x
    have hdrop : ∀ y, (x ++ c :: y).drop (Name.extent x).length =
        x.drop (Name.extent x).length ++ c :: y := fun y => List.drop_append_of_le_length hle
    have htake : ∀ y, (x ++ c :: y).take (Name.extent x).length = x.take (Name.extent x).length :=
      fun y => List.take_append_of_le_length hle
    cases hrest : x.drop (Name.extent x).length with
    | nil =>
      have hparen : c ≠ CodeUnit.leftParen := by
        simpa using CodeUnit.of_isSeparator hc (p := fun u => u != CodeUnit.leftParen) (by decide)
      left
      intro y _
      rw [readIdentLike_of_ident (by rw [hsame, hdrop, hrest]; exact hparen),
        readIdentLike_of_ident (by rw [hrest]; decide), hsame]
    | cons u inside =>
      by_cases hparen : u = CodeUnit.leftParen
      · subst hparen
        have hlength : x.length = (Name.extent x).length + 1 + inside.length := by
          have := congrArg List.length hrest
          rw [List.length_drop, List.length_cons] at this
          omega
        have hself := readIdentLike_of_paren rfl hrest
        have hlonger : ∀ y, readIdentLike (x ++ c :: y) =
            if isUrlName (x.take (Name.extent x).length) (Name.extent x).escaped then
              readUrlOpening (Name.extent x) (inside ++ c :: y)
            else ⟨.function, (Name.extent x).length + 1, (Name.extent x).flags⟩ := by
          intro y
          rw [← htake y]
          exact readIdentLike_of_paren (hsame y) (by rw [hdrop, hrest]; rfl)
        split at hself
        · next hurl =>
          simp only [if_pos hurl] at hlonger
          rcases readUrlOpening_append (x := inside) hc (Name.extent x) with hapart | hopen
          · left
            intro y _
            rw [hlonger, hself, hapart]
          · right
            right
            refine ⟨.inl (by rw [hself]; exact hopen.1), fun y hbreak => ?_⟩
            rw [hlonger, hlength]
            exact hopen.2 y hbreak
        · next hurl =>
          simp only [if_neg hurl] at hlonger
          left
          intro y _
          rw [hlonger, hself]
      · left
        intro y _
        rw [readIdentLike_of_ident (by rw [hsame, hdrop, hrest]; exact hparen),
          readIdentLike_of_ident (by rw [hrest]; exact hparen), hsame]
  · exact .inr (.inl (Extended.of_identLike htakes))

/-! ## All other tokens -/

theorem readOther_numberSign (s : CodeUnits) : readOther CodeUnit.numberSign s =
    if (ahead s 0).isName || startsEscape s then readMarked .hash s else plain .delim 1 := rfl

theorem readOther_atSign (s : CodeUnits) : readOther CodeUnit.atSign s =
    if startsIdentifier s then readMarked .atKeyword s else plain .delim 1 := rfl

theorem readOther_solidus (s : CodeUnits) : readOther CodeUnit.solidus s =
    if ahead s 0 == CodeUnit.asterisk then (readComment (s.drop 1)).grow 2
    else plain .delim 1 := rfl

def startsCdoTail (s : CodeUnits) : Bool :=
  ahead s 0 == CodeUnit.exclamationMark && ahead s 1 == CodeUnit.hyphen &&
    ahead s 2 == CodeUnit.hyphen

theorem readOther_lessThan (s : CodeUnits) : readOther CodeUnit.lessThan s =
    if startsCdoTail s then plain .cdo 4 else plain .delim 1 := rfl

theorem readOther_single {u : CodeUnit} (hspace : u.isWhitespace = false)
    (hquote : u.isQuote = false) (hnumber : u ≠ CodeUnit.numberSign) (hat : u ≠ CodeUnit.atSign)
    (hsolidus : u ≠ CodeUnit.solidus) (hless : u ≠ CodeUnit.lessThan) (s : CodeUnits) :
    readOther u s = plain (singleKind u) 1 := by
  rw [← beq_eq_false_iff_ne] at hnumber hat hsolidus hless
  unfold readOther
  rw [hspace, hquote, hnumber, hat, hsolidus, hless]
  rfl

theorem startsCdoTail_append (hc : c.isSeparator = true) {y : CodeUnits} (hbreak : Break c y) :
    startsCdoTail (x ++ c :: y) = startsCdoTail x := by
  have hhyphen : (c == CodeUnit.hyphen) = false := by
    simpa using CodeUnit.of_isSeparator hc (p := fun u => !(u == CodeUnit.hyphen)) (by decide)
  have hhyphen0 : ((0 : CodeUnit) == CodeUnit.hyphen) = false := by decide
  match x with
  | [] =>
    show (c == CodeUnit.exclamationMark && ahead y 0 == CodeUnit.hyphen && _) = false
    by_cases hbang : c = CodeUnit.exclamationMark
    · rw [beq_eq_false_iff_ne.mpr (hbreak.hyphen hbang), Bool.and_false, Bool.false_and]
    · rw [beq_eq_false_iff_ne.mpr hbang, Bool.false_and, Bool.false_and]
  | [u] =>
    show (_ && c == CodeUnit.hyphen && _) = (_ && (0 : CodeUnit) == CodeUnit.hyphen && _)
    rw [hhyphen, hhyphen0, Bool.and_false, Bool.false_and, Bool.and_false, Bool.false_and]
  | [u, v] =>
    show (_ && _ && c == CodeUnit.hyphen) = (_ && _ && (0 : CodeUnit) == CodeUnit.hyphen)
    rw [hhyphen, hhyphen0, Bool.and_false, Bool.and_false]
  | u :: v :: w :: rest => rfl

theorem readOther_append_of_isWhitespace {u : CodeUnit} (hspace : u.isWhitespace = true)
    (rest : CodeUnits) : StableOrContinued (fun s => readOther u (s.drop 1)) (u :: rest) c := by
  have hself : ∀ s, readOther u s = plain .whitespace (1 + whitespaceRun s) := fun s =>
    if_pos hspace
  have hrun := whitespaceRun_append (x := rest) c
  rcases Nat.lt_or_eq_of_le (CodeUnits.whitespaceRun_le rest) with hlt | hall
  · left
    intro y _
    show readOther u (rest ++ c :: y) = readOther u rest
    rw [hself, hself, (hrun y).1 hlt]
  · cases hblank : c.isWhitespace with
    | false =>
      left
      intro y _
      show readOther u (rest ++ c :: y) = readOther u rest
      rw [hself, hself, (hrun y).2.1 hall hblank, hall]
    | true =>
      right
      right
      refine ⟨.inr ⟨?_, ?_⟩, fun y _ => .inl ?_⟩
      · exact congrArg Token.kind (hself rest)
      · show (readOther u rest).length = _
        rw [hself, length_plain, hall, List.length_cons, Nat.add_comm]
      · show _ < (readOther u (rest ++ c :: y)).length
        rw [hself, length_plain, (hrun y).2.2 hall hblank, List.length_cons]
        omega

theorem readOther_append_of_isQuote {u : CodeUnit} (hspace : u.isWhitespace = false)
    (hquote : u.isQuote = true) (hc : c.isSeparator = true) (rest : CodeUnits) :
    StableOrOpen (fun s => readOther u (s.drop 1)) (u :: rest) c := by
  have hself : ∀ s, readOther u s = (readString u s).grow 1 := by
    intro s
    unfold readOther
    rw [hspace, if_neg Bool.false_ne_true, if_pos hquote]
  exact (readString_append hquote hc).grow (grows_grow 1) (Nat.add_comm _ 1) (hself rest)
    fun y => hself _

theorem startsHash_append (hc : c.isSeparator = true) :
    StableOrLoneBackslash (fun s => (ahead s 0).isName || startsEscape s) x c := by
  have hname : ∀ y, (ahead (x ++ c :: y) 0).isName = (ahead x 0).isName := by
    intro y
    apply CodeUnits.test_append y (p := CodeUnit.isName) (by decide) ?_ (Nat.zero_le _)
    simpa using CodeUnit.of_isSeparator hc (p := fun u => !u.isName) (by decide)
  by_cases hx : x = [CodeUnit.backslash]
  · subst hx
    exact .of_lone (.inl rfl) (by decide) fun y => CodeUnit.isValidEscape_separator hc
  · left
    intro y
    dsimp only
    rw [hname, startsEscape_append_of_ne hc hx]

theorem readOther_append_solidus (hc : c.isSeparator = true) (rest : CodeUnits) :
    StableOrOpen (fun s => readOther CodeUnit.solidus (s.drop 1)) (CodeUnit.solidus :: rest) c := by
  have hfirst : ∀ y, (ahead (rest ++ c :: y) 0 == CodeUnit.asterisk) =
      (ahead rest 0 == CodeUnit.asterisk) := by
    intro y
    apply CodeUnits.test_append y (p := fun u => u == CodeUnit.asterisk) (by decide) ?_
      (Nat.zero_le _)
    simpa using CodeUnit.of_isSeparator hc (p := fun u => !(u == CodeUnit.asterisk)) (by decide)
  cases hstar : ahead rest 0 == CodeUnit.asterisk with
  | false =>
    left
    intro y
    show readOther CodeUnit.solidus (rest ++ c :: y) = readOther CodeUnit.solidus rest
    rw [readOther_solidus, readOther_solidus, hfirst, hstar]
    rfl
  | true =>
    have hself : ∀ s, (ahead s 0 == CodeUnit.asterisk) = true →
        readOther CodeUnit.solidus s = (readComment (s.drop 1)).grow 2 := fun s hs => if_pos hs
    have hpos : 0 < rest.length := by
      apply CodeUnits.ahead_ne_zero
      rw [beq_iff_eq.mp hstar]
      decide
    apply (readComment_append (x := rest.drop 1) hc).grow (grows_grow 2)
    · rw [List.length_cons, List.length_drop]
      omega
    · exact hself _ hstar
    · intro y
      show readOther CodeUnit.solidus (rest ++ c :: y) = _
      rw [hself _ ((hfirst y).trans hstar), List.drop_append_of_le_length hpos]

theorem readOther_append (hc : c.isSeparator = true) (u : CodeUnit) (rest : CodeUnits) :
    StableOrContinued (fun s => readOther u (s.drop 1)) (u :: rest) c := by
  by_cases hspace : u.isWhitespace = true
  · exact readOther_append_of_isWhitespace hspace rest
  rw [Bool.not_eq_true] at hspace
  by_cases hquote : u.isQuote = true
  · exact (readOther_append_of_isQuote hspace hquote hc rest).continued
  rw [Bool.not_eq_true] at hquote
  by_cases hnumber : u = CodeUnit.numberSign
  · subst hnumber
    exact .of_extended (marked_append hc readOther_numberSign rfl (startsHash_append hc))
  by_cases hat : u = CodeUnit.atSign
  · subst hat
    exact .of_extended (marked_append hc readOther_atSign rfl (startsIdentifier_append hc))
  by_cases hsolidus : u = CodeUnit.solidus
  · subst hsolidus
    exact (readOther_append_solidus hc rest).continued
  left
  intro y hbreak
  show readOther u (rest ++ c :: y) = readOther u rest
  by_cases hless : u = CodeUnit.lessThan
  · subst hless
    rw [readOther_lessThan, readOther_lessThan, startsCdoTail_append hc hbreak]
  · rw [readOther_single hspace hquote hnumber hat hsolidus hless,
      readOther_single hspace hquote hnumber hat hsolidus hless]

theorem read_of_number {s : CodeUnits} (hs : s ≠ []) (hnumber : startsNumber s = true) :
    read s = readNumeric s := by
  cases s with
  | nil => exact absurd rfl hs
  | cons u rest => exact if_pos hnumber

theorem read_of_cdc {s : CodeUnits} (hs : s ≠ []) (hnumber : startsNumber s = false)
    (hcdc : startsCdc s = true) : read s = plain .cdc 3 := by
  cases s with
  | nil => exact absurd rfl hs
  | cons u rest =>
    rw [read, if_neg (by rw [hnumber]; exact Bool.false_ne_true), if_pos hcdc]

theorem read_of_identifier {s : CodeUnits} (hs : s ≠ []) (hnumber : startsNumber s = false)
    (hcdc : startsCdc s = false) (hident : startsIdentifier s = true) :
    read s = readIdentLike s := by
  cases s with
  | nil => exact absurd rfl hs
  | cons u rest =>
    rw [read, if_neg (by rw [hnumber]; exact Bool.false_ne_true),
      if_neg (by rw [hcdc]; exact Bool.false_ne_true), if_pos hident]

theorem read_of_other {u : CodeUnit} {rest : CodeUnits} (hnumber : startsNumber (u :: rest) = false)
    (hcdc : startsCdc (u :: rest) = false) (hident : startsIdentifier (u :: rest) = false) :
    read (u :: rest) = readOther u rest := by
  rw [read, if_neg (by rw [hnumber]; exact Bool.false_ne_true),
    if_neg (by rw [hcdc]; exact Bool.false_ne_true),
    if_neg (by rw [hident]; exact Bool.false_ne_true)]

theorem Extended.of_lone_identLike {read : CodeUnits → Token} (hc : c.isSeparator = true)
    (hline : c.isNewline = false)
    (hlone : x = [CodeUnit.backslash] ∨ x = [CodeUnit.hyphen, CodeUnit.backslash])
    (hself : read x = plain .delim 1)
    (hlonger : ∀ y, read (x ++ c :: y) = readIdentLike (x ++ c :: y)) : Extended read x c := by
  have hextent := fun y => congrArg Name.Extent.length (Name.extent_lone hc hline hlone y)
  refine ⟨fun y => ?_, fun _ y hparen => ?_, ?_, ?_, ?_⟩
  · have hle := length_extent_le_readIdentLike (x ++ c :: y)
    rw [hlonger]
    rw [hextent] at hle
    dsimp only at hle
    omega
  · rw [hlonger]
    exact readIdentLike_of_extent (hextent y) hparen
  · rw [hself]
    rfl
  · rw [hself]
    rfl
  · rw [hself]
    rcases hlone with rfl | rfl
    · exact .inl rfl
    · exact .inr (.inl rfl)

/-- How a token fares when a separator is written behind the text that it is read from. -/
theorem read_append (hx : x ≠ []) (hc : c.isSeparator = true) : StableOrContinued read x c := by
  have hne : ∀ y, x ++ c :: y ≠ [] := fun y => by simp
  have hnumber := startsNumber_append (x := x) hc
  have hcdc := startsCdc_append (x := x) hc
  cases hstart : startsNumber x with
  | true =>
    exact (StableOrContinued.of_extended (readNumeric_append hc)).of_eq (read_of_number hx hstart)
      fun y => read_of_number (hne y) ((hnumber y).trans hstart)
  | false =>
  cases harrow : startsCdc x with
  | true =>
    left
    intro y _
    rw [read_of_cdc hx hstart harrow,
      read_of_cdc (hne y) ((hnumber y).trans hstart) ((hcdc y).trans harrow)]
  | false =>
  have hidentLike : ∀ y, startsIdentifier (x ++ c :: y) = true →
      read (x ++ c :: y) = readIdentLike (x ++ c :: y) := fun y =>
    read_of_identifier (hne y) ((hnumber y).trans hstart) ((hcdc y).trans harrow)
  rcases startsIdentifier_append (x := x) hc with hsame | ⟨hlone, -, hlonger, hline⟩
  · cases hident : startsIdentifier x with
    | true =>
      exact (readIdentLike_append hc).of_eq (read_of_identifier hx hstart harrow hident)
        fun y => hidentLike y ((hsame y).trans hident)
    | false =>
      cases x with
      | nil => exact absurd rfl hx
      | cons u rest =>
        exact (readOther_append hc u rest).of_eq (read_of_other hstart harrow hident) fun y =>
          read_of_other ((hnumber y).trans hstart) ((hcdc y).trans harrow)
            ((hsame y).trans hident)
  · right
    left
    apply Extended.of_lone_identLike hc hline hlone
    · rcases hlone with rfl | rfl <;> rfl
    · exact fun y => hidentLike y (hlonger y)

end StyleRules.Token
