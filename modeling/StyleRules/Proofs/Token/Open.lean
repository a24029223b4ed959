import StyleRules.Proofs.Token.Separator

/-!
# Strings, comments and urls before a separator

A literal that is complete at the end of a text stays what it is when a separator is written behind
the text. One that is not is open: it takes the separator along.
-/

namespace StyleRules.Token

open CodeUnits (ahead newlineLength whitespaceRun startsEscape startsIdentifier startsNumber)

variable {x : CodeUnits} {c : CodeUnit}

def isMalformed (token : Token) : Bool := token.kind.isError || token.flags.unterminated

/-- What is read from `x` was not complete: a separator behind it is read along with it, or is the
newline that breaks a string off. -/
def Open (read : CodeUnits → Token) (x : CodeUnits) (c : CodeUnit) : Prop :=
  (read x).isMalformed = true ∧ ∀ y, x.length < (read (x ++ c :: y)).length ∨
    c.isNewline = true ∧ (read (x ++ c :: y)).kind = .badString

theorem Open.of_length {read : CodeUnits → Token} (hopen : (read x).isMalformed = true)
    (hlength : ∀ y, x.length < (read (x ++ c :: y)).length) : Open read x c :=
  ⟨hopen, fun y => .inl (hlength y)⟩

/-- How what is read from `x` fares before a separator: it stays what it is, or it is open. -/
def StableOrOpen (read : CodeUnits → Token) (x : CodeUnits) (c : CodeUnit) : Prop :=
  (∀ y, read (x ++ c :: y) = read x) ∨ Open read x c

/-- What a reader makes of a token behind the `n` units that it has taken. -/
structure Grows (make : Token → Token) (n : Nat) : Prop where
  kind : ∀ token, (make token).kind = token.kind
  isMalformed : ∀ token, (make token).isMalformed = token.isMalformed
  length : ∀ token, (make token).length = n + token.length

theorem grows_grow (n : Nat) : Grows (grow n) n := ⟨fun _ => rfl, fun _ => rfl, fun _ => rfl⟩

theorem grows_markEscaped (n : Nat) : Grows (fun token => (token.grow n).markEscaped) n :=
  ⟨fun _ => rfl, fun _ => rfl, fun _ => rfl⟩

theorem StableOrOpen.grow {inner outer : CodeUnits → Token} {make : Token → Token}
    {rest : CodeUnits} {n : Nat} (h : StableOrOpen inner rest c) (hmake : Grows make n)
    (hlength : x.length = n + rest.length) (hself : outer x = make (inner rest))
    (hlonger : ∀ y, outer (x ++ c :: y) = make (inner (rest ++ c :: y))) :
    StableOrOpen outer x c := by
  rcases h with hapart | hopen
  · left
    intro y
    rw [hlonger, hself, hapart]
  · right
    refine ⟨by rw [hself, hmake.isMalformed]; exact hopen.1, fun y => ?_⟩
    rw [hlonger, hmake.kind, hmake.length, hlength]
    rcases hopen.2 y with hlt | hbroken
    · left
      omega
    · exact .inr hbroken

theorem StableOrOpen.of_eq {inner outer : CodeUnits → Token} (h : StableOrOpen inner x c)
    (hself : outer x = inner x) (hlonger : ∀ y, outer (x ++ c :: y) = inner (x ++ c :: y)) :
    StableOrOpen outer x c := by
  have hid : Grows id 0 := ⟨fun _ => rfl, fun _ => rfl, fun _ => (Nat.zero_add _).symm⟩
  exact h.grow hid (Nat.zero_add _).symm hself hlonger

/-- A reader that steps over a unit and what it escapes fares as it does behind the two, unless the
escape takes the separator. -/
theorem StableOrOpen.escape {read : CodeUnits → Token} {make : Nat → Token → Token}
    {body : CodeUnits → Nat} {u : CodeUnit} {rest : CodeUnits}
    (h : StableOrOpen read (rest.drop (body rest)) c) (hmake : ∀ n, Grows (make n) n)
    (hend : (read []).isMalformed = true) (hle : body rest ≤ rest.length)
    (hbody : (∀ y, body (rest ++ c :: y) = body rest) ∨
      body rest = rest.length ∧ ∀ y, rest.length < body (rest ++ c :: y))
    (hself : read (u :: rest) = make (1 + body rest) (read (rest.drop (body rest))))
    (hlonger : ∀ y, read (u :: rest ++ c :: y) =
      make (1 + body (rest ++ c :: y)) (read ((rest ++ c :: y).drop (body (rest ++ c :: y))))) :
    StableOrOpen read (u :: rest) c := by
  rcases hbody with hsame | ⟨hfull, hover⟩
  · refine h.grow (hmake (1 + body rest)) ?_ hself fun y => ?_
    · rw [List.length_cons, List.length_drop]
      omega
    · rw [hlonger, hsame, List.drop_append_of_le_length hle]
  · right
    apply Open.of_length
    · rw [hself, (hmake _).isMalformed, List.drop_eq_nil_of_le (Nat.le_of_eq hfull.symm)]
      exact hend
    · intro y
      have := hover y
      rw [hlonger, (hmake _).length, List.length_cons]
      omega

/-! ## Strings and comments -/

theorem lengthInString_append (hx : x ≠ []) (hc : c.isSeparator = true) :
    (∀ y, Escape.lengthInString (x ++ c :: y) = Escape.lengthInString x) ∨
      Escape.lengthInString x = x.length ∧
        ∀ y, x.length < Escape.lengthInString (x ++ c :: y) := by
  have hfirst : ∀ y, ahead (x ++ c :: y) 0 = ahead x 0 := fun y =>
    CodeUnits.ahead_append_of_lt _ (List.length_pos_iff.mpr hx)
  unfold Escape.lengthInString
  by_cases hline : (ahead x 0).isNewline = true
  · have hone : newlineLength x = 1 ∨ newlineLength x = 2 := by
      unfold newlineLength
      rw [if_pos hline]
      split
      · exact .inr rfl
      · exact .inl rfl
    match x with
    | [] => exact absurd rfl hx
    | [u] =>
      have hu : u.isNewline = true := hline
      have hone : newlineLength [u] = 1 := by
        have hzero : ((0 : CodeUnit) == CodeUnit.lineFeed) = false := by decide
        show (if u == CodeUnit.carriageReturn && (0 : CodeUnit) == CodeUnit.lineFeed then 2
          else if u.isNewline then 1 else 0) = 1
        rw [hzero, Bool.and_false, if_neg Bool.false_ne_true, if_pos hu]
      have hlonger : ∀ y, newlineLength ([u] ++ c :: y) =
          if u == CodeUnit.carriageReturn && c == CodeUnit.lineFeed then 2 else 1 := by
        intro y
        show (if _ then 2 else if u.isNewline then 1 else 0) = _
        rw [if_pos hu]
        rfl
      cases hpair : u == CodeUnit.carriageReturn && c == CodeUnit.lineFeed with
      | false =>
        left
        intro y
        rw [hfirst, if_pos hline, if_pos hline, hlonger, hpair, hone]
        rfl
      | true =>
        right
        refine ⟨by rw [if_pos hline, hone]; rfl, fun y => ?_⟩
        rw [hfirst, if_pos hline, hlonger, hpair]
        exact Nat.lt_succ_self 1
    | u :: v :: rest =>
      left
      intro y
      rw [hfirst, if_pos hline, if_pos hline]
      rfl
  · simp only [hfirst, if_neg hline]
    rcases Escape.length_append hx hc with hsame | ⟨hfull, hover, -⟩
    · exact .inl hsame
    · exact .inr ⟨hfull, hover⟩

theorem lengthInString_cons_pos (c : CodeUnit) (y : CodeUnits) :
    0 < Escape.lengthInString (c :: y) := by
  unfold Escape.lengthInString
  split
  · next hline =>
    unfold newlineLength
    rw [if_pos hline]
    split <;> omega
  · exact Escape.length_pos (List.cons_ne_nil c y)

theorem readString_append {quote : CodeUnit} (hquote : quote.isQuote = true)
    (hc : c.isSeparator = true) : StableOrOpen (readString quote) x c := by
  have hunit : (!c.isQuote && !(c == CodeUnit.backslash)) = true :=
    CodeUnit.of_isSeparator hc (p := fun u => !u.isQuote && !(u == CodeUnit.backslash)) (by decide)
  simp only [Bool.and_eq_true, Bool.not_eq_true'] at hunit
  have hnot : (c == quote) = false := by
    rw [beq_eq_false_iff_ne]
    rintro rfl
    exact Bool.false_ne_true (hunit.1.symm.trans hquote)
  have hend : (readString quote []).isMalformed = true := by
    rw [readString]
    rfl
  fun_induction readString quote x with
  | case1 =>
    right
    refine ⟨hend, fun y => ?_⟩
    rw [List.nil_append, readString, hnot, if_neg Bool.false_ne_true]
    cases hline : c.isNewline with
    | true => exact .inr ⟨rfl, rfl⟩
    | false =>
      left
      rw [if_neg Bool.false_ne_true, hunit.2, Bool.false_and, if_neg Bool.false_ne_true,
        length_grow]
      show 0 < 1 + _
      omega
  | case2 u rest hclose =>
    left
    intro y
    rw [List.cons_append, readString, readString, if_pos hclose, if_pos hclose]
  | case3 u rest hclose hline =>
    left
    intro y
    rw [List.cons_append, readString, readString, if_neg hclose, if_neg hclose, if_pos hline,
      if_pos hline]
  | case4 u rest hclose hline hescape body ih =>
    have hrest : rest ≠ [] := by simp_all
    have hstep : ∀ s, s ≠ [] → readString quote (u :: s) =
        ((readString quote (s.drop (Escape.lengthInString s))).grow
          (1 + Escape.lengthInString s)).markEscaped := by
      intro s hs
      have hslash : (u == CodeUnit.backslash && !s.isEmpty) = true := by simp_all
      rw [readString, if_neg hclose, if_neg hline, if_pos hslash]
    exact ih.escape grows_markEscaped hend (Escape.lengthInString_le rest)
      (lengthInString_append hrest hc) (hstep rest hrest) fun y => hstep _ (by simp)
  | case5 u rest hclose hline hescape ih =>
    by_cases hlone : u = CodeUnit.backslash ∧ rest = []
    · -- the separator is what the backslash escapes
      obtain ⟨rfl, rfl⟩ := hlone
      right
      apply Open.of_length
      · rw [readString, if_neg hclose, if_neg hline, if_neg hescape]
        exact hend
      · intro y
        have := lengthInString_cons_pos c y
        rw [List.singleton_append, readString, if_neg hclose, if_neg hline, if_pos (by rfl),
          length_markEscaped, length_grow]
        show 1 < _
        omega
    · refine ih.grow (grows_grow 1) (Nat.add_comm _ 1) ?_ fun y => ?_
      · rw [readString, if_neg hclose, if_neg hline, if_neg hescape]
      · have hplain : (u == CodeUnit.backslash && !(rest ++ c :: y).isEmpty) = false := by
          rw [Bool.and_eq_false_iff, beq_eq_false_iff_ne]
          left
          intro hslash
          exact hlone ⟨hslash, by simpa [hslash] using hescape⟩
        rw [List.cons_append, readString, if_neg hclose, if_neg hline, hplain,
          if_neg Bool.false_ne_true]

theorem readComment_append (hc : c.isSeparator = true) : StableOrOpen readComment x c := by
  have hstar : (c == CodeUnit.asterisk) = false := by
    simpa using CodeUnit.of_isSeparator hc (p := fun u => !(u == CodeUnit.asterisk)) (by decide)
  fun_induction readComment x with
  | case1 =>
    right
    apply Open.of_length
    · rw [readComment]
      rfl
    · intro y
      rw [List.nil_append, readComment, hstar, Bool.false_and, if_neg Bool.false_ne_true,
        length_grow]
      show 0 < 1 + _
      omega
  | case2 u rest hclose =>
    left
    intro y
    cases rest with
    | nil =>
      rw [Bool.and_eq_true, beq_iff_eq, beq_iff_eq] at hclose
      exact absurd hclose.2 (by decide)
    | cons v rest => exact (if_pos hclose).trans (if_pos hclose).symm
  | case3 u rest hclose ih =>
    cases rest with
    | nil =>
      -- the separator might close the comment behind a lone asterisk
      right
      apply Open.of_length
      · rw [readComment, if_neg hclose, readComment]
        rfl
      · intro y
        rw [List.singleton_append, readComment]
        split
        · exact Nat.lt_succ_self 1
        · rw [readComment, hstar, Bool.false_and, if_neg Bool.false_ne_true, length_grow,
            length_grow]
          show 1 < 1 + (1 + _)
          omega
    | cons v rest =>
      exact ih.grow (grows_grow 1) (Nat.add_comm _ 1) (if_neg hclose) fun y => if_neg hclose

/-! ## Urls -/

theorem badUrlLength_cons_pos (hc : c.isSeparator = true) (y : CodeUnits) :
    0 < badUrlLength (c :: y) := by
  have hparen : (c == CodeUnit.rightParen) = false := by
    simpa using CodeUnit.of_isSeparator hc (p := fun u => !(u == CodeUnit.rightParen)) (by decide)
  rw [badUrlLength, hparen, if_neg Bool.false_ne_true]
  split
  · show 0 < 1 + _ + _
    omega
  · omega

theorem badUrl_append (hc : c.isSeparator = true) : StableOrOpen badUrl x c := by
  fun_induction badUrlLength x with
  | case1 => exact .inr (Open.of_length rfl (badUrlLength_cons_pos hc))
  | case2 u rest hclose =>
    left
    intro y
    rw [List.cons_append, badUrl, badUrl, badUrlLength, badUrlLength, if_pos hclose, if_pos hclose]
  | case3 u rest hclose hescape body ih =>
    have hrest := CodeUnits.ne_nil_of_isValidEscape hescape
    have hstep : ∀ s, ahead s 0 = ahead rest 0 →
        badUrl (u :: s) = (badUrl (s.drop (Escape.length s))).grow (1 + Escape.length s) := by
      intro s hs
      rw [badUrl, badUrlLength, if_neg hclose, hs, if_pos hescape]
      rfl
    exact ih.escape grows_grow rfl (Escape.length_le rest)
      ((Escape.length_append hrest hc).imp_right fun h => ⟨h.1, h.2.1⟩) (hstep rest rfl)
      fun y => hstep _ (CodeUnits.ahead_append_of_lt _ (List.length_pos_iff.mpr hrest))
  | case4 u rest hclose hescape ih =>
    by_cases hrest : rest = []
    · subst hrest
      right
      apply Open.of_length rfl
      intro y
      rw [List.singleton_append, badUrl, length_plain, badUrlLength, if_neg hclose]
      split
      · next hvalid =>
        have := Escape.length_pos (List.cons_ne_nil c y)
        show 1 < 1 + _ + _
        omega
      · have := badUrlLength_cons_pos hc y
        show 1 < 1 + _
        omega
    · have hstep : ∀ s, ahead s 0 = ahead rest 0 → badUrl (u :: s) = (badUrl s).grow 1 := by
        intro s hs
        rw [badUrl, badUrlLength, if_neg hclose, hs, if_neg hescape]
        rfl
      exact ih.grow (grows_grow 1) (Nat.add_comm _ 1) (hstep rest rfl) fun y =>
        hstep _ (CodeUnits.ahead_append_of_lt _ (List.length_pos_iff.mpr hrest))

theorem length_readUrlEnd_cons_pos (hc : c.isSeparator = true) (y : CodeUnits) :
    0 < (readUrlEnd (c :: y)).length := by
  show 0 < (if c == CodeUnit.rightParen then plain .url 1 else badUrl (c :: y)).length
  split
  · exact Nat.one_pos
  · exact badUrlLength_cons_pos hc y

theorem readUrlEnd_append (hc : c.isSeparator = true) : StableOrOpen readUrlEnd x c := by
  cases x with
  | nil => exact .inr (Open.of_length rfl (length_readUrlEnd_cons_pos hc))
  | cons u rest =>
    by_cases hclose : (u == CodeUnit.rightParen) = true
    · left
      intro y
      rw [List.cons_append, readUrlEnd, readUrlEnd, if_pos hclose, if_pos hclose]
    · exact (badUrl_append hc).of_eq (if_neg hclose) fun y => if_neg hclose

theorem whitespaceRun_append (c : CodeUnit) (y : CodeUnits) :
    (whitespaceRun x < x.length → whitespaceRun (x ++ c :: y) = whitespaceRun x) ∧
      (whitespaceRun x = x.length → c.isWhitespace = false →
        whitespaceRun (x ++ c :: y) = x.length) ∧
      (whitespaceRun x = x.length → c.isWhitespace = true →
        whitespaceRun (x ++ c :: y) = x.length + 1 + whitespaceRun y) := by
  unfold whitespaceRun
  refine ⟨fun hlt => ?_, fun hall hspace => ?_, fun hall hspace => ?_⟩
  · rw [List.takeWhile_append, if_neg (Nat.ne_of_lt hlt)]
  · rw [CodeUnits.takeWhile_append_of_not y hspace, hall]
  · rw [List.takeWhile_append, if_pos hall, List.takeWhile_cons, hspace, if_pos rfl,
      List.length_append, List.length_cons]
    omega

theorem length_readUrl_cons_pos (hc : c.isSeparator = true) (y : CodeUnits) :
    0 < (readUrl (c :: y)).length := by
  have hunit : (!(c == CodeUnit.rightParen) && !endsUrlBadly c && !(c == CodeUnit.backslash)) =
      true := CodeUnit.of_isSeparator hc
    (p := fun u => !(u == CodeUnit.rightParen) && !endsUrlBadly u && !(u == CodeUnit.backslash))
    (by decide)
  simp only [Bool.and_eq_true, Bool.not_eq_true'] at hunit
  obtain ⟨⟨hparen, hbad⟩, hslash⟩ := hunit
  rw [readUrl, hparen, if_neg Bool.false_ne_true]
  cases hspace : c.isWhitespace with
  | true =>
    have hrun := (whitespaceRun_append (x := []) c y).2.2 rfl hspace
    rw [List.nil_append] at hrun
    rw [if_pos rfl, length_grow, hrun]
    show 0 < 0 + 1 + _ + _
    omega
  | false =>
    rw [if_neg Bool.false_ne_true, hbad, if_neg Bool.false_ne_true, hslash,
      if_neg Bool.false_ne_true, length_grow]
    omega

theorem readBlankUrlEnd_append (hc : c.isSeparator = true) :
    StableOrOpen (fun s => (readUrlEnd (s.drop (whitespaceRun s))).grow (whitespaceRun s)) x c := by
  have hrun := whitespaceRun_append (x := x) c
  have hle := CodeUnits.whitespaceRun_le x
  rcases Nat.lt_or_eq_of_le hle with hlt | hall
  · apply (readUrlEnd_append (x := x.drop (whitespaceRun x)) hc).grow
      (grows_grow (whitespaceRun x))
    · rw [List.length_drop]
      omega
    · rfl
    · intro y
      rw [(hrun y).1 hlt, List.drop_append_of_le_length hle]
  · right
    apply Open.of_length
    · rw [List.drop_eq_nil_of_le (Nat.le_of_eq hall.symm)]
      rfl
    · intro y
      rw [length_grow]
      cases hblank : c.isWhitespace with
      | true =>
        rw [(hrun y).2.2 hall hblank]
        omega
      | false =>
        have := length_readUrlEnd_cons_pos hc y
        rw [(hrun y).2.1 hall hblank, List.drop_left]
        omega

/-- A backslash that escapes nothing makes a url bad, unless it escapes the separator. -/
theorem readUrl_append_of_backslash {u : CodeUnit} {rest : CodeUnits} (hc : c.isSeparator = true)
    (hback : (u == CodeUnit.backslash) = true)
    (hescape : ¬CodeUnit.isValidEscape u (ahead rest 0) = true) :
    StableOrOpen readUrl (u :: rest) c := by
  obtain rfl := beq_iff_eq.mp hback
  have hread : ∀ s, readUrl (CodeUnit.backslash :: s) =
      if CodeUnit.isValidEscape CodeUnit.backslash (ahead s 0) then
        ((readUrl (s.drop (Escape.length s))).grow (1 + Escape.length s)).markEscaped
      else badUrl (CodeUnit.backslash :: s) := by
    intro s
    rw [readUrl]
    rfl
  by_cases hrest : rest = []
  · subst hrest
    right
    apply Open.of_length
    · rw [hread, if_neg hescape]
      rfl
    · intro y
      rw [List.singleton_append, hread]
      split
      · have := Escape.length_pos (List.cons_ne_nil c y)
        rw [length_markEscaped, length_grow]
        show 1 < 1 + _ + _
        omega
      · next hinvalid =>
        have := badUrlLength_cons_pos hc y
        rw [badUrl, length_plain, badUrlLength, if_neg (by decide), if_neg hinvalid]
        show 1 < 1 + _
        omega
  · have hself : ∀ s, ahead s 0 = ahead rest 0 →
        readUrl (CodeUnit.backslash :: s) = badUrl (CodeUnit.backslash :: s) := by
      intro s hs
      rw [hread, hs, if_neg hescape]
    exact (badUrl_append hc).of_eq (hself rest rfl) fun y =>
      hself _ (CodeUnits.ahead_append_of_lt _ (List.length_pos_iff.mpr hrest))

theorem readUrl_append (hc : c.isSeparator = true) : StableOrOpen readUrl x c := by
  have hend : (readUrl []).isMalformed = true := by
    rw [readUrl]
    rfl
  fun_induction readUrl x with
  | case1 => exact .inr (Open.of_length hend (length_readUrl_cons_pos hc))
  | case2 u rest hclose =>
    left
    intro y
    rw [List.cons_append, readUrl, readUrl, if_pos hclose, if_pos hclose]
  | case3 u rest hclose hspace =>
    have hblank : ∀ s, readUrl (u :: s) =
        (readUrlEnd ((u :: s).drop (whitespaceRun (u :: s)))).grow (whitespaceRun (u :: s)) := by
      intro s
      rw [readUrl, if_neg hclose, if_pos hspace]
    exact (readBlankUrlEnd_append hc).of_eq (hblank rest) fun y => hblank _
  | case4 u rest hclose hspace hbadly =>
    have hself : ∀ s, readUrl (u :: s) = badUrl (u :: s) := by
      intro s
      rw [readUrl, if_neg hclose, if_neg hspace, if_pos hbadly]
    exact (badUrl_append hc).of_eq (hself rest) fun y => hself _
  | case5 u rest hclose hspace hbadly hback hescape body ih =>
    have hrest := CodeUnits.ne_nil_of_isValidEscape hescape
    have hstep : ∀ s, ahead s 0 = ahead rest 0 → readUrl (u :: s) =
        ((readUrl (s.drop (Escape.length s))).grow (1 + Escape.length s)).markEscaped := by
      intro s hs
      rw [readUrl, if_neg hclose, if_neg hspace, if_neg hbadly, if_pos hback, hs, if_pos hescape]
    exact ih.escape grows_markEscaped hend (Escape.length_le rest)
      ((Escape.length_append hrest hc).imp_right fun h => ⟨h.1, h.2.1⟩) (hstep rest rfl)
      fun y => hstep _ (CodeUnits.ahead_append_of_lt _ (List.length_pos_iff.mpr hrest))
  | case6 u rest hclose hspace hbadly hback hescape =>
    exact readUrl_append_of_backslash hc hback hescape
  | case7 u rest hclose hspace hbadly hback ih =>
    have hstep : ∀ s, readUrl (u :: s) = (readUrl s).grow 1 := by
      intro s
      rw [readUrl, if_neg hclose, if_neg hspace, if_neg hbadly, if_neg hback]
    exact ih.grow (grows_grow 1) (Nat.add_comm _ 1) (hstep rest) fun y => hstep _

end StyleRules.Token
