import StyleRules.Token.Stream

/-!
# Tokens lie within the text

No reader takes more units than there are, so the tokens of a text are laid end to end from its
start to its end.
-/

namespace StyleRules

open CodeUnits (ahead newlineLength whitespaceLength whitespaceRun)

/-! ## Escapes, names and numbers -/

theorem CodeUnits.ahead_ne_zero {s : CodeUnits} {i : Nat} (h : ahead s i ≠ 0) : i < s.length := by
  apply Nat.lt_of_not_le
  intro hle
  exact h (by simp [ahead, List.getD_eq_getElem?_getD, List.getElem?_eq_none hle])

theorem CodeUnits.ahead_mem {s : CodeUnits} {i : Nat} (hi : i < s.length) : ahead s i ∈ s := by
  simp [ahead, hi]

theorem CodeUnits.newlineLength_le (s : CodeUnits) : newlineLength s ≤ s.length := by
  unfold newlineLength
  split
  · next h =>
    have hsecond : ahead s 1 = CodeUnit.lineFeed := by simp_all
    have := CodeUnits.ahead_ne_zero (s := s) (i := 1) (by rw [hsecond]; decide)
    omega
  · split
    · next h =>
      have := CodeUnits.ahead_ne_zero (s := s) (i := 0) fun hzero => by
        rw [hzero] at h
        exact absurd h (by decide)
      omega
    · exact Nat.zero_le _

theorem CodeUnits.whitespaceLength_le (s : CodeUnits) : whitespaceLength s ≤ s.length := by
  unfold whitespaceLength
  split
  · next h =>
    have hsecond : ahead s 1 = CodeUnit.lineFeed := by simp_all
    have := CodeUnits.ahead_ne_zero (s := s) (i := 1) (by rw [hsecond]; decide)
    omega
  · split
    · next h =>
      have := CodeUnits.ahead_ne_zero (s := s) (i := 0) fun hzero => by
        rw [hzero] at h
        exact absurd h (by decide)
      omega
    · exact Nat.zero_le _

theorem CodeUnits.whitespaceRun_le (s : CodeUnits) : whitespaceRun s ≤ s.length :=
  (List.takeWhile_sublist _).length_le

theorem Escape.length_hexDigits_le (s : CodeUnits) : (Escape.hexDigits s).length ≤ s.length :=
  ((List.takeWhile_sublist _).trans (List.take_sublist 6 s)).length_le

theorem Escape.length_le (s : CodeUnits) : Escape.length s ≤ s.length := by
  cases s with
  | nil => exact Nat.le_refl _
  | cons u rest =>
    rw [Escape.length]
    split
    · have hdigits := Escape.length_hexDigits_le (u :: rest)
      have hblank := CodeUnits.whitespaceLength_le
        ((u :: rest).drop (Escape.hexDigits (u :: rest)).length)
      rw [List.length_drop] at hblank
      dsimp only
      omega
    · split
      · next hpair =>
        have hlow : ahead (u :: rest) 1 ≠ 0 := by
          intro hzero
          rw [hzero] at hpair
          simp [CodeUnit.isPair, CodeUnit.isLowSurrogate] at hpair
        exact CodeUnits.ahead_ne_zero hlow
      · rw [List.length_cons]
        omega

theorem Escape.length_pos {s : CodeUnits} (hs : s ≠ []) : 0 < Escape.length s := by
  cases s with
  | nil => exact absurd rfl hs
  | cons u rest =>
    rw [Escape.length]
    split
    · next hhex =>
      have hdigits : 0 < (Escape.hexDigits (u :: rest)).length := by
        simp [Escape.hexDigits, hhex]
      exact Nat.add_pos_left hdigits _
    · split <;> omega

theorem Escape.lengthInString_le (s : CodeUnits) : Escape.lengthInString s ≤ s.length := by
  unfold Escape.lengthInString
  split
  · exact CodeUnits.newlineLength_le s
  · exact Escape.length_le s

theorem Name.length_extent_le (s : CodeUnits) : (Name.extent s).length ≤ s.length := by
  fun_induction Name.extent s with
  | case1 => exact Nat.le_refl _
  | case2 u rest hname tail ih =>
    show 1 + (Name.extent rest).length ≤ rest.length + 1
    omega
  | case3 u rest hname hescape body tail ih =>
    have hbody : body ≤ rest.length := Escape.length_le rest
    rw [List.length_drop] at ih
    show 1 + body + (Name.extent (rest.drop body)).length ≤ rest.length + 1
    omega
  | case4 u rest hname hescape => exact Nat.zero_le _

theorem Number.signLength_le (s : CodeUnits) : Number.signLength s ≤ s.length := by
  unfold Number.signLength
  split
  · next h =>
    have := CodeUnits.ahead_ne_zero (s := s) (i := 0) fun hzero => by
      rw [hzero] at h
      exact absurd h (by decide)
    omega
  · exact Nat.zero_le _

theorem Number.digitsLength_le (s : CodeUnits) : Number.digitsLength s ≤ s.length :=
  (List.takeWhile_sublist _).length_le

theorem Number.fractionLength_le (s : CodeUnits) : Number.fractionLength s ≤ s.length := by
  unfold Number.fractionLength
  split
  · next h =>
    have hstop : ahead s 0 = CodeUnit.fullStop := by simp_all
    have hpos := CodeUnits.ahead_ne_zero (s := s) (i := 0) (by rw [hstop]; decide)
    have hdigits := Number.digitsLength_le (s.drop 1)
    rw [List.length_drop] at hdigits
    omega
  · exact Nat.zero_le _

theorem Number.exponentLength_le (s : CodeUnits) : Number.exponentLength s ≤ s.length := by
  unfold Number.exponentLength
  split
  · dsimp only
    split
    · next hdigit =>
      have hpos := CodeUnits.ahead_ne_zero (s := s)
        (i := 1 + Number.signLength (s.drop 1)) fun hzero => by
          rw [hzero] at hdigit
          exact absurd hdigit (by decide)
      have hdigits := Number.digitsLength_le (s.drop (1 + Number.signLength (s.drop 1)))
      rw [List.length_drop] at hdigits
      omega
    · exact Nat.zero_le _
  · exact Nat.zero_le _

theorem Number.length_le (s : CodeUnits) : Number.length s ≤ s.length := by
  have hsign := Number.signLength_le s
  have hwhole := Number.digitsLength_le (s.drop (Number.signLength s))
  unfold Number.length
  dsimp only
  generalize Number.signLength s = sign at hsign hwhole ⊢
  generalize hw : sign + Number.digitsLength (s.drop sign) = whole
  rw [List.length_drop] at hwhole
  have hfraction := Number.fractionLength_le (s.drop whole)
  generalize hm : whole + Number.fractionLength (s.drop whole) = mantissa
  rw [List.length_drop] at hfraction
  have hexponent := Number.exponentLength_le (s.drop mantissa)
  rw [List.length_drop] at hexponent
  omega

/-! ## Tokens -/

namespace Token

theorem length_readString_le (quote : CodeUnit) (s : CodeUnits) :
    (readString quote s).length ≤ s.length := by
  fun_induction readString quote s with
  | case1 => exact Nat.le_refl _
  | case2 u rest hquote =>
    rw [length_plain, List.length_cons]
    omega
  | case3 u rest hquote hnewline => exact Nat.zero_le _
  | case4 u rest hquote hnewline hescape body ih =>
    have hbody := Escape.lengthInString_le rest
    rw [List.length_drop] at ih
    rw [length_markEscaped, length_grow, List.length_cons]
    omega
  | case5 u rest hquote hnewline hescape ih =>
    rw [length_grow, List.length_cons]
    omega

theorem length_readComment_le (s : CodeUnits) : (readComment s).length ≤ s.length := by
  fun_induction readComment s with
  | case1 => exact Nat.le_refl _
  | case2 u rest hstop =>
    have hsolidus : ahead rest 0 = CodeUnit.solidus := by simp_all
    have hpos := CodeUnits.ahead_ne_zero (s := rest) (i := 0) (by rw [hsolidus]; decide)
    rw [length_plain, List.length_cons]
    omega
  | case3 u rest hstop ih =>
    rw [length_grow, List.length_cons]
    omega

theorem badUrlLength_le (s : CodeUnits) : badUrlLength s ≤ s.length := by
  fun_induction badUrlLength s with
  | case1 => exact Nat.le_refl _
  | case2 u rest hparen => exact Nat.zero_le _
  | case3 u rest hparen hescape body ih =>
    have hbody := Escape.length_le rest
    rw [List.length_drop] at ih
    rw [List.length_cons]
    omega
  | case4 u rest hparen hescape ih =>
    rw [List.length_cons]
    omega

theorem length_readUrlEnd_le (s : CodeUnits) : (readUrlEnd s).length ≤ s.length := by
  unfold readUrlEnd
  split
  · exact Nat.le_refl _
  · split
    · rw [length_plain, List.length_cons]
      omega
    · exact badUrlLength_le _

theorem length_readUrl_le (s : CodeUnits) : (readUrl s).length ≤ s.length := by
  fun_induction readUrl s with
  | case1 => exact Nat.le_refl _
  | case2 u rest hparen =>
    rw [length_plain, List.length_cons]
    omega
  | case3 u rest hparen hspace =>
    have hblank := CodeUnits.whitespaceRun_le (u :: rest)
    have hend := length_readUrlEnd_le ((u :: rest).drop (whitespaceRun (u :: rest)))
    rw [List.length_drop] at hend
    dsimp only
    rw [length_grow]
    omega
  | case4 u rest hparen hspace hbad => exact badUrlLength_le _
  | case5 u rest hparen hspace hbad hslash hescape body ih =>
    have hbody := Escape.length_le rest
    rw [List.length_drop] at ih
    rw [length_markEscaped, length_grow, List.length_cons]
    omega
  | case6 u rest hparen hspace hbad hslash hescape => exact badUrlLength_le _
  | case7 u rest hparen hspace hbad hslash ih =>
    rw [length_grow, List.length_cons]
    omega

theorem length_readNumeric_le (s : CodeUnits) : (readNumeric s).length ≤ s.length := by
  have hnumber := Number.length_le s
  unfold readNumeric
  dsimp only
  split
  · have hunit := Name.length_extent_le (s.drop (Number.length s))
    rw [List.length_drop] at hunit
    dsimp only
    omega
  · split
    · next hpercent =>
      have hsign : ahead (s.drop (Number.length s)) 0 = CodeUnit.percentSign := by simp_all
      have hpos := CodeUnits.ahead_ne_zero (s := s.drop (Number.length s)) (i := 0)
        (by rw [hsign]; decide)
      rw [List.length_drop] at hpos
      rw [length_plain]
      omega
    · exact hnumber

theorem length_readIdentLike_le (s : CodeUnits) : (readIdentLike s).length ≤ s.length := by
  have hname := Name.length_extent_le s
  unfold readIdentLike
  dsimp only
  split
  · exact hname
  · next hparen =>
    have hopen : ahead (s.drop (Name.extent s).length) 0 = CodeUnit.leftParen := by simp_all
    have hpos := CodeUnits.ahead_ne_zero (s := s.drop (Name.extent s).length) (i := 0)
      (by rw [hopen]; decide)
    rw [List.length_drop] at hpos
    split
    · generalize hinside : (s.drop (Name.extent s).length).drop 1 = inside
      have hblank := CodeUnits.whitespaceRun_le inside
      have hurl := length_readUrl_le (inside.drop (whitespaceRun inside))
      have hlength := congrArg List.length hinside
      rw [List.length_drop, List.length_drop] at hlength
      rw [List.length_drop] at hurl
      rw [length_grow]
      omega
    · dsimp only
      omega

theorem length_readOther_le (u : CodeUnit) (rest : CodeUnits) :
    (readOther u rest).length ≤ (u :: rest).length := by
  rw [List.length_cons]
  unfold readOther
  split
  · have := CodeUnits.whitespaceRun_le rest
    rw [length_plain]
    omega
  split
  · have := length_readString_le u rest
    rw [length_grow]
    omega
  split
  · have := Name.length_extent_le rest
    unfold readMarked
    dsimp only
    omega
  split
  · have := Name.length_extent_le rest
    unfold readMarked
    dsimp only
    omega
  split
  · next hopen =>
    have hstar : ahead rest 0 = CodeUnit.asterisk := by simp_all
    have hpos := CodeUnits.ahead_ne_zero (s := rest) (i := 0) (by rw [hstar]; decide)
    have := length_readComment_le (rest.drop 1)
    rw [List.length_drop] at this
    rw [length_grow]
    omega
  split
  · next hopen =>
    have hdash : ahead rest 2 = CodeUnit.hyphen := by simp_all
    have hpos := CodeUnits.ahead_ne_zero (s := rest) (i := 2) (by rw [hdash]; decide)
    rw [length_plain]
    omega
  · rw [length_plain]
    omega

theorem length_read_le (s : CodeUnits) : (read s).length ≤ s.length := by
  unfold read
  split
  · exact Nat.le_refl _
  · next u rest =>
    split
    · exact length_readNumeric_le _
    · split
      · next hcdc =>
        have hclose : ahead (u :: rest) 2 = CodeUnit.greaterThan := by
          simp only [startsCdc, Bool.and_eq_true, beq_iff_eq] at hcdc
          exact hcdc.2
        exact CodeUnits.ahead_ne_zero (s := u :: rest) (i := 2) (by rw [hclose]; decide)
      · split
        · exact length_readIdentLike_le _
        · exact length_readOther_le u rest

end Token

/-! ## Tokens within the reach of offsets -/

namespace Cursor

theorem length_next_le (cursor : Cursor) : cursor.next.1.length ≤ CodeUnits.maxLength :=
  Nat.le_trans (Token.length_read_le _) (Nat.le_trans cursor.length_rest_le cursor.length_le)

theorem rest_ofUnits_replicate (u : CodeUnit) :
    (ofUnits (List.replicate (CodeUnits.maxLength + 1) u)).rest =
      u :: u :: u :: List.replicate (CodeUnits.maxLength - 3) u := by
  show (List.replicate (CodeUnits.maxLength + 1) u).take CodeUnits.maxLength = _
  rw [List.take_replicate, Nat.min_eq_left (Nat.le_succ _), ← List.replicate_succ,
    ← List.replicate_succ, ← List.replicate_succ]
  rfl

end Cursor

end StyleRules
