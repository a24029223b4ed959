import StyleRules.Proofs.Token.Bounds

/-!
# Names and numbers before a separator

A separator is a unit that stands behind a name or a value: whitespace, `!`, `/`, `:`, `;` or a
brace. It never belongs to a number. It belongs to a name only where an escape takes it: behind a
lone backslash, or as the whitespace that closes hexadecimal digits.
-/

namespace StyleRules

open CodeUnits (ahead newlineLength whitespaceLength whitespaceRun startsEscape startsIdentifier
  startsNumber)

namespace CodeUnit

def separators : List CodeUnit :=
  [tab, lineFeed, formFeed, carriageReturn, space, exclamationMark, solidus, colon, semicolon,
    leftBrace, rightBrace]

def isSeparator (u : CodeUnit) : Bool := separators.contains u

theorem of_isSeparator {u : CodeUnit} (hu : u.isSeparator = true) {p : CodeUnit → Bool}
    (hall : separators.all p = true) : p u = true := by
  apply List.all_eq_true.mp hall
  exact List.contains_iff_mem.mp hu

theorem isSeparator_of_isWhitespace {u : CodeUnit} (hu : u.isWhitespace = true) :
    u.isSeparator = true := by
  simp only [isWhitespace, isNewline, Bool.or_eq_true, beq_iff_eq] at hu
  rcases hu with (((rfl | rfl) | rfl) | rfl) | rfl <;> decide

end CodeUnit

/-! ## Looking ahead across a separator -/

namespace CodeUnits

def startsApart : CodeUnits → Bool
  | [] => true
  | u :: _ => u.isSeparator

theorem ahead_append_of_lt {x : CodeUnits} (y : CodeUnits) {i : Nat} (hi : i < x.length) :
    ahead (x ++ y) i = ahead x i := by
  unfold ahead
  rw [List.getD_eq_getElem?_getD, List.getD_eq_getElem?_getD, List.getElem?_append_left hi]

theorem ahead_append_length (x y : CodeUnits) (u : CodeUnit) :
    ahead (x ++ u :: y) x.length = u := by
  unfold ahead
  rw [List.getD_eq_getElem?_getD, List.getElem?_append_right (Nat.le_refl _), Nat.sub_self]
  rfl

theorem ahead_length (x : CodeUnits) : ahead x x.length = 0 := by
  unfold ahead
  rw [List.getD_eq_getElem?_getD, List.getElem?_eq_none (Nat.le_refl _)]
  rfl

/-- A predicate that fails for the end of the text and for a unit does not tell them apart. -/
theorem test_append {x : CodeUnits} (y : CodeUnits) {u : CodeUnit} {p : CodeUnit → Bool}
    (hzero : p 0 = false) (hu : p u = false) {i : Nat} (hi : i ≤ x.length) :
    p (ahead (x ++ u :: y) i) = p (ahead x i) := by
  rcases Nat.lt_or_eq_of_le hi with hlt | rfl
  · rw [ahead_append_of_lt _ hlt]
  · rw [ahead_append_length, ahead_length, hu, hzero]

theorem takeWhile_append_take {x y : CodeUnits} {u : CodeUnit} {p : CodeUnit → Bool}
    (hu : p u = false) (n : Nat) :
    (x ++ (u :: y).take n).takeWhile p = x.takeWhile p := by
  rw [List.takeWhile_append]
  split
  · next hall =>
    have hstop : ((u :: y).take n).takeWhile p = [] := by
      cases n with
      | zero => rfl
      | succ n => rw [List.take_succ_cons, List.takeWhile_cons, hu]; rfl
    rw [hstop, List.append_nil]
    exact (List.takeWhile_sublist p).eq_of_length hall |>.symm
  · rfl

theorem takeWhile_append_of_not {x : CodeUnits} (y : CodeUnits) {u : CodeUnit}
    {p : CodeUnit → Bool} (hu : p u = false) :
    (x ++ u :: y).takeWhile p = x.takeWhile p := by
  have := takeWhile_append_take (x := x) (y := y) hu (y.length + 1)
  rwa [List.take_of_length_le (by simp)] at this

end CodeUnits

/-! ## Escapes -/

namespace Escape

variable {x : CodeUnits} {c : CodeUnit}

theorem hexDigits_append (hc : c.isSeparator = true) (y : CodeUnits) :
    hexDigits (x ++ c :: y) = hexDigits x := by
  have hhex : c.isHexDigit = false := by
    simpa using CodeUnit.of_isSeparator hc (p := fun u => !u.isHexDigit) (by decide)
  unfold hexDigits
  rw [List.take_append]
  rcases Nat.le_total 6 x.length with hle | hle
  · rw [Nat.sub_eq_zero_of_le hle, List.take_zero, List.append_nil]
  · rw [CodeUnits.takeWhile_append_take hhex]

/-- The whitespace behind hexadecimal digits stays as long as it is, or CR and LF meet. -/
theorem whitespaceLength_append (hx : x ≠ []) (c : CodeUnit) :
    (∀ y, whitespaceLength (x ++ c :: y) = whitespaceLength x) ∨
      x.length = 1 ∧ whitespaceLength x = 1 ∧ ∀ y, whitespaceLength (x ++ c :: y) = 2 := by
  match x with
  | [] => exact absurd rfl hx
  | [u] =>
    by_cases hpair : u = CodeUnit.carriageReturn ∧ c = CodeUnit.lineFeed
    · obtain ⟨rfl, rfl⟩ := hpair
      exact .inr ⟨rfl, rfl, fun y => rfl⟩
    · left
      intro y
      have hnot : (u == CodeUnit.carriageReturn && c == CodeUnit.lineFeed) = false := by
        simpa using hpair
      have hzero : ((0 : CodeUnit) == CodeUnit.lineFeed) = false := by decide
      show (if u == CodeUnit.carriageReturn && c == CodeUnit.lineFeed then 2
          else if u.isWhitespace then 1 else 0) =
        if u == CodeUnit.carriageReturn && (0 : CodeUnit) == CodeUnit.lineFeed then 2
          else if u.isWhitespace then 1 else 0
      rw [hnot, hzero, Bool.and_false]
  | u :: v :: rest => exact .inl fun y => rfl

/-- A separator on its own is a whitespace of one unit, CR LF apart, or none. -/
theorem whitespaceLength_cons (c : CodeUnit) (y : CodeUnits) :
    (c.isWhitespace = false → whitespaceLength (c :: y) = 0) ∧
      (c.isWhitespace = true → 0 < whitespaceLength (c :: y)) ∧
      (c.isWhitespace = true → c ≠ CodeUnit.carriageReturn → whitespaceLength (c :: y) = 1) := by
  unfold whitespaceLength
  rw [CodeUnits.ahead_cons_zero]
  refine ⟨fun hspace => ?_, fun hspace => ?_, fun hspace hreturn => ?_⟩
  · rw [if_neg, if_neg (by rw [hspace]; exact Bool.false_ne_true)]
    intro hreturn
    rw [Bool.and_eq_true, beq_iff_eq] at hreturn
    rw [hreturn.1] at hspace
    exact absurd hspace (by decide)
  · rw [if_pos hspace]
    split <;> omega
  · rw [if_pos hspace, if_neg]
    simp [hreturn]

/-- An escape of hexadecimal digits, as its digits and what stands behind them. -/
theorem length_append_of_hex {u : CodeUnit} (rest : CodeUnits) (hhex : u.isHexDigit = true)
    (hc : c.isSeparator = true) :
    ∃ digits blank, (u :: rest).length = digits + blank.length ∧
      length (u :: rest) = digits + whitespaceLength blank ∧
      ∀ y, length (u :: rest ++ c :: y) = digits + whitespaceLength (blank ++ c :: y) := by
  have hle := length_hexDigits_le (u :: rest)
  refine ⟨(hexDigits (u :: rest)).length, (u :: rest).drop (hexDigits (u :: rest)).length, ?_,
    if_pos hhex, fun y => ?_⟩
  · rw [List.length_drop]
    omega
  · rw [← List.drop_append_of_le_length hle, ← hexDigits_append hc y]
    exact if_pos hhex

theorem length_append_of_not_hex {u : CodeUnit} {rest : CodeUnits} (hhex : u.isHexDigit = false)
    (hc : c.isSeparator = true) (y : CodeUnits) :
    length (u :: rest ++ c :: y) = length (u :: rest) := by
  have hlow : c.isLowSurrogate = false := by
    simpa using CodeUnit.of_isSeparator hc (p := fun u => !u.isLowSurrogate) (by decide)
  have hpair : CodeUnit.isPair u (ahead (u :: rest ++ c :: y) 1) =
      CodeUnit.isPair u (ahead (u :: rest) 1) := by
    apply CodeUnits.test_append (p := fun v => CodeUnit.isPair u v) (x := u :: rest)
    · exact Bool.and_false _
    · rw [CodeUnit.isPair, hlow, Bool.and_false]
    · rw [List.length_cons]
      omega
  show (if u.isHexDigit then _ else if CodeUnit.isPair u _ then 2 else 1) =
    if u.isHexDigit then _ else if CodeUnit.isPair u _ then 2 else 1
  rw [hhex, if_neg Bool.false_ne_true, if_neg Bool.false_ne_true, hpair]

/-- An escape ends where it ended, or takes the separator as the whitespace that closes it. -/
theorem length_append (hx : x ≠ []) (hc : c.isSeparator = true) :
    (∀ y, length (x ++ c :: y) = length x) ∨
      length x = x.length ∧ (∀ y, x.length < length (x ++ c :: y)) ∧
        (c ≠ CodeUnit.carriageReturn → ∀ y, length (x ++ c :: y) = x.length + 1) := by
  cases x with
  | nil => exact absurd rfl hx
  | cons u rest =>
    cases hhex : u.isHexDigit with
    | false => exact .inl (length_append_of_not_hex hhex hc)
    | true =>
      obtain ⟨digits, blank, hlength, hself, hlonger⟩ := length_append_of_hex rest hhex hc
      by_cases hblank : blank = []
      · subst hblank
        have hnone : whitespaceLength [] = 0 := rfl
        rw [List.length_nil] at hlength
        simp only [List.nil_append] at hlonger
        by_cases hspace : c.isWhitespace = true
        · right
          refine ⟨by omega, fun y => ?_, fun hreturn y => ?_⟩
          · have := (whitespaceLength_cons c y).2.1 hspace
            rw [hlonger]
            omega
          · have := (whitespaceLength_cons c y).2.2 hspace hreturn
            rw [hlonger]
            omega
        · left
          intro y
          have := (whitespaceLength_cons c y).1 (by simpa using hspace)
          rw [hlonger]
          omega
      · rcases whitespaceLength_append hblank c with hsame | ⟨hone, hshort, htwo⟩
        · left
          intro y
          rw [hlonger, hsame, hself]
        · right
          refine ⟨by omega, fun y => ?_, fun _ y => ?_⟩ <;> rw [hlonger, htwo] <;> omega

theorem whitespaceLength_append_of_not (hspace : c.isWhitespace = false) (x y : CodeUnits) :
    whitespaceLength (x ++ c :: y) = whitespaceLength x := by
  by_cases hx : x = []
  · rw [hx]
    exact (whitespaceLength_cons c y).1 hspace
  · rcases whitespaceLength_append hx c with hsame | ⟨hone, -, -⟩
    · exact hsame y
    · obtain ⟨u, rfl⟩ := List.length_eq_one_iff.mp hone
      have hline : (c == CodeUnit.lineFeed) = false := by
        rw [beq_eq_false_iff_ne]
        rintro rfl
        exact absurd hspace (by decide)
      have hzero : ((0 : CodeUnit) == CodeUnit.lineFeed) = false := by decide
      show (if u == CodeUnit.carriageReturn && c == CodeUnit.lineFeed then 2
          else if u.isWhitespace then 1 else 0) =
        if u == CodeUnit.carriageReturn && (0 : CodeUnit) == CodeUnit.lineFeed then 2
          else if u.isWhitespace then 1 else 0
      rw [hline, hzero]

/-- An escape ends where it ended before a separator that is no whitespace. -/
theorem length_append_of_not_whitespace (hx : x ≠ []) (hc : c.isSeparator = true)
    (hspace : c.isWhitespace = false) (y : CodeUnits) : length (x ++ c :: y) = length x := by
  cases x with
  | nil => exact absurd rfl hx
  | cons u rest =>
    cases hhex : u.isHexDigit with
    | false => exact length_append_of_not_hex hhex hc y
    | true =>
      obtain ⟨digits, blank, -, hself, hlonger⟩ := length_append_of_hex rest hhex hc
      rw [hlonger, whitespaceLength_append_of_not hspace, hself]

end Escape

/-! ## Names -/

theorem CodeUnit.isValidEscape_of_ne {u v : CodeUnit} (hu : u ≠ backslash) :
    isValidEscape u v = false := by
  simp [isValidEscape, hu]

theorem CodeUnit.isValidEscape_separator {c : CodeUnit} (hc : c.isSeparator = true) :
    isValidEscape backslash c = !c.isNewline := by
  have hzero : (c != 0) = true := of_isSeparator hc (p := fun u => u != 0) (by decide)
  rw [isValidEscape, hzero]
  rfl

theorem CodeUnits.ne_nil_of_isValidEscape {u : CodeUnit} {s : CodeUnits}
    (h : CodeUnit.isValidEscape u (ahead s 0) = true) : s ≠ [] := by
  rintro rfl
  simp [CodeUnit.isValidEscape] at h

namespace Name

variable {x : CodeUnits} {c : CodeUnit}

theorem extent_separator (hc : c.isSeparator = true) (y : CodeUnits) :
    extent (c :: y) = ⟨0, false⟩ := by
  have hname : (!c.isName && c != CodeUnit.backslash) = true :=
    CodeUnit.of_isSeparator hc (p := fun u => !u.isName && u != CodeUnit.backslash) (by decide)
  rw [Bool.and_eq_true, bne_iff_ne] at hname
  rw [extent, if_neg (by simpa using hname.1), CodeUnit.isValidEscape_of_ne hname.2,
    if_neg Bool.false_ne_true]

theorem extent_append_of_isName (hx : ∀ u ∈ x, u.isName = true) (y : CodeUnits) :
    extent (x ++ y) = ⟨x.length + (extent y).length, (extent y).escaped⟩ := by
  induction x with
  | nil =>
    rw [List.length_nil, Nat.zero_add]
    rfl
  | cons u x ih =>
    have hrest := ih fun v hv => hx v (List.mem_cons_of_mem u hv)
    rw [List.cons_append, extent, if_pos (hx u List.mem_cons_self), hrest, List.length_cons]
    dsimp only
    congr 1
    omega

theorem extent_backslash (hc : c.isSeparator = true) (hline : c.isNewline = false)
    (y : CodeUnits) :
    extent (CodeUnit.backslash :: c :: y) = ⟨2 + (extent y).length, true⟩ := by
  have hunit : (!c.isHexDigit && !c.isHighSurrogate) = true :=
    CodeUnit.of_isSeparator hc (p := fun u => !u.isHexDigit && !u.isHighSurrogate) (by decide)
  simp only [Bool.and_eq_true, Bool.not_eq_true'] at hunit
  have hescape : CodeUnit.isValidEscape CodeUnit.backslash (ahead (c :: y) 0) = true := by
    rw [CodeUnits.ahead_cons_zero, CodeUnit.isValidEscape_separator hc, hline]
    rfl
  have hbody : Escape.length (c :: y) = 1 := by
    rw [Escape.length, hunit.1, CodeUnit.isPair, hunit.2]
    rfl
  rw [extent, if_neg (by decide), if_pos hescape, hbody]
  rfl

theorem extent_lone (hc : c.isSeparator = true) (hline : c.isNewline = false)
    (hx : x = [CodeUnit.backslash] ∨ x = [CodeUnit.hyphen, CodeUnit.backslash]) (y : CodeUnits) :
    extent (x ++ c :: y) = ⟨x.length + 1 + (extent y).length, true⟩ := by
  rcases hx with rfl | rfl
  · exact extent_backslash hc hline y
  · show extent (CodeUnit.hyphen :: CodeUnit.backslash :: c :: y) = _
    rw [extent, if_pos (by decide), extent_backslash hc hline]
    show (⟨1 + (2 + (extent y).length), true⟩ : Extent) = ⟨2 + 1 + (extent y).length, true⟩
    congr 1
    omega

/-- The name that `x` begins with goes to its end, or to a lone backslash there, and takes the
separator that is written behind. -/
structure Takes (x : CodeUnits) (c : CodeUnit) : Prop where
  longer : ∀ y, x.length < (extent (x ++ c :: y)).length
  length_eq : c ≠ CodeUnit.carriageReturn →
    ∀ y, (extent (x ++ c :: y)).length = x.length + 1 + (extent y).length
  left : x.drop (extent x).length = [] ∨ x.drop (extent x).length = [CodeUnit.backslash]

theorem Takes.of_drop {rest : CodeUnits} {n : Nat} (h : Takes rest c) (hn : n ≤ x.length)
    (hdrop : x.drop n = rest) (hself : (extent x).length = n + (extent rest).length)
    (hlonger : ∀ y, (extent (x ++ c :: y)).length = n + (extent (rest ++ c :: y)).length) :
    Takes x c := by
  have hlength : rest.length = x.length - n := by rw [← hdrop, List.length_drop]
  refine ⟨fun y => ?_, fun hreturn y => ?_, ?_⟩
  · have := h.longer y
    rw [hlonger]
    omega
  · have := h.length_eq hreturn y
    rw [hlonger]
    omega
  · rw [hself, ← List.drop_drop, hdrop]
    exact h.left

theorem extent_cons_of_isName {u : CodeUnit} (hname : u.isName = true) (s : CodeUnits) :
    extent (u :: s) = ⟨1 + (extent s).length, (extent s).escaped⟩ := by
  rw [extent, if_pos hname]

theorem extent_cons_of_isValidEscape {u : CodeUnit} {s : CodeUnits} (hname : ¬u.isName = true)
    (hescape : CodeUnit.isValidEscape u (ahead s 0) = true) :
    extent (u :: s) =
      ⟨1 + Escape.length s + (extent (s.drop (Escape.length s))).length, true⟩ := by
  rw [extent, if_neg hname, if_pos hescape]

theorem extent_cons_of_not {u : CodeUnit} {s : CodeUnits} (hname : ¬u.isName = true)
    (hescape : CodeUnit.isValidEscape u (ahead s 0) = false) : extent (u :: s) = ⟨0, false⟩ := by
  rw [extent, if_neg hname, hescape, if_neg Bool.false_ne_true]

/-- A name that begins with an escape fares as the name behind the escape, unless the escape takes
the separator. -/
theorem extent_append_of_escape {u : CodeUnit} {rest : CodeUnits} (hc : c.isSeparator = true)
    (hname : ¬u.isName = true) (hescape : CodeUnit.isValidEscape u (ahead rest 0) = true)
    (ih : (∀ y, extent (rest.drop (Escape.length rest) ++ c :: y) =
        extent (rest.drop (Escape.length rest))) ∨ Takes (rest.drop (Escape.length rest)) c) :
    (∀ y, extent (u :: rest ++ c :: y) = extent (u :: rest)) ∨ Takes (u :: rest) c := by
  have hrest := CodeUnits.ne_nil_of_isValidEscape hescape
  have hbody := Escape.length_le rest
  have hself := extent_cons_of_isValidEscape hname hescape
  have hstep : ∀ y, extent (u :: rest ++ c :: y) =
      ⟨1 + Escape.length (rest ++ c :: y) +
        (extent ((rest ++ c :: y).drop (Escape.length (rest ++ c :: y)))).length, true⟩ := by
    intro y
    rw [List.cons_append]
    apply extent_cons_of_isValidEscape hname
    rw [CodeUnits.ahead_append_of_lt _ (List.length_pos_iff.mpr hrest)]
    exact hescape
  rcases Escape.length_append hrest hc with hsame | ⟨hfull, hover, hexact⟩
  · have hagain : ∀ y, extent (u :: rest ++ c :: y) = ⟨1 + Escape.length rest +
        (extent (rest.drop (Escape.length rest) ++ c :: y)).length, true⟩ := by
      intro y
      rw [hstep, hsame, List.drop_append_of_le_length hbody]
    rcases ih with hapart | htakes
    · left
      intro y
      rw [hagain, hself, hapart]
    · right
      apply htakes.of_drop (n := 1 + Escape.length rest)
      · rw [List.length_cons]
        omega
      · rw [Nat.add_comm, List.drop_succ_cons]
      · rw [hself]
      · intro y
        rw [hagain]
  · have hnone : extent (rest.drop (Escape.length rest)) = ⟨0, false⟩ := by
      rw [List.drop_eq_nil_of_le (Nat.le_of_eq hfull.symm), extent]
    right
    refine ⟨fun y => ?_, fun hreturn y => ?_, .inl ?_⟩
    · have := hover y
      rw [hstep, List.length_cons]
      show rest.length + 1 < 1 + _ + _
      omega
    · have hbehind : (rest ++ c :: y).drop (rest.length + 1) = y := by
        rw [← List.drop_drop, List.drop_left]
        rfl
      rw [hstep, hexact hreturn, List.length_cons, hbehind]
      show 1 + (rest.length + 1) + _ = _
      omega
    · rw [hself, hnone, List.drop_eq_nil_iff, List.length_cons]
      show rest.length + 1 ≤ 1 + Escape.length rest + 0
      omega

theorem takes_backslash (hc : c.isSeparator = true) (hline : c.isNewline = false) :
    Takes [CodeUnit.backslash] c := by
  have hlonger := extent_backslash hc hline
  refine ⟨fun y => ?_, fun _ y => ?_, .inr ?_⟩
  · rw [List.singleton_append, hlonger]
    show 1 < 2 + _
    omega
  · rw [List.singleton_append, hlonger]
    rfl
  · rw [extent_cons_of_not (by decide) (by decide)]
    rfl

/-- A name ends where it ended, or takes the separator and goes on behind it. -/
theorem extent_append (hc : c.isSeparator = true) :
    (∀ y, extent (x ++ c :: y) = extent x) ∨ Takes x c := by
  fun_induction extent x with
  | case1 => exact .inl fun y => extent_separator hc y
  | case2 u rest hname tail ih =>
    have hstep := extent_cons_of_isName hname
    rcases ih with hsame | htakes
    · left
      intro y
      rw [List.cons_append, hstep, hsame]
    · right
      apply htakes.of_drop (n := 1) (List.length_pos_iff.mpr (List.cons_ne_nil u rest)) rfl
      · rw [hstep]
      · intro y
        rw [List.cons_append, hstep]
  | case3 u rest hname hescape body tail ih =>
    rw [← extent_cons_of_isValidEscape hname hescape]
    exact extent_append_of_escape hc hname hescape ih
  | case4 u rest hname hescape =>
    by_cases hlone : u = CodeUnit.backslash ∧ rest = []
    · obtain ⟨rfl, rfl⟩ := hlone
      cases hline : c.isNewline with
      | true =>
        left
        intro y
        rw [List.singleton_append]
        apply extent_cons_of_not hname
        rw [CodeUnits.ahead_cons_zero, CodeUnit.isValidEscape_separator hc, hline]
        rfl
      | false => exact .inr (takes_backslash hc hline)
    · left
      intro y
      rw [List.cons_append]
      apply extent_cons_of_not hname
      by_cases hslash : u = CodeUnit.backslash
      · have hrest : rest ≠ [] := fun hrest => hlone ⟨hslash, hrest⟩
        rw [CodeUnits.ahead_append_of_lt _ (List.length_pos_iff.mpr hrest)]
        simpa using hescape
      · exact CodeUnit.isValidEscape_of_ne hslash

/-- A text that is a name stays one before a separator that is no whitespace. -/
theorem extent_append_of_full (hfull : (extent x).length = x.length) (hc : c.isSeparator = true)
    (hspace : c.isWhitespace = false) (y : CodeUnits) : extent (x ++ c :: y) = extent x := by
  fun_induction extent x with
  | case1 => exact extent_separator hc y
  | case2 u rest hname tail ih =>
    have hrest : tail.length = rest.length := by
      rw [List.length_cons] at hfull
      dsimp only at hfull
      omega
    rw [List.cons_append, extent, if_pos hname, ih hrest]
  | case3 u rest hname hescape body tail ih =>
    have hne := CodeUnits.ne_nil_of_isValidEscape hescape
    have hrest : tail.length = (rest.drop body).length := by
      rw [List.length_cons] at hfull
      rw [List.length_drop]
      dsimp only at hfull
      omega
    have hstep : extent (u :: rest ++ c :: y) =
        ⟨1 + body + (extent (rest.drop body ++ c :: y)).length, true⟩ := by
      rw [List.cons_append, extent, if_neg hname,
        CodeUnits.ahead_append_of_lt _ (List.length_pos_iff.mpr hne), if_pos hescape,
        Escape.length_append_of_not_whitespace hne hc hspace]
      dsimp only
      rw [List.drop_append_of_le_length (Escape.length_le rest)]
    rw [hstep, ih hrest]
  | case4 u rest hname hescape => exact absurd hfull (by simp)

end Name

/-! ## Beginnings -/

section Beginnings

variable {x : CodeUnits} {c : CodeUnit}

/-- What a test of the beginning of `x` says does not change when a separator is written behind, or
`x` is a lone backslash, behind a hyphen or not, that escapes the separator. -/
def StableOrLoneBackslash (starts : CodeUnits → Bool) (x : CodeUnits) (c : CodeUnit) : Prop :=
  (∀ y, starts (x ++ c :: y) = starts x) ∨
    (x = [CodeUnit.backslash] ∨ x = [CodeUnit.hyphen, CodeUnit.backslash]) ∧
      starts x = false ∧ (∀ y, starts (x ++ c :: y) = true) ∧ c.isNewline = false

theorem StableOrLoneBackslash.of_lone {starts : CodeUnits → Bool}
    (hx : x = [CodeUnit.backslash] ∨ x = [CodeUnit.hyphen, CodeUnit.backslash])
    (hself : starts x = false) (hlonger : ∀ y, starts (x ++ c :: y) = !c.isNewline) :
    StableOrLoneBackslash starts x c := by
  cases hline : c.isNewline with
  | true =>
    left
    intro y
    rw [hlonger, hself, hline]
    rfl
  | false =>
    right
    refine ⟨hx, hself, fun y => ?_, hline⟩
    rw [hlonger, hline]
    rfl

theorem startsIdentifier_append (hc : c.isSeparator = true) :
    StableOrLoneBackslash startsIdentifier x c := by
  have hunit : (!c.isNameStart && !(c == CodeUnit.hyphen) && !(c == CodeUnit.backslash)) = true :=
    CodeUnit.of_isSeparator hc
      (p := fun u => !u.isNameStart && !(u == CodeUnit.hyphen) && !(u == CodeUnit.backslash))
      (by decide)
  simp only [Bool.and_eq_true, Bool.not_eq_true'] at hunit
  obtain ⟨⟨hname, hhyphen⟩, hslash⟩ := hunit
  have hescape : ∀ v, CodeUnit.isValidEscape c v = false := fun v =>
    CodeUnit.isValidEscape_of_ne (by simpa using hslash)
  have hend : CodeUnit.isNameStart 0 = false ∧ ((0 : CodeUnit) == CodeUnit.hyphen) = false ∧
      ((0 : CodeUnit) == CodeUnit.backslash) = false ∧
      CodeUnit.isValidEscape 0 0 = false := by decide
  obtain ⟨hname0, hhyphen0, hslash0, hescape0⟩ := hend
  match x with
  | [] =>
    left
    intro y
    show CodeUnit.startsIdentifier c _ _ = CodeUnit.startsIdentifier 0 0 0
    unfold CodeUnit.startsIdentifier
    rw [hhyphen, hslash, hname, hhyphen0, hslash0, hname0]
    rfl
  | [u] =>
    by_cases hu : u = CodeUnit.backslash
    · subst hu
      exact .of_lone (.inl rfl) (by decide) fun y => CodeUnit.isValidEscape_separator hc
    · left
      intro y
      show CodeUnit.startsIdentifier u c _ = CodeUnit.startsIdentifier u 0 0
      unfold CodeUnit.startsIdentifier
      rw [hhyphen, hname, hescape, hhyphen0, hname0, hescape0,
        CodeUnit.isValidEscape_of_ne hu, CodeUnit.isValidEscape_of_ne hu]
  | [u, v] =>
    by_cases huv : u = CodeUnit.hyphen ∧ v = CodeUnit.backslash
    · obtain ⟨rfl, rfl⟩ := huv
      exact .of_lone (.inr rfl) (by decide) fun y => CodeUnit.isValidEscape_separator hc
    · left
      intro y
      show CodeUnit.startsIdentifier u v c = CodeUnit.startsIdentifier u v 0
      unfold CodeUnit.startsIdentifier
      by_cases hu : u = CodeUnit.hyphen
      · have hv : v ≠ CodeUnit.backslash := fun hv => huv ⟨hu, hv⟩
        rw [CodeUnit.isValidEscape_of_ne hv, CodeUnit.isValidEscape_of_ne hv]
      · have hnot : ¬(u == CodeUnit.hyphen) = true := by simpa using hu
        rw [if_neg hnot, if_neg hnot]
  | u :: v :: w :: rest => exact .inl fun y => rfl

theorem startsEscape_append_of_ne (hc : c.isSeparator = true) (hx : x ≠ [CodeUnit.backslash])
    (y : CodeUnits) : startsEscape (x ++ c :: y) = startsEscape x := by
  match x with
  | [] =>
    have hslash : c ≠ CodeUnit.backslash := by
      simpa using CodeUnit.of_isSeparator hc (p := fun u => u != CodeUnit.backslash) (by decide)
    exact CodeUnit.isValidEscape_of_ne hslash
  | [u] =>
    have hu : u ≠ CodeUnit.backslash := by
      rintro rfl
      exact hx rfl
    exact (CodeUnit.isValidEscape_of_ne hu).trans (CodeUnit.isValidEscape_of_ne hu).symm
  | u :: v :: rest => rfl

theorem startsNumber_append (hc : c.isSeparator = true) (y : CodeUnits) :
    startsNumber (x ++ c :: y) = startsNumber x := by
  have hunit : (!c.isDigit && !(c == CodeUnit.plusSign || c == CodeUnit.hyphen) &&
      !(c == CodeUnit.fullStop)) = true := CodeUnit.of_isSeparator hc
    (p := fun u => !u.isDigit && !(u == CodeUnit.plusSign || u == CodeUnit.hyphen) &&
      !(u == CodeUnit.fullStop)) (by decide)
  simp only [Bool.and_eq_true, Bool.not_eq_true'] at hunit
  obtain ⟨⟨hdigit, hsign⟩, hstop⟩ := hunit
  have hdigit0 : CodeUnit.isDigit 0 = false := by decide
  have hstop0 : ((0 : CodeUnit) == CodeUnit.fullStop) = false := by decide
  match x with
  | [] =>
    show CodeUnit.startsNumber c _ _ = false
    unfold CodeUnit.startsNumber
    rw [hsign, hstop, hdigit]
    rfl
  | [u] =>
    show CodeUnit.startsNumber u c _ = CodeUnit.startsNumber u 0 0
    unfold CodeUnit.startsNumber
    rw [hstop, hdigit, hstop0, hdigit0, Bool.false_and, Bool.false_and]
  | [u, v] =>
    show CodeUnit.startsNumber u v c = CodeUnit.startsNumber u v 0
    unfold CodeUnit.startsNumber
    rw [hdigit, hdigit0]
  | u :: v :: w :: rest => rfl

theorem startsCdc_append (hc : c.isSeparator = true) (y : CodeUnits) :
    Token.startsCdc (x ++ c :: y) = Token.startsCdc x := by
  have hunit : (!(c == CodeUnit.hyphen) && !(c == CodeUnit.greaterThan)) = true :=
    CodeUnit.of_isSeparator hc
      (p := fun u => !(u == CodeUnit.hyphen) && !(u == CodeUnit.greaterThan)) (by decide)
  simp only [Bool.and_eq_true, Bool.not_eq_true'] at hunit
  obtain ⟨hhyphen, hgreater⟩ := hunit
  have hhyphen0 : ((0 : CodeUnit) == CodeUnit.hyphen) = false := by decide
  have hgreater0 : ((0 : CodeUnit) == CodeUnit.greaterThan) = false := by decide
  match x with
  | [] =>
    show (c == CodeUnit.hyphen && _ && _) = false
    rw [hhyphen]
    rfl
  | [u] =>
    show (u == CodeUnit.hyphen && c == CodeUnit.hyphen && _) =
      (u == CodeUnit.hyphen && (0 : CodeUnit) == CodeUnit.hyphen && _)
    rw [hhyphen, hhyphen0, Bool.and_false, Bool.false_and, Bool.false_and]
  | [u, v] =>
    show (u == CodeUnit.hyphen && v == CodeUnit.hyphen && c == CodeUnit.greaterThan) =
      (u == CodeUnit.hyphen && v == CodeUnit.hyphen && (0 : CodeUnit) == CodeUnit.greaterThan)
    rw [hgreater, hgreater0]
  | u :: v :: w :: rest => rfl

end Beginnings

/-! ## Numbers -/

namespace Number

variable {x : CodeUnits} {c : CodeUnit}

theorem signLength_append (hc : c.isSeparator = true) (y : CodeUnits) :
    signLength (x ++ c :: y) = signLength x := by
  unfold signLength
  rw [CodeUnits.test_append y
    (p := fun u => u == CodeUnit.plusSign || u == CodeUnit.hyphen) (by decide) ?_ (Nat.zero_le _)]
  simpa using CodeUnit.of_isSeparator hc
    (p := fun u => !(u == CodeUnit.plusSign || u == CodeUnit.hyphen)) (by decide)

theorem digitsLength_append (hc : c.isSeparator = true) (y : CodeUnits) :
    digitsLength (x ++ c :: y) = digitsLength x := by
  have hdigit : c.isDigit = false := by
    simpa using CodeUnit.of_isSeparator hc (p := fun u => !u.isDigit) (by decide)
  unfold digitsLength
  rw [CodeUnits.takeWhile_append_of_not y hdigit]

theorem fractionLength_append (hc : c.isSeparator = true) (y : CodeUnits) :
    fractionLength (x ++ c :: y) = fractionLength x := by
  have hunit : (!c.isDigit && !(c == CodeUnit.fullStop)) = true :=
    CodeUnit.of_isSeparator hc (p := fun u => !u.isDigit && !(u == CodeUnit.fullStop)) (by decide)
  simp only [Bool.and_eq_true, Bool.not_eq_true'] at hunit
  cases x with
  | nil =>
    show (if c == CodeUnit.fullStop && _ then _ else 0) = 0
    rw [hunit.2]
    rfl
  | cons u rest =>
    have hsecond : (ahead (rest ++ c :: y) 0).isDigit = (ahead rest 0).isDigit :=
      CodeUnits.test_append y (by decide) hunit.1 (Nat.zero_le _)
    show (if u == CodeUnit.fullStop && (ahead (rest ++ c :: y) 0).isDigit then
      1 + digitsLength (rest ++ c :: y) else 0) = _
    rw [hsecond, digitsLength_append hc]
    rfl

theorem exponentLength_append (hc : c.isSeparator = true) (y : CodeUnits) :
    exponentLength (x ++ c :: y) = exponentLength x := by
  have hunit : (!c.isDigit && !isExponentLetter c) = true :=
    CodeUnit.of_isSeparator hc (p := fun u => !u.isDigit && !isExponentLetter u) (by decide)
  simp only [Bool.and_eq_true, Bool.not_eq_true'] at hunit
  obtain ⟨hdigit, hletter⟩ := hunit
  cases x with
  | nil =>
    show (if isExponentLetter c then _ else 0) = 0
    rw [hletter]
    rfl
  | cons u rest =>
    have hsign := signLength_le rest
    have htest : (ahead (u :: rest ++ c :: y) (1 + signLength rest)).isDigit =
        (ahead (u :: rest) (1 + signLength rest)).isDigit := by
      apply CodeUnits.test_append y (by decide) hdigit
      rw [List.length_cons]
      omega
    have hdrop : (u :: rest ++ c :: y).drop (1 + signLength rest) =
        (u :: rest).drop (1 + signLength rest) ++ c :: y := by
      apply List.drop_append_of_le_length
      rw [List.length_cons]
      omega
    unfold exponentLength
    rw [List.cons_append, CodeUnits.ahead_cons_zero, CodeUnits.ahead_cons_zero,
      List.drop_succ_cons, List.drop_succ_cons, List.drop_zero, List.drop_zero,
      signLength_append hc]
    dsimp only
    rw [← List.cons_append, htest, hdrop, digitsLength_append hc]

theorem length_append (hc : c.isSeparator = true) (y : CodeUnits) :
    length (x ++ c :: y) = length x := by
  have hsign := signLength_le x
  have hwhole := digitsLength_le (x.drop (signLength x))
  unfold length
  dsimp only
  rw [signLength_append hc]
  generalize signLength x = sign at hsign hwhole ⊢
  rw [List.length_drop] at hwhole
  rw [List.drop_append_of_le_length hsign, digitsLength_append hc]
  generalize hw : sign + digitsLength (x.drop sign) = whole
  have hfraction := fractionLength_le (x.drop whole)
  rw [List.length_drop] at hfraction
  rw [List.drop_append_of_le_length (by omega), fractionLength_append hc]
  generalize hm : whole + fractionLength (x.drop whole) = mantissa
  rw [List.drop_append_of_le_length (by omega), exponentLength_append hc]

end Number

end StyleRules
