import StyleRules.Proofs.Token.Closed

/-!
# Names as longest texts

The grammar of names says what an escape and a name look like, with no reading order. The readers
are greedy. Greed loses nothing: what an escape takes beyond a shorter one is no more than a name
would have taken, so the name that is read is the longest text of the grammar at its place.
-/

namespace StyleRules

open CodeUnits (ahead startsEscape whitespaceLength)

/-! ## Longest texts -/

structure CodeUnits.IsLongest (p : CodeUnits → Prop) (s x : CodeUnits) : Prop where
  stands : x <+: s
  holds : p x
  longest : ∀ y, y <+: s → p y → y.length ≤ x.length

namespace CodeUnits.IsLongest

variable {p : CodeUnits → Prop} {s x : CodeUnits}

/-- What a reader takes is longest if it has the property and the reader reaches the end of every
text with the property. -/
theorem of_take {n : Nat} (hn : n ≤ s.length) (holds : p (s.take n))
    (hreach : ∀ y rest, p y → s = y ++ rest → y.length ≤ n) : IsLongest p s (s.take n) := by
  refine ⟨List.take_prefix n s, holds, ?_⟩
  rintro y ⟨rest, hs⟩ hy
  rw [List.length_take_of_le hn]
  exact hreach y rest hy hs.symm

end CodeUnits.IsLongest

/-! ## Units of escapes -/

namespace CodeUnit

theorem isValidEscape_backslash_iff {u : CodeUnit} :
    isValidEscape backslash u = true ↔ u ≠ 0 ∧ u.isNewline = false := by
  simp [isValidEscape]

theorem isValidEscape_of_isName {u : CodeUnit} (h : u.isName = true) :
    isValidEscape backslash u = true := by
  apply isValidEscape_backslash_iff.mpr
  constructor
  · rintro rfl
    exact absurd h (by decide)
  · rw [Bool.eq_false_iff]
    intro hline
    simp only [isNewline, Bool.or_eq_true, beq_iff_eq] at hline
    rcases hline with (rfl | rfl) | rfl <;> exact absurd h (by decide)

theorem isName_of_isHexDigit {u : CodeUnit} (h : u.isHexDigit = true) : u.isName = true := by
  simp only [isHexDigit, isName, isNameStart, isLetter, isUpper, isLower, isDigit, Bool.or_eq_true,
    Bool.and_eq_true, decide_eq_true_eq, beq_iff_eq, UInt16.le_iff_toNat_le,
    UInt16.reduceToNat] at h ⊢
  omega

theorem isName_of_isLowSurrogate {u : CodeUnit} (h : u.isLowSurrogate = true) :
    u.isName = true := by
  simp only [isLowSurrogate, isName, isNameStart, Bool.or_eq_true, Bool.and_eq_true,
    decide_eq_true_eq, UInt16.le_iff_toNat_le, UInt16.reduceToNat] at h ⊢
  omega

theorem isName_of_isHighSurrogate {u : CodeUnit} (h : u.isHighSurrogate = true) :
    u.isName = true ∧ u.isHexDigit = false := by
  rw [Bool.eq_false_iff, ne_eq]
  simp only [isHighSurrogate, isHexDigit, isName, isNameStart, isDigit, Bool.or_eq_true,
    Bool.and_eq_true, decide_eq_true_eq, UInt16.le_iff_toNat_le, UInt16.reduceToNat] at h ⊢
  omega

end CodeUnit

/-! ## Escapes -/

namespace Escape

inductive IsBlank : CodeUnits → Prop
  | none : IsBlank []
  | pair : IsBlank [CodeUnit.carriageReturn, CodeUnit.lineFeed]
  | unit {u : CodeUnit} (hspace : u.isWhitespace = true) : IsBlank [u]

/-- What may follow a backslash: up to six hexadecimal digits and a whitespace, a surrogate pair, or
one unit that is neither NUL nor a newline. -/
inductive IsBody : CodeUnits → Prop
  | hex {digits blank : CodeUnits} (hne : digits ≠ []) (hfew : digits.length ≤ 6)
      (hdigits : ∀ u ∈ digits, u.isHexDigit = true) (hblank : IsBlank blank) :
      IsBody (digits ++ blank)
  | pair {high low : CodeUnit} (hpair : CodeUnit.isPair high low = true) : IsBody [high, low]
  | unit {u : CodeUnit} (hhex : u.isHexDigit = false) (hzero : u ≠ 0)
      (hline : u.isNewline = false) : IsBody [u]

theorem isBlank_take (s : CodeUnits) : IsBlank (s.take (whitespaceLength s)) := by
  unfold whitespaceLength
  split
  · next hpair =>
    rw [Bool.and_eq_true, beq_iff_eq, beq_iff_eq] at hpair
    obtain ⟨rest, rfl⟩ := CodeUnits.exists_of_ahead hpair.1 (by decide)
    obtain ⟨rest, rfl⟩ := CodeUnits.exists_of_ahead (s := rest) hpair.2 (by decide)
    exact .pair
  · split
    · next hspace =>
      cases s with
      | nil => exact absurd hspace (by decide)
      | cons u rest => exact .unit hspace
    · exact .none

theorem isBody_take {s : CodeUnits}
    (hescape : CodeUnit.isValidEscape CodeUnit.backslash (ahead s 0) = true) :
    IsBody (s.take (length s)) := by
  cases s with
  | nil => exact absurd hescape (by decide)
  | cons u rest =>
    rw [length]
    split
    · next hhex =>
      have hne : hexDigits (u :: rest) ≠ [] := by
        simp [hexDigits, hhex]
      have hfew : (hexDigits (u :: rest)).length ≤ 6 :=
        Nat.le_trans (List.takeWhile_sublist _).length_le (List.length_take_le 6 _)
      have hdigits : ∀ v ∈ hexDigits (u :: rest), v.isHexDigit = true :=
        fun v => List.all_eq_true.mp List.all_takeWhile v
      obtain ⟨left, hs⟩ : hexDigits (u :: rest) <+: u :: rest :=
        (List.takeWhile_prefix _).trans (List.take_prefix 6 _)
      dsimp only
      generalize hexDigits (u :: rest) = digits at hs hne hfew hdigits ⊢
      rw [← hs, List.drop_left, List.take_length_add_append]
      exact .hex hne hfew hdigits (isBlank_take left)
    · next hhex =>
      split
      · next hpair =>
        cases rest with
        | nil => exact absurd hpair (by simp [CodeUnit.isPair, CodeUnit.isLowSurrogate])
        | cons v rest => exact .pair hpair
      · obtain ⟨hzero, hline⟩ := CodeUnit.isValidEscape_backslash_iff.mp hescape
        exact .unit (Bool.eq_false_iff.mpr hhex) hzero hline

theorem IsBody.isValidEscape {body : CodeUnits} (h : IsBody body) (rest : CodeUnits) :
    CodeUnit.isValidEscape CodeUnit.backslash (ahead (body ++ rest) 0) = true := by
  cases h with
  | @hex digits blank hne hfew hdigits hblank =>
    cases digits with
    | nil => exact absurd rfl hne
    | cons u digits =>
      have hu := hdigits u List.mem_cons_self
      exact CodeUnit.isValidEscape_of_isName (CodeUnit.isName_of_isHexDigit hu)
  | pair hpair =>
    rw [CodeUnit.isPair, Bool.and_eq_true] at hpair
    exact CodeUnit.isValidEscape_of_isName (CodeUnit.isName_of_isHighSurrogate hpair.1).1
  | unit hhex hzero hline => exact CodeUnit.isValidEscape_backslash_iff.mpr ⟨hzero, hline⟩

end Escape

/-! ## Names behind an escape -/

namespace Name

theorem length_extent_le_drop_whitespace (s : CodeUnits) :
    (extent s).length ≤
      whitespaceLength s + (extent (s.drop (whitespaceLength s))).length := by
  cases s with
  | nil =>
    rw [extent]
    exact Nat.zero_le _
  | cons u rest =>
    cases hspace : u.isWhitespace with
    | true =>
      rw [extent_separator (CodeUnit.isSeparator_of_isWhitespace hspace)]
      exact Nat.zero_le _
    | false =>
      have hnone := (Escape.whitespaceLength_cons u rest).1 hspace
      exact Nat.le_of_eq (by rw [hnone, List.drop_zero, Nat.zero_add])

end Name

namespace Escape

open Name (extent)

/-- Where a whitespace takes more than a blank, a name would not have taken it. -/
theorem IsBlank.exists_length_append {blank : CodeUnits} (h : IsBlank blank) (rest : CodeUnits) :
    ∃ n, whitespaceLength (blank ++ rest) = blank.length + n ∧
      (extent rest).length ≤ n + (extent (rest.drop n)).length := by
  cases h with
  | none =>
    exact ⟨whitespaceLength rest, (Nat.zero_add _).symm,
      Name.length_extent_le_drop_whitespace rest⟩
  | pair => exact ⟨0, rfl, Nat.le_add_left _ _⟩
  | @unit u hspace =>
    cases hpair : u == CodeUnit.carriageReturn && ahead rest 0 == CodeUnit.lineFeed with
    | true =>
      refine ⟨1, ?_, ?_⟩
      · exact if_pos hpair
      · rw [Bool.and_eq_true, beq_iff_eq, beq_iff_eq] at hpair
        obtain ⟨rest, rfl⟩ := CodeUnits.exists_of_ahead hpair.2 (by decide)
        rw [Name.extent_separator (by decide)]
        exact Nat.zero_le _
    | false =>
      refine ⟨0, ?_, Nat.le_add_left _ _⟩
      show (if u == CodeUnit.carriageReturn && ahead rest 0 == CodeUnit.lineFeed then 2
        else if u.isWhitespace then 1 else 0) = 1
      rw [hpair, if_neg Bool.false_ne_true, if_pos hspace]

theorem IsBlank.eq_nil_of_isHexDigit {blank rest left : CodeUnits} {u : CodeUnit}
    (h : IsBlank blank) (hrest : blank ++ rest = u :: left) (hhex : u.isHexDigit = true) :
    blank = [] := by
  cases h with
  | none => rfl
  | pair =>
    obtain rfl := (List.cons.inj hrest).1
    exact absurd hhex (by decide)
  | unit hspace =>
    obtain rfl := (List.cons.inj hrest).1
    have hnot := CodeUnit.of_isSeparator (CodeUnit.isSeparator_of_isWhitespace hspace)
      (p := fun u => !u.isHexDigit) (by decide)
    rw [hhex] at hnot
    exact absurd hnot Bool.false_ne_true

/-- Behind digits an escape takes the digits that still fit, and a whitespace. -/
theorem length_append_of_hexDigits {digits : CodeUnits} (hne : digits ≠ [])
    (hfew : digits.length ≤ 6) (hdigits : ∀ u ∈ digits, u.isHexDigit = true) (rest : CodeUnits) :
    ∃ more left, rest = more ++ left ∧ (∀ u ∈ more, u.isHexDigit = true) ∧
      length (digits ++ rest) = digits.length + (more.length + whitespaceLength left) := by
  have hall : hexDigits (digits ++ rest) =
      digits ++ (rest.take (6 - digits.length)).takeWhile CodeUnit.isHexDigit := by
    rw [hexDigits, List.take_append, List.take_of_length_le hfew,
      List.takeWhile_append_of_pos hdigits]
  have hmore : ∀ u ∈ (rest.take (6 - digits.length)).takeWhile CodeUnit.isHexDigit,
      u.isHexDigit = true := fun u => List.all_eq_true.mp List.all_takeWhile u
  obtain ⟨left, hrest⟩ :
      (rest.take (6 - digits.length)).takeWhile CodeUnit.isHexDigit <+: rest :=
    (List.takeWhile_prefix _).trans (List.take_prefix _ _)
  have hlength : length (digits ++ rest) = (hexDigits (digits ++ rest)).length +
      whitespaceLength ((digits ++ rest).drop (hexDigits (digits ++ rest)).length) := by
    cases digits with
    | nil => exact absurd rfl hne
    | cons u digits => exact if_pos (hdigits u List.mem_cons_self)
  rw [hall] at hlength
  generalize (rest.take (6 - digits.length)).takeWhile CodeUnit.isHexDigit = more
    at hmore hrest hlength
  refine ⟨more, left, hrest.symm, hmore, ?_⟩
  rw [hlength, ← hrest, ← List.append_assoc, List.drop_left, List.length_append, Nat.add_assoc]

/-- An escape that takes more than a body takes no more than a name would have taken from what is
behind the body. -/
theorem IsBody.exists_length_append {body : CodeUnits} (h : IsBody body) (rest : CodeUnits) :
    ∃ n, length (body ++ rest) = body.length + n ∧
      (extent rest).length ≤ n + (extent (rest.drop n)).length := by
  cases h with
  | @hex digits blank hne hfew hdigits hblank =>
    obtain ⟨more, left, hrest, hmore, hlength⟩ :=
      length_append_of_hexDigits hne hfew hdigits (blank ++ rest)
    rw [List.append_assoc, hlength, List.length_append]
    by_cases hnone : more = []
    · -- No further digit: what is longer is the blank.
      subst hnone
      obtain ⟨n, hspace, hname⟩ := hblank.exists_length_append rest
      refine ⟨n, ?_, hname⟩
      rw [← hrest.trans (List.nil_append left), hspace, List.length_nil]
      omega
    · have hempty : blank = [] := by
        obtain ⟨v, more, rfl⟩ := List.exists_cons_of_ne_nil hnone
        exact hblank.eq_nil_of_isHexDigit hrest (hmore v List.mem_cons_self)
      subst hempty
      refine ⟨more.length + whitespaceLength left, by simp, ?_⟩
      have hspace := Name.length_extent_le_drop_whitespace left
      rw [List.nil_append] at hrest
      have hnames := Name.extent_append_of_isName
        (fun u hu => CodeUnit.isName_of_isHexDigit (hmore u hu)) left
      rw [hrest, hnames, List.drop_length_add_append]
      dsimp only
      omega
  | @pair high low hpair =>
    refine ⟨0, ?_, Nat.le_add_left _ _⟩
    have hhigh : high.isHighSurrogate = true := by
      rw [CodeUnit.isPair, Bool.and_eq_true] at hpair
      exact hpair.1
    have hhex := (CodeUnit.isName_of_isHighSurrogate hhigh).2
    show (if high.isHexDigit then _ else if CodeUnit.isPair high low then 2 else 1) = 2
    rw [hhex, if_neg Bool.false_ne_true, if_pos hpair]
  | @unit u hhex hzero hline =>
    have hlength : length ([u] ++ rest) = if CodeUnit.isPair u (ahead rest 0) then 2 else 1 := by
      show (if u.isHexDigit then _ else if CodeUnit.isPair u (ahead rest 0) then 2 else 1) = _
      rw [hhex, if_neg Bool.false_ne_true]
    cases hpair : CodeUnit.isPair u (ahead rest 0) with
    | false => exact ⟨0, by rw [hlength, hpair]; rfl, Nat.le_add_left _ _⟩
    | true =>
      refine ⟨1, by rw [hlength, hpair]; rfl, ?_⟩
      rw [CodeUnit.isPair, Bool.and_eq_true] at hpair
      cases rest with
      | nil => exact absurd hpair.2 (by decide)
      | cons low rest =>
        have hlow : low.isName = true := CodeUnit.isName_of_isLowSurrogate hpair.2
        rw [extent, if_pos hlow]
        exact Nat.le_refl _

/-- The escape at the start of a text is read whole: its body is the longest there. -/
theorem isLongest_take {s : CodeUnits}
    (hescape : CodeUnit.isValidEscape CodeUnit.backslash (ahead s 0) = true) :
    CodeUnits.IsLongest IsBody s (s.take (length s)) := by
  refine .of_take (length_le s) (isBody_take hescape) ?_
  rintro body rest hbody rfl
  obtain ⟨n, hlength, -⟩ := hbody.exists_length_append rest
  omega

end Escape

/-! ## Names -/

namespace Name

inductive IsSequence : CodeUnits → Prop
  | nil : IsSequence []
  | unit {u : CodeUnit} {x : CodeUnits} (hname : u.isName = true) (hrest : IsSequence x) :
      IsSequence (u :: x)
  | escape {body x : CodeUnits} (hbody : Escape.IsBody body) (hrest : IsSequence x) :
      IsSequence (CodeUnit.backslash :: (body ++ x))

/-- The sequence of name units and escapes at the start of a text in which every escape is the
longest at its place. -/
inductive Covers : CodeUnits → CodeUnits → Prop
  | nil (s : CodeUnits) : Covers s []
  | unit {u : CodeUnit} {s x : CodeUnits} (hname : u.isName = true) (hrest : Covers s x) :
      Covers (u :: s) (u :: x)
  | escape {body s x : CodeUnits} (hbody : CodeUnits.IsLongest Escape.IsBody s body)
      (hrest : Covers (s.drop body.length) x) :
      Covers (CodeUnit.backslash :: s) (CodeUnit.backslash :: (body ++ x))

/-- A name that is taken whole: its escapes are taken greedily, no sequence of name units and
escapes at its place is longer, and it does not go on behind its end. -/
structure IsWhole (s name : CodeUnits) : Prop where
  ne_nil : name ≠ []
  covers : Covers s name
  longest : CodeUnits.IsLongest IsSequence s name
  stopsUnits : (ahead s name.length).isName = false
  stopsEscapes : startsEscape (s.drop name.length) = false

theorem Covers.isSequence {s x : CodeUnits} (h : Covers s x) : IsSequence x := by
  induction h with
  | nil => exact .nil
  | unit hname _ ih => exact .unit hname ih
  | escape hbody _ ih => exact .escape hbody.holds ih

theorem covers_take (s : CodeUnits) : Covers s (s.take (extent s).length) := by
  fun_induction extent s with
  | case1 => exact .nil []
  | case2 u rest hname tail ih =>
    rw [Nat.add_comm, List.take_succ_cons]
    exact .unit hname ih
  | case3 u rest hname hescape body tail ih =>
    obtain rfl := CodeUnit.eq_backslash_of_isValidEscape hescape
    have hlength : (rest.take body).length = body :=
      List.length_take_of_le (Escape.length_le rest)
    have hrest : Covers (rest.drop (rest.take body).length)
        ((rest.drop body).take (extent (rest.drop body)).length) := by
      rw [hlength]
      exact ih
    rw [Nat.add_assoc, Nat.add_comm, List.take_succ_cons, List.take_add]
    exact .escape (Escape.isLongest_take hescape) hrest
  | case4 u rest hname hescape => exact .nil (u :: rest)

theorem IsSequence.length_le {x : CodeUnits} (h : IsSequence x) (rest : CodeUnits) :
    x.length ≤ (extent (x ++ rest)).length := by
  induction h with
  | nil => exact Nat.zero_le _
  | @unit u x hname _ ih =>
    rw [List.cons_append, extent, if_pos hname, List.length_cons]
    dsimp only
    omega
  | @escape body x hbody _ ih =>
    -- The reader may take `n` units more than the body; without them a name loses `n` at most.
    obtain ⟨n, hlength, hname⟩ := hbody.exists_length_append (x ++ rest)
    have hescape := hbody.isValidEscape (x ++ rest)
    rw [List.cons_append, List.append_assoc, extent, if_neg (by decide), if_pos hescape, hlength]
    dsimp only
    rw [List.drop_length_add_append, List.length_cons, List.length_append]
    omega

theorem isLongest_take (s : CodeUnits) :
    CodeUnits.IsLongest IsSequence s (s.take (extent s).length) := by
  refine .of_take (length_extent_le s) (covers_take s).isSequence ?_
  rintro x rest hx rfl
  exact hx.length_le rest

theorem stops_extent (s : CodeUnits) :
    (ahead (s.drop (extent s).length) 0).isName = false ∧
      startsEscape (s.drop (extent s).length) = false := by
  fun_induction extent s with
  | case1 => decide
  | case2 u rest hname tail ih =>
    rw [Nat.add_comm, List.drop_succ_cons]
    exact ih
  | case3 u rest hname hescape body tail ih =>
    rw [Nat.add_assoc, Nat.add_comm, List.drop_succ_cons, ← List.drop_drop]
    exact ih
  | case4 u rest hname hescape =>
    exact ⟨Bool.eq_false_iff.mpr hname, Bool.eq_false_iff.mpr hescape⟩

theorem isWhole_take {s : CodeUnits} (hpos : 0 < (extent s).length) :
    IsWhole s (s.take (extent s).length) := by
  have hlength := List.length_take_of_le (length_extent_le s)
  obtain ⟨hunits, hescapes⟩ := stops_extent s
  refine ⟨?_, covers_take s, isLongest_take s, ?_, ?_⟩
  · rw [← List.length_pos_iff, hlength]
    exact hpos
  · rw [hlength, ← Nat.add_zero (extent s).length, ← CodeUnits.ahead_drop]
    exact hunits
  · rw [hlength]
    exact hescapes

theorem escaped_extent_iff (s : CodeUnits) :
    (extent s).escaped = true ↔ CodeUnit.backslash ∈ s.take (extent s).length := by
  fun_induction extent s with
  | case1 => simp
  | case2 u rest hname tail ih =>
    have hslash : CodeUnit.backslash ≠ u := by
      rintro rfl
      exact absurd hname (by decide)
    rw [Nat.add_comm, List.take_succ_cons, List.mem_cons, or_iff_right hslash]
    exact ih
  | case3 u rest hname hescape body tail ih =>
    obtain rfl := CodeUnit.eq_backslash_of_isValidEscape hescape
    rw [Nat.add_assoc, Nat.add_comm, List.take_succ_cons]
    exact iff_of_true rfl List.mem_cons_self
  | case4 u rest hname hescape => simp

theorem extent_take (s : CodeUnits) : extent (s.take (extent s).length) = extent s := by
  have hself := (isLongest_take s).holds.length_le []
  have hle := length_extent_le (s.take (extent s).length)
  rw [List.append_nil] at hself
  rw [List.length_take_of_le (length_extent_le s)] at hself hle
  have hlength := Nat.le_antisymm hle hself
  have hescaped : (extent (s.take (extent s).length)).escaped = (extent s).escaped := by
    rw [Bool.eq_iff_iff, escaped_extent_iff, escaped_extent_iff, hlength, List.take_take,
      Nat.min_self]
  calc extent (s.take (extent s).length)
      = ⟨(extent (s.take (extent s).length)).length,
          (extent (s.take (extent s).length)).escaped⟩ := rfl
    _ = ⟨(extent s).length, (extent s).escaped⟩ := by rw [hlength, hescaped]

end Name

end StyleRules
