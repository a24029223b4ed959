import StyleRules.Proofs.Token.Longest

/-!
# Units that are escaped

Read from the left, a backslash takes the unit behind it and with it the meaning of that unit. This
pairs backslashes with single units, while the readers step over an escape of many units at once.
The two agree: what an escape holds behind its first unit is a digit, whitespace or a surrogate.
-/

namespace StyleRules

open CodeUnits (ahead newlineLength whitespaceLength)

namespace CodeUnit

variable {u : CodeUnit}

theorem isNewline_of_isName (h : u.isName = true) : u.isNewline = false :=
  (isValidEscape_backslash_iff.mp (isValidEscape_of_isName h)).2

theorem isWhitespace_of_isNewline (h : u.isNewline = true) : u.isWhitespace = true := by
  simp [isWhitespace, h]

end CodeUnit

namespace CodeUnits

def isEscaped (s : CodeUnits) : Nat → Bool
  | 0 => false
  | i + 1 => ahead s i == CodeUnit.backslash && !isEscaped s i

structure Unescaped (c : CodeUnit) (s : CodeUnits) (i : Nat) : Prop where
  unit : ahead s i = c
  free : isEscaped s i = false

variable {c : CodeUnit} {s rest : CodeUnits} {n i : Nat}

theorem ahead_of_prefix {x : CodeUnits} (h : x <+: s) (hi : i < x.length) :
    ahead s i = ahead x i := by
  obtain ⟨left, rfl⟩ := h
  exact ahead_append_of_lt left hi

theorem exists_ahead_of_mem {u : CodeUnit} (h : u ∈ s) : ∃ i < s.length, ahead s i = u := by
  obtain ⟨i, hi, rfl⟩ := List.mem_iff_getElem.mp h
  exact ⟨i, hi, by simp [ahead, hi]⟩

/-- From a unit that is not escaped on, what is escaped does not depend on what stands before. -/
theorem isEscaped_add (hn : isEscaped s n = false) (i : Nat) :
    isEscaped s (n + i) = isEscaped (s.drop n) i := by
  induction i with
  | zero => exact hn
  | succ i ih => rw [← Nat.add_assoc, isEscaped, isEscaped, ih, ahead_drop]

theorem unescaped_add (hn : isEscaped s n = false) :
    Unescaped c s (n + i) ↔ Unescaped c (s.drop n) i := by
  constructor
  · rintro ⟨hunit, hfree⟩
    exact ⟨by rw [ahead_drop, hunit], by rw [← isEscaped_add hn, hfree]⟩
  · rintro ⟨hunit, hfree⟩
    exact ⟨by rw [← ahead_drop, hunit], by rw [isEscaped_add hn, hfree]⟩

theorem Unescaped.lt_length (h : Unescaped c s i) (hc : c ≠ 0) : i < s.length := by
  apply ahead_ne_zero
  rw [h.unit]
  exact hc

theorem isEscaped_one {u : CodeUnit} (hu : u ≠ CodeUnit.backslash) :
    isEscaped (u :: rest) 1 = false := by
  simp [isEscaped, hu]

/-! ## Whitespace that closes an escape -/

/-- The newline that begins at one offset holds another one, CR LF being one newline. -/
def InNewline (s : CodeUnits) (start i : Nat) : Prop :=
  i = start ∨ i = start + 1 ∧ ahead s start = CodeUnit.carriageReturn ∧
    ahead s i = CodeUnit.lineFeed

theorem inNewline_drop {start : Nat} :
    InNewline (s.drop n) start i ↔ InNewline s (n + start) (n + i) := by
  unfold InNewline
  rw [ahead_drop, ahead_drop]
  constructor <;> rintro (h | ⟨h, hpair⟩)
  · exact .inl (by omega)
  · exact .inr ⟨by omega, hpair⟩
  · exact .inl (by omega)
  · exact .inr ⟨by omega, hpair⟩

theorem whitespaceLength_pos (h : (ahead s 0).isWhitespace = true) : 0 < whitespaceLength s := by
  unfold whitespaceLength
  rw [if_pos h]
  split <;> omega

theorem lt_whitespaceLength_iff (h : (ahead s 0).isWhitespace = true) :
    i < whitespaceLength s ↔ InNewline s 0 i := by
  unfold whitespaceLength InNewline
  rw [if_pos h]
  split
  · next hpair =>
    rw [Bool.and_eq_true, beq_iff_eq, beq_iff_eq] at hpair
    constructor
    · intro hi
      obtain rfl | rfl : i = 0 ∨ i = 1 := by omega
      · exact .inl rfl
      · exact .inr ⟨rfl, hpair⟩
    · omega
  · next hpair =>
    rw [Bool.and_eq_true, beq_iff_eq, beq_iff_eq] at hpair
    constructor
    · intro hi
      exact .inl (by omega)
    · rintro (rfl | ⟨rfl, hboth⟩)
      · exact Nat.one_pos
      · exact absurd hboth hpair

theorem InNewline.isWhitespace {start : Nat} (h : InNewline s start i)
    (hstart : (ahead s start).isWhitespace = true) : (ahead s i).isWhitespace = true := by
  rcases h with rfl | ⟨-, -, hfeed⟩
  · exact hstart
  · rw [hfeed]
    decide

theorem newlineLength_eq (h : (ahead s 0).isNewline = true) :
    newlineLength s = whitespaceLength s := by
  unfold newlineLength whitespaceLength
  rw [h, CodeUnit.isWhitespace_of_isNewline h]

theorem whitespaceLength_of_not (h : (ahead s 0).isWhitespace = false) :
    whitespaceLength s = 0 := by
  cases s with
  | nil => rfl
  | cons u rest => exact (Escape.whitespaceLength_cons u rest).1 h

end CodeUnits

/-! ## What an escape holds -/

namespace Escape

variable {s rest : CodeUnits} {i k : Nat}

theorem isHexDigit_of_lt (hi : i < (hexDigits s).length) : (ahead s i).isHexDigit = true := by
  have hprefix : hexDigits s <+: s := (List.takeWhile_prefix _).trans (List.take_prefix 6 _)
  rw [CodeUnits.ahead_of_prefix hprefix hi]
  exact List.all_eq_true.mp List.all_takeWhile _ (CodeUnits.ahead_mem hi)

theorem length_of_digits (hpos : 1 ≤ k) (hfew : k ≤ 6)
    (hdigits : ∀ i < k, (ahead s i).isHexDigit = true) (hend : (ahead s k).isHexDigit = false) :
    length s = k + whitespaceLength (s.drop k) := by
  have hlength : (s.take k).length = k := by
    apply List.length_take_of_le
    have hlast : ahead s (k - 1) ≠ 0 := by
      intro hzero
      have hhex := hdigits (k - 1) (by omega)
      rw [hzero] at hhex
      exact absurd hhex (by decide)
    have := CodeUnits.ahead_ne_zero hlast
    omega
  have hall : ∀ u ∈ s.take k, u.isHexDigit = true := by
    intro u hu
    obtain ⟨i, hi, rfl⟩ := CodeUnits.exists_ahead_of_mem hu
    have hik : i < k := by omega
    rw [CodeUnits.ahead_take s hik]
    exact hdigits i hik
  obtain ⟨more, left, hrest, hmore, hwhole⟩ :=
    length_append_of_hexDigits (List.length_pos_iff.mp (by omega)) (by omega) hall (s.drop k)
  have hnone : more = [] := by
    cases more with
    | nil => rfl
    | cons u more =>
      have hu : ahead (s.drop k) 0 = u := by rw [hrest]; rfl
      rw [CodeUnits.ahead_drop] at hu
      rw [Nat.add_zero] at hu
      rw [hu, hmore u List.mem_cons_self] at hend
      exact absurd hend.symm Bool.false_ne_true
  rw [List.take_append_drop, hlength, hnone, List.length_nil, Nat.zero_add] at hwhole
  rw [hwhole, hrest, hnone, List.nil_append]

/-- Behind the first unit of an escape stand units of a name, or the whitespace that closes it. -/
theorem tail_length (hpos : 1 ≤ i) (hi : i < length s) :
    (ahead s i).isName = true ∨ ∃ k ≤ 6, (∀ j < k, (ahead s j).isHexDigit = true) ∧
      (ahead s k).isWhitespace = true ∧ CodeUnits.InNewline s k i := by
  cases s with
  | nil => exact absurd hi (Nat.not_lt_zero i)
  | cons u rest =>
    rw [length] at hi
    split at hi
    · dsimp only at hi
      by_cases hdigit : i < (hexDigits (u :: rest)).length
      · exact .inl (CodeUnit.isName_of_isHexDigit (isHexDigit_of_lt hdigit))
      · right
        have hfew : (hexDigits (u :: rest)).length ≤ 6 :=
          Nat.le_trans (List.takeWhile_sublist _).length_le (List.length_take_le 6 _)
        have hdigits : ∀ j < (hexDigits (u :: rest)).length,
            (ahead (u :: rest) j).isHexDigit = true := fun j hj => isHexDigit_of_lt hj
        generalize (hexDigits (u :: rest)).length = k at hi hdigit hfew hdigits
        obtain ⟨m, rfl⟩ : ∃ m, i = k + m := ⟨i - k, by omega⟩
        have hclosing : m < whitespaceLength ((u :: rest).drop k) := by omega
        have hspace : (ahead ((u :: rest).drop k) 0).isWhitespace = true := by
          rw [← Bool.not_eq_false]
          intro hno
          rw [CodeUnits.whitespaceLength_of_not hno] at hclosing
          exact absurd hclosing (Nat.not_lt_zero m)
        rw [CodeUnits.lt_whitespaceLength_iff hspace, CodeUnits.inNewline_drop] at hclosing
        rw [CodeUnits.ahead_drop] at hspace
        exact ⟨k, hfew, hdigits, hspace, hclosing⟩
    · split at hi
      · next hpair =>
        left
        obtain rfl : i = 1 := by omega
        rw [CodeUnit.isPair, Bool.and_eq_true] at hpair
        exact CodeUnit.isName_of_isLowSurrogate hpair.2
      · omega

end Escape

/-! ## Stepping over an escape -/

/-- What a backslash takes along: a unit, and behind it units of names and whitespace. -/
structure Escape.Takes (rest : CodeUnits) (n : Nat) : Prop where
  pos : 1 ≤ n
  tail : ∀ i, 1 ≤ i → i < n → (ahead rest i).isName = true ∨ (ahead rest i).isWhitespace = true

namespace Escape

variable {rest : CodeUnits} {n : Nat}

theorem takes_length (hrest : rest ≠ []) : Takes rest (length rest) := by
  refine ⟨length_pos hrest, fun i hpos hi => ?_⟩
  rcases tail_length hpos hi with hname | ⟨k, -, -, hspace, hnewline⟩
  · exact .inl hname
  · exact .inr (hnewline.isWhitespace hspace)

theorem Takes.mono {m : Nat} (h : Takes rest n) (hpos : 1 ≤ m) (hle : m ≤ n) : Takes rest m :=
  ⟨hpos, fun i hfirst hi => h.tail i hfirst (Nat.lt_of_lt_of_le hi hle)⟩

theorem IsBody.ne_nil {body : CodeUnits} (h : IsBody body) : body ≠ [] := by
  rintro rfl
  exact absurd (h.isValidEscape []) (by decide)

/-- What the reader takes beyond the body of an escape are units of names and whitespace. -/
theorem IsBody.takes {body : CodeUnits} (h : IsBody body) (rest : CodeUnits) :
    ∃ n, length (body ++ rest) = body.length + n ∧ Takes (body ++ rest) (body.length + n) := by
  obtain ⟨n, hlength, -⟩ := h.exists_length_append rest
  refine ⟨n, hlength, ?_⟩
  rw [← hlength]
  exact takes_length (List.append_ne_nil_of_left_ne_nil h.ne_nil rest)

theorem Takes.isEscaped_eq (h : Takes rest n) :
    CodeUnits.isEscaped (CodeUnit.backslash :: rest) (1 + n) = false := by
  obtain ⟨m, rfl⟩ : ∃ m, n = m + 1 := ⟨n - 1, by have := h.pos; omega⟩
  rw [Nat.add_comm, CodeUnits.isEscaped, CodeUnits.ahead_cons_succ]
  cases m with
  | zero => exact Bool.and_false _
  | succ m =>
    have hslash : ahead rest (m + 1) ≠ CodeUnit.backslash := by
      intro hslash
      have := h.tail (m + 1) (by omega) (by omega)
      rw [hslash] at this
      exact absurd this (by decide)
    simp [hslash]

/-- A unit that is neither of a name nor whitespace is escaped wherever it stands in an escape. -/
theorem Takes.eq_zero_of_unescaped {c : CodeUnit} {j : Nat} (h : Takes rest n)
    (hname : c.isName = false) (hspace : c.isWhitespace = false) (hj : j < 1 + n)
    (hc : CodeUnits.Unescaped c (CodeUnit.backslash :: rest) j) : j = 0 := by
  match j with
  | 0 => rfl
  | 1 => exact absurd (show true = false from hc.free) (by decide)
  | j + 2 =>
    have htail := h.tail (j + 1) (by omega) (by omega)
    have hunit : ahead rest (j + 1) = c := hc.unit
    rw [hunit, hname, hspace] at htail
    exact absurd htail (by decide)

end Escape

end StyleRules
