import Mathlib.Order.Bounds.Basic
import StyleRules.Proofs.Token.Escaped

/-!
# Where strings and comments end

A string is read to the first of two places: its quote where that is not escaped, or a newline that
neither continues the line behind a backslash nor closes a hexadecimal escape. A comment is read to
the first `*/` behind its opening. Where there is no such place in the addressable text the token
ends with that text.
-/

namespace StyleRules

open CodeUnits (ahead isEscaped InNewline Unescaped)

theorem isLeast_of_forall_lt {p : Nat → Prop} {i : Nat} (hi : p i) (hbefore : ∀ j < i, ¬p j) :
    IsLeast {i | p i} i :=
  ⟨hi, fun j hj => Nat.le_of_not_lt fun hlt => hbefore j hlt hj⟩

namespace Token

def outline (token : Token) : Kind × Bool × Nat :=
  (token.kind, token.flags.unterminated, token.length)

theorem outline_grow_iff {token : Token} {kind : Kind} {unterminated : Bool} {m n length : Nat}
    (hlength : m = n + length) : (token.grow n).outline = (kind, unterminated, m) ↔
      token.outline = (kind, unterminated, length) := by
  subst hlength
  simp [outline, grow]

end Token

namespace CodeUnit

variable {quote : CodeUnit}

theorem eq_or_eq_of_isQuote (h : quote.isQuote = true) :
    quote = quotationMark ∨ quote = apostrophe := by
  rwa [isQuote, Bool.or_eq_true, beq_iff_eq, beq_iff_eq] at h

theorem isName_of_isQuote (h : quote.isQuote = true) : quote.isName = false := by
  rcases eq_or_eq_of_isQuote h with rfl | rfl <;> decide

theorem isWhitespace_of_isQuote (h : quote.isQuote = true) : quote.isWhitespace = false := by
  rcases eq_or_eq_of_isQuote h with rfl | rfl <;> decide

end CodeUnit

/-! ## Newlines in strings -/

namespace CodeUnits

variable {s rest : CodeUnits} {n i : Nat}

/-- A newline behind a backslash continues the line. -/
def Continues (s : CodeUnits) (i : Nat) : Prop :=
  ∃ slash, Unescaped CodeUnit.backslash s slash ∧ InNewline s (slash + 1) i

/-- A newline is the whitespace that closes an escape of one to six hexadecimal digits. -/
def ClosesHex (s : CodeUnits) (i : Nat) : Prop :=
  ∃ slash digits, Unescaped CodeUnit.backslash s slash ∧ 1 ≤ digits ∧ digits ≤ 6 ∧
    (∀ j < digits, (ahead s (slash + 1 + j)).isHexDigit = true) ∧
    InNewline s (slash + 1 + digits) i

structure Breaks (s : CodeUnits) (i : Nat) : Prop where
  newline : (ahead s i).isNewline = true
  not_continues : ¬Continues s i
  not_closesHex : ¬ClosesHex s i

theorem Breaks.not_unescaped {quote : CodeUnit} (h : Breaks s i) (hquote : quote.isQuote = true) :
    ¬Unescaped quote s i := by
  intro hunit
  have hline := h.newline
  rw [hunit.unit] at hline
  rcases CodeUnit.eq_or_eq_of_isQuote hquote with rfl | rfl <;> exact absurd hline (by decide)

/-- What ends a string: its quote, or a newline. -/
def Stops (quote : CodeUnit) (s : CodeUnits) (i : Nat) : Prop := Unescaped quote s i ∨ Breaks s i

theorem Stops.lt_length {quote : CodeUnit} (h : Stops quote s i) (hquote : quote.isQuote = true) :
    i < s.length := by
  rcases h with h | h
  · apply h.lt_length
    rcases CodeUnit.eq_or_eq_of_isQuote hquote with rfl | rfl <;> decide
  · apply ahead_ne_zero
    intro hzero
    have hnewline := h.newline
    rw [hzero] at hnewline
    exact absurd hnewline (by decide)

/-- A backslash and at most six hexadecimal digits take the newline that stands behind them. -/
theorem continues_or_closesHex_iff : Continues s i ∨ ClosesHex s i ↔
    ∃ slash digits, Unescaped CodeUnit.backslash s slash ∧ digits ≤ 6 ∧
      (∀ j < digits, (ahead s (slash + 1 + j)).isHexDigit = true) ∧
      InNewline s (slash + 1 + digits) i := by
  constructor
  · rintro (⟨slash, hslash, hnewline⟩ | ⟨slash, digits, hslash, -, hfew, hhex, hnewline⟩)
    · exact ⟨slash, 0, hslash, Nat.zero_le 6, fun j hj => absurd hj (Nat.not_lt_zero j), hnewline⟩
    · exact ⟨slash, digits, hslash, hfew, hhex, hnewline⟩
  · rintro ⟨slash, digits, hslash, hfew, hhex, hnewline⟩
    by_cases hzero : digits = 0
    · subst hzero
      exact .inl ⟨slash, hslash, hnewline⟩
    · exact .inr ⟨slash, digits, hslash, Nat.pos_of_ne_zero hzero, hfew, hhex, hnewline⟩

theorem breaks_iff : Breaks s i ↔
    (ahead s i).isNewline = true ∧ ¬(Continues s i ∨ ClosesHex s i) :=
  ⟨fun h => ⟨h.newline, not_or.mpr ⟨h.not_continues, h.not_closesHex⟩⟩,
    fun ⟨hnewline, hfree⟩ => ⟨hnewline, (not_or.mp hfree).1, (not_or.mp hfree).2⟩⟩

theorem InNewline.isNewline_start {start : Nat} (h : InNewline s start i)
    (hi : (ahead s i).isNewline = true) : (ahead s start).isNewline = true := by
  rcases h with rfl | ⟨-, hreturn, -⟩
  · exact hi
  · rw [hreturn]
    decide

theorem breaks_zero (h : (ahead s 0).isNewline = true) : Breaks s 0 := by
  have hbefore {start : Nat} (hin : InNewline s start 0) : start = 0 := by
    rcases hin with rfl | ⟨hzero, -⟩
    · rfl
    · exact absurd hzero (Nat.succ_ne_zero start).symm
  refine ⟨h, ?_, ?_⟩
  · rintro ⟨slash, -, hin⟩
    exact absurd (hbefore hin) (Nat.succ_ne_zero slash)
  · rintro ⟨slash, digits, -, -, -, -, hin⟩
    have := hbefore hin
    omega

/-! ## Stepping through a string -/

/-- Units that a string is read over in one step: nothing in them ends it, and they hold all that a
backslash in them takes. -/
structure Step (quote : CodeUnit) (s : CodeUnits) (n : Nat) : Prop where
  free : isEscaped s n = false
  inside : ∀ i < n, ¬Stops quote s i
  whole : ∀ slash < n, Unescaped CodeUnit.backslash s slash → ∀ digits ≤ 6,
    (∀ j < digits, (ahead s (slash + 1 + j)).isHexDigit = true) →
    ∀ i, (ahead s i).isNewline = true → InNewline s (slash + 1 + digits) i → i < n

theorem Step.breaks_add {quote : CodeUnit} (h : Step quote s n) :
    Breaks s (n + i) ↔ Breaks (s.drop n) i := by
  rw [breaks_iff, breaks_iff, ahead_drop, and_congr_right_iff]
  intro hnewline
  rw [not_iff_not, continues_or_closesHex_iff, continues_or_closesHex_iff]
  constructor
  · rintro ⟨slash, digits, hslash, hfew, hhex, hin⟩
    have hle : n ≤ slash := by
      by_contra hlt
      have := h.whole slash (by omega) hslash digits hfew hhex _ hnewline hin
      omega
    obtain ⟨m, rfl⟩ := Nat.exists_eq_add_of_le hle
    refine ⟨m, digits, (unescaped_add h.free).mp hslash, hfew, fun j hj => ?_, ?_⟩
    · rw [ahead_drop, ← Nat.add_assoc, ← Nat.add_assoc]
      exact hhex j hj
    · rw [inNewline_drop, ← Nat.add_assoc, ← Nat.add_assoc]
      exact hin
  · rintro ⟨slash, digits, hslash, hfew, hhex, hin⟩
    refine ⟨n + slash, digits, (unescaped_add h.free).mpr hslash, hfew, fun j hj => ?_, ?_⟩
    · rw [Nat.add_assoc, Nat.add_assoc, ← ahead_drop, ← Nat.add_assoc]
      exact hhex j hj
    · rw [Nat.add_assoc, Nat.add_assoc, ← inNewline_drop, ← Nat.add_assoc]
      exact hin

theorem Step.stops_add {quote : CodeUnit} (h : Step quote s n) :
    Stops quote s (n + i) ↔ Stops quote (s.drop n) i :=
  or_congr (unescaped_add h.free) h.breaks_add

/-- A unit that is neither the quote nor a newline does not end the string. -/
theorem not_stops_zero {quote u : CodeUnit} (hquote : u ≠ quote) (hline : u.isNewline = false)
    (rest : CodeUnits) : ¬Stops quote (u :: rest) 0 := by
  rintro (h | h)
  · exact hquote h.unit
  · rw [show u.isNewline = true from h.newline] at hline
    exact absurd hline.symm Bool.false_ne_true

/-- A unit that is neither the quote, a newline nor a backslash is one step. -/
theorem step_unit {quote u : CodeUnit} (hquote : u ≠ quote) (hline : u.isNewline = false)
    (hslash : u ≠ CodeUnit.backslash) (rest : CodeUnits) : Step quote (u :: rest) 1 := by
  refine ⟨isEscaped_one hslash, fun i hi => ?_, fun slash hlt h => ?_⟩
  · obtain rfl : i = 0 := by omega
    exact not_stops_zero hquote hline rest
  · obtain rfl : slash = 0 := by omega
    exact absurd h.unit hslash

end CodeUnits

namespace Escape

variable {s rest : CodeUnits} {i : Nat}

theorem tail_lengthInString (hpos : 1 ≤ i) (hi : i < lengthInString s) :
    (ahead s i).isName = true ∨ ∃ k ≤ 6, (∀ j < k, (ahead s j).isHexDigit = true) ∧
      (ahead s k).isWhitespace = true ∧ InNewline s k i := by
  unfold lengthInString at hi
  split at hi
  · next hline =>
    have hspace := CodeUnit.isWhitespace_of_isNewline hline
    rw [CodeUnits.newlineLength_eq hline, CodeUnits.lt_whitespaceLength_iff hspace] at hi
    exact .inr ⟨0, Nat.zero_le 6, fun j hj => absurd hj (Nat.not_lt_zero j), hspace, hi⟩
  · exact tail_length hpos hi

theorem takes_lengthInString (hrest : rest ≠ []) : Takes rest (lengthInString rest) := by
  constructor
  · unfold lengthInString
    split
    · next hline =>
      rw [CodeUnits.newlineLength_eq hline]
      exact CodeUnits.whitespaceLength_pos (CodeUnit.isWhitespace_of_isNewline hline)
    · exact length_pos hrest
  · intro i hpos hi
    rcases tail_lengthInString hpos hi with hname | ⟨k, -, -, hspace, hin⟩
    · exact .inl hname
    · exact .inr (hin.isWhitespace hspace)

/-- A newline behind a backslash and at most six digits belongs to what the backslash takes. -/
theorem lt_lengthInString {digits : Nat} (hfew : digits ≤ 6)
    (hhex : ∀ j < digits, (ahead rest j).isHexDigit = true)
    (hline : (ahead rest i).isNewline = true) (hin : InNewline rest digits i) :
    i < lengthInString rest := by
  have hstart := hin.isNewline_start hline
  by_cases hzero : digits = 0
  · subst hzero
    have hspace := CodeUnit.isWhitespace_of_isNewline hstart
    unfold lengthInString
    rw [if_pos hstart, CodeUnits.newlineLength_eq hstart, CodeUnits.lt_whitespaceLength_iff hspace]
    exact hin
  · have hfirst := CodeUnit.isNewline_of_isName (CodeUnit.isName_of_isHexDigit (hhex 0 (by omega)))
    have hend : (ahead rest digits).isHexDigit = false := by
      rw [Bool.eq_false_iff]
      intro hdigit
      rw [CodeUnit.isNewline_of_isName (CodeUnit.isName_of_isHexDigit hdigit)] at hstart
      exact absurd hstart Bool.false_ne_true
    have hspace : (ahead (rest.drop digits) 0).isWhitespace = true := by
      rw [CodeUnits.ahead_drop, Nat.add_zero]
      exact CodeUnit.isWhitespace_of_isNewline hstart
    obtain ⟨m, rfl⟩ : ∃ m, i = digits + m := by
      refine ⟨i - digits, ?_⟩
      rcases hin with rfl | ⟨rfl, -⟩ <;> omega
    have hm : m < CodeUnits.whitespaceLength (rest.drop digits) := by
      rw [CodeUnits.lt_whitespaceLength_iff hspace, CodeUnits.inNewline_drop]
      exact hin
    unfold lengthInString
    rw [hfirst, if_neg Bool.false_ne_true,
      length_of_digits (Nat.pos_of_ne_zero hzero) hfew hhex hend]
    omega

theorem not_breaks_of_lt (hi : i < lengthInString rest) :
    ¬CodeUnits.Breaks (CodeUnit.backslash :: rest) (i + 1) := by
  intro hbreaks
  have hslash : Unescaped CodeUnit.backslash (CodeUnit.backslash :: rest) 0 := ⟨rfl, rfl⟩
  obtain ⟨hline, hfree⟩ := CodeUnits.breaks_iff.mp hbreaks
  rw [CodeUnits.continues_or_closesHex_iff] at hfree
  apply hfree
  rw [CodeUnits.ahead_cons_succ] at hline
  by_cases hpos : 1 ≤ i
  · rcases tail_lengthInString hpos hi with hname | ⟨k, hfew, hhex, -, hin⟩
    · rw [CodeUnit.isNewline_of_isName hname] at hline
      exact absurd hline Bool.false_ne_true
    · refine ⟨0, k, hslash, hfew, fun j hj => ?_, ?_⟩
      · rw [Nat.zero_add, Nat.add_comm, CodeUnits.ahead_cons_succ]
        exact hhex j hj
      · rw [Nat.zero_add, Nat.add_comm i, ← CodeUnits.inNewline_drop]
        exact hin
  · obtain rfl : i = 0 := by omega
    exact ⟨0, 0, hslash, Nat.zero_le 6, fun j hj => absurd hj (Nat.not_lt_zero j), .inl rfl⟩

theorem step {quote : CodeUnit} (hquote : quote.isQuote = true) (hrest : rest ≠ []) :
    CodeUnits.Step quote (CodeUnit.backslash :: rest) (1 + lengthInString rest) := by
  have htakes := takes_lengthInString hrest
  refine ⟨htakes.isEscaped_eq, fun j hj => not_or.mpr ⟨fun h => ?_, fun h => ?_⟩, ?_⟩
  · obtain rfl := htakes.eq_zero_of_unescaped (CodeUnit.isName_of_isQuote hquote)
      (CodeUnit.isWhitespace_of_isQuote hquote) hj h
    rw [← show CodeUnit.backslash = quote from h.unit] at hquote
    exact absurd hquote (by decide)
  · cases j with
    | zero => exact absurd (show CodeUnit.backslash.isNewline = true from h.newline) (by decide)
    | succ j => exact not_breaks_of_lt (by omega) h
  · intro slash hlt hslash digits hfew hhex i hline hin
    obtain rfl := htakes.eq_zero_of_unescaped (by decide) (by decide) hlt hslash
    cases i with
    | zero => exact absurd (show CodeUnit.backslash.isNewline = true from hline) (by decide)
    | succ i =>
      have hinside : InNewline rest digits i := by
        rw [Nat.zero_add, Nat.add_comm i, ← CodeUnits.inNewline_drop] at hin
        exact hin
      have hdigits : ∀ j < digits, (ahead rest j).isHexDigit = true := by
        intro j hj
        have := hhex j hj
        rwa [Nat.zero_add, Nat.add_comm, CodeUnits.ahead_cons_succ] at this
      have := lt_lengthInString hfew hdigits hline hinside
      omega

end Escape

namespace Token

open CodeUnits (Breaks Stops Step)

/-! ## Strings -/

/-- What becomes of a string whose inside is `s` and that ends at an offset. -/
inductive Ends (quote : CodeUnit) (s : CodeUnits) : Nat → Kind × Bool × Nat → Prop
  | quote {i : Nat} (hquote : Unescaped quote s i) : Ends quote s i (.string, false, i + 1)
  | line {i : Nat} (hline : Breaks s i) : Ends quote s i (.badString, false, i)
  | text : Ends quote s s.length (.string, true, s.length)

variable {quote : CodeUnit} {s : CodeUnits} {n i : Nat}

theorem ends_of_step {token : Token} (hstep : Step quote s n) (hn : n ≤ s.length)
    (h : ∃ i, (∀ j < i, ¬Stops quote (s.drop n) j) ∧ Ends quote (s.drop n) i token.outline) :
    ∃ i, (∀ j < i, ¬Stops quote s j) ∧ Ends quote s i (token.grow n).outline := by
  obtain ⟨i, hruns, hends⟩ := h
  refine ⟨n + i, fun j hj => ?_, ?_⟩
  · by_cases hlt : j < n
    · exact hstep.inside j hlt
    · obtain ⟨m, rfl⟩ := Nat.exists_eq_add_of_le (Nat.le_of_not_lt hlt)
      rw [hstep.stops_add]
      exact hruns m (by omega)
  · generalize houtline : token.outline = outline at hends
    rw [(outline_grow_iff (n := n) rfl).mpr houtline]
    cases hends with
    | quote hquote =>
      rw [← Nat.add_assoc]
      exact .quote ((CodeUnits.unescaped_add hstep.free).mpr hquote)
    | line hline => exact .line (hstep.breaks_add.mpr hline)
    | text =>
      rw [List.length_drop, Nat.add_sub_cancel' hn]
      exact .text

theorem ends_readString (hquote : quote.isQuote = true) (s : CodeUnits) :
    ∃ i, (∀ j < i, ¬Stops quote s j) ∧ Ends quote s i (readString quote s).outline := by
  fun_induction readString quote s with
  | case1 => exact ⟨0, fun j hj => absurd hj (Nat.not_lt_zero j), .text⟩
  | case2 u rest hclose =>
    rw [beq_iff_eq] at hclose
    exact ⟨0, fun j hj => absurd hj (Nat.not_lt_zero j), .quote ⟨hclose, rfl⟩⟩
  | case3 u rest hclose hline =>
    exact ⟨0, fun j hj => absurd hj (Nat.not_lt_zero j), .line (CodeUnits.breaks_zero hline)⟩
  | case4 u rest hclose hline hescape body ih =>
    rw [Bool.and_eq_true, beq_iff_eq, Bool.not_eq_true', List.isEmpty_eq_false_iff] at hescape
    obtain ⟨rfl, hrest⟩ := hescape
    have hle := Escape.lengthInString_le rest
    show ∃ i, _ ∧ Ends quote _ i ((readString quote (rest.drop body)).grow (1 + body)).outline
    refine ends_of_step (Escape.step hquote hrest) ?_ ?_
    · rw [List.length_cons]
      omega
    · rw [Nat.add_comm, List.drop_succ_cons]
      exact ih
  | case5 u rest hclose hline hescape ih =>
    rw [beq_iff_eq] at hclose
    rw [Bool.not_eq_true] at hline
    cases rest with
    | nil =>
      -- A backslash may stand here; there is nothing for it to take.
      refine ⟨1, fun j hj => ?_, ?_⟩
      · obtain rfl : j = 0 := by omega
        exact CodeUnits.not_stops_zero hclose hline []
      · rw [readString]
        exact .text
    | cons v rest =>
      have hslash : u ≠ CodeUnit.backslash := by
        rintro rfl
        exact hescape rfl
      exact ends_of_step (CodeUnits.step_unit hclose hline hslash (v :: rest))
        (Nat.succ_le_succ (Nat.zero_le _)) ih

theorem Ends.stops {outline : Kind × Bool × Nat} (h : Ends quote s i outline) :
    Stops quote s i ∨ i = s.length := by
  cases h with
  | quote hquote => exact .inl (.inl hquote)
  | line hline => exact .inl (.inr hline)
  | text => exact .inr rfl

theorem ends_readString_of_isLeast (hquote : quote.isQuote = true)
    (hi : IsLeast {i | Stops quote s i} i) : Ends quote s i (readString quote s).outline := by
  obtain ⟨k, hruns, hends⟩ := ends_readString hquote s
  have hlt := Stops.lt_length hi.1 hquote
  have hle : k ≤ i := by
    by_contra hgt
    exact hruns i (by omega) hi.1
  obtain rfl : k = i := by
    rcases hends.stops with hstops | rfl
    · exact Nat.le_antisymm hle (hi.2 hstops)
    · omega
  exact hends

theorem readString_eq_string_iff (hquote : quote.isQuote = true) :
    (readString quote s).outline = (.string, false, i + 1) ↔
      IsLeast {i | Stops quote s i} i ∧ Unescaped quote s i := by
  constructor
  · intro houtline
    obtain ⟨k, hruns, hends⟩ := ends_readString hquote s
    rw [houtline] at hends
    cases hends with
    | quote hi => exact ⟨isLeast_of_forall_lt (.inl hi) hruns, hi⟩
  · rintro ⟨hleast, hi⟩
    have hends := ends_readString_of_isLeast hquote hleast
    generalize (readString quote s).outline = outline at hends ⊢
    cases hends with
    | quote => rfl
    | line hline => exact absurd hi (hline.not_unescaped hquote)
    | text => exact absurd (hleast.1.lt_length hquote) (Nat.lt_irrefl _)

theorem readString_eq_badString_iff (hquote : quote.isQuote = true) :
    (readString quote s).outline = (.badString, false, i) ↔
      IsLeast {i | Stops quote s i} i ∧ Breaks s i := by
  constructor
  · intro houtline
    obtain ⟨k, hruns, hends⟩ := ends_readString hquote s
    rw [houtline] at hends
    cases hends with
    | line hi => exact ⟨isLeast_of_forall_lt (.inr hi) hruns, hi⟩
  · rintro ⟨hleast, hi⟩
    have hends := ends_readString_of_isLeast hquote hleast
    generalize (readString quote s).outline = outline at hends ⊢
    cases hends with
    | quote hunit => exact absurd hunit (hi.not_unescaped hquote)
    | line => rfl
    | text => exact absurd (hleast.1.lt_length hquote) (Nat.lt_irrefl _)

theorem readString_eq_text_iff (hquote : quote.isQuote = true) :
    (readString quote s).outline = (.string, true, s.length) ↔ ∀ i, ¬Stops quote s i := by
  obtain ⟨k, hruns, hends⟩ := ends_readString hquote s
  constructor
  · intro houtline i hi
    rw [houtline] at hends
    cases hends with
    | text => exact hruns i (hi.lt_length hquote) hi
  · intro hnone
    generalize (readString quote s).outline = outline at hends ⊢
    cases hends with
    | quote hi => exact absurd (.inl hi) (hnone k)
    | line hi => exact absurd (.inr hi) (hnone k)
    | text => rfl

/-! ## Comments -/

def ClosesComment (s : CodeUnits) (i : Nat) : Prop :=
  ahead s i = CodeUnit.asterisk ∧ ahead s (i + 1) = CodeUnit.solidus

theorem ClosesComment.lt_length (h : ClosesComment s i) : i < s.length := by
  apply CodeUnits.ahead_ne_zero
  rw [h.1]
  decide

theorem outline_readComment (s : CodeUnits) :
    ∃ i, (∀ j < i, ¬ClosesComment s j) ∧
      (ClosesComment s i ∧ (readComment s).outline = (.comment, false, i + 2) ∨
        i = s.length ∧ (readComment s).outline = (.comment, true, i)) := by
  induction s with
  | nil => exact ⟨0, fun j hj => absurd hj (Nat.not_lt_zero j), .inr ⟨rfl, rfl⟩⟩
  | cons u rest ih =>
    rw [readComment]
    split
    · next hclose =>
      rw [Bool.and_eq_true, beq_iff_eq, beq_iff_eq] at hclose
      exact ⟨0, fun j hj => absurd hj (Nat.not_lt_zero j), .inl ⟨hclose, rfl⟩⟩
    · next hopen =>
      obtain ⟨i, hruns, hends⟩ := ih
      refine ⟨i + 1, fun j hj => ?_, ?_⟩
      · cases j with
        | zero =>
          rintro ⟨hunit, hnext⟩
          apply hopen
          rw [Bool.and_eq_true, beq_iff_eq, beq_iff_eq]
          exact ⟨hunit, hnext⟩
        | succ j => exact hruns j (by omega)
      · rcases hends with ⟨hclose, houtline⟩ | ⟨rfl, houtline⟩
        · left
          exact ⟨hclose, (outline_grow_iff (by omega)).mpr houtline⟩
        · right
          exact ⟨rfl, (outline_grow_iff (Nat.add_comm rest.length 1)).mpr houtline⟩

theorem readComment_eq_comment_iff : (readComment s).outline = (.comment, false, i + 2) ↔
    IsLeast {i | ClosesComment s i} i := by
  obtain ⟨k, hruns, hends⟩ := outline_readComment s
  constructor
  · intro houtline
    rw [houtline] at hends
    rcases hends with ⟨hclose, hsame⟩ | ⟨-, hsame⟩
    · obtain rfl : i = k := by simpa using hsame
      exact isLeast_of_forall_lt hclose hruns
    · simp at hsame
  · intro hi
    have hle : k ≤ i := by
      by_contra hgt
      exact hruns i (by omega) hi.1
    rcases hends with ⟨hclose, houtline⟩ | ⟨rfl, -⟩
    · rw [houtline, Nat.le_antisymm hle (hi.2 hclose)]
    · exact absurd (ClosesComment.lt_length hi.1) (by omega)

theorem readComment_eq_text_iff : (readComment s).outline = (.comment, true, s.length) ↔
    ∀ i, ¬ClosesComment s i := by
  obtain ⟨k, hruns, hends⟩ := outline_readComment s
  constructor
  · intro houtline i hi
    rw [houtline] at hends
    rcases hends with ⟨-, hsame⟩ | ⟨rfl, -⟩
    · simp at hsame
    · exact hruns i hi.lt_length hi
  · intro hnone
    rcases hends with ⟨hclose, -⟩ | ⟨rfl, houtline⟩
    · exact absurd hclose (hnone k)
    · exact houtline

theorem outline_readComment_of_plain {body : CodeUnits} (hbody : CodeUnit.asterisk ∉ body) :
    (readComment (body ++ [CodeUnit.asterisk, CodeUnit.solidus])).outline =
      (.comment, false, body.length + 2) := by
  induction body with
  | nil => rfl
  | cons u body ih =>
    rw [List.mem_cons, not_or] at hbody
    have hopen : (u == CodeUnit.asterisk) = false := beq_eq_false_iff_ne.mpr (Ne.symm hbody.1)
    rw [List.cons_append, readComment, hopen, Bool.false_and, if_neg Bool.false_ne_true]
    exact (outline_grow_iff (by rw [List.length_cons]; omega)).mpr (ih hbody.2)

/-! ## Tokens -/

theorem read_quote (hquote : quote.isQuote = true) (inside : CodeUnits) :
    read (quote :: inside) = (readString quote inside).grow 1 := by
  rcases CodeUnit.eq_or_eq_of_isQuote hquote with rfl | rfl <;> rfl

theorem read_solidus_asterisk (inside : CodeUnits) :
    read (CodeUnit.solidus :: CodeUnit.asterisk :: inside) = (readComment inside).grow 2 := rfl

end Token

/-- A string ends at the first place where its quote stands unescaped or where a newline stands
that is neither a continued line nor the whitespace that closes an escape: just past the quote, or
just before the newline, and then it is bad. A comment ends just past the first `*/` behind its
opening. Where there is no such place both end with the text and are unterminated. -/
theorem Cursor.next_literal (cursor : Cursor) :
    (∀ quote, quote.isQuote = true → cursor.ahead 0 = quote →
      let inside : CodeUnits := cursor.rest.drop 1
      (∀ i, cursor.next.1.outline = (.string, false, i + 2) ↔
        IsLeast {i | CodeUnits.Stops quote inside i} i ∧ Unescaped quote inside i) ∧
      (∀ i, cursor.next.1.outline = (.badString, false, i + 1) ↔
        IsLeast {i | CodeUnits.Stops quote inside i} i ∧ CodeUnits.Breaks inside i) ∧
      (cursor.next.1.outline = (.string, true, cursor.rest.length) ↔
        ∀ i, ¬CodeUnits.Stops quote inside i)) ∧
    (cursor.ahead 0 = CodeUnit.solidus → cursor.ahead 1 = CodeUnit.asterisk →
      let inside : CodeUnits := cursor.rest.drop 2
      (∀ i, cursor.next.1.outline = (.comment, false, i + 4) ↔
        IsLeast {i | Token.ClosesComment inside i} i) ∧
      (cursor.next.1.outline = (.comment, true, cursor.rest.length) ↔
        ∀ i, ¬Token.ClosesComment inside i)) := by
  constructor
  · intro quote hquote hfirst
    rw [ahead_eq_rest] at hfirst
    have hne : cursor.rest ≠ [] := by
      intro hnil
      rw [hnil, CodeUnits.ahead_nil] at hfirst
      exact absurd hquote (by rw [← hfirst]; decide)
    obtain ⟨u, inside, hrest⟩ := List.exists_cons_of_ne_nil hne
    rw [hrest] at hfirst
    obtain rfl : u = quote := hfirst
    have hread : cursor.next.1 = (Token.readString u inside).grow 1 := by
      rw [← Token.read_quote hquote, ← hrest]
      rfl
    rw [hread, hrest]
    refine ⟨fun i => ?_, fun i => ?_, ?_⟩
    · exact (Token.outline_grow_iff (by omega)).trans (Token.readString_eq_string_iff hquote)
    · exact (Token.outline_grow_iff (by omega)).trans (Token.readString_eq_badString_iff hquote)
    · exact (Token.outline_grow_iff (Nat.add_comm _ 1)).trans (Token.readString_eq_text_iff hquote)
  · intro hfirst hsecond
    rw [ahead_eq_rest] at hfirst hsecond
    obtain ⟨left, hrest⟩ := CodeUnits.exists_of_ahead hfirst (by decide)
    rw [hrest] at hsecond
    obtain ⟨inside, rfl⟩ := CodeUnits.exists_of_ahead (s := left) hsecond (by decide)
    have hread : cursor.next.1 = (Token.readComment inside).grow 2 := by
      rw [← Token.read_solidus_asterisk, ← hrest]
      rfl
    rw [hread, hrest]
    refine ⟨fun i => ?_, ?_⟩
    · exact (Token.outline_grow_iff (by omega)).trans Token.readComment_eq_comment_iff
    · exact (Token.outline_grow_iff (Nat.add_comm _ 2)).trans Token.readComment_eq_text_iff

/-- The escaped quote belongs to the string; the second asterisk behind `/*` ends the comment. -/
theorem Cursor.next_literal_of_escaped_quote :
    let source : CodeUnits := CodeUnits.ofString "a:\"b\\\"c\"/***/"
    let literal : Cursor := ⟨source, 2, by decide, by decide⟩
    let comment : Cursor := ⟨source, 8, by decide, by decide⟩
    (literal.next.1.outline = (.string, false, 6) ∧
      Unescaped CodeUnit.quotationMark (literal.rest.drop 1) 4) ∧
    comment.next.1.outline = (.comment, false, 5) ∧
      IsLeast {i | Token.ClosesComment (comment.rest.drop 2) i} 1 := by
  intro source literal comment
  have hstring : literal.next.1.outline = (.string, false, 6) := by decide +kernel
  have hcomment : comment.next.1.outline = (.comment, false, 5) := by decide +kernel
  obtain ⟨hread, -, -⟩ := literal.next_literal.1 CodeUnit.quotationMark rfl (by decide +kernel)
  obtain ⟨hclosed, -⟩ := comment.next_literal.2 (by decide +kernel) (by decide +kernel)
  exact ⟨⟨hstring, ((hread 4).mp hstring).2⟩, hcomment, (hclosed 1).mp hcomment⟩

theorem Cursor.outline_next_ne (cursor : Cursor) {n : Nat} (hn : CodeUnits.maxLength < n)
    (kind : Token.Kind) (unterminated : Bool) :
    cursor.next.1.outline ≠ (kind, unterminated, n) := by
  intro houtline
  have hshort := cursor.length_next_le
  have hlength : cursor.next.1.length = n := congrArg (fun outline => outline.2.2) houtline
  omega

/-- A comment whose end is beyond the reach of offsets is not read to that end. -/
theorem Cursor.next_of_comment_beyond {body : CodeUnits}
    (hlength : CodeUnits.maxLength ≤ body.length) (hbody : CodeUnit.asterisk ∉ body) :
    let inside : CodeUnits := body ++ [CodeUnit.asterisk, CodeUnit.solidus]
    let source : CodeUnits := CodeUnit.solidus :: CodeUnit.asterisk :: inside
    IsLeast {i | Token.ClosesComment inside i} body.length ∧
      (Cursor.ofUnits source).next.1.outline ≠ (.comment, false, body.length + 4) := by
  exact ⟨Token.readComment_eq_comment_iff.mp (Token.outline_readComment_of_plain hbody),
    Cursor.outline_next_ne _ (by omega) _ _⟩

/-- A comment of 4294967295 letters is closed where no offset reaches. -/
theorem Cursor.next_of_long_comment :
    let body : CodeUnits := List.replicate CodeUnits.maxLength 0x61
    let inside : CodeUnits := body ++ [CodeUnit.asterisk, CodeUnit.solidus]
    let source : CodeUnits := CodeUnit.solidus :: CodeUnit.asterisk :: inside
    IsLeast {i | Token.ClosesComment inside i} body.length ∧
      (Cursor.ofUnits source).next.1.outline ≠ (.comment, false, body.length + 4) := by
  refine Cursor.next_of_comment_beyond (Nat.le_of_eq List.length_replicate.symm) fun hmem => ?_
  exact absurd (List.eq_of_mem_replicate hmem) (by decide)

end StyleRules
