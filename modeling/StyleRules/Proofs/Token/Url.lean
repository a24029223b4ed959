import Mathlib.Order.Bounds.Basic
import StyleRules.Proofs.Token.Decoded
import StyleRules.Proofs.Token.Literal

/-!
# What an unquoted url holds

The grammar of unquoted urls says what may stand between the parentheses: units that stand for
themselves and escapes, with whitespace at either end. The reader takes the longest text of the
grammar; a closing parenthesis behind it completes the url, and any other unit makes it bad. The
text is the addressable one: where it ends in the url, so does the token.
-/

namespace StyleRules

open CodeUnits (whitespaceRun Unescaped)

namespace CodeUnit

variable {u : CodeUnit}

def isUrlUnit (u : CodeUnit) : Bool :=
  !(u.isWhitespace || u.isQuote || u == leftParen || u == rightParen || u == backslash ||
    u.isNonPrintable)

theorem isUrlUnit_eq_false_iff : u.isUrlUnit = false ↔
    u = rightParen ∨ u.isWhitespace = true ∨ Token.endsUrlBadly u = true ∨ u = backslash := by
  simp only [isUrlUnit, Token.endsUrlBadly, Bool.not_eq_false', Bool.or_eq_true, beq_iff_eq]
  tauto

theorem isUrlUnit_of_isName (h : u.isName = true) : u.isUrlUnit = true := by
  simp only [isName, isNameStart, isLetter, isUpper, isLower, isDigit, isUrlUnit, isWhitespace,
    isNewline, isQuote, isNonPrintable, Bool.not_eq_true', Bool.or_eq_false_iff, Bool.or_eq_true,
    Bool.and_eq_true, Bool.and_eq_false_iff, decide_eq_true_eq, decide_eq_false_iff_not,
    beq_iff_eq, beq_eq_false_iff_ne, ne_eq, UInt16.le_iff_toNat_le, ← UInt16.toNat_inj,
    underscore, hyphen, lineFeed, carriageReturn, formFeed, tab, space, quotationMark, apostrophe,
    leftParen, rightParen, backslash, UInt16.reduceToNat] at h ⊢
  omega

end CodeUnit

namespace CodeUnits

theorem isWhitespace_of_mem_take (s : CodeUnits) :
    ∀ u ∈ s.take (whitespaceRun s), u.isWhitespace = true := by
  rw [whitespaceRun, ← List.prefix_iff_eq_take.mp (List.takeWhile_prefix _)]
  exact fun u => List.all_eq_true.mp List.all_takeWhile u

theorem whitespaceRun_append_of_all {x : CodeUnits} (h : ∀ u ∈ x, u.isWhitespace = true)
    (rest : CodeUnits) :
    x.length ≤ whitespaceRun (x ++ rest) := by
  rw [whitespaceRun, List.takeWhile_append_of_pos h, List.length_append]
  exact Nat.le_add_right _ _

end CodeUnits

namespace Token

theorem grow_zero (token : Token) : token.grow 0 = token := by
  simp only [grow, Nat.zero_add]

theorem outline_grow_congr {a b : Token} {n : Nat} (h : a.outline = b.outline) :
    (a.grow n).outline = (b.grow n).outline := by
  simp_all [outline, grow]

end Token

namespace Url

open CodeUnits (ahead)

inductive IsContent : CodeUnits → Prop
  | nil : IsContent []
  | unit {u : CodeUnit} {x : CodeUnits} (hunit : u.isUrlUnit = true) (hrest : IsContent x) :
      IsContent (u :: x)
  | escape {body x : CodeUnits} (hbody : Escape.IsBody body) (hrest : IsContent x) :
      IsContent (CodeUnit.backslash :: (body ++ x))

inductive IsFilling : CodeUnits → Prop
  | intro {lead content trail : CodeUnits} (hlead : ∀ u ∈ lead, u.isWhitespace = true)
      (hcontent : IsContent content) (htrail : ∀ u ∈ trail, u.isWhitespace = true) :
      IsFilling (lead ++ content ++ trail)

/-! ## The content that is read -/

def contentLength (s : CodeUnits) : Nat :=
  match s with
  | [] => 0
  | u :: rest =>
    if u.isUrlUnit then 1 + contentLength rest
    else if CodeUnit.isValidEscape u (ahead rest 0) then
      let body := Escape.length rest
      1 + body + contentLength (rest.drop body)
    else 0
termination_by s.length
decreasing_by all_goals simp only [List.length_cons, List.length_drop]; omega

def closingLength (s : CodeUnits) : Nat :=
  contentLength s + whitespaceRun (s.drop (contentLength s))

def fillingLength (s : CodeUnits) : Nat :=
  whitespaceRun s + closingLength (s.drop (whitespaceRun s))

variable {u : CodeUnit} {s x rest : CodeUnits}

theorem contentLength_unit (h : u.isUrlUnit = true) :
    contentLength (u :: rest) = 1 + contentLength rest := by
  rw [contentLength, if_pos h]

theorem contentLength_escape
    (h : CodeUnit.isValidEscape CodeUnit.backslash (ahead rest 0) = true) :
    contentLength (CodeUnit.backslash :: rest) =
      1 + Escape.length rest + contentLength (rest.drop (Escape.length rest)) := by
  rw [contentLength, if_neg (by decide), if_pos h]

/-- Content stops before a unit that neither stands for itself nor begins an escape. -/
theorem contentLength_stop (hunit : u.isUrlUnit = false)
    (hescape : CodeUnit.isValidEscape u (ahead rest 0) = false) :
    contentLength (u :: rest) = 0 := by
  rw [contentLength, hunit, hescape, if_neg Bool.false_ne_true, if_neg Bool.false_ne_true]

theorem contentLength_whitespace (h : u.isWhitespace = true) : contentLength (u :: rest) = 0 := by
  refine contentLength_stop (CodeUnit.isUrlUnit_eq_false_iff.mpr (.inr (.inl h))) ?_
  apply CodeUnit.isValidEscape_of_ne
  rintro rfl
  exact absurd h (by decide)

theorem closingLength_add {n : Nat} (hdrop : s.drop n = rest)
    (hcontent : contentLength s = n + contentLength rest) :
    closingLength s = n + closingLength rest := by
  rw [closingLength, closingLength, hcontent, ← List.drop_drop, hdrop, Nat.add_assoc]

theorem closingLength_unit (h : u.isUrlUnit = true) :
    closingLength (u :: rest) = 1 + closingLength rest :=
  closingLength_add rfl (contentLength_unit h)

theorem closingLength_escape
    (h : CodeUnit.isValidEscape CodeUnit.backslash (ahead rest 0) = true) :
    closingLength (CodeUnit.backslash :: rest) =
      1 + Escape.length rest + closingLength (rest.drop (Escape.length rest)) := by
  refine closingLength_add ?_ (contentLength_escape h)
  rw [Nat.add_comm, List.drop_succ_cons]

theorem closingLength_of_contentLength (hzero : contentLength s = 0) :
    closingLength s = whitespaceRun s := by
  rw [closingLength, hzero, List.drop_zero, Nat.zero_add]

/-- What the reader makes of a text: it takes the content and the whitespace behind it, looks at
what comes then, and notes the escapes of the content. -/
structure IsRead (s : CodeUnits) (token : Token) : Prop where
  outline : token.outline =
    ((Token.readUrlEnd (s.drop (closingLength s))).grow (closingLength s)).outline
  escaped : token.flags.escaped = true ↔ CodeUnit.backslash ∈ s.take (contentLength s)

theorem escaped_readUrlEnd (s : CodeUnits) : (Token.readUrlEnd s).flags.escaped = false := by
  cases s with
  | nil => rfl
  | cons u rest =>
    rw [Token.readUrlEnd]
    split <;> rfl

theorem isRead_of_contentLength (hzero : contentLength s = 0) :
    IsRead s ((Token.readUrlEnd (s.drop (whitespaceRun s))).grow (whitespaceRun s)) := by
  refine ⟨by rw [closingLength_of_contentLength hzero], ?_⟩
  rw [hzero, List.take_zero]
  refine iff_of_false ?_ List.not_mem_nil
  rw [Bool.not_eq_true]
  exact escaped_readUrlEnd _

theorem isRead_stop (hspace : u.isWhitespace = false) (hunit : u.isUrlUnit = false)
    (hescape : CodeUnit.isValidEscape u (ahead rest 0) = false) :
    IsRead (u :: rest) (Token.readUrlEnd (u :: rest)) := by
  have hread := isRead_of_contentLength (contentLength_stop hunit hescape)
  rwa [CodeUnits.whitespaceRun_cons_of_not hspace, List.drop_zero, Token.grow_zero] at hread

theorem IsRead.outline_grow {token : Token} {n : Nat} (h : IsRead rest token)
    (hdrop : s.drop n = rest) (hcontent : contentLength s = n + contentLength rest) :
    (token.grow n).outline =
      ((Token.readUrlEnd (s.drop (closingLength s))).grow (closingLength s)).outline := by
  rw [closingLength_add hdrop hcontent, ← List.drop_drop, hdrop, ← Token.grow_grow]
  exact Token.outline_grow_congr h.outline

theorem isRead_readUrl (s : CodeUnits) : IsRead s (Token.readUrl s) := by
  fun_induction Token.readUrl s with
  | case1 => exact isRead_of_contentLength (by rw [contentLength])
  | case2 u rest hparen =>
    rw [beq_iff_eq] at hparen
    subst hparen
    exact isRead_stop (by decide) (by decide) rfl
  | case3 u rest hparen hspace =>
    exact isRead_of_contentLength (contentLength_whitespace hspace)
  | case4 u rest hparen hspace hbad =>
    have hslash : u ≠ CodeUnit.backslash := by
      rintro rfl
      exact absurd hbad (by decide)
    have hstop : IsRead (u :: rest) (Token.readUrlEnd (u :: rest)) :=
      isRead_stop (Bool.eq_false_iff.mpr hspace)
        (CodeUnit.isUrlUnit_eq_false_iff.mpr (.inr (.inr (.inl hbad))))
        (CodeUnit.isValidEscape_of_ne hslash)
    rwa [Token.readUrlEnd, if_neg hparen] at hstop
  | case5 u rest hparen hspace hbad hslash hescape body ih =>
    rw [beq_iff_eq] at hslash
    subst hslash
    constructor
    · have hdrop : (CodeUnit.backslash :: rest).drop (1 + body) = rest.drop body := by
        rw [Nat.add_comm, List.drop_succ_cons]
      exact ih.outline_grow hdrop (contentLength_escape hescape)
    · refine iff_of_true rfl ?_
      rw [contentLength_escape hescape, Nat.add_assoc, Nat.add_comm 1, List.take_succ_cons]
      exact List.mem_cons_self
  | case6 u rest hparen hspace hbad hslash hescape =>
    rw [beq_iff_eq] at hslash
    have hstop := isRead_stop (Bool.eq_false_iff.mpr hspace)
      (CodeUnit.isUrlUnit_eq_false_iff.mpr (.inr (.inr (.inr hslash))))
      (Bool.eq_false_iff.mpr hescape)
    rwa [Token.readUrlEnd, if_neg hparen] at hstop
  | case7 u rest hparen hspace hbad hslash ih =>
    have hunit : u.isUrlUnit = true := by
      rw [← Bool.not_eq_false, CodeUnit.isUrlUnit_eq_false_iff]
      simp_all
    constructor
    · exact ih.outline_grow rfl (contentLength_unit hunit)
    · have hne : CodeUnit.backslash ≠ u := fun h => hslash (beq_iff_eq.mpr h.symm)
      rw [contentLength_unit hunit, Nat.add_comm, List.take_succ_cons, List.mem_cons,
        or_iff_right hne]
      exact ih.escaped

/-! ## The longest filling -/

theorem isContent_take (s : CodeUnits) : IsContent (s.take (contentLength s)) := by
  fun_induction contentLength s with
  | case1 => exact .nil
  | case2 u rest hunit ih =>
    rw [Nat.add_comm, List.take_succ_cons]
    exact .unit hunit ih
  | case3 u rest hunit hescape body ih =>
    obtain rfl := CodeUnit.eq_backslash_of_isValidEscape hescape
    rw [Nat.add_assoc, Nat.add_comm 1, List.take_succ_cons, List.take_add]
    exact .escape (Escape.isBody_take hescape) ih
  | case4 u rest hunit hescape => exact .nil

theorem isFilling_take (s : CodeUnits) : IsFilling (s.take (fillingLength s)) := by
  rw [fillingLength, closingLength, List.take_add, List.take_add, ← List.append_assoc]
  exact .intro (CodeUnits.isWhitespace_of_mem_take s) (isContent_take _)
    (CodeUnits.isWhitespace_of_mem_take _)

theorem whitespaceRun_le_closingLength (s : CodeUnits) : whitespaceRun s ≤ closingLength s := by
  cases s with
  | nil => exact Nat.zero_le _
  | cons u rest =>
    cases hspace : u.isWhitespace with
    | true => rw [closingLength_of_contentLength (contentLength_whitespace hspace)]
    | false =>
      rw [CodeUnits.whitespaceRun_cons_of_not hspace]
      exact Nat.zero_le _

theorem closingLength_cons_le (h : u.isName = true ∨ u.isWhitespace = true) :
    closingLength (u :: rest) ≤ 1 + closingLength rest := by
  rcases h with hname | hspace
  · exact Nat.le_of_eq (closingLength_unit (CodeUnit.isUrlUnit_of_isName hname))
  · have hrun := whitespaceRun_le_closingLength rest
    rw [closingLength_of_contentLength (contentLength_whitespace hspace),
      CodeUnits.whitespaceRun_cons hspace]
    omega

theorem closingLength_le_drop {n : Nat} (h : ∀ i < n, (ahead s i).isName = true ∨
      (ahead s i).isWhitespace = true) :
    closingLength s ≤ n + closingLength (s.drop n) := by
  induction n generalizing s with
  | zero => rw [List.drop_zero, Nat.zero_add]
  | succ n ih =>
    cases s with
    | nil => exact Nat.le_add_left _ _
    | cons u rest =>
      have hfirst : closingLength (u :: rest) ≤ 1 + closingLength rest :=
        closingLength_cons_le (h 0 (Nat.succ_pos n))
      have hrest := ih (s := rest) fun i hi => h (i + 1) (Nat.succ_lt_succ hi)
      rw [List.drop_succ_cons]
      exact Nat.le_trans hfirst (by omega)

/-- Reading content with the longest escapes, the reader misses nothing of it, nor any whitespace
behind it. -/
theorem IsContent.length_le (h : IsContent x) (rest : CodeUnits) :
    x.length + whitespaceRun rest ≤ closingLength (x ++ rest) := by
  induction h with
  | nil =>
    rw [List.length_nil, Nat.zero_add, List.nil_append]
    exact whitespaceRun_le_closingLength rest
  | @unit u x hunit _ ih =>
    rw [List.cons_append, closingLength_unit hunit, List.length_cons]
    omega
  | @escape body x hbody _ ih =>
    -- What the reader takes beyond the body costs the rest nothing.
    obtain ⟨n, hlength, htakes⟩ := hbody.takes (x ++ rest)
    have hmore : closingLength (x ++ rest) ≤ n + closingLength ((x ++ rest).drop n) := by
      refine closingLength_le_drop fun i hi => ?_
      have hpos := List.length_pos_iff.mpr hbody.ne_nil
      have htail := htakes.tail (body.length + i) (by omega) (by omega)
      rwa [← CodeUnits.ahead_drop, List.drop_left] at htail
    rw [List.cons_append, List.append_assoc,
      closingLength_escape (hbody.isValidEscape (x ++ rest)), hlength,
      List.drop_length_add_append, List.length_cons, List.length_append]
    omega

theorem closingLength_le_fillingLength (s : CodeUnits) : closingLength s ≤ fillingLength s := by
  cases s with
  | nil => exact Nat.le_add_left _ _
  | cons u rest =>
    cases hspace : u.isWhitespace with
    | true =>
      rw [closingLength_of_contentLength (contentLength_whitespace hspace)]
      exact Nat.le_add_right _ _
    | false =>
      rw [fillingLength, CodeUnits.whitespaceRun_cons_of_not hspace, List.drop_zero]
      exact Nat.le_add_left _ _

theorem fillingLength_whitespace (h : u.isWhitespace = true) :
    fillingLength (u :: rest) = fillingLength rest + 1 := by
  rw [fillingLength, CodeUnits.whitespaceRun_cons h, List.drop_succ_cons, fillingLength]
  omega

theorem IsFilling.length_le (h : IsFilling x) (rest : CodeUnits) :
    x.length ≤ fillingLength (x ++ rest) := by
  cases h with
  | @intro lead content trail hlead hcontent htrail =>
    induction lead with
    | nil =>
      have hreach := hcontent.length_le (trail ++ rest)
      have hrun := CodeUnits.whitespaceRun_append_of_all htrail rest
      have hle := closingLength_le_fillingLength (content ++ (trail ++ rest))
      rw [List.nil_append, List.length_append, List.append_assoc]
      omega
    | cons u lead ih =>
      have hspace := hlead u List.mem_cons_self
      have hrest := ih fun v hv => hlead v (List.mem_cons_of_mem u hv)
      rw [List.cons_append, List.cons_append, List.cons_append, fillingLength_whitespace hspace,
        List.length_cons]
      omega

theorem contentLength_le (s : CodeUnits) : contentLength s ≤ s.length := by
  fun_induction contentLength s with
  | case1 => exact Nat.le_refl _
  | case2 u rest hunit ih =>
    rw [List.length_cons]
    omega
  | case3 u rest hunit hescape body ih =>
    have := Escape.length_le rest
    rw [List.length_drop] at ih
    rw [List.length_cons]
    omega
  | case4 u rest hunit hescape => exact Nat.zero_le _

theorem fillingLength_le (s : CodeUnits) : fillingLength s ≤ s.length := by
  have hlead := CodeUnits.whitespaceRun_le s
  have hcontent := contentLength_le (s.drop (whitespaceRun s))
  have htrail := CodeUnits.whitespaceRun_le
    ((s.drop (whitespaceRun s)).drop (contentLength (s.drop (whitespaceRun s))))
  rw [fillingLength, closingLength]
  rw [List.length_drop, List.length_drop] at htrail
  rw [List.length_drop] at hcontent
  omega

theorem isLongest_take (s : CodeUnits) :
    CodeUnits.IsLongest IsFilling s (s.take (fillingLength s)) := by
  refine .of_take (fillingLength_le s) (isFilling_take s) ?_
  rintro x rest hx rfl
  exact hx.length_le rest

/-! ## Closing parentheses -/

/-- Units that hold no unescaped `)` and behind which the same ones are escaped as without them. -/
structure Passes (s : CodeUnits) (n : Nat) : Prop where
  inside : ∀ i < n, ¬Unescaped CodeUnit.rightParen s i
  behind : ∀ i, Unescaped CodeUnit.rightParen s (n + i) ↔
    Unescaped CodeUnit.rightParen (s.drop n) i

theorem passes_zero (s : CodeUnits) : Passes s 0 := by
  refine ⟨fun i hi => absurd hi (Nat.not_lt_zero i), fun i => ?_⟩
  rw [Nat.zero_add, List.drop_zero]

theorem Passes.add {m n : Nat} (h : Passes s m) (hrest : Passes (s.drop m) n) :
    Passes s (m + n) := by
  constructor
  · intro i hi
    by_cases hlt : i < m
    · exact h.inside i hlt
    · obtain ⟨j, rfl⟩ := Nat.exists_eq_add_of_le (Nat.le_of_not_lt hlt)
      rw [h.behind]
      exact hrest.inside j (by omega)
  · intro i
    rw [Nat.add_assoc, h.behind, hrest.behind, List.drop_drop]

theorem Passes.append {y : CodeUnits} (h : Passes (x ++ (y ++ rest)) x.length)
    (hrest : Passes (y ++ rest) y.length) : Passes (x ++ y ++ rest) (x ++ y).length := by
  rw [List.length_append, List.append_assoc]
  refine h.add ?_
  rw [List.drop_left]
  exact hrest

theorem passes_unit (hparen : u ≠ CodeUnit.rightParen) (hslash : u ≠ CodeUnit.backslash) :
    Passes (u :: rest) 1 := by
  refine ⟨fun i hi h => ?_, fun i => CodeUnits.unescaped_add (CodeUnits.isEscaped_one hslash)⟩
  obtain rfl : i = 0 := by omega
  exact hparen h.unit

theorem passes_escape {n : Nat} (htakes : Escape.Takes rest n) :
    Passes (CodeUnit.backslash :: rest) (1 + n) := by
  refine ⟨fun i hi h => ?_, fun i => CodeUnits.unescaped_add htakes.isEscaped_eq⟩
  obtain rfl := htakes.eq_zero_of_unescaped (by decide) (by decide) hi h
  exact absurd (show CodeUnit.backslash = CodeUnit.rightParen from h.unit) (by decide)

theorem passes_backslash (hparen : u ≠ CodeUnit.rightParen) (hslash : u ≠ CodeUnit.backslash) :
    Passes (CodeUnit.backslash :: u :: rest) 1 := by
  have hunit : Passes (u :: rest) 1 := passes_unit hparen hslash
  have hboth : Passes (CodeUnit.backslash :: u :: rest) 2 :=
    passes_escape (n := 1) ⟨Nat.le_refl 1, fun i hpos hi => absurd hpos (by omega)⟩
  refine ⟨fun i hi => hboth.inside i (by omega), fun i => ?_⟩
  cases i with
  | zero => exact iff_of_false (hboth.inside 1 (by omega)) (hunit.inside 0 Nat.one_pos)
  | succ i =>
    rw [Nat.add_comm i 1, ← Nat.add_assoc, hboth.behind]
    exact (hunit.behind i).symm

theorem passes_whitespace (h : ∀ u ∈ x, u.isWhitespace = true) (rest : CodeUnits) :
    Passes (x ++ rest) x.length := by
  induction x with
  | nil => exact passes_zero _
  | cons u x ih =>
    have hspace := h u List.mem_cons_self
    have hparen : u ≠ CodeUnit.rightParen := by
      rintro rfl
      exact absurd hspace (by decide)
    have hslash : u ≠ CodeUnit.backslash := by
      rintro rfl
      exact absurd hspace (by decide)
    rw [List.cons_append, List.length_cons, Nat.add_comm]
    exact (passes_unit hparen hslash).add (ih fun v hv => h v (List.mem_cons_of_mem u hv))

theorem IsContent.passes (h : IsContent x) (rest : CodeUnits) : Passes (x ++ rest) x.length := by
  induction h with
  | nil => exact passes_zero _
  | @unit u x hunit _ ih =>
    have hparen : u ≠ CodeUnit.rightParen := by
      rintro rfl
      exact absurd hunit (by decide)
    have hslash : u ≠ CodeUnit.backslash := by
      rintro rfl
      exact absurd hunit (by decide)
    rw [List.cons_append, List.length_cons, Nat.add_comm]
    exact (passes_unit hparen hslash).add ih
  | @escape body x hbody _ ih =>
    obtain ⟨n, -, htakes⟩ := hbody.takes (x ++ rest)
    have hpos := List.length_pos_iff.mpr hbody.ne_nil
    have hescape := passes_escape (htakes.mono hpos (Nat.le_add_right _ n))
    rw [Nat.add_comm] at hescape
    exact Passes.append (x := CodeUnit.backslash :: body) hescape ih

theorem IsFilling.passes (h : IsFilling x) (rest : CodeUnits) : Passes (x ++ rest) x.length := by
  cases h with
  | @intro lead content trail hlead hcontent htrail =>
    have hfront : Passes (lead ++ content ++ (trail ++ rest)) (lead ++ content).length :=
      (passes_whitespace hlead _).append (hcontent.passes _)
    exact hfront.append (passes_whitespace htrail rest)

theorem passes_fillingLength (s : CodeUnits) : Passes s (fillingLength s) := by
  have h := (isFilling_take s).passes (s.drop (fillingLength s))
  rwa [List.take_append_drop, List.length_take_of_le (fillingLength_le s)] at h

/-! ## Bad urls -/

def Ends (s : CodeUnits) (i : Nat) : Prop := Unescaped CodeUnit.rightParen s i ∨ i = s.length

theorem Passes.isLeast {m n : Nat} (h : Passes s m) (hm : m ≤ s.length)
    (hrest : IsLeast {i | Ends (s.drop m) i} n) : IsLeast {i | m ≤ i ∧ Ends s i} (m + n) := by
  have hends (i : Nat) : Ends s (m + i) ↔ Ends (s.drop m) i := by
    rw [Ends, Ends, h.behind, List.length_drop]
    exact or_congr_right (by omega)
  refine ⟨⟨Nat.le_add_right m n, (hends n).mpr hrest.1⟩, ?_⟩
  rintro i ⟨hle, hi⟩
  obtain ⟨j, rfl⟩ := Nat.exists_eq_add_of_le hle
  exact Nat.add_le_add_left (hrest.2 ((hends j).mp hi)) m

theorem Passes.isLeast_ends {m n : Nat} (h : Passes s m) (hm : m ≤ s.length)
    (hrest : IsLeast {i | Ends (s.drop m) i} n) : IsLeast {i | Ends s i} (m + n) := by
  have hbehind := h.isLeast hm hrest
  refine ⟨hbehind.1.2, fun i hi => ?_⟩
  by_cases hlt : i < m
  · rcases hi with hparen | rfl
    · exact absurd hparen (h.inside i hlt)
    · omega
  · exact hbehind.2 ⟨Nat.le_of_not_lt hlt, hi⟩

theorem isLeast_badUrlLength (s : CodeUnits) :
    IsLeast {i | Ends s i} (Token.badUrlLength s) := by
  fun_induction Token.badUrlLength s with
  | case1 => exact ⟨.inr rfl, fun i hi => Nat.zero_le i⟩
  | case2 u rest hparen =>
    rw [beq_iff_eq] at hparen
    exact ⟨.inl ⟨hparen, rfl⟩, fun i hi => Nat.zero_le i⟩
  | case3 u rest hparen hescape body ih =>
    obtain rfl := CodeUnit.eq_backslash_of_isValidEscape hescape
    have hrest : rest ≠ [] := by
      rintro rfl
      exact absurd hescape (by decide)
    have hpasses : Passes (CodeUnit.backslash :: rest) (1 + body) :=
      passes_escape (Escape.takes_length hrest)
    have hle := Escape.length_le rest
    refine hpasses.isLeast_ends (by rw [List.length_cons]; omega) ?_
    rw [Nat.add_comm, List.drop_succ_cons]
    exact ih
  | case4 u rest hparen hescape ih =>
    rw [beq_iff_eq] at hparen
    by_cases hslash : u = CodeUnit.backslash
    · -- The backslash escapes the unit behind it, but as far as `)` goes it need not.
      subst hslash
      cases rest with
      | nil =>
        rw [Token.badUrlLength]
        refine ⟨.inr rfl, fun i hi => ?_⟩
        rcases hi with hi | rfl
        · have hlt := hi.lt_length (by decide)
          obtain rfl : i = 0 := by simpa using hlt
          exact absurd (show CodeUnit.backslash = CodeUnit.rightParen from hi.unit) (by decide)
        · exact Nat.le_refl _
      | cons v rest =>
        have hv : v ≠ CodeUnit.rightParen ∧ v ≠ CodeUnit.backslash := by
          constructor <;> rintro rfl <;> exact hescape rfl
        exact (passes_backslash hv.1 hv.2).isLeast_ends (Nat.succ_le_succ (Nat.zero_le _)) ih
    · exact (passes_unit hparen hslash).isLeast_ends (Nat.succ_le_succ (Nat.zero_le _)) ih

/-! ## The end of a url -/

theorem unescaped_of_closes (hx : IsFilling x) (hclose : x ++ [CodeUnit.rightParen] <+: s) :
    Unescaped CodeUnit.rightParen s x.length := by
  obtain ⟨left, rfl⟩ := hclose
  rw [List.append_assoc]
  apply ((hx.passes _).behind 0).mpr
  rw [List.drop_left]
  exact ⟨rfl, rfl⟩

theorem isLeast_of_closes (hx : IsFilling x) (hclose : x ++ [CodeUnit.rightParen] <+: s) :
    IsLeast {i | Unescaped CodeUnit.rightParen s i} x.length := by
  refine isLeast_of_forall_lt (unescaped_of_closes hx hclose) fun i hi => ?_
  obtain ⟨left, rfl⟩ := hclose
  rw [List.append_assoc]
  exact (hx.passes _).inside i hi

theorem closes_iff : IsFilling x ∧ x ++ [CodeUnit.rightParen] <+: s ↔
    x = s.take (fillingLength s) ∧ ahead s (fillingLength s) = CodeUnit.rightParen := by
  constructor
  · rintro ⟨hx, hclose⟩
    have hunescaped := unescaped_of_closes hx hclose
    obtain ⟨left, rfl⟩ := hclose
    rw [List.append_assoc] at hunescaped ⊢
    have hle := hx.length_le ([CodeUnit.rightParen] ++ left)
    have hlength : fillingLength (x ++ ([CodeUnit.rightParen] ++ left)) = x.length := by
      by_contra hne
      exact (passes_fillingLength _).inside x.length (by omega) hunescaped
    rw [hlength]
    exact ⟨List.take_left.symm, hunescaped.unit⟩
  · rintro ⟨rfl, hparen⟩
    refine ⟨isFilling_take s, ?_⟩
    rw [← Nat.add_zero (fillingLength s), ← CodeUnits.ahead_drop] at hparen
    obtain ⟨left, hleft⟩ := CodeUnits.exists_of_ahead hparen (by decide)
    refine ⟨left, ?_⟩
    rw [List.append_assoc, List.singleton_append, ← hleft, List.take_append_drop]

theorem exists_closes_iff {p : Nat → Prop} :
    (∃ x, (IsFilling x ∧ x ++ [CodeUnit.rightParen] <+: s) ∧ p x.length) ↔
      ahead s (fillingLength s) = CodeUnit.rightParen ∧ p (fillingLength s) := by
  have hlength := List.length_take_of_le (fillingLength_le s)
  simp only [closes_iff]
  constructor
  · rintro ⟨x, ⟨rfl, hparen⟩, hp⟩
    rw [hlength] at hp
    exact ⟨hparen, hp⟩
  · rintro ⟨hparen, hp⟩
    exact ⟨_, ⟨rfl, hparen⟩, by rwa [hlength]⟩

theorem isFilling_iff : IsFilling s ↔ fillingLength s = s.length := by
  constructor
  · intro h
    have hle := h.length_le []
    rw [List.append_nil] at hle
    exact Nat.le_antisymm (fillingLength_le s) hle
  · intro h
    have hfilling := isFilling_take s
    rwa [h, List.take_length] at hfilling

/-- What a url becomes by what is behind its longest filling. `opening` units stand before `s`. -/
inductive EndsAs (opening : Nat) (s : CodeUnits) : Token.Kind × Bool × Nat → Prop
  | text (hall : fillingLength s = s.length) : EndsAs opening s (.url, true, opening + s.length)
  | closed (hparen : ahead s (fillingLength s) = CodeUnit.rightParen)
      (hlt : fillingLength s < s.length) :
      EndsAs opening s (.url, false, opening + fillingLength s + 1)
  | bad (hother : ahead s (fillingLength s) ≠ CodeUnit.rightParen)
      (hlt : fillingLength s < s.length) :
      EndsAs opening s (.badUrl, false,
        opening + (fillingLength s + Token.badUrlLength (s.drop (fillingLength s))))

theorem endsAs_readUrl (opening : Nat) (s : CodeUnits) : EndsAs opening s
    ((Token.readUrl (s.drop (whitespaceRun s))).grow (opening + whitespaceRun s)).outline := by
  have hread := Token.outline_grow_congr (n := opening + whitespaceRun s)
    (isRead_readUrl (s.drop (whitespaceRun s))).outline
  rw [Token.grow_grow, List.drop_drop, Nat.add_assoc] at hread
  rw [hread, ← fillingLength]
  have hle := fillingLength_le s
  cases hbehind : s.drop (fillingLength s) with
  | nil =>
    rw [List.drop_eq_nil_iff] at hbehind
    have hall := Nat.le_antisymm hle hbehind
    rw [hall]
    exact .text hall
  | cons u left =>
    have hunit : ahead s (fillingLength s) = u := by
      rw [← Nat.add_zero (fillingLength s), ← CodeUnits.ahead_drop, hbehind]
      rfl
    have hlt : fillingLength s < s.length := by
      have hlength := congrArg List.length hbehind
      rw [List.length_drop, List.length_cons] at hlength
      omega
    rw [Token.readUrlEnd]
    split
    · next hparen => exact .closed (hunit.trans (beq_iff_eq.mp hparen)) hlt
    · next hparen =>
      have hother : ahead s (fillingLength s) ≠ CodeUnit.rightParen := by
        rw [hunit]
        exact fun h => hparen (beq_iff_eq.mpr h)
      have hbad : EndsAs opening s _ := .bad hother hlt
      rw [hbehind, ← Nat.add_assoc] at hbad
      exact hbad

namespace EndsAs

variable {opening n : Nat} {outline : Token.Kind × Bool × Nat}

theorem fillingLength_le (h : EndsAs opening s outline) :
    opening + fillingLength s ≤ outline.2.2 := by
  cases h with
  | text hall => exact Nat.le_of_eq (congrArg (opening + ·) hall)
  | closed => exact Nat.le_succ _
  | bad => exact Nat.add_le_add_left (Nat.le_add_right _ _) opening

theorem eq_url_iff (h : EndsAs opening s outline) : outline = (.url, false, n) ↔
    ∃ x, (IsFilling x ∧ x ++ [CodeUnit.rightParen] <+: s) ∧ n = opening + x.length + 1 := by
  rw [exists_closes_iff (p := fun length => n = opening + length + 1)]
  cases h with
  | text hall => simp [hall, CodeUnits.ahead_length, CodeUnit.rightParen]
  | closed hparen => simp [hparen, eq_comm]
  | bad hother => simp [hother]

theorem eq_text_iff (h : EndsAs opening s outline) :
    outline = (.url, true, n) ↔ IsFilling s ∧ n = opening + s.length := by
  rw [isFilling_iff]
  cases h with
  | text hall => simp [hall, eq_comm]
  | closed _ hlt => simp [Nat.ne_of_lt hlt]
  | bad _ hlt => simp [Nat.ne_of_lt hlt]

/-- A url that is neither complete nor cut off is bad from behind its longest filling on. -/
theorem exists_bad (h : EndsAs opening s outline)
    (hopen : ¬∃ x, IsFilling x ∧ x ++ [CodeUnit.rightParen] <+: s) (hleft : ¬IsFilling s) :
    ∃ x i, CodeUnits.IsLongest IsFilling s x ∧ x.length < s.length ∧
      outline = (.badUrl, false, opening + i) ∧ IsLeast {i | x.length ≤ i ∧ Ends s i} i := by
  cases h with
  | text hall => exact absurd (isFilling_iff.mpr hall) hleft
  | closed hparen => exact absurd ⟨_, closes_iff.mpr ⟨rfl, hparen⟩⟩ hopen
  | bad _ hlt =>
    have hle := Url.fillingLength_le s
    have hlength := List.length_take_of_le hle
    refine ⟨_, _, isLongest_take s, ?_, rfl, ?_⟩
    · rw [hlength]
      exact hlt
    · rw [hlength]
      exact (passes_fillingLength s).isLeast hle (isLeast_badUrlLength _)

end EndsAs

end Url

/-- An unquoted url is complete just where its filling has a closing parenthesis behind it, which is
the first one that is not escaped; it is unterminated just where its filling is all that is left.
Any other is bad: what offends is the unit behind the longest filling, and it ends before the first
unescaped `)` from there on, or with the text. -/
theorem Cursor.next_url (cursor : Cursor) (hname : Name.IsSpelled cursor.rest "url")
    (hparen : cursor.ahead (Name.extent cursor.rest).length = CodeUnit.leftParen) :
    let opening := (Name.extent cursor.rest).length + 1
    let inside : CodeUnits := cursor.rest.drop opening
    (CodeUnits.OpensQuoted inside → cursor.next.1.outline = (.function, false, opening)) ∧
    (¬CodeUnits.OpensQuoted inside →
      (∀ n, cursor.next.1.outline = (.url, false, n) ↔
        ∃ x, (Url.IsFilling x ∧ x ++ [CodeUnit.rightParen] <+: inside) ∧
          n = opening + x.length + 1) ∧
      (∀ x, Url.IsFilling x → x ++ [CodeUnit.rightParen] <+: inside →
        IsLeast {i | Unescaped CodeUnit.rightParen inside i} x.length) ∧
      (∀ n, cursor.next.1.outline = (.url, true, n) ↔
        Url.IsFilling inside ∧ n = cursor.rest.length) ∧
      ((¬∃ x, Url.IsFilling x ∧ x ++ [CodeUnit.rightParen] <+: inside) → ¬Url.IsFilling inside →
        ∃ x i, CodeUnits.IsLongest Url.IsFilling inside x ∧ x.length < inside.length ∧
          cursor.next.1.outline = (.badUrl, false, opening + i) ∧
          IsLeast {i | x.length ≤ i ∧
            (Unescaped CodeUnit.rightParen inside i ∨ i = inside.length)} i)) := by
  intro opening inside
  have hread : cursor.next.1 = Token.readUrlOpening (Name.extent cursor.rest) inside := by
    rw [ahead_eq_rest] at hparen
    exact Token.read_of_isSpelled hname hparen
  have hrest : cursor.rest.length = opening + inside.length := by
    have hlt : (Name.extent cursor.rest).length < cursor.rest.length := by
      rw [ahead_eq_rest] at hparen
      apply CodeUnits.ahead_ne_zero
      rw [hparen]
      decide
    rw [List.length_drop]
    omega
  rw [hread, CodeUnits.opensQuoted_iff, Token.readUrlOpening, hrest]
  refine ⟨fun hquote => by rw [if_pos hquote]; rfl, fun hquote => ?_⟩
  rw [if_neg hquote]
  have hends : Url.EndsAs opening inside _ := Url.endsAs_readUrl opening inside
  exact ⟨fun n => hends.eq_url_iff, fun x hx hclose => Url.isLeast_of_closes hx hclose,
    fun n => hends.eq_text_iff, hends.exists_bad⟩

/-- The escaped parenthesis belongs to the url and the one behind it completes it. -/
theorem Cursor.next_url_of_escapes :
    let cursor := Cursor.ofUnits (CodeUnits.ofString "u\\72l( \\) )")
    Name.IsSpelled cursor.rest "url" ∧
      cursor.ahead (Name.extent cursor.rest).length = CodeUnit.leftParen ∧
      cursor.next.1.outline = (.url, false, 11) := by
  intro cursor
  have hname : Name.IsSpelled cursor.rest "url" := by
    unfold Name.IsSpelled
    decide +kernel
  have hparen : cursor.ahead (Name.extent cursor.rest).length = CodeUnit.leftParen := by
    decide +kernel
  have hopening : (Name.extent cursor.rest).length + 1 = 6 := by decide +kernel
  obtain ⟨-, hurl⟩ := cursor.next_url hname hparen
  rw [hopening] at hurl
  have hquote : ¬CodeUnits.OpensQuoted (cursor.rest.drop 6) := by
    rw [CodeUnits.opensQuoted_iff]
    decide +kernel
  have hbody : Escape.IsBody [CodeUnit.rightParen] := .unit rfl (by decide) rfl
  have hcontent : Url.IsContent [CodeUnit.backslash, CodeUnit.rightParen] := .escape hbody .nil
  have hspace : ∀ u ∈ [CodeUnit.space], u.isWhitespace = true :=
    List.forall_mem_singleton.mpr rfl
  have hclose : [CodeUnit.space, CodeUnit.backslash, CodeUnit.rightParen, CodeUnit.space] ++
      [CodeUnit.rightParen] <+: cursor.rest.drop 6 := by decide +kernel
  exact ⟨hname, hparen, ((hurl hquote).1 11).mpr ⟨_, ⟨.intro hspace hcontent hspace, hclose⟩, rfl⟩⟩

/-- Before a unit that stands for itself, `url(` opens a url that is not quoted. -/
theorem Url.opens_of_isUrlUnit {u : CodeUnit} (hunit : u.isUrlUnit = true) (rest : CodeUnits) :
    let source : CodeUnits := CodeUnits.ofString "url(" ++ u :: rest
    Name.IsSpelled source "url" ∧ CodeUnits.ahead source 3 = CodeUnit.leftParen ∧
      ¬CodeUnits.OpensQuoted (u :: rest) := by
  intro source
  have hsource : source = 0x75 :: 0x72 :: 0x6C :: CodeUnit.leftParen :: u :: rest := by
    have hopening : CodeUnits.ofString "url(" = [0x75, 0x72, 0x6C, CodeUnit.leftParen] := by
      decide +kernel
    show CodeUnits.ofString "url(" ++ u :: rest = _
    rw [hopening]
    rfl
  have hescape (v : CodeUnit) : CodeUnit.isValidEscape CodeUnit.leftParen v = false :=
    CodeUnit.isValidEscape_of_ne (by decide)
  refine ⟨?_, by rw [hsource]; rfl, ?_⟩
  · rw [Name.IsSpelled, hsource, Name.pieces, if_pos (by decide), Name.pieces,
      if_pos (by decide), Name.pieces, if_pos (by decide), Name.pieces, if_neg (by decide), hescape,
      if_neg Bool.false_ne_true]
    decide +kernel
  · simp only [CodeUnit.isUrlUnit, Bool.not_eq_true', Bool.or_eq_false_iff] at hunit
    rw [CodeUnits.opensQuoted_iff, CodeUnits.whitespaceRun_cons_of_not hunit.1.1.1.1.1,
      List.drop_zero, CodeUnits.ahead, List.getD_cons_zero, hunit.1.1.1.1.2]
    exact Bool.false_ne_true

theorem Url.isFilling_of_all {x : CodeUnits} (h : ∀ u ∈ x, u.isUrlUnit = true) : IsFilling x := by
  have hcontent : IsContent x := by
    induction x with
    | nil => exact .nil
    | cons u x ih =>
      rw [List.forall_mem_cons] at h
      exact .unit h.1 (ih h.2)
  have hspace : ∀ u ∈ ([] : CodeUnits), u.isWhitespace = true := List.forall_mem_nil _
  have hfilling := IsFilling.intro hspace hcontent hspace
  rwa [List.nil_append, List.append_nil] at hfilling

/-- A url whose closing parenthesis is beyond the reach of offsets is not complete. -/
theorem Cursor.next_of_url_beyond {filling : CodeUnits}
    (hlength : CodeUnits.maxLength ≤ filling.length)
    (hunits : ∀ u ∈ filling, u.isUrlUnit = true) :
    let inside : CodeUnits := filling ++ [CodeUnit.rightParen]
    let source : CodeUnits := CodeUnits.ofString "url(" ++ inside
    (Name.IsSpelled source "url" ∧ CodeUnits.ahead source 3 = CodeUnit.leftParen ∧
      ¬CodeUnits.OpensQuoted inside) ∧ Url.IsFilling filling ∧
      (Cursor.ofUnits source).next.1.outline ≠ (.url, false, 4 + filling.length + 1) := by
  cases filling with
  | nil => exact absurd hlength (by decide)
  | cons u rest =>
    intro inside source
    have hfirst : u.isUrlUnit = true := hunits u List.mem_cons_self
    exact ⟨Url.opens_of_isUrlUnit hfirst _, Url.isFilling_of_all hunits,
      Cursor.outline_next_ne _ (by omega) _ _⟩

/-- The parenthesis behind 4294967295 letters would complete the url. And the name behind `@` opens
no url. -/
theorem Cursor.next_of_long_url :
    (let filling : CodeUnits := List.replicate CodeUnits.maxLength 0x61
      let inside : CodeUnits := filling ++ [CodeUnit.rightParen]
      let source : CodeUnits := CodeUnits.ofString "url(" ++ inside
      (Name.IsSpelled source "url" ∧ CodeUnits.ahead source 3 = CodeUnit.leftParen ∧
        ¬CodeUnits.OpensQuoted inside) ∧ Url.IsFilling filling ∧
        (Cursor.ofUnits source).next.1.outline ≠ (.url, false, 4 + filling.length + 1)) ∧
    let source : CodeUnits := CodeUnits.ofString "@url(x)"
    (Name.IsSpelled (source.drop 1) "url" ∧ CodeUnits.ahead source 4 = CodeUnit.leftParen ∧
      ¬CodeUnits.OpensQuoted (source.drop 5)) ∧
      (Cursor.ofUnits source).next.1.kind = .atKeyword := by
  constructor
  · refine Cursor.next_of_url_beyond (Nat.le_of_eq List.length_replicate.symm) fun u hmem => ?_
    rw [List.eq_of_mem_replicate hmem]
    decide
  · simp only [CodeUnits.opensQuoted_iff, Name.IsSpelled]
    decide +kernel

end StyleRules
