import StyleRules.Proofs.CodeUnit.Case
import StyleRules.Proofs.Text.Utf16
import StyleRules.Token.Stream

/-!
# Tokens and case

Each reader reads a masked text as it reads the text, so the tokens of a text tell neither the case
of its letters nor one unit outside ASCII from another. An escape may get shorter: the second half
of a surrogate pair then stands behind the escape, where each reader goes over it as a single unit.
-/

namespace StyleRules

open CodeUnit (beq_of_not_isAscii mask_beq mask_bne)
open CodeUnits (ahead mask whitespaceRun newlineLength whitespaceLength startsIdentifier
  startsNumber ahead_mask drop_mask take_mask)

variable (s : CodeUnits)

/-! ## Whitespace and escapes -/

theorem CodeUnits.whitespaceRun_mask : whitespaceRun s.mask = whitespaceRun s := by
  rw [whitespaceRun, takeWhile_mask s CodeUnit.isWhitespace_mask, length_mask, whitespaceRun]

theorem CodeUnits.newlineLength_mask : newlineLength s.mask = newlineLength s := by
  unfold newlineLength
  rw [ahead_mask, ahead_mask, mask_beq _ (by decide), mask_beq _ (by decide),
    CodeUnit.isNewline_mask]

theorem CodeUnits.whitespaceLength_mask : whitespaceLength s.mask = whitespaceLength s := by
  unfold whitespaceLength
  rw [ahead_mask, ahead_mask, mask_beq _ (by decide), mask_beq _ (by decide),
    CodeUnit.isWhitespace_mask]

namespace Escape

/-- How long an escape is in a text and in the masked text: as long, or one unit shorter where it
takes a surrogate pair. -/
inductive Masked : CodeUnits → Nat → Nat → Prop
  | same (s : CodeUnits) (n : Nat) : Masked s n n
  | pair {high low : CodeUnit} (rest : CodeUnits) (hlow : low.isAscii = false) :
      Masked (high :: low :: rest) 2 1

theorem hexDigits_mask : hexDigits s.mask = CodeUnits.mask (hexDigits s) := by
  rw [hexDigits, take_mask, CodeUnits.takeWhile_mask _ CodeUnit.isHexDigit_mask, hexDigits]

theorem masked_length : Masked s (length s) (length s.mask) := by
  cases s with
  | nil => exact .same _ _
  | cons u rest =>
    have hdigits := hexDigits_mask (u :: rest)
    rw [CodeUnits.mask_cons] at hdigits ⊢
    rw [length, length, CodeUnit.isHexDigit_mask, hdigits,
      CodeUnit.isPair_eq_false_of_left u.isSurrogate_mask, if_neg Bool.false_ne_true,
      ← CodeUnits.mask_cons]
    dsimp only
    rw [CodeUnits.length_mask, drop_mask, CodeUnits.whitespaceLength_mask]
    split
    · exact .same _ _
    split
    · next hpair =>
      have hsecond : (ahead rest 0).isAscii = false := by
        rw [← Bool.not_eq_true]
        intro hascii
        have hplain := CodeUnit.isPair_eq_false_of_right (CodeUnit.isSurrogate_of_isAscii hascii) u
        exact Bool.false_ne_true (hplain.symm.trans hpair)
      cases rest with
      | nil => exact absurd hsecond (by decide)
      | cons low rest => exact .pair rest hsecond
    · exact .same _ _

theorem masked_lengthInString : Masked s (lengthInString s) (lengthInString s.mask) := by
  unfold lengthInString
  rw [ahead_mask, CodeUnit.isNewline_mask, CodeUnits.newlineLength_mask]
  split
  · exact .same _ _
  · exact masked_length s

/-- A reader that goes over an escape and over units outside ASCII reads on from the same place. -/
theorem Masked.grow_eq {α : Type} {s : CodeUnits} {n m : Nat} (h : Masked s n m)
    (f : CodeUnits → α) (grow : Nat → α → α)
    (hgrow : ∀ m n x, grow m (grow n x) = grow (m + n) x)
    (hunit : ∀ (u : CodeUnit) rest, u.isAscii = false → f (u :: rest) = grow 1 (f rest))
    (ih : f (mask (s.drop n)) = f (s.drop n)) :
    grow (1 + m) (f (s.mask.drop m)) = grow (1 + n) (f (s.drop n)) := by
  cases h with
  | same => rw [drop_mask, ih]
  | @pair high low rest hlow =>
    have hmask : low.mask.isAscii = false := by
      rw [CodeUnit.mask, hlow]
      rfl
    show grow 2 (f (low.mask :: mask rest)) = grow 3 (f rest)
    have hrest : f (mask rest) = f rest := ih
    rw [hunit _ _ hmask, hgrow, hrest]

theorem digitsValue_mask (digits : CodeUnits) :
    digitsValue digits.mask = digitsValue digits := by
  unfold digitsValue CodeUnits.mask
  rw [List.foldl_map]
  simp only [CodeUnit.hexValue_mask]

end Escape

/-! ## Names -/

namespace Name

theorem extent_mask : extent s.mask = extent s := by
  have hunit : ∀ (u : CodeUnit) rest, u.isAscii = false →
      extent (u :: rest) = ⟨1 + (extent rest).length, (extent rest).escaped⟩ := by
    intro u rest hu
    have hname : u.isName = true :=
      CodeUnit.eq_not_of_not_isAscii hu CodeUnit.isAscii_of_not_isName
    rw [extent, if_pos hname]
  fun_induction extent s with
  | case1 => rw [CodeUnits.mask_nil, extent]
  | case2 u rest hname tail ih =>
    rw [CodeUnits.mask_cons, extent, CodeUnit.isName_mask, if_pos hname, ih]
  | case3 u rest hname hescape body tail ih =>
    have hrest := (Escape.masked_length rest).grow_eq extent
      (fun n name => ⟨n + name.length, name.escaped⟩) (fun m n x => by rw [Nat.add_assoc]) hunit ih
    rw [CodeUnits.mask_cons, extent, CodeUnit.isName_mask, if_neg hname, ahead_mask,
      CodeUnit.isValidEscape_mask, if_pos hescape]
    exact congrArg (fun name : Extent => (⟨name.length, true⟩ : Extent)) hrest
  | case4 u rest hname hescape =>
    rw [CodeUnits.mask_cons, extent, CodeUnit.isName_mask, if_neg hname, ahead_mask,
      CodeUnit.isValidEscape_mask, if_neg hescape]

theorem foldCodePoint_toNat (u : CodeUnit) : foldCodePoint u.toNat = u.fold.toNat := by
  have hrange : u.isUpper = true ↔ 0x41 ≤ u.toNat ∧ u.toNat ≤ 0x5A := by
    simp [CodeUnit.isUpper, UInt16.le_iff_toNat_le]
  unfold foldCodePoint
  split
  · next hupper => exact (CodeUnit.toNat_fold_of_isUpper (hrange.mpr hupper)).symm
  · next hupper => rw [CodeUnit.fold_of_not_isUpper (Bool.eq_false_iff.mpr (mt hrange.mp hupper))]

/-- A masked name may begin with another code point, but not with another one of ASCII. -/
theorem decode_mask : (decode s.mask).length = (decode s).length ∧ ∀ byte : UInt8,
    CodeUnit.isAscii byte.toUInt16 = true →
      (foldCodePoint (decode s.mask).code == byte.toNat) =
        (foldCodePoint (decode s).code == byte.toNat) := by
  have hunit (u : CodeUnit) (byte : UInt8) (hbyte : CodeUnit.isAscii byte.toUInt16 = true) :
      (foldCodePoint u.mask.toNat == byte.toNat) = (foldCodePoint u.toNat == byte.toNat) := by
    have hunits (v : CodeUnit) : (v.toNat == byte.toNat) = (v == byte.toUInt16) := by
      rw [Bool.eq_iff_iff, beq_iff_eq, beq_iff_eq, ← UInt16.toNat_inj, UInt8.toNat_toUInt16]
    rw [foldCodePoint_toNat, foldCodePoint_toNat, hunits, hunits, CodeUnit.fold_mask_beq u hbyte]
  cases s with
  | nil => exact ⟨rfl, fun _ _ => rfl⟩
  | cons u rest =>
    rw [CodeUnits.mask_cons, decode, decode, mask_beq u (by decide), CodeUnits.isEmpty_mask,
      ahead_mask, CodeUnit.isHexDigit_mask, Escape.hexDigits_mask]
    split
    · split
      · dsimp only
        rw [Escape.digitsValue_mask, CodeUnits.length_mask, drop_mask,
          CodeUnits.whitespaceLength_mask]
        exact ⟨rfl, fun _ _ => rfl⟩
      · exact ⟨rfl, hunit (ahead rest 0)⟩
    · exact ⟨rfl, hunit u⟩

theorem behindByte?_mask {byte : UInt8} (hbyte : CodeUnit.isAscii byte.toUInt16 = true) :
    behindByte? s.mask byte = (behindByte? s byte).map mask := by
  obtain ⟨hlength, hcode⟩ := decode_mask s
  unfold behindByte?
  rw [CodeUnits.isEmpty_mask, hlength, hcode byte hbyte, drop_mask]
  split <;> rfl

theorem foldlM_behindByte?_mask {bytes : List UInt8}
    (hbytes : ∀ byte ∈ bytes, CodeUnit.isAscii byte.toUInt16 = true) :
    bytes.foldlM behindByte? s.mask = (bytes.foldlM behindByte? s).map mask := by
  induction bytes generalizing s with
  | nil => rfl
  | cons byte bytes ih =>
    obtain ⟨hbyte, hrest⟩ := List.forall_mem_cons.mp hbytes
    rw [List.foldlM_cons, List.foldlM_cons, behindByte?_mask s hbyte]
    cases behindByte? s byte with
    | none => rfl
    | some rest => exact ih rest hrest

theorem equalsFolded_mask {lowercase : String}
    (hascii : ∀ byte ∈ literalBytes lowercase, CodeUnit.isAscii byte.toUInt16 = true) :
    equalsFolded s.mask lowercase = equalsFolded s lowercase := by
  unfold equalsFolded
  rw [foldlM_behindByte?_mask s hascii]
  cases (literalBytes lowercase).foldlM behindByte? s with
  | none => rfl
  | some rest => cases rest <;> rfl

end Name

/-! ## Numbers -/

namespace Number

theorem signLength_mask : signLength s.mask = signLength s := by
  unfold signLength
  rw [ahead_mask, mask_beq _ (by decide), mask_beq _ (by decide)]

theorem digitsLength_mask : digitsLength s.mask = digitsLength s := by
  rw [digitsLength, CodeUnits.takeWhile_mask s CodeUnit.isDigit_mask, CodeUnits.length_mask,
    digitsLength]

theorem fractionLength_mask : fractionLength s.mask = fractionLength s := by
  unfold fractionLength
  rw [ahead_mask, ahead_mask, mask_beq _ (by decide), CodeUnit.isDigit_mask, drop_mask,
    digitsLength_mask]

theorem CodeUnit.isAscii_of_isExponentLetter {u : CodeUnit} (h : isExponentLetter u = true) :
    u.isAscii = true := by
  simp only [isExponentLetter, Bool.or_eq_true, beq_iff_eq] at h
  rcases h with rfl | rfl <;> rfl

theorem exponentLength_mask : exponentLength s.mask = exponentLength s := by
  have hletter := CodeUnit.apply_mask_of_isAscii (p := isExponentLetter) true (by decide)
    CodeUnit.isAscii_of_isExponentLetter
  unfold exponentLength
  simp only [ahead_mask, hletter, drop_mask, signLength_mask, CodeUnit.isDigit_mask,
    digitsLength_mask]

theorem length_mask : length s.mask = length s := by
  unfold length
  simp only [signLength_mask, drop_mask, digitsLength_mask, fractionLength_mask,
    exponentLength_mask]

end Number

/-! ## Readers -/

namespace Token

theorem readString_mask {quote : CodeUnit}
    (hquote : quote.isAscii = true ∧ quote.isLetter = false) :
    readString quote s.mask = readString quote s := by
  have hunit : ∀ (u : CodeUnit) rest, u.isAscii = false →
      readString quote (u :: rest) = (readString quote rest).grow 1 := by
    intro u rest hu
    have hline : u.isNewline = false :=
      CodeUnit.eq_not_of_not_isAscii hu CodeUnit.isAscii_of_isNewline
    rw [readString, beq_of_not_isAscii hu hquote.1, hline, beq_of_not_isAscii hu rfl]
    rfl
  fun_induction readString quote s with
  | case1 => rw [CodeUnits.mask_nil, readString]
  | case2 u rest hclose => rw [CodeUnits.mask_cons, readString, mask_beq u hquote, if_pos hclose]
  | case3 u rest hclose hline =>
    rw [CodeUnits.mask_cons, readString, mask_beq u hquote, if_neg hclose,
      CodeUnit.isNewline_mask, if_pos hline]
  | case4 u rest hclose hline hescape body ih =>
    rw [CodeUnits.mask_cons, readString, mask_beq u hquote, if_neg hclose,
      CodeUnit.isNewline_mask, if_neg hline, mask_beq u (by decide), CodeUnits.isEmpty_mask,
      if_pos hescape]
    have hrest := (Escape.masked_lengthInString rest).grow_eq (readString quote) grow
      (fun m n token => grow_grow token n m) hunit ih
    exact congrArg markEscaped hrest
  | case5 u rest hclose hline hescape ih =>
    rw [CodeUnits.mask_cons, readString, mask_beq u hquote, if_neg hclose,
      CodeUnit.isNewline_mask, if_neg hline, mask_beq u (by decide), CodeUnits.isEmpty_mask,
      if_neg hescape, ih]

theorem readComment_mask : readComment s.mask = readComment s := by
  fun_induction readComment s with
  | case1 => rfl
  | case2 u rest hclose =>
    rw [CodeUnits.mask_cons, readComment, mask_beq u (by decide), ahead_mask,
      mask_beq _ (by decide), if_pos hclose]
  | case3 u rest hclose ih =>
    rw [CodeUnits.mask_cons, readComment, mask_beq u (by decide), ahead_mask,
      mask_beq _ (by decide), if_neg hclose, ih]

theorem badUrlLength_mask : badUrlLength s.mask = badUrlLength s := by
  have hunit : ∀ (u : CodeUnit) rest, u.isAscii = false →
      badUrlLength (u :: rest) = 1 + badUrlLength rest := by
    intro u rest hu
    rw [badUrlLength, CodeUnit.isValidEscape, beq_of_not_isAscii hu rfl, beq_of_not_isAscii hu rfl]
    rfl
  fun_induction badUrlLength s with
  | case1 => rw [CodeUnits.mask_nil, badUrlLength]
  | case2 u rest hclose =>
    rw [CodeUnits.mask_cons, badUrlLength, mask_beq u (by decide), if_pos hclose]
  | case3 u rest hclose hescape body ih =>
    rw [CodeUnits.mask_cons, badUrlLength, mask_beq u (by decide), if_neg hclose, ahead_mask,
      CodeUnit.isValidEscape_mask, if_pos hescape]
    exact (Escape.masked_length rest).grow_eq badUrlLength (· + ·)
      (fun m n length => (Nat.add_assoc m n length).symm) hunit ih
  | case4 u rest hclose hescape ih =>
    rw [CodeUnits.mask_cons, badUrlLength, mask_beq u (by decide), if_neg hclose, ahead_mask,
      CodeUnit.isValidEscape_mask, if_neg hescape, ih]

theorem badUrl_mask : badUrl s.mask = badUrl s := by
  rw [badUrl, badUrlLength_mask, badUrl]

theorem readUrlEnd_mask : readUrlEnd s.mask = readUrlEnd s := by
  cases s with
  | nil => rfl
  | cons u rest =>
    have hbad := badUrl_mask (u :: rest)
    rw [CodeUnits.mask_cons] at hbad ⊢
    rw [readUrlEnd, readUrlEnd, mask_beq u (by decide), hbad]

theorem isAscii_of_endsUrlBadly {u : CodeUnit} (h : endsUrlBadly u = true) :
    u.isAscii = true := by
  rw [endsUrlBadly, Bool.or_eq_true, Bool.or_eq_true, beq_iff_eq] at h
  rcases h with (hquote | rfl) | hcontrol
  · exact CodeUnit.isAscii_of_isQuote hquote
  · rfl
  · exact CodeUnit.isAscii_of_isNonPrintable hcontrol

theorem endsUrlBadly_mask (u : CodeUnit) : endsUrlBadly u.mask = endsUrlBadly u := by
  unfold endsUrlBadly
  rw [CodeUnit.isQuote_mask, mask_beq u (by decide), CodeUnit.isNonPrintable_mask]

theorem readUrl_mask : readUrl s.mask = readUrl s := by
  have hunit : ∀ (u : CodeUnit) rest, u.isAscii = false →
      readUrl (u :: rest) = (readUrl rest).grow 1 := by
    intro u rest hu
    have hspace : u.isWhitespace = false :=
      CodeUnit.eq_not_of_not_isAscii hu CodeUnit.isAscii_of_isWhitespace
    have hbadly : endsUrlBadly u = false :=
      CodeUnit.eq_not_of_not_isAscii hu isAscii_of_endsUrlBadly
    rw [readUrl, beq_of_not_isAscii hu rfl, hspace, hbadly, beq_of_not_isAscii hu rfl]
    rfl
  have hbad := badUrl_mask s
  fun_induction readUrl s with
  | case1 => rw [CodeUnits.mask_nil, readUrl]
  | case2 u rest hclose =>
    rw [CodeUnits.mask_cons, readUrl, mask_beq u (by decide), if_pos hclose]
  | case3 u rest hclose hspace =>
    rw [CodeUnits.mask_cons, readUrl, mask_beq u (by decide), if_neg hclose,
      CodeUnit.isWhitespace_mask, if_pos hspace, ← CodeUnits.mask_cons,
      CodeUnits.whitespaceRun_mask]
    dsimp only
    rw [drop_mask, readUrlEnd_mask]
  | case4 u rest hclose hspace hbadly =>
    rw [CodeUnits.mask_cons] at hbad ⊢
    rw [readUrl, mask_beq u (by decide), if_neg hclose, CodeUnit.isWhitespace_mask,
      if_neg hspace, endsUrlBadly_mask, if_pos hbadly, hbad]
  | case5 u rest hclose hspace hbadly hback hescape body ih =>
    rw [CodeUnits.mask_cons, readUrl, mask_beq u (by decide), if_neg hclose,
      CodeUnit.isWhitespace_mask, if_neg hspace, endsUrlBadly_mask, if_neg hbadly,
      mask_beq u (by decide), if_pos hback, ahead_mask, CodeUnit.isValidEscape_mask,
      if_pos hescape]
    have hrest := (Escape.masked_length rest).grow_eq readUrl grow
      (fun m n token => grow_grow token n m) hunit (ih (badUrl_mask _))
    exact congrArg markEscaped hrest
  | case6 u rest hclose hspace hbadly hback hescape =>
    rw [CodeUnits.mask_cons] at hbad ⊢
    rw [readUrl, mask_beq u (by decide), if_neg hclose, CodeUnit.isWhitespace_mask,
      if_neg hspace, endsUrlBadly_mask, if_neg hbadly, mask_beq u (by decide), if_pos hback,
      ahead_mask, CodeUnit.isValidEscape_mask, if_neg hescape, hbad]
  | case7 u rest hclose hspace hbadly hback ih =>
    rw [CodeUnits.mask_cons, readUrl, mask_beq u (by decide), if_neg hclose,
      CodeUnit.isWhitespace_mask, if_neg hspace, endsUrlBadly_mask, if_neg hbadly,
      mask_beq u (by decide), if_neg hback, ih (badUrl_mask _)]

theorem readNumeric_mask : readNumeric s.mask = readNumeric s := by
  unfold readNumeric
  simp only [Number.length_mask, drop_mask, CodeUnits.startsIdentifier_mask, Name.extent_mask,
    ahead_mask, mask_beq _ (show CodeUnit.isAscii CodeUnit.percentSign = true ∧ _ by decide)]

theorem isUrlName_mask (name : CodeUnits) (escaped : Bool) :
    isUrlName name.mask escaped = isUrlName name escaped := by
  have hascii : ∀ byte ∈ literalBytes "url", CodeUnit.isAscii byte.toUInt16 = true := by
    decide +kernel
  rw [isUrlName, Name.equalsFolded_mask name hascii, CodeUnits.equalsFolded_mask name hascii,
    isUrlName]

theorem readIdentLike_mask : readIdentLike s.mask = readIdentLike s := by
  unfold readIdentLike
  simp only [Name.extent_mask, drop_mask, take_mask, ahead_mask, CodeUnits.whitespaceRun_mask,
    isUrlName_mask, CodeUnit.isQuote_mask, readUrl_mask,
    mask_bne _ (show CodeUnit.isAscii CodeUnit.leftParen = true ∧ _ by decide)]

theorem readMarked_mask (kind : Kind) (rest : CodeUnits) :
    readMarked kind rest.mask = readMarked kind rest := by
  rw [readMarked, Name.extent_mask, readMarked]

theorem readOther_mask (u : CodeUnit) (rest : CodeUnits) :
    readOther u.mask rest.mask = readOther u rest := by
  have hsingle : singleKind u.mask = singleKind u := by
    unfold singleKind
    simp (disch := decide) only [mask_beq]
  have hstring : u.isQuote = true → readString u.mask rest.mask = readString u rest := by
    intro hquote
    rw [CodeUnit.isQuote, Bool.or_eq_true, beq_iff_eq, beq_iff_eq] at hquote
    rcases hquote with rfl | rfl <;> exact readString_mask rest (by decide)
  unfold readOther
  simp (disch := decide) only [CodeUnit.isWhitespace_mask, CodeUnit.isQuote_mask, mask_beq,
    CodeUnits.whitespaceRun_mask, ahead_mask, CodeUnit.isName_mask, CodeUnits.startsEscape_mask,
    readMarked_mask, CodeUnits.startsIdentifier_mask, drop_mask, readComment_mask, hsingle]
  cases hquote : u.isQuote with
  | true => rw [hstring hquote]
  | false => simp only [Bool.false_eq_true, if_false]

theorem startsCdc_mask : startsCdc s.mask = startsCdc s := by
  unfold startsCdc
  rw [ahead_mask, ahead_mask, ahead_mask, mask_beq _ (by decide), mask_beq _ (by decide),
    mask_beq _ (by decide)]

theorem read_mask : read s.mask = read s := by
  cases s with
  | nil => rfl
  | cons u rest =>
    show (if startsNumber (mask (u :: rest)) then readNumeric (mask (u :: rest))
      else if startsCdc (mask (u :: rest)) then plain .cdc 3
      else if startsIdentifier (mask (u :: rest)) then readIdentLike (mask (u :: rest))
      else readOther u.mask (mask rest)) = _
    rw [CodeUnits.startsNumber_mask, startsCdc_mask, CodeUnits.startsIdentifier_mask,
      readNumeric_mask, readIdentLike_mask, readOther_mask]
    rfl

theorem ofText_mask : ofText s.mask = ofText s := by
  fun_induction ofText s with
  | case1 => rw [CodeUnits.mask_nil, ofText]
  | case2 u rest token ih =>
    rw [CodeUnits.mask_cons, ofText, ← CodeUnits.mask_cons, read_mask, drop_mask, ih]

end Token

end StyleRules
