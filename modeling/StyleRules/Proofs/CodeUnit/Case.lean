import StyleRules.Proofs.CodeUnit.Fold
import StyleRules.Span
import StyleRules.Text.Utf16

/-!
# Classes and case

No class of units tells a letter from its other case, or a unit outside ASCII from another one; any
other unit is told apart by itself. So nothing that a text is looked at for changes when the case of
its letters and its units outside ASCII are masked.
-/

namespace StyleRules

namespace CodeUnit

def isAscii (u : CodeUnit) : Bool := u < 0x80

/-- A unit as the classes see it: a letter in lower case, and one unit for all outside ASCII. -/
def mask (u : CodeUnit) : CodeUnit := if u.isAscii then u.fold else 0x80

/-! ## ASCII units -/

section Ascii

variable {u c : CodeUnit}

theorem beq_of_not_isAscii (hu : u.isAscii = false) (hc : c.isAscii = true) :
    (u == c) = false := by
  rw [beq_eq_false_iff_ne]
  rintro rfl
  exact Bool.false_ne_true (hu.symm.trans hc)

theorem eq_not_of_not_isAscii {a b : Bool} (hu : u.isAscii = false)
    (h : a = b → u.isAscii = true) : a = !b := by
  rw [Bool.eq_not]
  exact fun hab => Bool.false_ne_true (hu.symm.trans (h hab))

theorem isAscii_of_isLetter (h : u.isLetter = true) : u.isAscii = true := by
  simp only [isLetter, isUpper, isLower, isAscii, Bool.or_eq_true, Bool.and_eq_true,
    decide_eq_true_eq, UInt16.le_iff_toNat_le, UInt16.lt_iff_toNat_lt, UInt16.reduceToNat] at h ⊢
  omega

theorem fold_of_not_isAscii (hu : u.isAscii = false) : u.fold = u :=
  fold_of_not_isLetter (eq_not_of_not_isAscii hu isAscii_of_isLetter)

theorem isAscii_of_isHexDigit (h : u.isHexDigit = true) : u.isAscii = true := by
  simp only [isHexDigit, isDigit, isAscii, Bool.or_eq_true, Bool.and_eq_true, decide_eq_true_eq,
    UInt16.le_iff_toNat_le, UInt16.lt_iff_toNat_lt, UInt16.reduceToNat] at h ⊢
  omega

theorem isAscii_of_isDigit (h : u.isDigit = true) : u.isAscii = true := by
  apply isAscii_of_isHexDigit
  rw [isHexDigit, h]
  rfl

theorem isAscii_of_isWhitespace (h : u.isWhitespace = true) : u.isAscii = true := by
  simp only [isWhitespace, isNewline, Bool.or_eq_true, beq_iff_eq] at h
  rcases h with (((rfl | rfl) | rfl) | rfl) | rfl <;> rfl

theorem isAscii_of_isNewline (h : u.isNewline = true) : u.isAscii = true := by
  apply isAscii_of_isWhitespace
  rw [isWhitespace, h]
  rfl

theorem isAscii_of_isQuote (h : u.isQuote = true) : u.isAscii = true := by
  simp only [isQuote, Bool.or_eq_true, beq_iff_eq] at h
  rcases h with rfl | rfl <;> rfl

theorem isAscii_of_isNonPrintable (h : u.isNonPrintable = true) : u.isAscii = true := by
  simp only [isNonPrintable, isAscii, Bool.or_eq_true, Bool.and_eq_true, decide_eq_true_eq,
    beq_iff_eq, ← UInt16.toNat_inj, UInt16.le_iff_toNat_le, UInt16.lt_iff_toNat_lt,
    UInt16.reduceToNat] at h ⊢
  omega

theorem isSurrogate_of_isAscii (h : u.isAscii = true) : u.isSurrogate = false := by
  rw [Bool.eq_false_iff, ne_eq]
  simp only [isAscii, isSurrogate, isHighSurrogate, isLowSurrogate, Bool.or_eq_true,
    Bool.and_eq_true, decide_eq_true_eq, UInt16.le_iff_toNat_le, UInt16.lt_iff_toNat_lt,
    UInt16.reduceToNat] at h ⊢
  omega

theorem isAscii_of_not_isNameStart (h : u.isNameStart = false) : u.isAscii = true := by
  rw [isNameStart, Bool.or_eq_false_iff, decide_eq_false_iff_not] at h
  exact decide_eq_true (UInt16.not_le.mp h.2)

theorem isAscii_of_not_isName (h : u.isName = false) : u.isAscii = true := by
  rw [isName, Bool.or_eq_false_iff, Bool.or_eq_false_iff] at h
  exact isAscii_of_not_isNameStart h.1.1

end Ascii

/-! ## Classes -/

theorem apply_mask {α : Type} {p : CodeUnit → α}
    (hletter : ∀ i : Fin 26, p (.ofNat (0x61 + i)) = p (.ofNat (0x41 + i)))
    (houtside : ∀ v : CodeUnit, v.isAscii = false → p v = p 0x80) (u : CodeUnit) :
    p u.mask = p u := by
  cases hu : u.isAscii with
  | true => rw [mask, hu, if_pos rfl, apply_fold hletter]
  | false => rw [mask, hu, if_neg Bool.false_ne_true, houtside u hu]

/-- A class that is within ASCII, or has all that is outside it. -/
theorem apply_mask_of_isAscii {p : CodeUnit → Bool} (b : Bool)
    (hletter : ∀ i : Fin 26, p (.ofNat (0x61 + i)) = p (.ofNat (0x41 + i)))
    (hascii : ∀ {v : CodeUnit}, p v = b → v.isAscii = true) (u : CodeUnit) : p u.mask = p u := by
  have houtside : ∀ v : CodeUnit, v.isAscii = false → p v = !b :=
    fun v hv => eq_not_of_not_isAscii hv hascii
  exact apply_mask hletter (fun v hv => (houtside v hv).trans (houtside 0x80 rfl).symm) u

section Classes

variable (u v w : CodeUnit)

theorem isDigit_mask : u.mask.isDigit = u.isDigit :=
  apply_mask_of_isAscii true (by decide) isAscii_of_isDigit u

theorem isHexDigit_mask : u.mask.isHexDigit = u.isHexDigit :=
  apply_mask_of_isAscii true (by decide) isAscii_of_isHexDigit u

theorem isNameStart_mask : u.mask.isNameStart = u.isNameStart :=
  apply_mask_of_isAscii false (by decide) isAscii_of_not_isNameStart u

theorem isName_mask : u.mask.isName = u.isName :=
  apply_mask_of_isAscii false (by decide) isAscii_of_not_isName u

theorem isNewline_mask : u.mask.isNewline = u.isNewline :=
  apply_mask_of_isAscii true (by decide) isAscii_of_isNewline u

theorem isWhitespace_mask : u.mask.isWhitespace = u.isWhitespace :=
  apply_mask_of_isAscii true (by decide) isAscii_of_isWhitespace u

theorem isQuote_mask : u.mask.isQuote = u.isQuote :=
  apply_mask_of_isAscii true (by decide) isAscii_of_isQuote u

theorem isNonPrintable_mask : u.mask.isNonPrintable = u.isNonPrintable :=
  apply_mask_of_isAscii true (by decide) isAscii_of_isNonPrintable u

theorem hexValue_mask : u.mask.hexValue = u.hexValue := by
  refine apply_mask (by decide) (fun v hv => ?_) u
  have hdigit : v.isDigit = false := eq_not_of_not_isAscii hv isAscii_of_isDigit
  have hhex : v.isHexDigit = false := eq_not_of_not_isAscii hv isAscii_of_isHexDigit
  rw [hexValue, hdigit, hhex]
  rfl

/-! ## Single units -/

variable {c : CodeUnit}

theorem fold_beq (hc : c.isLetter = false) : (u.fold == c) = (u == c) := by
  cases hu : u.isLetter with
  | false => rw [fold_of_not_isLetter hu]
  | true =>
    have hfold : u.fold ≠ c := by
      rintro rfl
      rw [isLetter_fold, hu] at hc
      exact Bool.false_ne_true hc.symm
    have hself : u ≠ c := by
      rintro rfl
      exact Bool.false_ne_true (hc.symm.trans hu)
    rw [beq_eq_false_iff_ne.mpr hfold, beq_eq_false_iff_ne.mpr hself]

theorem mask_beq (hc : c.isAscii = true ∧ c.isLetter = false) : (u.mask == c) = (u == c) := by
  cases hu : u.isAscii with
  | true => rw [mask, hu, if_pos rfl, fold_beq u hc.2]
  | false =>
    rw [mask, hu, if_neg Bool.false_ne_true, beq_of_not_isAscii hu hc.1,
      beq_of_not_isAscii rfl hc.1]

theorem mask_bne (hc : c.isAscii = true ∧ c.isLetter = false) : (u.mask != c) = (u != c) :=
  congrArg (!·) (mask_beq u hc)

theorem isValidEscape_mask : isValidEscape u.mask v.mask = isValidEscape u v := by
  unfold isValidEscape
  rw [mask_beq u (by decide), mask_bne v (by decide), isNewline_mask]

theorem startsIdentifier_mask :
    startsIdentifier u.mask v.mask w.mask = startsIdentifier u v w := by
  unfold startsIdentifier
  rw [mask_beq u (by decide), mask_beq u (by decide), mask_beq v (by decide), isNameStart_mask,
    isNameStart_mask, isValidEscape_mask, isValidEscape_mask]

theorem startsNumber_mask : startsNumber u.mask v.mask w.mask = startsNumber u v w := by
  unfold startsNumber
  rw [mask_beq u (by decide), mask_beq u (by decide), mask_beq u (by decide),
    mask_beq v (by decide), isDigit_mask, isDigit_mask, isDigit_mask]

theorem fold_mask_beq (hc : c.isAscii = true) : (u.mask.fold == c) = (u.fold == c) := by
  refine apply_mask (p := fun u => u.fold == c) (fun i => ?_) (fun v hv => ?_) u
  · have hfold : ∀ i : Fin 26, fold (.ofNat (0x61 + i)) = fold (.ofNat (0x41 + i)) := by decide
    rw [hfold i]
  · rw [fold_of_not_isAscii hv, beq_of_not_isAscii hv hc]
    exact (beq_of_not_isAscii rfl hc).symm

theorem isSurrogate_mask : u.mask.isSurrogate = false := by
  cases hu : u.isAscii with
  | true =>
    rw [mask, hu, if_pos rfl, apply_fold (p := isSurrogate) (by decide)]
    exact isSurrogate_of_isAscii hu
  | false =>
    rw [mask, hu]
    rfl

theorem isAscii_fold : u.fold.isAscii = u.isAscii := apply_fold (by decide) u

theorem isAscii_mask : u.mask.isAscii = u.isAscii :=
  apply_mask_of_isAscii true (by decide) id u

theorem mask_fold : u.fold.mask = u.mask := apply_fold (by decide) u

end Classes

end CodeUnit

/-! ## Texts -/

namespace CodeUnits

def mask (s : CodeUnits) : CodeUnits := s.map CodeUnit.mask

variable (s : CodeUnits)

@[simp] theorem fold_cons (u : CodeUnit) : fold (u :: s) = u.fold :: fold s := rfl

@[simp] theorem mask_nil : mask [] = [] := rfl

@[simp] theorem mask_cons (u : CodeUnit) : mask (u :: s) = u.mask :: mask s := rfl

@[simp] theorem length_mask : s.mask.length = s.length := List.length_map _

@[simp] theorem isEmpty_mask : s.mask.isEmpty = s.isEmpty := List.isEmpty_map

theorem ahead_mask (i : Nat) : ahead s.mask i = (ahead s i).mask := by
  unfold ahead mask
  rw [List.getD_eq_getElem?_getD, List.getD_eq_getElem?_getD, List.getElem?_map]
  cases s[i]? <;> rfl

theorem take_mask (n : Nat) : s.mask.take n = mask (s.take n) := (List.map_take ..).symm

theorem drop_mask (n : Nat) : s.mask.drop n = mask (s.drop n) := (List.map_drop ..).symm

theorem takeWhile_mask {p : CodeUnit → Bool} (hp : ∀ u : CodeUnit, p u.mask = p u) :
    s.mask.takeWhile p = mask (s.takeWhile p) := by
  unfold mask
  rw [List.takeWhile_map]
  exact congrArg (fun q => (s.takeWhile q).map CodeUnit.mask) (funext hp)

theorem startsEscape_mask : startsEscape s.mask = startsEscape s := by
  unfold startsEscape
  rw [ahead_mask, ahead_mask, CodeUnit.isValidEscape_mask]

theorem startsIdentifier_mask : startsIdentifier s.mask = startsIdentifier s := by
  unfold startsIdentifier
  rw [ahead_mask, ahead_mask, ahead_mask, CodeUnit.startsIdentifier_mask]

theorem startsNumber_mask : startsNumber s.mask = startsNumber s := by
  unfold startsNumber
  rw [ahead_mask, ahead_mask, ahead_mask, CodeUnit.startsNumber_mask]

theorem fold_mask_beq {literal : CodeUnits}
    (hascii : ∀ c ∈ literal, CodeUnit.isAscii c = true) :
    (s.mask.fold == literal) = (s.fold == literal) := by
  induction s generalizing literal with
  | nil => rfl
  | cons u s ih =>
    cases literal with
    | nil => rfl
    | cons c literal =>
      obtain ⟨hc, hrest⟩ := List.forall_mem_cons.mp hascii
      show (u.mask.fold == c && fold (mask s) == literal) = (u.fold == c && fold s == literal)
      rw [CodeUnit.fold_mask_beq u hc, ih hrest]

theorem equalsFolded_mask {lowercase : String}
    (hascii : ∀ byte ∈ literalBytes lowercase, CodeUnit.isAscii byte.toUInt16 = true) :
    s.mask.equalsFolded lowercase = s.equalsFolded lowercase :=
  fold_mask_beq s (List.forall_mem_map.mpr hascii)

theorem mask_of_fold {a b : CodeUnits} (h : a.fold = b.fold) : a.mask = b.mask := by
  have hmask : ∀ s : CodeUnits, s.fold.mask = s.mask := by
    intro s
    rw [mask, mask, fold, List.map_map]
    exact List.map_congr_left fun u _ => CodeUnit.mask_fold u
  rw [← hmask a, h, hmask]

def isAscii (s : CodeUnits) : Bool := s.all CodeUnit.isAscii

theorem isAscii_of_fold {a b : CodeUnits} (h : a.fold = b.fold) (ha : isAscii a = true) :
    isAscii b = true := by
  have hfold : ∀ s : CodeUnits, isAscii s.fold = isAscii s := by
    intro s
    rw [isAscii, fold, List.all_map]
    exact congrArg s.all (funext CodeUnit.isAscii_fold)
  rw [← hfold b, ← h, hfold a, ha]

/-- Within ASCII a masked text tells no more and no less than a folded one. -/
theorem fold_of_mask {a b : CodeUnits} (h : a.mask = b.mask) (ha : isAscii a = true) :
    a.fold = b.fold := by
  induction a generalizing b with
  | nil => rw [List.map_eq_nil_iff.mp h.symm]
  | cons u a ih =>
    cases b with
    | nil => exact absurd h (List.cons_ne_nil _ _)
    | cons v b =>
      obtain ⟨hunit, hrest⟩ := List.cons.inj h
      obtain ⟨hu, ha⟩ := Bool.and_eq_true_iff.mp ha
      have hv : v.isAscii = true := by
        rw [← CodeUnit.isAscii_mask, ← hunit, CodeUnit.isAscii_mask, hu]
      change u.mask = v.mask at hunit
      rw [CodeUnit.mask, CodeUnit.mask, if_pos hu, if_pos hv] at hunit
      rw [fold_cons, fold_cons, hunit, ih hrest ha]

theorem slice_map (f : CodeUnit → CodeUnit) (start stop : Nat) :
    slice (s.map f) start stop = (s.slice start stop).map f := by
  rw [slice, slice, ← List.map_take, ← List.map_drop]

theorem map_addressable_congr {f : CodeUnit → CodeUnit} {a b : CodeUnits}
    (h : a.map f = b.map f) : a.addressable.map f = b.addressable.map f := by
  rw [addressable, addressable, List.map_take, h, List.map_take]

end CodeUnits

theorem Span.slice_map (f : CodeUnit → CodeUnit) (span : Span) (s : CodeUnits) :
    span.slice (s.map f) = (span.slice s).map f := by
  unfold slice
  rw [List.length_map, CodeUnits.slice_map]
  split <;> rfl

theorem Span.map_slice_congr {f : CodeUnit → CodeUnit} {a b : CodeUnits} (span : Span)
    (h : a.map f = b.map f) : (span.slice a).map f = (span.slice b).map f := by
  rw [← slice_map, h, slice_map]

end StyleRules
