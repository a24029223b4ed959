import Mathlib.Data.List.GetD
import StyleRules.Proofs.CodeUnit.Case
import StyleRules.Proofs.Text.Utf16
import StyleRules.Proofs.Token.Spelling

/-!
# Well-formed texts

Code units are well-formed if surrogates come in pairs only, a high one and a low one behind it.
These are the units of strings (`isWellFormed_of_isText`, `isText_of_isWellFormed`). A part of a
well-formed text is well-formed if neither of its ends lies within a pair (`IsWellFormed.slice`).
-/

namespace StyleRules

abbrev CodeUnit.replacement : CodeUnit := 0xFFFD

namespace CodeUnits

variable {s x y : CodeUnits} {u v : CodeUnit} {i j : Nat}

/-- Every high surrogate is directly followed by a low one, and every low one directly preceded by
a high one. -/
structure IsWellFormed (s : CodeUnits) : Prop where
  high : ∀ i, (ahead s i).isHighSurrogate = true → (ahead s (i + 1)).isLowSurrogate = true
  low : ∀ i, (ahead s i).isLowSurrogate = true →
    ∃ j, i = j + 1 ∧ (ahead s j).isHighSurrogate = true

/-- An offset between the two halves of a surrogate pair. -/
def SplitsPair (s : CodeUnits) (i : Nat) : Prop :=
  ∃ j, i = j + 1 ∧ CodeUnit.isPair (ahead s j) (ahead s i) = true

/-! ## Well-formed texts are the units of strings -/

theorem isSurrogate_eq_false_iff :
    CodeUnit.isSurrogate u = false ↔ u.isHighSurrogate = false ∧ u.isLowSurrogate = false :=
  Bool.or_eq_false_iff

theorem isLowSurrogate_of_isHighSurrogate (h : u.isHighSurrogate = true) :
    u.isLowSurrogate = false := by
  rw [Bool.eq_false_iff, ne_eq]
  simp only [CodeUnit.isHighSurrogate, CodeUnit.isLowSurrogate, Bool.and_eq_true,
    decide_eq_true_eq, UInt16.le_iff_toNat_le, UInt16.reduceToNat] at h ⊢
  omega

theorem isWellFormed_nil : IsWellFormed [] := by
  constructor <;>
  · intro i h
    rw [ahead_nil] at h
    exact absurd h (by decide)

theorem isWellFormed_cons_iff (hu : CodeUnit.isSurrogate u = false) :
    IsWellFormed (u :: s) ↔ IsWellFormed s := by
  obtain ⟨hhigh, hlow⟩ := isSurrogate_eq_false_iff.mp hu
  constructor
  · intro h
    refine ⟨fun i => h.high (i + 1), fun i hi => ?_⟩
    obtain ⟨j, hj, hpair⟩ := h.low (i + 1) hi
    obtain rfl : i = j := by omega
    cases i with
    | zero => exact absurd (hhigh.symm.trans hpair) Bool.false_ne_true
    | succ i => exact ⟨i, rfl, hpair⟩
  · intro h
    constructor
    · intro i hi
      cases i with
      | zero => exact absurd (hhigh.symm.trans hi) Bool.false_ne_true
      | succ i => exact h.high i hi
    · intro i hi
      cases i with
      | zero => exact absurd (hlow.symm.trans hi) Bool.false_ne_true
      | succ i =>
        obtain ⟨j, rfl, hpair⟩ := h.low i hi
        exact ⟨j + 1, rfl, hpair⟩

theorem isWellFormed_pair_iff (hpair : CodeUnit.isPair u v = true) :
    IsWellFormed (u :: v :: s) ↔ IsWellFormed s := by
  obtain ⟨hhigh, hlow⟩ := (Bool.and_eq_true _ _).mp hpair
  have hfirst := isLowSurrogate_of_isHighSurrogate hhigh
  have hsecond : v.isHighSurrogate = false := by
    rw [Bool.eq_false_iff]
    intro h
    exact absurd (hlow.symm.trans (isLowSurrogate_of_isHighSurrogate h)) (by decide)
  constructor
  · intro h
    refine ⟨fun i => h.high (i + 2), fun i hi => ?_⟩
    obtain ⟨j, hj, hbefore⟩ := h.low (i + 2) hi
    obtain rfl : j = i + 1 := by omega
    cases i with
    | zero => exact absurd (hsecond.symm.trans hbefore) Bool.false_ne_true
    | succ i => exact ⟨i, rfl, hbefore⟩
  · intro h
    constructor
    · intro i hi
      match i with
      | 0 => exact hlow
      | 1 => exact absurd (hsecond.symm.trans hi) Bool.false_ne_true
      | i + 2 => exact h.high i hi
    · intro i hi
      match i with
      | 0 => exact absurd (hfirst.symm.trans hi) Bool.false_ne_true
      | 1 => exact ⟨0, rfl, hhigh⟩
      | i + 2 =>
        obtain ⟨j, rfl, hbefore⟩ := h.low i hi
        exact ⟨j + 2, rfl, hbefore⟩

theorem toNat_charOfNat {n : Nat} (h : n.isValidChar) : (Char.ofNat n).toNat = n := by
  rw [Char.ofNat, dif_pos h]
  rfl

theorem codePointUnits_unit (hu : CodeUnit.isSurrogate u = false) :
    codePointUnits (Char.ofNat u.toNat).toNat = [u] := by
  have hvalid : u.toNat.isValidChar := by
    have hlt := UInt16.toNat_lt u
    simp only [CodeUnit.isSurrogate, CodeUnit.isHighSurrogate, CodeUnit.isLowSurrogate,
      Bool.or_eq_false_iff, Bool.and_eq_false_iff, decide_eq_false_iff_not,
      UInt16.le_iff_toNat_le, UInt16.reduceToNat] at hu
    unfold Nat.isValidChar
    omega
  rw [codePointUnits, toNat_charOfNat hvalid, if_pos (UInt16.toNat_lt u), UInt16.ofNat_toNat]

theorem codePointUnits_pair (hpair : CodeUnit.isPair u v = true) :
    codePointUnits (Char.ofNat (CodeUnit.pairCodePoint u v)).toNat = [u, v] := by
  simp only [CodeUnit.isPair, CodeUnit.isHighSurrogate, CodeUnit.isLowSurrogate,
    Bool.and_eq_true, decide_eq_true_eq, UInt16.le_iff_toNat_le, UInt16.reduceToNat] at hpair
  obtain ⟨⟨hfrom, hto⟩, hfrom', hto'⟩ := hpair
  have hcode : CodeUnit.pairCodePoint u v =
      0x10000 + (u.toNat - 0xD800) * 0x400 + (v.toNat - 0xDC00) := rfl
  generalize CodeUnit.pairCodePoint u v = code at hcode
  have hvalid : code.isValidChar := by
    unfold Nat.isValidChar
    omega
  have hupper : 0xD800 + (code - 0x10000) / 0x400 = u.toNat := by omega
  have hlower : 0xDC00 + (code - 0x10000) % 0x400 = v.toNat := by omega
  rw [codePointUnits, toNat_charOfNat hvalid, if_neg (by omega), hupper, hlower,
    UInt16.ofNat_toNat, UInt16.ofNat_toNat]

theorem isText_unit (hu : CodeUnit.isSurrogate u = false) : IsText [u] :=
  ⟨[Char.ofNat u.toNat], by rw [List.flatMap_singleton, codePointUnits_unit hu]⟩

theorem isText_pair (hpair : CodeUnit.isPair u v = true) : IsText [u, v] :=
  ⟨[Char.ofNat (CodeUnit.pairCodePoint u v)], by
    rw [List.flatMap_singleton, codePointUnits_pair hpair]⟩

theorem isWellFormed_of_isText (h : IsText s) : IsWellFormed s := by
  obtain ⟨characters, rfl⟩ := h
  induction characters with
  | nil => exact isWellFormed_nil
  | cons c rest ih =>
    rw [List.flatMap_cons]
    rcases codePointUnits_cases c with ⟨u, hunits, hu, -⟩ | ⟨high, low, hunits, hpair, -⟩
    · rw [hunits]
      exact (isWellFormed_cons_iff hu).mpr ih
    · rw [hunits]
      exact (isWellFormed_pair_iff hpair).mpr ih

theorem isText_of_isWellFormed (h : IsWellFormed s) : IsText s := by
  induction hn : s.length using Nat.strongRecOn generalizing s with
  | ind n ih =>
    cases s with
    | nil => exact isText_nil
    | cons u rest =>
      rw [List.length_cons] at hn
      cases hsurrogate : CodeUnit.isSurrogate u with
      | false =>
        have hrest := ih rest.length (by omega) ((isWellFormed_cons_iff hsurrogate).mp h) rfl
        exact (isText_unit hsurrogate).append hrest
      | true =>
        have hlow : u.isLowSurrogate = false := by
          rw [Bool.eq_false_iff]
          intro hlow
          obtain ⟨j, hj, -⟩ := h.low 0 hlow
          omega
        have hhigh : u.isHighSurrogate = true := by
          rwa [CodeUnit.isSurrogate, hlow, Bool.or_false] at hsurrogate
        have hnext : (ahead rest 0).isLowSurrogate = true := h.high 0 hhigh
        cases rest with
        | nil => exact absurd hnext (by decide)
        | cons v rest =>
          have hpair : CodeUnit.isPair u v = true := by
            rw [CodeUnit.isPair, hhigh]
            exact hnext
          rw [List.length_cons] at hn
          have hrest := ih rest.length (by omega) ((isWellFormed_pair_iff hpair).mp h) rfl
          exact (isText_pair hpair).append hrest

theorem isWellFormed_ofString (text : String) : IsWellFormed (ofString text) :=
  isWellFormed_of_isText (isText_ofString text)

/-! ## Parts of texts -/

theorem ahead_slice (s : CodeUnits) (i j k : Nat) :
    ahead (s.slice i j) k = if i + k < j then ahead s (i + k) else 0 := by
  rw [slice, ahead_drop]
  split
  · next hlt => exact ahead_take s hlt
  · next hle =>
    rw [ahead, List.getD_eq_default]
    exact Nat.le_trans (List.length_take_le j s) (Nat.le_of_not_lt hle)

theorem not_splitsPair_zero (s : CodeUnits) : ¬SplitsPair s 0 := by
  rintro ⟨j, hj, -⟩
  omega

theorem not_splitsPair_length (s : CodeUnits) : ¬SplitsPair s s.length := by
  rintro ⟨j, -, hpair⟩
  rw [ahead_length, CodeUnit.isPair_eq_false_of_right (by decide)] at hpair
  exact absurd hpair Bool.false_ne_true

theorem ahead_addressable (hi : i < maxLength) : ahead s.addressable i = ahead s i := by
  rw [ahead, ahead, List.getD_eq_getElem?_getD, List.getD_eq_getElem?_getD, addressable,
    List.getElem?_take_of_lt hi]

/-- Where what is read of a text is well-formed, the text has the same pairs up to its end. -/
theorem IsWellFormed.not_splitsPair_of_addressable (h : IsWellFormed s.addressable)
    (hi : i ≤ maxLength) (hsplits : ¬SplitsPair s.addressable i) : ¬SplitsPair s i := by
  rintro ⟨j, rfl, hpair⟩
  apply hsplits
  rw [CodeUnit.isPair, Bool.and_eq_true, ← ahead_addressable hi] at hpair
  refine ⟨j, rfl, ?_⟩
  rw [CodeUnit.isPair, Bool.and_eq_true]
  exact ⟨hpair.1, h.high j hpair.1⟩

theorem IsWellFormed.slice (h : IsWellFormed s) (hi : ¬SplitsPair s i) (hj : ¬SplitsPair s j) :
    IsWellFormed (s.slice i j) := by
  constructor
  · intro k hk
    rw [ahead_slice] at hk ⊢
    split at hk
    · have hnext := h.high _ hk
      split
      · exact hnext
      · next hlast =>
        refine absurd ⟨i + k, by omega, ?_⟩ hj
        obtain rfl : j = i + k + 1 := by omega
        exact (Bool.and_eq_true _ _).mpr ⟨hk, hnext⟩
    · exact absurd hk (by decide)
  · intro k hk
    rw [ahead_slice] at hk
    split at hk
    · next hlt =>
      obtain ⟨m, hm, hbefore⟩ := h.low _ hk
      cases k with
      | zero =>
        refine absurd ⟨m, hm, ?_⟩ hi
        exact (Bool.and_eq_true _ _).mpr ⟨hbefore, hk⟩
      | succ k =>
        obtain rfl : m = i + k := by omega
        refine ⟨k, rfl, ?_⟩
        rw [ahead_slice, if_pos (by omega)]
        exact hbefore
    · exact absurd hk (by decide)

/-! ## The replacement character -/

theorem mask_codePointUnits_toChar (u : CodeUnit) :
    mask (codePointUnits (CodeUnit.toChar u).toNat) = [u.mask] := by
  cases hu : CodeUnit.isSurrogate u with
  | false =>
    rw [CodeUnit.toChar, hu, if_neg Bool.false_ne_true, codePointUnits_unit hu]
    rfl
  | true =>
    have hascii : u.isAscii = false := by
      rw [← Bool.not_eq_true]
      exact fun h => Bool.false_ne_true ((CodeUnit.isSurrogate_of_isAscii h).symm.trans hu)
    rw [CodeUnit.toChar, hu, if_pos rfl, CodeUnit.mask, hascii]
    rfl

/-- Reading a text as a string changes no unit but surrogates without their partner, and these stay
outside ASCII. -/
theorem mask_ofString_toText (s : CodeUnits) : (ofString s.toText).mask = s.mask := by
  rw [ofString, toText, String.toList_ofList]
  fun_induction chars s with
  | case1 => rfl
  | case2 u => rw [List.flatMap_singleton, mask_codePointUnits_toChar, mask_cons, mask_nil]
  | case3 u v rest hpair ih =>
    rw [List.flatMap_cons, codePointUnits_pair hpair, mask, List.map_append]
    exact congrArg ([u.mask, v.mask] ++ ·) ih
  | case4 u v rest hpair ih =>
    rw [List.flatMap_cons, mask, List.map_append]
    exact congrArg₂ (· ++ ·) (mask_codePointUnits_toChar u) ih

theorem eq_replacement_of_mem {c : Char} (h : CodeUnit.replacement ∈ codePointUnits c.toNat) :
    c = '\uFFFD' := by
  rcases codePointUnits_cases c with ⟨u, hunits, -, hchar⟩ | ⟨high, low, hunits, hpair, -⟩
  · rw [hunits, List.mem_singleton] at h
    rw [← hchar, ← h]
    decide
  · obtain ⟨hhigh, hlow⟩ := (Bool.and_eq_true _ _).mp hpair
    rw [hunits, List.mem_cons, List.mem_singleton] at h
    rcases h with rfl | rfl
    · exact absurd hhigh (by decide)
    · exact absurd hlow (by decide)

theorem replacement_mem_ofString_iff {text : String} :
    CodeUnit.replacement ∈ ofString text ↔ '\uFFFD' ∈ text.toList := by
  rw [ofString, List.mem_flatMap]
  constructor
  · rintro ⟨c, hmem, hunit⟩
    rwa [← eq_replacement_of_mem hunit]
  · exact fun hmem => ⟨_, hmem, by decide⟩

/-- Read as a string, a well-formed text has U+FFFD only where it has it as a unit. -/
theorem IsWellFormed.replacement_mem_iff (h : IsWellFormed s) :
    '\uFFFD' ∈ s.toText.toList ↔ CodeUnit.replacement ∈ s := by
  rw [← replacement_mem_ofString_iff, (isText_of_isWellFormed h).ofString_toText]

end CodeUnits

end StyleRules
