import StyleRules.Text.Utf16

/-!
# Texts and their code units

What is written in code units is read back. A part of such units is again a text if it is not cut
within a surrogate pair, which it never is next to a unit that is no surrogate.
-/

namespace StyleRules

theorem codePointUnits_cases (c : Char) :
    (∃ u, codePointUnits c.toNat = [u] ∧ CodeUnit.isSurrogate u = false ∧ CodeUnit.toChar u = c) ∨
      ∃ high low, codePointUnits c.toNat = [high, low] ∧ CodeUnit.isPair high low = true ∧
        Char.ofNat (CodeUnit.pairCodePoint high low) = c := by
  have hvalid : c.toNat < 0xD800 ∨ 0xDFFF < c.toNat ∧ c.toNat < 0x110000 := c.valid
  unfold codePointUnits
  by_cases hbasic : c.toNat < 0x10000
  · left
    have hunit : (UInt16.ofNat c.toNat).toNat = c.toNat := UInt16.toNat_ofNat_of_lt hbasic
    have hplain : CodeUnit.isSurrogate (UInt16.ofNat c.toNat) = false := by
      rw [Bool.eq_false_iff]
      intro hsurrogate
      simp only [CodeUnit.isSurrogate, CodeUnit.isHighSurrogate, CodeUnit.isLowSurrogate,
        Bool.or_eq_true, Bool.and_eq_true, decide_eq_true_eq, UInt16.le_iff_toNat_le, hunit,
        UInt16.reduceToNat] at hsurrogate
      omega
    refine ⟨UInt16.ofNat c.toNat, if_pos hbasic, hplain, ?_⟩
    rw [CodeUnit.toChar, hplain, if_neg Bool.false_ne_true, hunit, Char.ofNat_toNat]
  · right
    have hdivide := Nat.div_add_mod (c.toNat - 0x10000) 0x400
    have hremainder := Nat.mod_lt (c.toNat - 0x10000) (y := 0x400) (by decide)
    rw [if_neg hbasic]
    generalize (c.toNat - 0x10000) / 0x400 = upper at hdivide ⊢
    generalize (c.toNat - 0x10000) % 0x400 = lower at hdivide hremainder ⊢
    have hhigh : (UInt16.ofNat (0xD800 + upper)).toNat = 0xD800 + upper :=
      UInt16.toNat_ofNat_of_lt (by unfold UInt16.size; omega)
    have hlow : (UInt16.ofNat (0xDC00 + lower)).toNat = 0xDC00 + lower :=
      UInt16.toNat_ofNat_of_lt (by unfold UInt16.size; omega)
    refine ⟨_, _, rfl, ?_, ?_⟩
    · simp only [CodeUnit.isPair, CodeUnit.isHighSurrogate, CodeUnit.isLowSurrogate,
        Bool.and_eq_true, decide_eq_true_eq, UInt16.le_iff_toNat_le, hhigh, hlow,
        UInt16.reduceToNat]
      omega
    · have hcode : CodeUnit.pairCodePoint (UInt16.ofNat (0xD800 + upper))
          (UInt16.ofNat (0xDC00 + lower)) = c.toNat := by
        unfold CodeUnit.pairCodePoint
        rw [hhigh, hlow, Nat.add_sub_cancel_left, Nat.add_sub_cancel_left]
        omega
      rw [hcode, Char.ofNat_toNat]

theorem CodeUnit.isPair_eq_false_of_left {u : CodeUnit} (hu : u.isSurrogate = false)
    (v : CodeUnit) : isPair u v = false := by
  rw [isSurrogate, Bool.or_eq_false_iff] at hu
  rw [isPair, hu.1, Bool.false_and]

theorem CodeUnit.isPair_eq_false_of_right {v : CodeUnit} (hv : v.isSurrogate = false)
    (u : CodeUnit) : isPair u v = false := by
  rw [isSurrogate, Bool.or_eq_false_iff] at hv
  rw [isPair, hv.2, Bool.and_false]

namespace CodeUnits

theorem chars_append (c : Char) (rest : CodeUnits) :
    chars (codePointUnits c.toNat ++ rest) = c :: chars rest := by
  rcases codePointUnits_cases c with ⟨u, hunits, hplain, hchar⟩ | ⟨high, low, hunits, hpair, hchar⟩
  · rw [hunits, List.singleton_append]
    cases rest with
    | nil => rw [chars, chars, hchar]
    | cons v rest =>
      rw [chars, CodeUnit.isPair_eq_false_of_left hplain, if_neg Bool.false_ne_true, hchar]
  · rw [hunits]
    show chars (high :: low :: rest) = _
    rw [chars, if_pos hpair, hchar]

theorem toText_ofString (text : String) : (ofString text).toText = text := by
  have hchars : ∀ characters : List Char,
      chars (characters.flatMap fun c => codePointUnits c.toNat) = characters := by
    intro characters
    induction characters with
    | nil => rfl
    | cons c rest ih => rw [List.flatMap_cons, chars_append, ih]
  rw [toText, ofString, hchars, String.ofList_toList]

def IsText (s : CodeUnits) : Prop := ∃ characters : List Char,
  s = characters.flatMap fun c => codePointUnits c.toNat

theorem isText_ofString (text : String) : IsText (ofString text) := ⟨text.toList, rfl⟩

theorem IsText.ofString_toText {s : CodeUnits} (h : IsText s) : ofString s.toText = s := by
  obtain ⟨characters, rfl⟩ := h
  have hself : (characters.flatMap fun c => codePointUnits c.toNat) =
      ofString (String.ofList characters) := by
    rw [ofString, String.toList_ofList]
  rw [hself, toText_ofString]

theorem isText_nil : IsText [] := ⟨[], rfl⟩

theorem IsText.append {x y : CodeUnits} (hx : IsText x) (hy : IsText y) : IsText (x ++ y) := by
  obtain ⟨front, rfl⟩ := hx
  obtain ⟨back, rfl⟩ := hy
  exact ⟨front ++ back, List.flatMap_append.symm⟩

/-- Whether no surrogate pair is cut between two texts. -/
def Apart (x y : CodeUnits) : Prop :=
  ∀ u v, x.getLast? = some u → y.head? = some v → CodeUnit.isPair u v = false

theorem Apart.of_last {x y : CodeUnits}
    (h : ∀ u, x.getLast? = some u → CodeUnit.isSurrogate u = false) : Apart x y :=
  fun u v hu _ => CodeUnit.isPair_eq_false_of_left (h u hu) v

theorem Apart.of_head {x y : CodeUnits}
    (h : ∀ v, y.head? = some v → CodeUnit.isSurrogate v = false) : Apart x y :=
  fun u v _ hv => CodeUnit.isPair_eq_false_of_right (h v hv) u

theorem IsText.of_append {x y : CodeUnits} (h : IsText (x ++ y)) (hapart : Apart x y) :
    IsText x ∧ IsText y := by
  obtain ⟨characters, hunits⟩ := h
  induction characters generalizing x with
  | nil =>
    obtain ⟨rfl, rfl⟩ := List.append_eq_nil_iff.mp hunits
    exact ⟨isText_nil, isText_nil⟩
  | cons c rest ih =>
    rw [List.flatMap_cons] at hunits
    cases x with
    | nil =>
      refine ⟨isText_nil, c :: rest, ?_⟩
      rw [List.flatMap_cons]
      exact hunits
    | cons first x =>
      have hstep : ∀ x', (first :: x) = codePointUnits c.toNat ++ x' →
          x' ++ y = (rest.flatMap fun c => codePointUnits c.toNat) →
            IsText (first :: x) ∧ IsText y := by
        intro x' hfront hback
        have hapart' : Apart x' y := by
          intro u v hu hv
          apply hapart u v ?_ hv
          rw [hfront, List.getLast?_append, hu]
          rfl
        obtain ⟨⟨front, hx'⟩, hy⟩ := ih hapart' hback
        refine ⟨⟨c :: front, ?_⟩, hy⟩
        rw [hfront, List.flatMap_cons, hx']
      rcases codePointUnits_cases c with ⟨u, hcode, -, -⟩ | ⟨high, low, hcode, hpair, -⟩
      · rw [hcode] at hunits hstep
        obtain ⟨rfl, hback⟩ := List.cons.inj hunits
        exact hstep x rfl hback
      · rw [hcode] at hunits hstep
        obtain ⟨rfl, hback⟩ := List.cons.inj hunits
        cases x with
        | nil =>
          have hlow : y.head? = some low := congrArg List.head? hback
          exact absurd (hapart first low rfl hlow) (by rw [hpair]; decide)
        | cons second x =>
          have hsecond : second :: (x ++ y) = low :: rest.flatMap fun c => codePointUnits c.toNat :=
            hback
          obtain ⟨rfl, hrest⟩ := List.cons.inj hsecond
          exact hstep x rfl hrest

end CodeUnits

end StyleRules
