import StyleRules.CodeUnit.Folded
import StyleRules.Table.Symbol

/-!
# Folding and the trie alphabet

Two units lead through a trie in the same way when they fold to the same unit: letters share a
symbol with their other case, and all else is told apart by the unit itself.
-/

namespace StyleRules.CodeUnit

theorem toNat_fold_of_isUpper {u : CodeUnit} (hu : u.isUpper = true) :
    u.fold.toNat = u.toNat + 32 := by
  have hrange : 65 ≤ u.toNat ∧ u.toNat ≤ 90 := by
    simpa [isUpper, UInt16.le_iff_toNat_le] using hu
  have hor : ∀ n : Fin 26, (n.val + 65) ||| 32 = n.val + 65 + 32 := by decide
  have hn := hor ⟨u.toNat - 65, by omega⟩
  simp only [Nat.sub_add_cancel hrange.1] at hn
  rw [fold, if_pos hu, UInt16.toNat_or]
  exact hn

theorem fold_of_not_isUpper {u : CodeUnit} (hu : u.isUpper = false) : u.fold = u := by
  simp [fold, hu]

theorem toNat_fold_of_isLetter {u : CodeUnit} (hu : u.isLetter = true) :
    97 ≤ u.fold.toNat ∧ u.fold.toNat ≤ 122 := by
  by_cases hupper : u.isUpper = true
  · rw [toNat_fold_of_isUpper hupper]
    have hrange : 65 ≤ u.toNat ∧ u.toNat ≤ 90 := by
      simpa [isUpper, UInt16.le_iff_toNat_le] using hupper
    omega
  · rw [fold_of_not_isUpper (by simpa using hupper)]
    have hlower : u.isLower = true := by
      simpa [isLetter, hupper] using hu
    simpa [isLower, UInt16.le_iff_toNat_le] using hlower

theorem fold_of_not_isLetter {u : CodeUnit} (hu : u.isLetter = false) : u.fold = u := by
  apply fold_of_not_isUpper
  simp only [isLetter, Bool.or_eq_false_iff] at hu
  exact hu.1

/-- A unit stays as it is, or it is an upper-case letter and becomes the lower-case one. -/
theorem fold_cases (u : CodeUnit) :
    u.fold = u ∨ ∃ i : Fin 26, u = .ofNat (0x41 + i) ∧ u.fold = .ofNat (0x61 + i) := by
  cases hupper : u.isUpper with
  | false => exact .inl (fold_of_not_isUpper hupper)
  | true =>
    right
    have hrange : 65 ≤ u.toNat ∧ u.toNat ≤ 90 := by
      simpa [isUpper, UInt16.le_iff_toNat_le] using hupper
    refine ⟨⟨u.toNat - 65, by omega⟩, UInt16.toNat_inj.mp ?_, UInt16.toNat_inj.mp ?_⟩
    · rw [UInt16.toNat_ofNat']
      dsimp only
      omega
    · rw [toNat_fold_of_isUpper hupper, UInt16.toNat_ofNat']
      dsimp only
      omega

theorem apply_fold {α : Type} {p : CodeUnit → α}
    (h : ∀ i : Fin 26, p (.ofNat (0x61 + i)) = p (.ofNat (0x41 + i))) (u : CodeUnit) :
    p u.fold = p u := by
  rcases fold_cases u with hsame | ⟨i, hupper, hlower⟩
  · rw [hsame]
  · rw [hlower, h, ← hupper]

theorem fold_fold (u : CodeUnit) : u.fold.fold = u.fold := apply_fold (p := fold) (by decide) u

theorem isLetter_fold (u : CodeUnit) : u.fold.isLetter = u.isLetter := apply_fold (by decide) u

theorem symbol_eq_other_iff (u : CodeUnit) : u.symbol = Symbol.other ↔ u.isLetter = false := by
  unfold symbol
  split
  · next hu =>
    have hrange := toNat_fold_of_isLetter hu
    simp only [hu, Bool.true_eq_false, iff_false]
    intro hsymbol
    have hval := congrArg Fin.val hsymbol
    simp only [Fin.ofNat, Symbol.other] at hval
    omega
  · next hu => simp [hu]

theorem symbol_fold (u : CodeUnit) : u.fold.symbol = u.symbol := apply_fold (by decide) u

/-- Units fold alike exactly when they share a symbol and, outside the letters, are the same. -/
theorem fold_eq_fold_iff (u v : CodeUnit) :
    u.fold = v.fold ↔ u.symbol = v.symbol ∧ (u.symbol = Symbol.other → u = v) := by
  constructor
  · intro hfold
    have hsymbol : u.symbol = v.symbol := by
      rw [← symbol_fold u, hfold, symbol_fold]
    refine ⟨hsymbol, fun hother => ?_⟩
    have hu := (symbol_eq_other_iff u).mp hother
    have hv := (symbol_eq_other_iff v).mp (hsymbol ▸ hother)
    rwa [fold_of_not_isLetter hu, fold_of_not_isLetter hv] at hfold
  · rintro ⟨hsymbol, hsame⟩
    by_cases hother : u.symbol = Symbol.other
    · rw [hsame hother]
    · have hu : u.isLetter = true := by
        simpa [symbol_eq_other_iff] using hother
      have hv : v.isLetter = true := by
        rw [hsymbol] at hother
        simpa [symbol_eq_other_iff] using hother
      have hurange := toNat_fold_of_isLetter hu
      have hvrange := toNat_fold_of_isLetter hv
      have hval := congrArg Fin.val hsymbol
      simp only [symbol, hu, hv, if_true, Fin.ofNat] at hval
      apply UInt16.toNat_inj.mp
      omega

end StyleRules.CodeUnit
