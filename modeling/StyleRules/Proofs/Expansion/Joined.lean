import StyleRules.Expansion.Basic

/-!
# What an expansion writes

An expansion is written declaration by declaration: first those of its action, then those of its
special rule, each with a `;` before it where the expansion has written something already. So they
stand one behind the other with a `;` between them (`Emitted.foldl_push`).
-/

namespace StyleRules

namespace Emitted

theorem length_units_pos (emitted : Emitted) (isImportant : Bool) :
    0 < (emitted.units isImportant).length := by
  simp only [units, List.length_append, List.length_cons]
  omega

theorem joined_cons (isImportant : Bool) (first second : Emitted) (rest : List Emitted) :
    joined isImportant (first :: second :: rest) =
      first.units isImportant ++ CodeUnit.semicolon :: joined isImportant (second :: rest) := by
  simp only [joined, List.map_cons, List.intercalate_cons_cons, List.append_assoc,
    List.singleton_append]

/-- Writes a declaration behind `out`. An expansion that began at `start` has written something if
`out` is longer. -/
def push (isImportant : Bool) (start : Nat) (out : CodeUnits) (emitted : Emitted) : CodeUnits :=
  (if start < out.length then out ++ [CodeUnit.semicolon] else out) ++ emitted.units isImportant

variable {isImportant : Bool} {declarations : List Emitted}

theorem push_of_lt {start : Nat} {out : CodeUnits} (h : start < out.length) (emitted : Emitted) :
    push isImportant start out emitted =
      out ++ CodeUnit.semicolon :: emitted.units isImportant := by
  rw [push, if_pos h, List.append_assoc, List.singleton_append]

/-- Behind the first declaration of an expansion each one has a `;` before it. -/
theorem foldl_push_cons (start : Nat) {out : CodeUnits} (first : Emitted) (rest : List Emitted)
    (h : start ≤ out.length) :
    rest.foldl (push isImportant start) (out ++ first.units isImportant) =
      out ++ joined isImportant (first :: rest) := by
  induction rest generalizing out first with
  | nil => rw [List.foldl_nil, joined, List.map_singleton, List.intercalate_singleton]
  | cons second rest ih =>
    have hlonger : start < (out ++ first.units isImportant).length := by
      have := first.length_units_pos isImportant
      rw [List.length_append]
      omega
    have hsplit : out ++ first.units isImportant ++
        CodeUnit.semicolon :: second.units isImportant =
          out ++ first.units isImportant ++ [CodeUnit.semicolon] ++ second.units isImportant := by
      simp
    rw [List.foldl_cons, push_of_lt hlonger, hsplit, ih second (by simp; omega), joined_cons]
    simp

/-- Written one behind the other, the declarations of an expansion are joined by `;`. -/
theorem foldl_push (out : CodeUnits) :
    declarations.foldl (push isImportant out.length) out =
      out ++ joined isImportant declarations := by
  cases declarations with
  | nil => exact (List.append_nil out).symm
  | cons first rest =>
    rw [List.foldl_cons, push, if_neg (Nat.lt_irrefl _)]
    exact foldl_push_cons out.length first rest (Nat.le_refl _)

end Emitted

namespace Expansion

/-- The action of a declaration, and what its special rule adds to the element and its children. -/
theorem ofResolved_eq (rules : RuleSet) (text : CodeUnits) (resolved : Resolved) :
    let value := resolved.declaration.value.slice text
    let action := rules.action? resolved.outcome.id
    let special := SpecialRule.forProperty? (resolved.declaration.name.slice text)
    ofResolved rules text.toArray resolved =
      ⟨action,
        special.elim [] fun rule =>
          (rule.declarations value action.isSome).map (Emitted.ofSpecial value),
        special.elim [] fun rule => rule.children.map (Emitted.ofSpecial value), value⟩ := by
  intro value action special
  unfold ofResolved
  dsimp only
  rw [Span.cut_toArray, Span.cut_toArray]
  cases h : SpecialRule.forProperty? (resolved.declaration.name.slice text) <;>
    simp only [special, h] <;> rfl

end Expansion

end StyleRules
