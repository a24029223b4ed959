import StyleRules.Proofs.Token.Bounds

/-!
# Lexemes in their places

`Lexeme.Run` says that lexemes of a text stand one behind the other between two offsets. The lexemes
of a text are a run from its start to its end, and whatever part of them is read is a run again.
-/

namespace StyleRules

namespace Lexeme

structure StandsIn (source : CodeUnits) (lexeme : Lexeme) : Prop where
  start_lt : lexeme.start < source.length
  token : lexeme.token = Token.read (source.drop lexeme.start)
  units : lexeme.units = (source.drop lexeme.start).take lexeme.token.length

/-- Lexemes of a text laid end to end, from the first offset to the second. -/
inductive Run (source : CodeUnits) : Nat → List Lexeme → Nat → Prop
  | nil (i : Nat) : Run source i [] i
  | cons {lexeme : Lexeme} {rest : List Lexeme} {stop : Nat} (hstands : lexeme.StandsIn source)
      (hrest : Run source lexeme.stop rest stop) : Run source lexeme.start (lexeme :: rest) stop

variable {source : CodeUnits} {lexeme : Lexeme} {lexemes : List Lexeme} {i j k : Nat}

namespace StandsIn

theorem ne_nil (h : lexeme.StandsIn source) : source.drop lexeme.start ≠ [] := by
  have := h.start_lt
  rw [ne_eq, List.drop_eq_nil_iff]
  omega

theorem length_pos (h : lexeme.StandsIn source) : 0 < lexeme.token.length := by
  rw [h.token]
  exact Token.length_read_pos h.ne_nil

theorem start_lt_stop (h : lexeme.StandsIn source) : lexeme.start < lexeme.stop := by
  have := h.length_pos
  unfold stop
  omega

theorem stop_le (h : lexeme.StandsIn source) : lexeme.stop ≤ source.length := by
  have hread := Token.length_read_le (source.drop lexeme.start)
  have := h.start_lt
  rw [List.length_drop, ← h.token] at hread
  unfold stop
  omega

theorem length_units (h : lexeme.StandsIn source) : lexeme.units.length = lexeme.token.length := by
  have := h.stop_le
  rw [h.units, List.length_take, List.length_drop]
  unfold stop at this
  omega

theorem units_ne_nil (h : lexeme.StandsIn source) : lexeme.units ≠ [] := by
  have hpos := h.length_pos
  rw [← h.length_units] at hpos
  exact List.length_pos_iff.mp hpos

end StandsIn

namespace Run

theorem cons_iff : Run source i (lexeme :: lexemes) k ↔
    i = lexeme.start ∧ lexeme.StandsIn source ∧ Run source lexeme.stop lexemes k := by
  constructor
  · rintro (_ | ⟨hstands, hrest⟩)
    exact ⟨rfl, hstands, hrest⟩
  · rintro ⟨rfl, hstands, hrest⟩
    exact .cons hstands hrest

theorem eq_of_nil (h : Run source i [] j) : i = j := by
  cases h
  rfl

theorem append_iff {before after : List Lexeme} :
    Run source i (before ++ after) k ↔ ∃ j, Run source i before j ∧ Run source j after k := by
  induction before generalizing i with
  | nil =>
    constructor
    · intro h
      exact ⟨i, .nil i, h⟩
    · rintro ⟨j, hbefore, hafter⟩
      cases hbefore
      exact hafter
  | cons first before ih =>
    rw [List.cons_append, cons_iff, ih]
    constructor
    · rintro ⟨rfl, hstands, j, hbefore, hafter⟩
      exact ⟨j, .cons hstands hbefore, hafter⟩
    · rintro ⟨j, hbefore, hafter⟩
      obtain ⟨rfl, hstands, hbefore⟩ := cons_iff.mp hbefore
      exact ⟨rfl, hstands, j, hbefore, hafter⟩

theorem le (h : Run source i lexemes j) : i ≤ j := by
  induction h with
  | nil => exact Nat.le_refl _
  | cons hstands _ ih => exact Nat.le_trans (Nat.le_of_lt hstands.start_lt_stop) ih

theorem lt_of_ne_nil (h : Run source i lexemes j) (hne : lexemes ≠ []) : i < j := by
  cases h with
  | nil => exact absurd rfl hne
  | cons hstands hrest => exact Nat.lt_of_lt_of_le hstands.start_lt_stop hrest.le

theorem stands (h : Run source i lexemes j) (hmem : lexeme ∈ lexemes) : lexeme.StandsIn source := by
  induction h with
  | nil => exact absurd hmem List.not_mem_nil
  | cons hstands _ ih =>
    rcases List.mem_cons.mp hmem with rfl | hrest
    · exact hstands
    · exact ih hrest

theorem le_start (h : Run source i lexemes j) (hmem : lexeme ∈ lexemes) : i ≤ lexeme.start := by
  obtain ⟨before, after, rfl⟩ := List.append_of_mem hmem
  obtain ⟨k, hbefore, hafter⟩ := append_iff.mp h
  obtain ⟨rfl, -, -⟩ := cons_iff.mp hafter
  exact hbefore.le

theorem stop_le (h : Run source i lexemes j) (hmem : lexeme ∈ lexemes) : lexeme.stop ≤ j := by
  obtain ⟨before, after, rfl⟩ := List.append_of_mem hmem
  obtain ⟨k, hbefore, hafter⟩ := append_iff.mp h
  obtain ⟨rfl, -, hrest⟩ := cons_iff.mp hafter
  exact hrest.le

/-- A sublist of a run has its first lexeme before its last one, or they are the same. -/
theorem head_le_getLast (h : Run source i lexemes j) {part : List Lexeme}
    (hpart : part.Sublist lexemes) {first last : Lexeme} (hfirst : part.head? = some first)
    (hlast : part.getLast? = some last) : first.start ≤ last.start := by
  induction h generalizing part first with
  | nil =>
    rw [List.sublist_nil.mp hpart] at hfirst
    exact absurd hfirst (by simp)
  | @cons lexeme rest stop hstands hrest ih =>
    cases hpart with
    | cons _ hpart => exact ih hpart hfirst hlast
    | @cons_cons part _ _ hpart =>
      obtain rfl := Option.some.inj hfirst
      rcases List.mem_cons.mp (List.mem_of_getLast? hlast) with rfl | hmem
      · exact Nat.le_refl _
      · have hle := hrest.le_start (hpart.subset hmem)
        have := hstands.start_lt_stop
        omega

end Run

theorem run_place (hi : i ≤ source.length) :
    Run source i (place i (source.drop i) (Token.ofText (source.drop i))) source.length := by
  generalize hs : source.drop i = s
  induction hn : s.length using Nat.strongRecOn generalizing i s with
  | ind n ih =>
    cases s with
    | nil =>
      have := List.drop_eq_nil_iff.mp hs
      obtain rfl : i = source.length := by omega
      rw [Token.ofText]
      exact .nil _
    | cons u rest =>
      rw [Token.ofText]
      have hlt : i < source.length := by
        apply Nat.lt_of_not_le
        intro hle
        rw [List.drop_eq_nil_of_le hle] at hs
        exact absurd hs (List.cons_ne_nil u rest).symm
      have hstands : StandsIn source
          ⟨i, Token.read (u :: rest), (u :: rest).take (Token.read (u :: rest)).length⟩ :=
        ⟨hlt, by rw [hs], by rw [hs]⟩
      refine .cons hstands (ih _ ?_ hstands.stop_le _ ?_ rfl)
      · have hpos : 0 < (Token.read (u :: rest)).length := hstands.length_pos
        rw [List.length_drop, ← hn, List.length_cons]
        omega
      · show source.drop (i + (Token.read (u :: rest)).length) = _
        rw [← List.drop_drop, hs]

theorem run_ofText (source : CodeUnits) : Run source 0 (ofText source) source.length :=
  run_place (Nat.zero_le _)

end Lexeme

end StyleRules
