import StyleRules.Proofs.Text.WellFormed
import StyleRules.Report.Declarations
import StyleRules.Report.Tokens

/-!
# Replacement characters in reports

A report is made of words of its own, numbers, and parts of the text. So it has a U+FFFD only
where a part of the text, read as a string, has one (`Report.intact_tokens`,
`Report.intact_declarations`).
-/

namespace StyleRules

def Text.IsIntact (text : String) : Prop := '\uFFFD' ∉ text.toList

namespace Text

instance (text : String) : Decidable (IsIntact text) :=
  inferInstanceAs (Decidable ('\uFFFD' ∉ text.toList))

variable {a b text : String} {texts : List String}

theorem IsIntact.append (ha : IsIntact a) (hb : IsIntact b) : IsIntact (a ++ b) := by
  rw [IsIntact, String.toList_append, List.mem_append, not_or]
  exact ⟨ha, hb⟩

theorem isIntact_join (h : ∀ text ∈ texts, IsIntact text) : IsIntact (String.join texts) := by
  rw [IsIntact, String.toList_join, List.mem_flatMap]
  rintro ⟨text, hmem, hchar⟩
  exact h text hmem hchar

theorem notMem_intercalate {c : Char} (ha : c ∉ a.toList) (h : ∀ text ∈ texts, c ∉ text.toList) :
    c ∉ (a.intercalate texts).toList := by
  rw [String.toList_intercalate]
  induction texts with
  | nil => exact List.not_mem_nil
  | cons first rest ih =>
    have hrest := ih fun text hmem => h text (List.mem_cons_of_mem _ hmem)
    cases rest with
    | nil =>
      rw [List.map_singleton, List.intercalate_singleton]
      exact h first List.mem_cons_self
    | cons second rest =>
      rw [List.map_cons] at hrest ⊢
      rw [List.map_cons, List.intercalate_cons_cons, List.mem_append, List.mem_append, not_or,
        not_or]
      exact ⟨⟨h first List.mem_cons_self, ha⟩, hrest⟩

theorem isIntact_intercalate (ha : IsIntact a) (h : ∀ text ∈ texts, IsIntact text) :
    IsIntact (a.intercalate texts) := notMem_intercalate ha h

theorem isIntact_toDigits {base : Nat} (hbase : 1 < base) (n : Nat) :
    '\uFFFD' ∉ base.toDigits n := by
  induction n using Nat.strongRecOn with
  | ind n ih =>
    rw [Nat.toDigits_eq_if hbase]
    split
    · rw [List.mem_singleton]
      exact (Nat.digitChar_ne '\uFFFD' (by decide)).symm
    · next hlarge =>
      have hsmaller : n / base < n := Nat.div_lt_self (by omega) hbase
      rw [List.mem_append, List.mem_singleton, not_or]
      exact ⟨ih _ hsmaller, (Nat.digitChar_ne '\uFFFD' (by decide)).symm⟩

theorem isIntact_toString (n : Nat) : IsIntact (toString n) := by
  rw [IsIntact, Nat.toString_eq_ofList_toDigits, String.toList_ofList]
  exact isIntact_toDigits (by decide) n

theorem isIntact_span (span : Span) : IsIntact span.text :=
  ((isIntact_toString _).append (by decide)).append (isIntact_toString _)

theorem isIntact_padded (h : IsIntact text) (width : Nat) :
    IsIntact (Report.padded width text) := by
  unfold Report.padded String.pushn
  induction width - text.length with
  | zero => exact h
  | succ n ih =>
    rw [IsIntact, Nat.repeat, String.toList_push, List.mem_append, List.mem_singleton, not_or]
    exact ⟨ih, by decide⟩

theorem not_mem_ite {c : Char} {p : Prop} [Decidable p] {x y : List Char} (hx : c ∉ x)
    (hy : c ∉ y) : c ∉ if p then x else y := by
  split
  · exact hx
  · exact hy

theorem isIntact_quote (h : IsIntact text) : IsIntact (Quoted.quote text) := by
  have hescape : ∀ c : Char, c ≠ '\uFFFD' → '\uFFFD' ∉ Quoted.escape c := by
    intro c hc
    unfold Quoted.escape
    iterate 6 refine not_mem_ite (by decide) ?_
    refine not_mem_ite ?_ (by simpa using hc.symm)
    rw [List.mem_append, List.mem_append, not_or, not_or]
    exact ⟨⟨by decide, isIntact_toDigits (by decide) _⟩, by decide⟩
  have hinside : IsIntact (String.ofList (text.toList.flatMap Quoted.escape)) := by
    rw [IsIntact, String.toList_ofList, List.mem_flatMap]
    rintro ⟨c, hmem, hchar⟩
    refine hescape c ?_ hchar
    rintro rfl
    exact h hmem
  have hmark : IsIntact "\"" := by decide
  exact (hmark.append hinside).append hmark

theorem isIntact_escape (h : IsIntact text) : IsIntact (Tsv.escape text) := by
  have hescape : ∀ c : Char, c ≠ '\uFFFD' → '\uFFFD' ∉ Tsv.escapeChar c := by
    intro c hc
    unfold Tsv.escapeChar
    iterate 4 refine not_mem_ite (by decide) ?_
    simpa using hc.symm
  rw [IsIntact, Tsv.escape, String.toList_ofList, List.mem_flatMap]
  rintro ⟨c, hmem, hchar⟩
  refine hescape c ?_ hchar
  rintro rfl
  exact h hmem

theorem isIntact_kind (kind : Token.Kind) : IsIntact kind.name := by
  cases kind <;> decide

theorem isIntact_flags (flags : Flags) : ∀ name ∈ flags.names, IsIntact name := by
  obtain ⟨unterminated, escaped⟩ := flags
  cases unterminated <;> cases escaped <;> decide

theorem isIntact_outcome (outcome : Table.Outcome) : IsIntact outcome.text := by
  have hrule : ∀ (verb : String) (id : Table.RuleId), IsIntact verb →
      IsIntact (verb ++ toString id.toNat ++ ")") := fun verb id hverb =>
    (hverb.append (isIntact_toString _)).append (by decide)
  cases outcome with
  | none => decide
  | rename id => exact hrule "rename(" id (by decide)
  | replace id => exact hrule "replace(" id (by decide)

end Text

namespace Report

open Text

theorem intact_tokens (format : Format) {source : CodeUnits}
    (h : ∀ lexeme ∈ Lexeme.all source, IsIntact lexeme.units.toText) :
    IsIntact (tokens format source) := by
  cases format with
  | text =>
    refine isIntact_join fun line hline => ?_
    obtain ⟨lexeme, hmem, rfl⟩ := List.mem_map.mp hline
    have hflags : IsIntact (tokenFlags lexeme.token.flags) := by
      unfold tokenFlags
      split
      · decide
      · exact .append (.append (by decide) (isIntact_intercalate (by decide) (isIntact_flags _)))
          (by decide)
    have hplace : IsIntact ("  " ++ lexeme.kind.name ++ " @ " ++ lexeme.span.text ++ " ") :=
      .append (.append (.append (.append (by decide) (isIntact_kind _)) (by decide))
        (isIntact_span _)) (by decide)
    exact ((hplace.append (isIntact_quote (h lexeme hmem))).append hflags).append (by decide)
  | tsv =>
    refine .append (by decide) (isIntact_join fun line hline => ?_)
    obtain ⟨lexeme, -, rfl⟩ := List.mem_map.mp hline
    refine (isIntact_intercalate (by decide) ?_).append (by decide)
    have hflags := isIntact_intercalate (a := ",") (by decide) (isIntact_flags lexeme.token.flags)
    simp only [List.mem_cons, List.not_mem_nil, or_false, forall_eq_or_imp, forall_eq]
    exact ⟨isIntact_kind _, isIntact_toString _, isIntact_toString _, hflags⟩

/-- A report of declarations has no U+FFFD if the texts of their names and values have none. -/
theorem intact_declarations (format : Format) {table : Table} {source : CodeUnits}
    (h : ∀ resolved ∈ Resolved.all table source,
      IsIntact (resolved.declaration.name.slice source.addressable).toText ∧
        IsIntact (resolved.declaration.value.slice source.addressable).toText) :
    IsIntact (declarations format table source) := by
  cases format with
  | text =>
    refine isIntact_join fun line hline => ?_
    obtain ⟨resolved, hmem, rfl⟩ := List.mem_map.mp hline
    obtain ⟨hname, hvalue⟩ := h resolved hmem
    have hmark : IsIntact (if resolved.declaration.isImportant then " !important" else "") := by
      split <;> decide
    unfold declarationLine
    dsimp only
    rw [Span.cut_toArray, Span.cut_toArray]
    exact (((((((isIntact_padded (isIntact_span _) 12).append (by decide)).append
      hname).append (by decide)).append hvalue).append hmark).append
        (by decide)).append (isIntact_outcome _) |>.append (by decide)
  | tsv =>
    refine .append (by decide) (isIntact_join fun line hline => ?_)
    obtain ⟨resolved, hmem, rfl⟩ := List.mem_map.mp hline
    obtain ⟨hname, hvalue⟩ := h resolved hmem
    refine (isIntact_intercalate (by decide) ?_).append (by decide)
    have hmark : IsIntact (if resolved.declaration.isImportant then "1" else "0") := by
      split <;> decide
    unfold declarationFields
    dsimp only
    rw [Span.cut_toArray, Span.cut_toArray]
    simp only [List.mem_cons, List.not_mem_nil, or_false, forall_eq_or_imp, forall_eq]
    exact ⟨isIntact_toString _, isIntact_toString _, isIntact_toString _, isIntact_toString _,
      hmark, isIntact_escape hname, isIntact_escape hvalue⟩

end Report

end StyleRules
