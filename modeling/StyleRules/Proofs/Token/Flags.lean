import StyleRules.Proofs.Token.Numeral
import StyleRules.Proofs.Token.Url

/-!
# What the escape flag tells

A token that ends with its name is marked as escaped just where it holds an escape. A url is marked
for the escapes between its parentheses alone: those of its name, and those behind what makes it
bad, are not noted.
-/

namespace StyleRules

open CodeUnits (ahead whitespaceRun)

/-! ## Texts that hold an escape -/

namespace CodeUnits

/-- A backslash stands before a unit that is neither NUL nor a newline. -/
def HoldsEscape (x : CodeUnits) : Prop :=
  ∃ u, [CodeUnit.backslash, u] <:+: x ∧ u ≠ 0 ∧ u.isNewline = false

variable {x y : CodeUnits}

theorem HoldsEscape.mono (h : HoldsEscape x) (hxy : x <:+: y) : HoldsEscape y := by
  obtain ⟨u, hu, hvalid⟩ := h
  exact ⟨u, hu.trans hxy, hvalid⟩

theorem HoldsEscape.backslash_mem (h : HoldsEscape x) : CodeUnit.backslash ∈ x := by
  obtain ⟨u, hu, -⟩ := h
  exact hu.subset List.mem_cons_self

theorem HoldsEscape.cons (h : HoldsEscape x) (u : CodeUnit) : HoldsEscape (u :: x) :=
  h.mono (List.suffix_cons u x).isInfix

end CodeUnits

open CodeUnits (HoldsEscape)

theorem Escape.IsBody.holdsEscape {body : CodeUnits} (h : IsBody body) (rest : CodeUnits) :
    HoldsEscape (CodeUnit.backslash :: (body ++ rest)) := by
  obtain ⟨hzero, hline⟩ := CodeUnit.isValidEscape_backslash_iff.mp (h.isValidEscape rest)
  obtain ⟨u, left, hleft⟩ :=
    List.exists_cons_of_ne_nil (List.append_ne_nil_of_left_ne_nil h.ne_nil rest)
  rw [hleft] at hzero hline ⊢
  exact ⟨u, ⟨[], left, rfl⟩, hzero, hline⟩

namespace Url

variable {x : CodeUnits}

theorem IsContent.holdsEscape_iff (h : IsContent x) : HoldsEscape x ↔ CodeUnit.backslash ∈ x := by
  refine ⟨fun hx => hx.backslash_mem, fun hmem => ?_⟩
  induction h with
  | nil => exact absurd hmem List.not_mem_nil
  | @unit u x hunit _ ih =>
    rcases List.mem_cons.mp hmem with rfl | hx
    · exact absurd hunit (by decide)
    · exact (ih hx).cons u
  | @escape body x hbody _ _ => exact hbody.holdsEscape x

theorem isContent_of_isSequence (h : Name.IsSequence x) : IsContent x := by
  induction h with
  | nil => exact .nil
  | unit hname _ ih => exact .unit (CodeUnit.isUrlUnit_of_isName hname) ih
  | escape hbody _ ih => exact .escape hbody ih

end Url

namespace Name

variable {s front back : CodeUnits}

/-- The flag of a name tells whether there is an escape in it, or in it and units around it that are
no backslashes. -/
theorem escaped_extent_iff_holdsEscape (hfront : CodeUnit.backslash ∉ front)
    (hback : CodeUnit.backslash ∉ back) :
    (extent s).escaped = true ↔ HoldsEscape (front ++ s.take (extent s).length ++ back) := by
  rw [escaped_extent_iff]
  constructor
  · intro hmem
    have hname := Url.isContent_of_isSequence (isLongest_take s).holds
    exact (hname.holdsEscape_iff.mpr hmem).mono ⟨front, back, rfl⟩
  · intro h
    simpa [hfront, hback] using h.backslash_mem

end Name

/-! ## Tokens that end with their name -/

namespace Number

variable {x : CodeUnits}

theorem IsDigits.backslash_notMem (h : IsDigits x) : CodeUnit.backslash ∉ x :=
  fun hmem => absurd (h.isDigit _ hmem) (by decide)

theorem IsSign.backslash_notMem (h : IsSign x) : CodeUnit.backslash ∉ x := by
  cases h <;> decide

theorem IsMantissa.backslash_notMem (h : IsMantissa x) : CodeUnit.backslash ∉ x := by
  have hstop : CodeUnit.backslash ≠ CodeUnit.fullStop := by decide
  cases h with
  | whole hdigits => exact hdigits.backslash_notMem
  | decimal hdigits hfraction =>
    simp [hdigits.backslash_notMem, hfraction.backslash_notMem, hstop]
  | fraction hfraction => simp [hfraction.backslash_notMem, hstop]

theorem IsExponent.backslash_notMem (h : IsExponent x) : CodeUnit.backslash ∉ x := by
  cases h with
  | none => exact List.not_mem_nil
  | @power letter sign digits hletter hsign hdigits =>
    have hne : CodeUnit.backslash ≠ letter := by
      rintro rfl
      exact absurd hletter (by decide)
    simp [hne, hsign.backslash_notMem, hdigits.backslash_notMem]

theorem IsNumeral.backslash_notMem (h : IsNumeral x) : CodeUnit.backslash ∉ x := by
  cases h with
  | parts hsign hmantissa hexponent =>
    simp [hsign.backslash_notMem, hmantissa.backslash_notMem, hexponent.backslash_notMem]

end Number

namespace Token

variable {s : CodeUnits}

/-- A token is marked as escaped just where it holds an escape. -/
def TellsEscapes (s : CodeUnits) (token : Token) : Prop :=
  token.flags.escaped = true ↔ HoldsEscape (s.take token.length)

theorem tellsEscapes_ident (hkind : (read s).kind = .ident) : TellsEscapes s (read s) := by
  rw [read_of_kind_ident hkind]
  have h := Name.escaped_extent_iff_holdsEscape (s := s) List.not_mem_nil List.not_mem_nil
  rwa [List.nil_append, List.append_nil] at h

theorem read_of_kind_function (hkind : (read s).kind = .function) :
    ahead s (Name.extent s).length = CodeUnit.leftParen ∧
      read s = ⟨.function, (Name.extent s).length + 1, (Name.extent s).flags⟩ := by
  have hname : (read s).kind.startsWith = .name := by
    rw [hkind]
    rfl
  obtain ⟨-, hread⟩ := at_of_startsWith hname
  rw [hread] at hkind ⊢
  unfold readIdentLike at hkind ⊢
  dsimp only at hkind ⊢
  split at hkind
  · cases hkind
  · next hparen =>
    rw [if_neg hparen]
    rw [bne_iff_ne, not_not, CodeUnits.ahead_drop, Nat.add_zero] at hparen
    refine ⟨hparen, ?_⟩
    split at hkind
    · rcases kind_readUrl (((s.drop (Name.extent s).length).drop 1).drop
        (whitespaceRun ((s.drop (Name.extent s).length).drop 1))) with hurl | hurl <;>
        exact absurd (hurl.symm.trans hkind) (by decide)
    · next hplain => rw [if_neg hplain]

theorem tellsEscapes_function (hkind : (read s).kind = .function) : TellsEscapes s (read s) := by
  obtain ⟨hparen, hread⟩ := read_of_kind_function hkind
  have hback : CodeUnit.backslash ∉ [CodeUnit.leftParen] := by decide
  have h := Name.escaped_extent_iff_holdsEscape (s := s) List.not_mem_nil hback
  rw [← Nat.add_zero (Name.extent s).length, ← CodeUnits.ahead_drop] at hparen
  obtain ⟨rest, hrest⟩ := CodeUnits.exists_of_ahead hparen (by decide)
  rw [hread, TellsEscapes]
  dsimp only
  rw [List.take_add, hrest]
  exact h

theorem tellsEscapes_dimension (hkind : (read s).kind = .dimension) : TellsEscapes s (read s) := by
  have hnumber : (read s).kind.startsWith = .number := by
    rw [hkind]
    rfl
  obtain ⟨hstarts, hread⟩ := at_of_startsWith hnumber
  have hparts := isNumeric_readNumeric hstarts
  rw [hread] at hkind ⊢
  rw [hparts.dimension hkind]
  generalize s.take (Number.length s) = number at hparts
  obtain ⟨rest, rfl⟩ := hparts.longest.stands
  have h := Name.escaped_extent_iff_holdsEscape (s := rest)
    hparts.longest.holds.backslash_notMem List.not_mem_nil
  rw [TellsEscapes]
  dsimp only
  rw [List.drop_left, List.take_length_add_append]
  rwa [List.append_nil] at h

theorem tellsEscapes_mark {mark : CodeUnit} (hmark : (read s).kind.mark? = some mark) :
    TellsEscapes s (read s) := by
  obtain ⟨hother, hends⟩ := Kind.of_mark? hmark
  obtain ⟨-, u, rest, rfl, hread⟩ := at_of_startsWith hother
  rw [hread] at hends ⊢
  obtain ⟨kind, hkind, -, hmarked⟩ := readOther_of_endsInName hends
  have hslash : CodeUnit.backslash ∉ [u] := by
    cases kind <;> cases hkind <;> decide
  have h := Name.escaped_extent_iff_holdsEscape (s := rest) hslash List.not_mem_nil
  rw [hmarked, readMarked, TellsEscapes]
  dsimp only
  rw [Nat.add_comm, List.take_succ_cons]
  rwa [List.append_nil, List.singleton_append] at h

end Token

/-! ## Urls -/

namespace Url

variable {s : CodeUnits}

/-- Whitespace is no backslash, so a filling holds one where its content does. -/
theorem backslash_mem_iff {lead content trail : CodeUnits}
    (hlead : ∀ u ∈ lead, u.isWhitespace = true) (htrail : ∀ u ∈ trail, u.isWhitespace = true) :
    CodeUnit.backslash ∈ lead ++ content ++ trail ↔ CodeUnit.backslash ∈ content := by
  have hnone {blank : CodeUnits} (hspace : ∀ u ∈ blank, u.isWhitespace = true) :
      CodeUnit.backslash ∉ blank := fun hmem => absurd (hspace _ hmem) (by decide)
  rw [List.mem_append, List.mem_append, or_iff_right (hnone hlead), or_iff_left (hnone htrail)]

theorem IsFilling.holdsEscape_iff {x : CodeUnits} (h : IsFilling x) :
    HoldsEscape x ↔ CodeUnit.backslash ∈ x := by
  refine ⟨fun hx => hx.backslash_mem, fun hmem => ?_⟩
  cases h with
  | @intro lead content trail hlead hcontent htrail =>
    rw [backslash_mem_iff hlead htrail] at hmem
    exact (hcontent.holdsEscape_iff.mpr hmem).mono ⟨lead, trail, rfl⟩

/-- The longest filling holds an escape where its content, as it is read, holds a backslash. -/
theorem holdsEscape_take_iff (s : CodeUnits) : HoldsEscape (s.take (fillingLength s)) ↔
    CodeUnit.backslash ∈ (s.drop (whitespaceRun s)).take
      (contentLength (s.drop (whitespaceRun s))) := by
  rw [(isFilling_take s).holdsEscape_iff, fillingLength, closingLength, List.take_add,
    List.take_add, ← List.append_assoc]
  exact backslash_mem_iff (CodeUnits.isWhitespace_of_mem_take s)
    (CodeUnits.isWhitespace_of_mem_take _)

end Url

namespace Token

variable {s : CodeUnits}

/-- What a url is marked for are the escapes of its filling, and the filling is part of the url. -/
theorem escaped_read_of_url (hkind : (read s).kind ∈ [.url, .badUrl]) :
    let opening := (Name.extent s).length + 1
    let inside : CodeUnits := s.drop opening
    opening + Url.fillingLength inside ≤ (read s).length ∧
      ((read s).flags.escaped = true ↔ HoldsEscape (inside.take (Url.fillingLength inside))) := by
  intro opening inside
  obtain ⟨hname, hparen, hquote⟩ := kind_read_url_iff.mp hkind
  rw [CodeUnits.opensQuoted_iff] at hquote
  have hends := Url.endsAs_readUrl opening inside
  rw [Url.holdsEscape_take_iff, read_of_isSpelled hname hparen, readUrlOpening, if_neg hquote]
  exact ⟨hends.fillingLength_le, (Url.isRead_readUrl _).escaped⟩

theorem filling_isInfix {opening n : Nat} (h : opening + n ≤ (read s).length) :
    (s.drop opening).take n <:+: s.take (read s).length := by
  obtain ⟨m, hm⟩ := Nat.exists_eq_add_of_le h
  rw [hm, Nat.add_assoc, List.take_add, List.take_add]
  exact ⟨s.take opening, ((s.drop opening).drop n).take m, List.append_assoc _ _ _⟩

end Token

/-- The flag of a token that ends with its name, an opening parenthesis aside, tells whether the
token holds an escape. That of a url, bad or not, tells it of the longest filling behind its
parenthesis, and so of the token where no escape stands in it or one stands in that filling. -/
theorem Cursor.escaped_next (cursor : Cursor) :
    let token := cursor.next.1
    let units : CodeUnits := cursor.rest.take token.length
    let inside : CodeUnits := cursor.rest.drop ((Name.extent cursor.rest).length + 1)
    (token.kind ∈ [.ident, .function, .atKeyword, .hash, .dimension] →
      (token.flags.escaped = true ↔ HoldsEscape units)) ∧
    (token.kind ∈ [.url, .badUrl] → ∃ x, CodeUnits.IsLongest Url.IsFilling inside x ∧
      (token.flags.escaped = true ↔ HoldsEscape x) ∧
      ((token.flags.escaped = true ↔ HoldsEscape units) ↔
        (HoldsEscape units → HoldsEscape x))) := by
  intro token units inside
  constructor
  · intro hkind
    simp only [List.mem_cons, List.not_mem_nil, or_false] at hkind
    rcases hkind with hkind | hkind | hkind | hkind | hkind
    · exact Token.tellsEscapes_ident hkind
    · exact Token.tellsEscapes_function hkind
    · exact Token.tellsEscapes_mark (congrArg Token.Kind.mark? hkind)
    · exact Token.tellsEscapes_mark (congrArg Token.Kind.mark? hkind)
    · exact Token.tellsEscapes_dimension hkind
  · intro hkind
    obtain ⟨hle, hflag⟩ := Token.escaped_read_of_url hkind
    refine ⟨_, Url.isLongest_take inside, hflag, ?_⟩
    rw [show token.flags.escaped = true ↔ _ from hflag]
    exact ⟨fun h => h.mpr, fun h => ⟨fun hx => hx.mono (Token.filling_isInfix hle), h⟩⟩

/-- An escape in the name of a url, or behind what makes a url bad, is not noted although the token
holds it. -/
theorem Cursor.not_escaped_next :
    let named := Cursor.ofUnits (CodeUnits.ofString "u\\72l(x)")
    let bad := Cursor.ofUnits (CodeUnits.ofString "url(a b\\))")
    (named.next.1.kind = .url ∧ ¬(named.next.1.flags.escaped = true ↔
      HoldsEscape (named.rest.take named.next.1.length))) ∧
    (bad.next.1.kind = .badUrl ∧ ¬(bad.next.1.flags.escaped = true ↔
      HoldsEscape (bad.rest.take bad.next.1.length))) := by
  intro named bad
  have hnamed : named.next.1 = ⟨.url, 8, .empty⟩ := by decide +kernel
  have hbad : bad.next.1 = ⟨.badUrl, 9, .empty⟩ := by decide +kernel
  have hname : HoldsEscape (named.rest.take 8) :=
    ⟨0x37, ⟨[0x75], [0x32, 0x6C, 0x28, 0x78, 0x29], by decide +kernel⟩, by decide, by decide⟩
  have hremnant : HoldsEscape (bad.rest.take 9) :=
    ⟨0x29, ⟨[0x75, 0x72, 0x6C, 0x28, 0x61, 0x20, 0x62], [], by decide +kernel⟩, by decide,
      by decide⟩
  rw [hnamed, hbad]
  exact ⟨⟨rfl, fun h => Bool.false_ne_true (h.mpr hname)⟩,
    ⟨rfl, fun h => Bool.false_ne_true (h.mpr hremnant)⟩⟩

end StyleRules
