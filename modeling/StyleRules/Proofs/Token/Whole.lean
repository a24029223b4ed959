import StyleRules.Proofs.Text.WellFormed
import StyleRules.Proofs.Token.Boundary
import StyleRules.Proofs.Token.Decoded

/-!
# Tokens take characters whole

Wherever a token ends, the unit before the end or the unit behind it is ASCII, whatever the text: a
name, a number and a bad url stop before such a unit, and what ends any other token is one. So no
token boundary lies within a surrogate pair (`Cursor.not_splitsPair_afterTokens`).
-/

namespace StyleRules

open CodeUnits (ahead IsWellFormed SplitsPair startsIdentifier whitespaceRun)

variable {s rest : CodeUnits} {u v : CodeUnit} {n : Nat}

/-! ## ASCII units -/

namespace CodeUnit

theorem isAscii_of_not_startsIdentifier {second third : CodeUnit}
    (h : startsIdentifier u second third = false) : u.isAscii = true := by
  unfold startsIdentifier at h
  split at h
  · next hyphen =>
    rw [beq_iff_eq] at hyphen
    rw [hyphen]
    rfl
  split at h
  · next hslash =>
    rw [beq_iff_eq] at hslash
    rw [hslash]
    rfl
  · exact isAscii_of_not_isNameStart h

theorem isPair_of_isAscii (h : u.isAscii = true ∨ v.isAscii = true) : isPair u v = false := by
  rcases h with hu | hv
  · exact isPair_eq_false_of_left (isSurrogate_of_isAscii hu) v
  · exact isPair_eq_false_of_right (isSurrogate_of_isAscii hv) u

end CodeUnit

/-- An offset with an ASCII unit before it or behind it, or with the text ending there. -/
def CodeUnits.MeetsAscii (s : CodeUnits) (n : Nat) : Prop :=
  (∃ i, n = i + 1 ∧ (ahead s i).isAscii = true) ∨ (ahead s n).isAscii = true

namespace CodeUnits.MeetsAscii

theorem not_splitsPair (h : MeetsAscii s n) : ¬SplitsPair s n := by
  rintro ⟨j, rfl, hpair⟩
  have hside : (ahead s j).isAscii = true ∨ (ahead s (j + 1)).isAscii = true := by
    rcases h with ⟨i, hi, hbefore⟩ | hbehind
    · obtain rfl : j = i := by omega
      exact .inl hbefore
    · exact .inr hbehind
  rw [CodeUnit.isPair_of_isAscii hside] at hpair
  exact absurd hpair Bool.false_ne_true

theorem one (hu : u.isAscii = true) : MeetsAscii (u :: rest) 1 := .inl ⟨0, rfl, hu⟩

theorem behind (h : (ahead s n).isAscii = true) : MeetsAscii s n := .inr h

theorem add {m : Nat} (h : MeetsAscii (s.drop m) n) : MeetsAscii s (m + n) := by
  rcases h with ⟨i, rfl, hbefore⟩ | hbehind
  · rw [ahead_drop] at hbefore
    exact .inl ⟨m + i, rfl, hbefore⟩
  · rw [ahead_drop] at hbehind
    exact .inr hbehind

theorem cons (h : MeetsAscii rest n) : MeetsAscii (u :: rest) (1 + n) := add (m := 1) h

end CodeUnits.MeetsAscii

open CodeUnits (MeetsAscii)

/-! ## The parts of tokens -/

theorem Name.meetsAscii_extent (s : CodeUnits) : MeetsAscii s (extent s).length := by
  have hstops := (stops_extent s).1
  rw [CodeUnits.ahead_drop] at hstops
  exact .behind (CodeUnit.isAscii_of_not_isName hstops)

namespace Token

theorem meetsAscii_readString (quote : CodeUnit) (hquote : quote.isAscii = true) (s : CodeUnits) :
    MeetsAscii s (readString quote s).length := by
  fun_induction readString quote s with
  | case1 => exact .behind rfl
  | case2 u rest hclose =>
    rw [beq_iff_eq] at hclose
    exact .one (hclose ▸ hquote)
  | case3 u rest hclose hline => exact .behind (CodeUnit.isAscii_of_isNewline hline)
  | case4 u rest hclose hline hescape body ih =>
    rw [length_markEscaped, length_grow, Nat.add_assoc]
    exact .cons (.add ih)
  | case5 u rest hclose hline hescape ih =>
    rw [length_grow]
    exact .cons ih

theorem meetsAscii_readComment (s : CodeUnits) : MeetsAscii s (readComment s).length := by
  fun_induction readComment s with
  | case1 => exact .behind rfl
  | case2 u rest hclose =>
    rw [Bool.and_eq_true, beq_iff_eq, beq_iff_eq] at hclose
    refine .inl ⟨1, rfl, ?_⟩
    show (ahead rest 0).isAscii = true
    rw [hclose.2]
    rfl
  | case3 u rest hclose ih =>
    rw [length_grow]
    exact .cons ih

theorem meetsAscii_badUrl (s : CodeUnits) : MeetsAscii s (badUrl s).length := by
  rw [badUrl, length_plain]
  fun_induction badUrlLength s with
  | case1 => exact .behind rfl
  | case2 u rest hparen =>
    rw [beq_iff_eq] at hparen
    subst hparen
    exact .behind rfl
  | case3 u rest hparen hescape body ih =>
    rw [Nat.add_assoc]
    exact .cons (.add ih)
  | case4 u rest hparen hescape ih => exact .cons ih

theorem meetsAscii_readUrlEnd (s : CodeUnits) : MeetsAscii s (readUrlEnd s).length := by
  unfold readUrlEnd
  split
  · exact .behind rfl
  · next u rest =>
    split
    · next hparen =>
      rw [beq_iff_eq] at hparen
      subst hparen
      exact .one rfl
    · exact meetsAscii_badUrl (u :: rest)

theorem meetsAscii_readUrl (s : CodeUnits) : MeetsAscii s (readUrl s).length := by
  fun_induction readUrl s with
  | case1 => exact .behind rfl
  | case2 u rest hparen =>
    rw [beq_iff_eq] at hparen
    subst hparen
    exact .one rfl
  | case3 u rest hparen hspace =>
    dsimp only
    rw [length_grow]
    exact .add (meetsAscii_readUrlEnd _)
  | case4 u rest hparen hspace hbad => exact meetsAscii_badUrl (u :: rest)
  | case5 u rest hparen hspace hbad hslash hescape body ih =>
    rw [length_markEscaped, length_grow, Nat.add_assoc]
    exact .cons (.add ih)
  | case6 u rest hparen hspace hbad hslash hescape => exact meetsAscii_badUrl (u :: rest)
  | case7 u rest hparen hspace hbad hslash ih =>
    rw [length_grow]
    exact .cons ih

/-! ## Tokens -/

theorem meetsAscii_readNumeric (s : CodeUnits) : MeetsAscii s (readNumeric s).length := by
  unfold readNumeric
  dsimp only
  split
  · exact .add (Name.meetsAscii_extent _)
  · next hident =>
    rw [Bool.not_eq_true, startsIdentifier, CodeUnits.ahead_drop, Nat.add_zero] at hident
    have hfirst := CodeUnit.isAscii_of_not_startsIdentifier hident
    split
    · exact .inl ⟨Number.length s, rfl, hfirst⟩
    · exact .behind hfirst

theorem meetsAscii_readIdentLike (s : CodeUnits) : MeetsAscii s (readIdentLike s).length := by
  unfold readIdentLike
  dsimp only
  split
  · exact Name.meetsAscii_extent s
  · next hparen =>
    rw [bne_iff_ne, not_not, CodeUnits.ahead_drop] at hparen
    split
    · rw [length_grow, Nat.add_assoc, Nat.add_assoc]
      refine .add (.add (.add ?_))
      exact meetsAscii_readUrl _
    · refine .inl ⟨(Name.extent s).length, rfl, ?_⟩
      rw [Nat.add_zero] at hparen
      rw [hparen]
      rfl

theorem meetsAscii_whitespace (h : u.isWhitespace = true) :
    MeetsAscii (u :: rest) (1 + whitespaceRun rest) := by
  induction rest generalizing u with
  | nil => exact .one (CodeUnit.isAscii_of_isWhitespace h)
  | cons v rest ih =>
    cases hv : v.isWhitespace with
    | true =>
      rw [CodeUnits.whitespaceRun_cons hv, Nat.add_comm (whitespaceRun rest)]
      exact .cons (ih hv)
    | false =>
      rw [CodeUnits.whitespaceRun_cons_of_not hv]
      exact .one (CodeUnit.isAscii_of_isWhitespace h)

theorem meetsAscii_readOther (hfirst : u.isAscii = true) :
    MeetsAscii (u :: rest) (readOther u rest).length := by
  unfold readOther
  split
  · next hspace =>
    rw [length_plain]
    exact meetsAscii_whitespace hspace
  split
  · rw [length_grow]
    exact .cons (meetsAscii_readString u hfirst rest)
  split
  · exact .cons (Name.meetsAscii_extent rest)
  split
  · exact .cons (Name.meetsAscii_extent rest)
  split
  · rw [length_grow]
    exact .add (m := 2) (meetsAscii_readComment _)
  split
  · next hopen =>
    rw [Bool.and_eq_true, beq_iff_eq] at hopen
    refine .inl ⟨3, rfl, ?_⟩
    show (ahead rest 2).isAscii = true
    rw [hopen.2]
    rfl
  · exact .one hfirst

theorem meetsAscii_read (s : CodeUnits) : MeetsAscii s (read s).length := by
  have hstart := at_startsWith_read s
  cases hkind : (read s).kind.startsWith with
  | number =>
    rw [hkind] at hstart
    rw [hstart.2]
    exact meetsAscii_readNumeric s
  | arrow =>
    rw [hkind] at hstart
    obtain ⟨hcdc, hread⟩ := hstart
    simp only [startsCdc, Bool.and_eq_true, beq_iff_eq] at hcdc
    rw [hread]
    refine .inl ⟨2, rfl, ?_⟩
    rw [hcdc.2]
    rfl
  | name =>
    rw [hkind] at hstart
    rw [hstart.2]
    exact meetsAscii_readIdentLike s
  | other =>
    rw [hkind] at hstart
    obtain ⟨hident, u, rest, rfl, hread⟩ := hstart
    rw [hread]
    exact meetsAscii_readOther (CodeUnit.isAscii_of_not_startsIdentifier hident)
  | nothing =>
    rw [hkind] at hstart
    rw [show s = [] from hstart]
    exact .behind rfl

end Token

/-! ## Token boundaries -/

variable {source : CodeUnits} {lexemes : List Lexeme} {i j : Nat}

theorem Lexeme.StandsIn.not_splitsPair_stop {lexeme : Lexeme} (h : lexeme.StandsIn source) :
    ¬SplitsPair source lexeme.stop := by
  have hends := Token.meetsAscii_read (source.drop lexeme.start)
  rw [← h.token] at hends
  exact hends.add.not_splitsPair

theorem Lexeme.Run.not_splitsPair (h : Run source i lexemes j) (hi : ¬SplitsPair source i) :
    ¬SplitsPair source j := by
  induction h with
  | nil => exact hi
  | cons hstands _ ih => exact ih hstands.not_splitsPair_stop

/-- No token boundary lies within a surrogate pair of what is read, whatever the text. -/
theorem Cursor.not_splitsPair_afterTokens (source : CodeUnits) (n : Nat) :
    ¬SplitsPair source.addressable ((ofUnits source).afterTokens n).pos :=
  (Lexeme.run_boundary source n).1.not_splitsPair (CodeUnits.not_splitsPair_zero _)

end StyleRules
