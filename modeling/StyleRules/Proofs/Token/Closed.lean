import StyleRules.Proofs.Token.Pieces

/-!
# Texts without an open escape

Only an escape lets a token take a separator that stands behind it. So a text whose last token has
no backslash is sealed against every separator, and a name is sealed against those that are no
whitespace.
-/

namespace StyleRules

open CodeUnits (ahead startsEscape startsIdentifier startsNumber)
open Lexeme (pieces)

variable {s x : CodeUnits} {c : CodeUnit}

/-! ## Tokens that end with a name -/

theorem Name.isName_of_mem {u : CodeUnit} (hmem : u ∈ s.take (extent s).length)
    (hslash : CodeUnit.backslash ∉ s.take (extent s).length) : u.isName = true := by
  fun_induction extent s with
  | case1 => exact absurd hmem List.not_mem_nil
  | case2 v rest hname tail ih =>
    dsimp only at hmem hslash
    rw [Nat.add_comm, List.take_succ_cons] at hmem hslash
    rcases List.mem_cons.mp hmem with rfl | hmem
    · exact hname
    · exact ih hmem fun hrest => hslash (List.mem_cons_of_mem _ hrest)
  | case3 v rest hname hescape body tail ih =>
    obtain rfl := CodeUnit.eq_backslash_of_isValidEscape hescape
    dsimp only at hslash
    rw [Nat.add_assoc, Nat.add_comm, List.take_succ_cons] at hslash
    exact absurd List.mem_cons_self hslash
  | case4 v rest hname hescape => exact absurd hmem List.not_mem_nil

theorem Name.length_extent_pos_of_startsIdentifier (h : startsIdentifier s = true) :
    0 < (extent s).length := by
  cases s with
  | nil => exact absurd h (by decide)
  | cons u rest => exact Token.length_extent_pos_of_startsIdentifier h

theorem Name.length_extent_pos_of_isName_or_startsEscape
    (h : ((ahead s 0).isName || startsEscape s) = true) : 0 < (extent s).length := by
  cases s with
  | nil => exact absurd h (by decide)
  | cons u rest =>
    rcases (Bool.or_eq_true _ _).mp h with hname | hescape
    · exact length_extent_pos_of_isName rest hname
    · exact length_extent_pos_of_isValidEscape rest hescape

namespace Token

theorem exists_name_of_readNumeric (h : (readNumeric s).kind.endsInName = true) :
    ∃ n, n < (readNumeric s).length ∧
      (readNumeric s).length = n + (Name.extent (s.drop n)).length := by
  unfold readNumeric at h ⊢
  dsimp only at h ⊢
  split at h
  · next hname =>
    have hpos := Name.length_extent_pos_of_startsIdentifier hname
    rw [if_pos hname]
    exact ⟨Number.length s, Nat.lt_add_of_pos_right hpos, rfl⟩
  · split at h <;> exact absurd h Bool.false_ne_true

def Kind.mark? : Kind → Option CodeUnit
  | atKeyword => some CodeUnit.atSign
  | hash => some CodeUnit.numberSign
  | _ => none

/-- A token that begins with neither a name nor a number and ends with a name is a mark and the
name. -/
theorem readOther_of_endsInName {u : CodeUnit} {rest : CodeUnits}
    (h : (readOther u rest).kind.endsInName = true) :
    ∃ kind, kind.mark? = some u ∧ 0 < (Name.extent rest).length ∧
      readOther u rest = readMarked kind rest := by
  have hstring : ¬((readString u rest).grow 1).kind.endsInName = true := by
    show ¬(readString u rest).kind.endsInName = true
    rcases kind_readString u rest with hkind | hkind <;> rw [hkind] <;> exact Bool.false_ne_true
  have hcomment : ¬((readComment (rest.drop 1)).grow 2).kind.endsInName = true := by
    show ¬(readComment (rest.drop 1)).kind.endsInName = true
    rw [kind_readComment]
    exact Bool.false_ne_true
  have hsingle : ¬(plain (singleKind u) 1).kind.endsInName = true :=
    singleKind_elim (motive := fun _ kind => ¬kind.endsInName = true) Bool.false_ne_true
      Bool.false_ne_true Bool.false_ne_true Bool.false_ne_true Bool.false_ne_true
      Bool.false_ne_true Bool.false_ne_true Bool.false_ne_true Bool.false_ne_true
      (fun _ => Bool.false_ne_true) u
  unfold readOther at h ⊢
  split at h
  · exact absurd h Bool.false_ne_true
  split at h
  · exact absurd h hstring
  split at h
  · next hspace hquote hname =>
    rw [if_neg hspace, if_neg hquote, if_pos hname]
    rw [Bool.and_eq_true, beq_iff_eq] at hname
    exact ⟨.hash, congrArg some hname.1.symm,
      Name.length_extent_pos_of_isName_or_startsEscape hname.2, rfl⟩
  split at h
  · next hspace hquote hnumber hname =>
    rw [if_neg hspace, if_neg hquote, if_neg hnumber, if_pos hname]
    rw [Bool.and_eq_true, beq_iff_eq] at hname
    exact ⟨.atKeyword, congrArg some hname.1.symm,
      Name.length_extent_pos_of_startsIdentifier hname.2, rfl⟩
  split at h
  · exact absurd h hcomment
  split at h
  · exact absurd h Bool.false_ne_true
  · exact absurd h hsingle

theorem exists_name_of_readOther {u : CodeUnit} {rest : CodeUnits}
    (h : (readOther u rest).kind.endsInName = true) :
    ∃ n, n < (readOther u rest).length ∧
      (readOther u rest).length = n + (Name.extent ((u :: rest).drop n)).length := by
  obtain ⟨kind, -, hpos, hread⟩ := readOther_of_endsInName h
  rw [hread]
  exact ⟨1, Nat.lt_add_of_pos_right hpos, rfl⟩

/-- A token that ends with a name holds something before the name, and the name. -/
theorem exists_name_of_endsInName (h : (read s).kind.endsInName = true) :
    ∃ n, n < (read s).length ∧ (read s).length = n + (Name.extent (s.drop n)).length := by
  have hstart := at_startsWith_read s
  cases hkind : (read s).kind with
  | ident =>
    obtain ⟨hname, hlength⟩ := length_read_of_ident hkind
    refine ⟨0, ?_, ?_⟩
    · rw [hlength]
      exact Name.length_extent_pos_of_startsIdentifier hname
    · rw [hlength, List.drop_zero, Nat.zero_add]
  | dimension =>
    rw [hkind] at hstart
    rw [hstart.2] at h ⊢
    exact exists_name_of_readNumeric h
  | hash =>
    rw [hkind] at hstart
    obtain ⟨-, u, rest, rfl, hread⟩ := hstart
    rw [hread] at h ⊢
    exact exists_name_of_readOther h
  | atKeyword =>
    rw [hkind] at hstart
    obtain ⟨-, u, rest, rfl, hread⟩ := hstart
    rw [hread] at h ⊢
    exact exists_name_of_readOther h
  | _ => rw [hkind] at h; exact absurd h Bool.false_ne_true

/-- A token that takes a separator into its name has a backslash in what it takes it behind. -/
theorem Extended.backslash_mem (hx : x ≠ []) (hc : c.isSeparator = true)
    (hreturn : c ≠ CodeUnit.carriageReturn) (h : Extended read x c) :
    ∃ last, (pieces x).getLast? = some last ∧ CodeUnit.backslash ∈ last.units := by
  have hself := Lexeme.pieces_of_ne_nil hx
  rcases h.left with hleft | hleft | hleft
  · -- The token is the whole text, and with the separator it is a name again.
    have hwhole : x.take (read x).length = x :=
      List.take_of_length_le (List.drop_eq_nil_iff.mp hleft)
    rw [hleft, hwhole, Lexeme.pieces_nil] at hself
    refine ⟨_, by rw [hself]; rfl, ?_⟩
    obtain ⟨hkind, -, hlength⟩ := h.named hreturn [] (by rw [List.drop_nil]; decide)
    obtain ⟨n, hn, hname⟩ := exists_name_of_endsInName hkind
    have hnone : (Name.extent []).length = 0 := by
      rw [Name.extent]
    rw [hnone] at hlength
    have htaken : ((x ++ [c]).drop n).take (Name.extent ((x ++ [c]).drop n)).length =
        x.drop n ++ [c] := by
      rw [← List.drop_append_of_le_length (by omega), List.take_of_length_le]
      rw [List.length_drop, List.length_append, List.length_singleton]
      omega
    have hmark : (!c.isName && !(c == CodeUnit.backslash)) = true :=
      CodeUnit.of_isSeparator hc (p := fun u => !u.isName && !(u == CodeUnit.backslash)) (by decide)
    simp only [Bool.and_eq_true, Bool.not_eq_true', beq_eq_false_iff_ne] at hmark
    refine Decidable.byContradiction fun hnot => ?_
    have hunit : c.isName = true := by
      apply Name.isName_of_mem (s := (x ++ [c]).drop n)
      · rw [htaken]
        exact List.mem_append_right _ (List.mem_singleton.mpr rfl)
      · rw [htaken]
        intro hmem
        rcases List.mem_append.mp hmem with hmem | hmem
        · exact hnot (List.mem_of_mem_drop hmem)
        · exact hmark.2 (List.mem_singleton.mp hmem).symm
    exact Bool.false_ne_true (hmark.1.symm.trans hunit)
  · rw [hleft, Lexeme.pieces_backslash] at hself
    exact ⟨_, by rw [hself]; rfl, List.mem_singleton.mpr rfl⟩
  · rw [hleft, Lexeme.pieces_hyphen_backslash] at hself
    exact ⟨_, by rw [hself]; rfl, List.mem_singleton.mpr rfl⟩

/-- A text that starts like a number or like `-->` is read as no identifier. -/
theorem starts_of_ident (hkind : (read s).kind = .ident) :
    startsNumber s = false ∧ startsCdc s = false := by
  have hname : (read s).kind.startsWith = .name := by
    rw [hkind]
    rfl
  obtain ⟨hident, hcdc⟩ := startsWith_read_eq_name_iff.mp hname
  exact ⟨CodeUnit.startsNumber_of_startsIdentifier hident, hcdc⟩

/-- An identifier that is a whole text stays one before a separator that is no whitespace. -/
theorem read_append_of_ident (hkind : (read x).kind = .ident) (hlength : (read x).length = x.length)
    (hc : c.isSeparator = true) (hspace : c.isWhitespace = false) (y : CodeUnits) :
    read (x ++ c :: y) = read x := by
  have hx : x ≠ [] := by
    rintro rfl
    exact absurd hkind (by decide)
  obtain ⟨hnumber, hcdc⟩ := starts_of_ident hkind
  obtain ⟨hident, hextent⟩ := length_read_of_ident hkind
  have hfull : (Name.extent x).length = x.length := hextent.symm.trans hlength
  have hlonger := Name.extent_append_of_full hfull hc hspace y
  have hidentLonger : startsIdentifier (x ++ c :: y) = true := by
    rcases startsIdentifier_append (x := x) hc with hsame | ⟨-, hself, -⟩
    · exact (hsame y).trans hident
    · exact absurd (hself.symm.trans hident) Bool.false_ne_true
  have hparen : c ≠ CodeUnit.leftParen := by
    simpa using CodeUnit.of_isSeparator hc (p := fun u => u != CodeUnit.leftParen) (by decide)
  rw [read_of_identifier (by simp) ((startsNumber_append hc y).trans hnumber)
      ((startsCdc_append hc y).trans hcdc) hidentLonger,
    read_of_identifier hx hnumber hcdc hident, readIdentLike_of_ident, readIdentLike_of_ident,
    hlonger]
  · rw [hfull, List.drop_length]
    decide
  · rw [hlonger, hfull, List.drop_left]
    exact hparen

end Token

namespace Lexeme

theorem pieces_append_of_closed (hc : c.isSeparator = true) (hreturn : c ≠ CodeUnit.carriageReturn)
    (hgood : ∀ piece ∈ pieces x, piece.isTrivia = false → piece.isMalformed = false)
    (hlast : ∀ piece, (pieces x).getLast? = some piece →
      piece.isTrivia = false ∧ CodeUnit.backslash ∉ piece.units) {y : CodeUnits}
    (hbreak : Token.Break c y) : pieces (x ++ c :: y) = pieces x ++ pieces (c :: y) := by
  rcases sealed_or_extended hc hgood fun piece h => (hlast piece h).1 with
    hsealed | ⟨front, tail, htail, hparts, hextended, -⟩
  · exact hsealed y hbreak
  · obtain ⟨last, hend, hslash⟩ := hextended.backslash_mem htail hc hreturn
    have hwhole : (pieces x).getLast? = some last := by
      rw [hparts, List.getLast?_append, hend]
      rfl
    exact absurd hslash (hlast last hwhole).2

theorem backslash_mem_of_not_isSealed (hc : c.isSeparator = true)
    (hreturn : c ≠ CodeUnit.carriageReturn)
    (hgood : ∀ piece ∈ pieces x, piece.isTrivia = false → piece.isMalformed = false)
    (hlast : ∀ piece, (pieces x).getLast? = some piece → piece.isTrivia = false)
    (hopen : ¬Token.IsSealed x c) : CodeUnit.backslash ∈ x := by
  apply Decidable.byContradiction
  intro hslash
  apply hopen
  refine isSealed_of_pieces fun y hbreak => pieces_append_of_closed hc hreturn hgood
    (fun piece hend => ⟨hlast piece hend, fun hmem => hslash ?_⟩) hbreak
  rw [← units_pieces x]
  exact List.mem_flatMap.mpr ⟨piece, List.mem_of_getLast? hend, hmem⟩

/-- The pieces of an identifier with a separator behind it that is no whitespace. -/
theorem pieces_append_of_ident {token : Token} (hx : Token.ofText x = [token])
    (hkind : token.kind = .ident) (hc : c.isSeparator = true) (hspace : c.isWhitespace = false)
    (y : CodeUnits) : pieces (x ++ c :: y) = ⟨0, token, x⟩ :: pieces (c :: y) := by
  have hne : x ≠ [] := by
    rintro rfl
    rw [Token.ofText] at hx
    exact absurd hx (by simp)
  have hself := tokens_pieces x
  rw [pieces_of_ne_nil hne, List.map_cons, hx, tokens_pieces] at hself
  obtain ⟨hread, hrest⟩ := List.cons.inj hself
  change Token.read x = token at hread
  have hlength : (Token.read x).length = x.length := by
    cases hdrop : x.drop (Token.read x).length with
    | nil => exact Nat.le_antisymm (Token.length_read_le x) (List.drop_eq_nil_iff.mp hdrop)
    | cons u rest =>
      rw [hdrop, Token.ofText] at hrest
      exact absurd hrest (by simp)
  have hlonger := Token.read_append_of_ident (by rw [hread]; exact hkind) hlength hc hspace y
  have hpieces := pieces_append_of_read (y := c :: y) hne
    ((congrArg Token.length hlonger).trans hlength)
  rwa [hlonger, hread] at hpieces

end Lexeme

end StyleRules
