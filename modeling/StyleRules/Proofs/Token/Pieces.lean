import StyleRules.Declaration.Value
import StyleRules.Proofs.Token.Placement
import StyleRules.Proofs.Token.Spelling

/-!
# Texts cut between tokens

The pieces of a text are its lexemes apart from their places. A text that is cut before a separator
falls into the pieces of its two parts, and they stay when other text is put behind the cut; only a
last token that takes the separator into its name is not sealed against it (`sealed_or_merges`).
-/

namespace StyleRules

open Token (Break Extended Unfinished read)

/-- The tokens of a text stay when the separator `c` is written behind it. -/
def Token.IsSealed (x : CodeUnits) (c : CodeUnit) : Prop :=
  Token.ofText (x ++ [c]) = Token.ofText x ++ Token.ofText [c]

instance (x : CodeUnits) (c : CodeUnit) : Decidable (Token.IsSealed x c) :=
  inferInstanceAs (Decidable (_ = _))

namespace Lexeme

def loosen (lexeme : Lexeme) : Lexeme := { lexeme with start := 0 }

@[simp] theorem kind_loosen (lexeme : Lexeme) : lexeme.loosen.kind = lexeme.kind := rfl

@[simp] theorem units_loosen (lexeme : Lexeme) : lexeme.loosen.units = lexeme.units := rfl

theorem units_map_loosen (lexemes : List Lexeme) :
    (lexemes.map loosen).flatMap units = lexemes.flatMap units := by
  rw [List.flatMap_map]
  rfl

def pieces (s : CodeUnits) : List Lexeme := (ofText s).map loosen

theorem map_loosen_place (start : Nat) (s : CodeUnits) (tokens : List Token) :
    (place start s tokens).map loosen = (place 0 s tokens).map loosen := by
  induction tokens generalizing start s with
  | nil => rfl
  | cons token tokens ih =>
    rw [place, place, List.map_cons, List.map_cons, ih (start + token.length),
      ih (0 + token.length)]
    rfl

@[simp] theorem pieces_nil : pieces [] = [] := by
  rw [pieces, ofText, Token.ofText, place, List.map_nil]

theorem pieces_of_ne_nil {s : CodeUnits} (hs : s ≠ []) :
    pieces s = ⟨0, read s, s.take (read s).length⟩ :: pieces (s.drop (read s).length) := by
  cases s with
  | nil => exact absurd rfl hs
  | cons u rest =>
    rw [pieces, ofText, Token.ofText, place, List.map_cons, map_loosen_place]
    rfl

theorem pieces_append_of_read {x y : CodeUnits} (hx : x ≠ [])
    (hlength : (read (x ++ y)).length = x.length) :
    pieces (x ++ y) = ⟨0, read (x ++ y), x⟩ :: pieces y := by
  rw [pieces_of_ne_nil (by simp [hx]), hlength, List.take_left, List.drop_left]

theorem pieces_mark {u : CodeUnit} {y : CodeUnits} (hu : Token.isMark u = true)
    (hread : Token.readOther u y = .plain (Token.singleKind u) 1) :
    pieces (u :: y) = ⟨0, .plain (Token.singleKind u) 1, [u]⟩ :: pieces y := by
  have hfirst : Token.read ([u] ++ y) = .plain (Token.singleKind u) 1 :=
    (Token.read_of_isMark hu y).trans hread
  have hpieces := pieces_append_of_read (List.cons_ne_nil u []) (by rw [hfirst]; rfl)
  rwa [hfirst] at hpieces

theorem units_pieces (s : CodeUnits) : (pieces s).flatMap units = s := by
  induction hn : s.length using Nat.strongRecOn generalizing s with
  | ind n ih =>
    by_cases hs : s = []
    · rw [hs, pieces_nil]
      rfl
    · have hpos := Token.length_read_pos hs
      have hlength := List.length_pos_iff.mpr hs
      rw [pieces_of_ne_nil hs, List.flatMap_cons,
        ih _ (by rw [List.length_drop]; omega) _ rfl, List.take_append_drop]

theorem pieces_inj {s t : CodeUnits} (h : pieces s = pieces t) : s = t := by
  rw [← units_pieces s, ← units_pieces t, h]

theorem tokens_pieces (s : CodeUnits) : (pieces s).map token = Token.ofText s := by
  induction hn : s.length using Nat.strongRecOn generalizing s with
  | ind n ih =>
    cases s with
    | nil =>
      rw [pieces_nil, Token.ofText]
      rfl
    | cons u rest =>
      have hs := List.cons_ne_nil u rest
      have hpos := Token.length_read_pos hs
      have hlength := List.length_pos_iff.mpr hs
      rw [pieces_of_ne_nil hs, List.map_cons, Token.ofText,
        ih _ (by rw [List.length_drop]; omega) _ rfl]

/-! ## Lexemes and what they are spelled with -/

namespace StandsIn

variable {source : CodeUnits} {lexeme : Lexeme}

theorem units_of_lexeme? (h : lexeme.StandsIn source) {text : String}
    (hkind : lexeme.kind.lexeme? = some text) : lexeme.units = CodeUnits.ofString text := by
  rw [kind, h.token] at hkind
  rw [h.units, h.token]
  exact Token.take_read_of_lexeme? hkind

theorem token_of_isSingle (h : lexeme.StandsIn source) (hsingle : lexeme.kind.isSingle = true) :
    lexeme.token = .plain lexeme.kind 1 := by
  rw [kind, h.token] at hsingle ⊢
  obtain ⟨-, u, rest, -, hread⟩ := Token.read_of_isSingle hsingle
  rw [hread]
  rfl

theorem units_of_colon (h : lexeme.StandsIn source) (hkind : lexeme.kind = .colon) :
    lexeme.units = [CodeUnit.colon] := by
  have htext : lexeme.kind.lexeme? = some ":" := by rw [hkind]; rfl
  rw [h.units_of_lexeme? htext]
  decide

theorem head?_units (h : lexeme.StandsIn source) : lexeme.units.head? = source[lexeme.start]? := by
  have hpos := h.length_pos
  rw [h.units, List.head?_take, if_neg (by omega), List.head?_drop]

end StandsIn

/-! ## Runs -/

namespace Run

variable {source : CodeUnits} {lexemes : List Lexeme} {i j : Nat}

/-- What is left at the start of a run is its units and what is left at its end. -/
theorem drop_eq (h : Run source i lexemes j) :
    source.drop i = lexemes.flatMap units ++ source.drop j := by
  induction h with
  | nil => rfl
  | @cons lexeme rest stop hstands _ ih =>
    rw [List.flatMap_cons, List.append_assoc, ← ih, hstands.units, Lexeme.stop, ← List.drop_drop,
      List.take_append_drop]

theorem pieces_drop (h : Run source i lexemes j) :
    pieces (source.drop i) = lexemes.map loosen ++ pieces (source.drop j) := by
  induction h with
  | nil => rfl
  | @cons lexeme rest stop hstands _ ih =>
    rw [pieces_of_ne_nil hstands.ne_nil, ← hstands.token, ← hstands.units, List.drop_drop,
      List.map_cons, List.cons_append, ← ih]
    rfl

theorem length_units (h : Run source i lexemes j) :
    i + (lexemes.flatMap units).length = j := by
  induction h with
  | nil => rfl
  | @cons lexeme rest stop hstands _ ih =>
    have := hstands.length_units
    rw [List.flatMap_cons, List.length_append]
    unfold Lexeme.stop at ih
    omega

theorem slice_eq (h : Run source i lexemes j) : source.slice i j = lexemes.flatMap units := by
  have hlength := h.length_units
  rw [CodeUnits.slice, List.drop_take, h.drop_eq, List.take_left']
  omega

end Run

/-! ## Cuts -/

variable {x : CodeUnits} {c : CodeUnit}

/-- The first piece of a text when its first token stays what it is before what is put behind. -/
theorem pieces_append_of_read_eq {y : CodeUnits} (hx : x ≠ []) (hsame : read (x ++ y) = read x) :
    pieces (x ++ y) =
      ⟨0, read x, x.take (read x).length⟩ :: pieces (x.drop (read x).length ++ y) := by
  have hle := Token.length_read_le x
  rw [pieces_of_ne_nil (by simp [hx]), hsame, List.drop_append_of_le_length hle,
    List.take_append_of_le_length hle]

/-- A text cut before a separator has the same pieces whatever is put behind the separator. -/
theorem pieces_cut {w : CodeUnits} {ps : List Lexeme} (hc : c.isSeparator = true)
    (hbreak : Break c w)
    (hbroken : c.isNewline = true → ∀ piece ∈ ps, piece.kind ≠ .badString)
    (h : pieces (x ++ c :: w) = ps ++ pieces (c :: w)) :
    pieces x = ps ∧ ∀ y, Break c y → pieces (x ++ c :: y) = ps ++ pieces (c :: y) := by
  induction ps generalizing x with
  | nil =>
    have hunits := pieces_inj h
    obtain rfl : x = [] := List.append_left_eq_self.mp hunits
    exact ⟨pieces_nil, fun y _ => rfl⟩
  | cons first ps ih =>
    have hne : x ≠ [] := by
      rintro rfl
      have := congrArg List.length h
      rw [List.nil_append, List.length_append, List.length_cons] at this
      omega
    have hcut := h
    rw [pieces_of_ne_nil (by simp), List.cons_append] at hcut
    have hle : (read (x ++ c :: w)).length ≤ x.length := by
      have htail := congrArg List.length (congrArg (List.flatMap units) (List.cons.inj hcut).2)
      have hread := Token.length_read_le (x ++ c :: w)
      rw [List.flatMap_append, units_pieces, units_pieces, List.length_append, List.length_drop]
        at htail
      rw [List.length_append] at htail hread
      omega
    have hsame : ∀ y, Break c y → read (x ++ c :: y) = read x := by
      rcases Token.read_append hne hc with hsame | hextended | hopen
      · exact hsame
      · exact absurd (hextended.longer w) (Nat.not_lt_of_le hle)
      · rcases hopen.2 w hbreak with hover | ⟨hline, hkind⟩
        · exact absurd hover (Nat.not_lt_of_le hle)
        · apply absurd _ (hbroken hline first List.mem_cons_self)
          rw [← (List.cons.inj hcut).1]
          exact hkind
    rw [pieces_append_of_read_eq hne (hsame w hbreak), List.cons_append] at h
    obtain ⟨hfirst, hrest⟩ := List.cons.inj h
    obtain ⟨hself, hlonger⟩ :=
      ih (fun hline piece hpiece => hbroken hline piece (List.mem_cons_of_mem _ hpiece)) hrest
    refine ⟨?_, fun y hy => ?_⟩
    · rw [pieces_of_ne_nil hne, hself, hfirst]
    · rw [pieces_append_of_read_eq hne (hsame y hy), hlonger y hy, hfirst]
      rfl

/-! ## Sealed texts -/

def Merges (x : CodeUnits) (c : CodeUnit) : Prop :=
  ∃ front back : List Lexeme, pieces x = front ++ back ∧ back ≠ [] ∧
    (∀ piece ∈ back, piece.kind.isPlain = true) ∧
    ∀ y, Break c y →
      CodeUnits.ahead (y.drop (Name.extent y).length) 0 ≠ CodeUnit.leftParen →
        ∃ token : Token, token.kind.endsInName = true ∧ token.flags.unterminated = false ∧
          pieces (x ++ c :: y) = front ++
            ⟨0, token, back.flatMap units ++ c :: y.take (Name.extent y).length⟩ ::
              pieces (y.drop (Name.extent y).length)

theorem pieces_backslash :
    pieces [CodeUnit.backslash] = [⟨0, .plain .delim 1, [CodeUnit.backslash]⟩] := by
  rw [pieces_of_ne_nil (List.cons_ne_nil _ _)]
  exact congrArg _ pieces_nil

theorem pieces_hyphen_backslash : pieces [CodeUnit.hyphen, CodeUnit.backslash] =
    [⟨0, .plain .delim 1, [CodeUnit.hyphen]⟩, ⟨0, .plain .delim 1, [CodeUnit.backslash]⟩] := by
  rw [pieces_of_ne_nil (List.cons_ne_nil _ _)]
  exact congrArg _ pieces_backslash

theorem Merges.of_extended (hx : x ≠ []) (hline : c.isNewline = false)
    (h : Extended read x c) : Merges x c := by
  have hself := pieces_of_ne_nil hx
  refine ⟨[], pieces x, rfl, ?_, ?_, fun y _ hparen => ?_⟩
  · rw [hself]
    exact List.cons_ne_nil _ _
  · intro piece hpiece
    rw [hself] at hpiece
    rcases List.mem_cons.mp hpiece with rfl | hpiece
    · exact h.kind
    · rcases h.left with hleft | hleft | hleft <;> rw [hleft] at hpiece
      · rw [pieces_nil] at hpiece
        exact absurd hpiece List.not_mem_nil
      · rw [pieces_backslash] at hpiece
        obtain rfl := List.mem_singleton.mp hpiece
        rfl
      · rw [pieces_hyphen_backslash] at hpiece
        rcases List.mem_cons.mp hpiece with rfl | hpiece
        · rfl
        · obtain rfl := List.mem_singleton.mp hpiece
          rfl
  · have hreturn : c ≠ CodeUnit.carriageReturn := by
      rintro rfl
      exact absurd hline (by decide)
    obtain ⟨hkind, hcomplete, hlength⟩ := h.named hreturn y hparen
    refine ⟨read (x ++ c :: y), hkind, hcomplete, ?_⟩
    have hcut : x ++ c :: y = (x ++ c :: y.take (Name.extent y).length) ++
        y.drop (Name.extent y).length := by
      rw [List.append_assoc, List.cons_append, List.take_append_drop]
    have hread : (read (x ++ c :: y)).length =
        (x ++ c :: y.take (Name.extent y).length).length := by
      have hle := Name.length_extent_le y
      rw [hlength, List.length_append, List.length_cons, List.length_take]
      omega
    rw [units_pieces, List.nil_append]
    rw [hcut] at hread ⊢
    exact pieces_append_of_read (by simp) hread

theorem not_unfinished (hx : x ≠ [])
    (hgood : ∀ piece ∈ pieces x, piece.isTrivia = false → piece.isMalformed = false)
    (hlast : ∀ piece, (pieces x).getLast? = some piece → piece.isTrivia = false) :
    ¬Token.Unfinished read x c := by
  intro hopen
  have hself := pieces_of_ne_nil hx
  have hmem : ⟨0, read x, x.take (read x).length⟩ ∈ pieces x := by
    rw [hself]
    exact List.mem_cons_self
  have hfull : (read x).kind.isTrivia = true ∧ (read x).length = x.length := by
    rcases hopen.1 with hmalformed | ⟨hkind, hlength⟩
    · cases htrivia : (read x).kind.isTrivia with
      | false =>
        have hwhole := hgood _ hmem htrivia
        exact absurd (hwhole.symm.trans hmalformed) Bool.false_ne_true
      | true => exact ⟨rfl, Token.length_read_of_malformed_trivia htrivia hmalformed⟩
    · exact ⟨by rw [hkind]; rfl, hlength⟩
  have hone : (pieces x).getLast? = some ⟨0, read x, x.take (read x).length⟩ := by
    rw [hself, hfull.2, List.drop_length, pieces_nil]
    rfl
  exact absurd ((hlast _ hone).symm.trans hfull.1) Bool.false_ne_true

/-- A text that ends in what is complete and no trivia is sealed, or ends with a token that takes
the separator. -/
theorem sealed_or_extended (hc : c.isSeparator = true)
    (hgood : ∀ piece ∈ pieces x, piece.isTrivia = false → piece.isMalformed = false)
    (hlast : ∀ piece, (pieces x).getLast? = some piece → piece.isTrivia = false) :
    (∀ y, Break c y → pieces (x ++ c :: y) = pieces x ++ pieces (c :: y)) ∨
      ∃ front tail, tail ≠ [] ∧ pieces x = front ++ pieces tail ∧ Extended read tail c ∧
        ∀ y, Break c y → pieces (x ++ c :: y) = front ++ pieces (tail ++ c :: y) := by
  induction hn : x.length using Nat.strongRecOn generalizing x with
  | ind n ih =>
    by_cases hx : x = []
    · subst hx
      left
      intro y _
      rw [pieces_nil]
      rfl
    have hself := pieces_of_ne_nil hx
    rcases Token.read_append hx hc with hsame | hextended | hopen
    · have hlonger := fun y hbreak => pieces_append_of_read_eq hx (hsame y hbreak)
      have hshort : (x.drop (read x).length).length < n := by
        have := Token.length_read_pos hx
        have := List.length_pos_iff.mpr hx
        rw [List.length_drop]
        omega
      have hgoodRest : ∀ piece ∈ pieces (x.drop (read x).length),
          piece.isTrivia = false → piece.isMalformed = false := by
        intro piece hpiece
        apply hgood
        rw [hself]
        exact List.mem_cons_of_mem _ hpiece
      have hlastRest : ∀ piece, (pieces (x.drop (read x).length)).getLast? = some piece →
          piece.isTrivia = false := by
        intro piece hpiece
        apply hlast
        rw [hself, List.getLast?_cons, hpiece]
        rfl
      rcases ih _ hshort hgoodRest hlastRest rfl with
        hsealed | ⟨front, tail, htail, hparts, hextended, happended⟩
      · left
        intro y hbreak
        rw [hlonger y hbreak, hself, hsealed y hbreak]
        rfl
      · right
        refine ⟨_ :: front, tail, htail, by rw [hself, hparts]; rfl, hextended, ?_⟩
        intro y hbreak
        rw [hlonger y hbreak, happended y hbreak]
        rfl
    · exact .inr ⟨[], x, hx, rfl, hextended, fun _ _ => rfl⟩
    · exact absurd hopen (not_unfinished hx hgood hlast)

/-- A text that ends in what is complete and no trivia is sealed, or merges with the separator. -/
theorem sealed_or_merges (hc : c.isSeparator = true) (hline : c.isNewline = false)
    (hgood : ∀ piece ∈ pieces x, piece.isTrivia = false → piece.isMalformed = false)
    (hlast : ∀ piece, (pieces x).getLast? = some piece → piece.isTrivia = false) :
    (∀ y, Break c y → pieces (x ++ c :: y) = pieces x ++ pieces (c :: y)) ∨ Merges x c := by
  rcases sealed_or_extended hc hgood hlast with
    hsealed | ⟨lead, tail, htail, hlead, hextended, happended⟩
  · exact .inl hsealed
  · obtain ⟨front, back, hparts, hback, hplain, hmerged⟩ :=
      Merges.of_extended htail hline hextended
    right
    refine ⟨lead ++ front, back, by rw [hlead, hparts, List.append_assoc], hback, hplain, ?_⟩
    intro y hbreak hparen
    obtain ⟨token, hkind, hcomplete, hpieces⟩ := hmerged y hbreak hparen
    exact ⟨token, hkind, hcomplete, by rw [happended y hbreak, hpieces, List.append_assoc]⟩

theorem isSealed_of_pieces
    (h : ∀ y, Break c y → pieces (x ++ c :: y) = pieces x ++ pieces (c :: y)) :
    Token.IsSealed x c := by
  have hone := congrArg (List.map token) (h [] (Break.nil c))
  rwa [List.map_append, tokens_pieces, tokens_pieces, tokens_pieces] at hone

theorem Merges.not_isSealed (h : Merges x c) : ¬Token.IsSealed x c := by
  obtain ⟨front, back, hparts, hback, -, hmerged⟩ := h
  obtain ⟨token, -, -, hpieces⟩ := hmerged [] (Break.nil c) (by rw [List.drop_nil]; decide)
  intro hsealed
  have hlength := congrArg List.length hsealed
  have hpos := List.length_pos_iff.mpr hback
  rw [← tokens_pieces, ← tokens_pieces, ← tokens_pieces, hparts, hpieces,
    pieces_of_ne_nil (List.cons_ne_nil c []), List.drop_nil, pieces_nil] at hlength
  simp only [List.length_append, List.length_map, List.length_cons, List.length_nil] at hlength
  omega

theorem pieces_of_isSealed (hc : c.isSeparator = true) (hline : c.isNewline = false)
    (hgood : ∀ piece ∈ pieces x, piece.isTrivia = false → piece.isMalformed = false)
    (hlast : ∀ piece, (pieces x).getLast? = some piece → piece.isTrivia = false)
    (hsealed : Token.IsSealed x c) {y : CodeUnits} (hbreak : Break c y) :
    pieces (x ++ c :: y) = pieces x ++ pieces (c :: y) := by
  rcases sealed_or_merges hc hline hgood hlast with hapart | hmerges
  · exact hapart y hbreak
  · exact absurd hsealed hmerges.not_isSealed

theorem merges_of_not_isSealed (hc : c.isSeparator = true) (hline : c.isNewline = false)
    (hgood : ∀ piece ∈ pieces x, piece.isTrivia = false → piece.isMalformed = false)
    (hlast : ∀ piece, (pieces x).getLast? = some piece → piece.isTrivia = false)
    (hopen : ¬Token.IsSealed x c) : Merges x c := by
  rcases sealed_or_merges hc hline hgood hlast with hapart | hmerges
  · exact absurd (isSealed_of_pieces hapart) hopen
  · exact hmerges

end Lexeme

end StyleRules
