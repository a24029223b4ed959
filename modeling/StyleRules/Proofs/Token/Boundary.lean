import StyleRules.Proofs.Checked.Tokenizer
import StyleRules.Proofs.Token.Placement
import StyleRules.Proofs.Token.Tiling

/-!
# Reading from a token boundary

A cursor answers from what lies in front of it. So the calls that start at a token boundary of a
text answer like those that start at the beginning of what is left there, each offset moved by the
boundary, and the tokens of what is left are the tokens of the text from the boundary on.
-/

namespace StyleRules

/-! ## The same text in front of two cursors -/

namespace Cursor

theorem afterTokens_add (cursor : Cursor) (n m : Nat) :
    cursor.afterTokens (n + m) = (cursor.afterTokens n).afterTokens m := by
  induction m with
  | zero => rfl
  | succ m ih => rw [← Nat.add_assoc, afterTokens, ih, afterTokens]

theorem next_fst_of_rest {cursor other : Cursor} (h : cursor.rest = other.rest) :
    cursor.next.1 = other.next.1 := by
  rw [next, next, h]

/-- Two cursors with the same text in front of them stay so, call after call, and at the same
distance from each other. -/
theorem afterTokens_of_rest {cursor other : Cursor} (h : cursor.rest = other.rest) (m : Nat) :
    (cursor.afterTokens m).rest = (other.afterTokens m).rest ∧
      (cursor.afterTokens m).pos + other.pos = (other.afterTokens m).pos + cursor.pos := by
  induction m with
  | zero => exact ⟨h, Nat.add_comm _ _⟩
  | succ m ih =>
    have hsame := next_fst_of_rest ih.1
    have hpos := pos_next (cursor.afterTokens m)
    have hother := pos_next (other.afterTokens m)
    constructor
    · rw [afterTokens, afterTokens, rest_next, rest_next, ih.1, hsame]
    · rw [afterTokens, afterTokens]
      rw [hsame] at hpos
      omega

end Cursor

/-! ## Lexemes on both sides of a boundary -/

namespace Lexeme

theorem map_token_place (start : Nat) (s : CodeUnits) (tokens : List Token) :
    (place start s tokens).map token = tokens := by
  induction tokens generalizing start s with
  | nil => rfl
  | cons first tokens ih => rw [place, List.map_cons, ih]

theorem map_token_all (s : CodeUnits) : (all s).map token = Token.all s := map_token_place 0 _ _

variable {source : CodeUnits}

theorem Run.sum_length {lexemes : List Lexeme} {i j : Nat} (h : Run source i lexemes j) :
    i + ((lexemes.map token).map Token.length).sum = j := by
  induction h with
  | nil => rfl
  | @cons lexeme rest stop hstands _ ih =>
    unfold Lexeme.stop at ih
    simp only [List.map_cons, List.sum_cons]
    omega

theorem run_boundary (source : CodeUnits) (n : Nat) :
    Run source.addressable 0 ((all source).take n) ((Cursor.ofUnits source).afterTokens n).pos ∧
      Run source.addressable ((Cursor.ofUnits source).afterTokens n).pos ((all source).drop n)
        source.addressable.length := by
  have hall : Run source.addressable 0 (all source) source.addressable.length := run_ofText _
  rw [← List.take_append_drop n (all source)] at hall
  obtain ⟨i, hbefore, hbehind⟩ := Run.append_iff.mp hall
  have hsum := hbefore.sum_length
  rw [List.map_take, map_token_all, Nat.zero_add, ← Cursor.pos_afterTokens] at hsum
  rw [hsum]
  exact ⟨hbefore, hbehind⟩

/-- The lexemes that start at or behind a boundary are those behind the tokens before it. -/
theorem filter_boundary (source : CodeUnits) (n : Nat) :
    ((all source).filter fun lexeme =>
      ((Cursor.ofUnits source).afterTokens n).pos ≤ lexeme.start) = (all source).drop n := by
  obtain ⟨hbefore, hbehind⟩ := run_boundary source n
  generalize ((Cursor.ofUnits source).afterTokens n).pos = p at hbefore hbehind ⊢
  have hnone : ((all source).take n).filter (fun lexeme => p ≤ lexeme.start) = [] := by
    apply List.filter_eq_nil_iff.mpr
    intro lexeme hmem
    have := (hbefore.stands hmem).start_lt_stop
    have := hbefore.stop_le hmem
    simp only [decide_eq_true_eq]
    omega
  have hevery : ((all source).drop n).filter (fun lexeme => p ≤ lexeme.start) =
      (all source).drop n := by
    apply List.filter_eq_self.mpr
    intro lexeme hmem
    simpa using hbehind.le_start hmem
  calc (all source).filter (fun lexeme => p ≤ lexeme.start)
      = ((all source).take n ++ (all source).drop n).filter (fun lexeme => p ≤ lexeme.start) := by
        rw [List.take_append_drop]
    _ = (all source).drop n := by rw [List.filter_append, hnone, hevery, List.nil_append]

end Lexeme

/-! ## Reading on from a boundary -/

namespace Cursor

/-- From a token boundary on, reading has no memory of what stands before it: what is read behind
the boundary has the tokens that the whole text has there, and every further call for a token, made
in positions, gives the same answer in both, at offsets that differ by the boundary. -/
theorem tokens_from_boundary (source : CodeUnits) (n : Nat) :
    let p := ((ofUnits source).afterTokens n).pos
    let behind : CodeUnits := source.addressable.drop p
    Token.all behind =
        ((Lexeme.all source).filter fun lexeme => p ≤ lexeme.start).map Lexeme.token ∧
      ∀ m,
        let alone := (ofUnits behind).afterTokens m
        let whole := (ofUnits source).afterTokens (n + m)
        (Checked.next? alone = some alone.next ∧ Checked.next? whole = some whole.next) ∧
          alone.next.1 = whole.next.1 ∧ p + alone.pos = whole.pos := by
  intro p behind
  have hbehind : behind.addressable = behind := source.addressable_drop p
  have hrest : ((ofUnits source).afterTokens n).rest = (ofUnits behind).rest := by
    rw [rest, source_afterTokens]
    exact hbehind.symm
  constructor
  · rw [Lexeme.filter_boundary, List.map_drop, Lexeme.map_token_all, ← tokens_afterTokens, tokens,
      hrest]
    rfl
  · intro m alone whole
    obtain ⟨hsame, hpos⟩ := afterTokens_of_rest hrest m
    have hwhole : whole = ((ofUnits source).afterTokens n).afterTokens m := afterTokens_add _ n m
    refine ⟨⟨Checked.next?_eq alone, Checked.next?_eq whole⟩, ?_⟩
    rw [hwhole]
    refine ⟨(next_fst_of_rest hsame).symm, ?_⟩
    show p + ((ofUnits behind).afterTokens m).pos = _
    rw [Nat.add_comm p, ← hpos]
    exact Nat.add_zero _

/-- Behind the first two tokens the url is read alone as it is read in its text. -/
theorem tokens_from_boundary_of_url :
    let source := CodeUnits.ofString "a:url( b)c\\64"
    ((ofUnits source).afterTokens 2).pos = 2 ∧
      Token.all (source.drop 2) = [⟨.url, 7, .empty⟩, ⟨.ident, 4, ⟨false, true⟩⟩] ∧
      ((ofUnits (source.drop 2)).afterTokens 1).next.1 = ((ofUnits source).afterTokens 3).next.1 ∧
      2 + ((ofUnits (source.drop 2)).afterTokens 1).pos = ((ofUnits source).afterTokens 3).pos := by
  intro source
  have hsource : source.addressable = source := CodeUnits.addressable_of_length_le (by decide)
  have hpos : ((ofUnits source).afterTokens 2).pos = 2 := by decide +kernel
  obtain ⟨htokens, hcalls⟩ := tokens_from_boundary source 2
  rw [hpos, hsource] at htokens hcalls
  refine ⟨hpos, ?_, (hcalls 1).2⟩
  rw [htokens]
  decide +kernel

end Cursor

end StyleRules
