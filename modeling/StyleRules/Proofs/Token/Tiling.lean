import Mathlib.Algebra.Ring.Nat
import StyleRules.Proofs.Token.Bounds
import StyleRules.Proofs.Token.Spelling

/-!
# Tokens tile a text

A cursor that is asked for one token after the other answers with the tokens of the text, each where
the one before it ended, and from the end of the text on with that end for ever.
-/

namespace StyleRules

open CodeUnits (ofString)

namespace Token

theorem kind_read_ne_eof {s : CodeUnits} (hs : s ≠ []) : (read s).kind ≠ .eof := by
  intro hkind
  have hstart : (read s).kind.startsWith = .nothing := by rw [hkind]; rfl
  exact hs (at_of_startsWith hstart)

theorem ofText_of_ne_nil {s : CodeUnits} (hs : s ≠ []) :
    ofText s = read s :: ofText (s.drop (read s).length) := by
  obtain ⟨u, rest, rfl⟩ := List.exists_cons_of_ne_nil hs
  rw [ofText]

theorem sum_length_ofText (s : CodeUnits) : ((ofText s).map length).sum = s.length := by
  fun_induction ofText s with
  | case1 => rfl
  | case2 u rest token ih =>
    have hle := length_read_le (u :: rest)
    rw [List.map_cons, List.sum_cons, ih, List.length_drop]
    exact Nat.add_sub_cancel' hle

/-- What the kind of a token tells about the units that it covers in a text. -/
structure Spelled (source : CodeUnits) (start : Nat) (token : Token) : Prop where
  /-- A kind that has one spelling. -/
  fixed : ∀ text, token.kind.lexeme? = some text →
    source.slice start (start + token.length) = ofString text
  blank : token.kind = .whitespace →
    ∀ u ∈ source.slice start (start + token.length), u.isWhitespace = true
  /-- Whitespace ends at another unit or at the end of the text. -/
  longest : token.kind = .whitespace →
    ∀ u, source[start + token.length]? = some u → u.isWhitespace = false
  /-- A delimiter is one ASCII unit. -/
  single : token.kind = .delim →
    ∃ u, source.slice start (start + token.length) = [u] ∧ u < 0x80

theorem spelled_read (source : CodeUnits) (start : Nat) :
    Spelled source start (read (source.drop start)) := by
  have hslice : source.slice start (start + (read (source.drop start)).length) =
      (source.drop start).take (read (source.drop start)).length := by
    rw [CodeUnits.slice, List.drop_take, Nat.add_sub_cancel_left]
  refine ⟨fun text h => ?_, fun hkind => ?_, fun hkind u hu => ?_, fun hkind => ?_⟩
  · rw [hslice]
    exact take_read_of_lexeme? h
  · rw [hslice]
    exact (take_read_of_whitespace hkind).1
  · have hend := (take_read_of_whitespace hkind).2
    rw [List.drop_drop, CodeUnits.ahead, List.getD_eq_getElem?_getD, List.getElem?_drop,
      Nat.add_zero, hu] at hend
    exact hend
  · rw [hslice]
    exact take_read_of_delim hkind

end Token

namespace Cursor

def afterTokens (cursor : Cursor) : Nat → Cursor
  | 0 => cursor
  | n + 1 => (cursor.afterTokens n).next.2

/-! ## One token -/

theorem next_fst (cursor : Cursor) :
    cursor.next.1 = cursor.tokens.head?.getD Token.eof := by
  unfold next tokens
  by_cases hs : cursor.rest = []
  · rw [hs, Token.ofText]
    rfl
  · rw [Token.ofText_of_ne_nil hs]
    rfl

theorem pos_next (cursor : Cursor) : cursor.next.2.pos = cursor.pos + cursor.next.1.length := by
  have hle := Token.length_read_le cursor.rest
  have := cursor.pos_le
  rw [rest, List.length_drop] at hle
  show min (cursor.pos + (Token.read (cursor.source.drop cursor.pos)).length) _ = _
  exact Nat.min_eq_left (by omega)

theorem rest_next (cursor : Cursor) :
    cursor.next.2.rest = cursor.rest.drop cursor.next.1.length := by
  have hsource : cursor.next.2.source = cursor.source := rfl
  rw [rest, hsource, pos_next, rest, List.drop_drop]

theorem tokens_next (cursor : Cursor) : cursor.next.2.tokens = cursor.tokens.drop 1 := by
  unfold tokens
  rw [rest_next]
  by_cases hs : cursor.rest = []
  · rw [hs, List.drop_nil, Token.ofText, List.drop_nil]
  · rw [Token.ofText_of_ne_nil hs, List.drop_succ_cons, List.drop_zero]
    rfl

/-! ## All tokens -/

variable (source : CodeUnits)

theorem source_afterTokens (n : Nat) :
    ((ofUnits source).afterTokens n).source = source.addressable := by
  induction n with
  | zero => rfl
  | succ n ih => exact ih

theorem tokens_afterTokens (n : Nat) :
    ((ofUnits source).afterTokens n).tokens = (Token.all source).drop n := by
  induction n with
  | zero => rfl
  | succ n ih => rw [afterTokens, tokens_next, ih, List.drop_drop]

theorem next_afterTokens (n : Nat) :
    ((ofUnits source).afterTokens n).next.1 = (Token.all source)[n]?.getD Token.eof := by
  rw [next_fst, tokens_afterTokens, List.head?_drop]

theorem pos_afterTokens (n : Nat) :
    ((ofUnits source).afterTokens n).pos = (((Token.all source).take n).map Token.length).sum := by
  induction n with
  | zero => rfl
  | succ n ih =>
    rw [afterTokens, pos_next, ih, next_afterTokens, List.take_add_one, List.map_append,
      List.sum_append]
    cases (Token.all source)[n]? <;> rfl

theorem pos_of_mem_ofText {s : CodeUnits} {token : Token} (h : token ∈ Token.ofText s) :
    token.kind ≠ .eof ∧ 1 ≤ token.length := by
  fun_induction Token.ofText s with
  | case1 => cases h
  | case2 u rest first ih =>
    rcases List.mem_cons.mp h with rfl | hrest
    · have hne := List.cons_ne_nil u rest
      exact ⟨Token.kind_read_ne_eof hne, Token.length_read_pos hne⟩
    · exact ih hrest

/-! ## The end of the text -/

theorem next_of_eof {cursor : Cursor} (h : cursor.next.1.kind = .eof) :
    cursor.next = (Token.eof, cursor) := by
  have hrest : cursor.rest = [] := by
    by_contra hne
    exact Token.kind_read_ne_eof hne h
  obtain ⟨source, pos, hlength, hpos⟩ := cursor
  simp only [next, hrest, Token.read, Token.eof, Token.length_plain, advance, Nat.add_zero,
    Nat.min_eq_left hpos]

/-- From the first end of the text on, every call answers with it and stays where it is. -/
theorem next_afterTokens_of_eof {n : Nat}
    (h : ((ofUnits source).afterTokens n).next.1.kind = .eof) {m : Nat} (hm : n ≤ m) :
    ((ofUnits source).afterTokens m).next = (Token.eof, (ofUnits source).afterTokens n) := by
  induction m, hm using Nat.le_induction with
  | base => exact next_of_eof h
  | succ m _ ih =>
    have hstay : (ofUnits source).afterTokens (m + 1) = (ofUnits source).afterTokens n := by
      rw [afterTokens, ih]
    rw [hstay]
    exact next_of_eof h

/-- The calls for tokens at the start of a text give its tokens and then its end for ever, each at
the sum of the lengths before it; the lengths are positive and fill what is read of the text, and
the units that a token covers are spelled as its kind says. -/
theorem tokens_tile :
    (∀ n, ((ofUnits source).afterTokens n).next.1 = (Token.all source)[n]?.getD Token.eof ∧
      ((ofUnits source).afterTokens n).pos = (((Token.all source).take n).map Token.length).sum ∧
      Token.Spelled source.addressable ((ofUnits source).afterTokens n).pos
        ((ofUnits source).afterTokens n).next.1) ∧
    (∀ token ∈ Token.all source, token.kind ≠ .eof ∧ 1 ≤ token.length) ∧
    ((Token.all source).map Token.length).sum = min CodeUnits.maxLength source.length ∧
    ∀ n, ((ofUnits source).afterTokens n).next.1.kind = .eof → ∀ m, n ≤ m →
      ((ofUnits source).afterTokens m).next = (Token.eof, (ofUnits source).afterTokens n) := by
  refine ⟨fun n => ⟨next_afterTokens source n, pos_afterTokens source n, ?_⟩,
    fun token => pos_of_mem_ofText, ?_, fun n h m => next_afterTokens_of_eof source h⟩
  · have hspelled := Token.spelled_read source.addressable ((ofUnits source).afterTokens n).pos
    rw [next, rest, source_afterTokens]
    exact hspelled
  · rw [Token.all, Token.sum_length_ofText, CodeUnits.length_addressable]

end Cursor

end StyleRules
