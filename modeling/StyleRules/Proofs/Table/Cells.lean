import StyleRules.Table.Asset

/-!
# The words of a run of nodes

What `Trie.ofBytes` decodes is there in the bytes already: node `index` is the 57 words that lie
from byte `228 * index` on, and the bytes behind the last whole node belong to none.
-/

namespace StyleRules

namespace Word

private theorem length_lt_four {bytes : Bytes}
    (hshort : ∀ b0 b1 b2 b3 rest, bytes = b0 :: b1 :: b2 :: b3 :: rest → False) :
    bytes.length < 4 := by
  match bytes, hshort with
  | b0 :: b1 :: b2 :: b3 :: rest, hshort => exact absurd rfl (hshort b0 b1 b2 b3 rest)
  | [], _ | [_], _ | [_, _], _ | [_, _, _], _ => simp

theorem getElem?_ofAllBytes (bytes : Bytes) (i : Nat) :
    (ofAllBytes bytes)[i]? =
      if 4 * i + 4 ≤ bytes.length then some (Table.wordAt bytes (4 * i)) else none := by
  fun_induction ofAllBytes bytes generalizing i with
  | case1 b0 b1 b2 b3 rest ih =>
    cases i with
    | zero => simp [Table.wordAt]
    | succ i =>
      have hplace : Table.wordAt (b0 :: b1 :: b2 :: b3 :: rest) (4 * (i + 1)) =
          Table.wordAt rest (4 * i) := by
        simp only [Table.wordAt, Nat.mul_succ, List.getD_cons_succ]
      rw [List.getElem?_cons_succ, ih i, hplace]
      have hlength : 4 * (i + 1) + 4 ≤ (b0 :: b1 :: b2 :: b3 :: rest).length ↔
          4 * i + 4 ≤ rest.length := by
        simp only [List.length_cons]
        omega
      simp only [hlength]
  | case2 bytes hshort =>
    have hlength := length_lt_four hshort
    rw [if_neg (by omega)]
    rfl

theorem length_ofAllBytes (bytes : Bytes) : (ofAllBytes bytes).length = bytes.length / 4 := by
  fun_induction ofAllBytes bytes with
  | case1 b0 b1 b2 b3 rest ih =>
    simp only [List.length_cons, ih]
    omega
  | case2 bytes hshort =>
    have hlength := length_lt_four hshort
    rw [List.length_nil]
    omega

end Word

namespace Table

namespace Node

theorem ofWords_take (words : List UInt32) : ofWords (words.take 57) = ofWords words := by
  have hword : ∀ i, i < 57 → (words.take 57).getD i 0 = words.getD i 0 := by
    intro i hi
    rw [List.getD_eq_getElem?_getD, List.getD_eq_getElem?_getD, List.getElem?_take_of_lt hi]
  unfold ofWords
  rw [hword 0 (by decide), hword 1 (by decide), hword 2 (by decide)]
  congr
  funext symbol
  have hsymbol := symbol.isLt
  rw [hword _ (by omega), hword _ (by omega)]

theorem getElem?_ofAllWords (words : List UInt32) (n : Nat) :
    (ofAllWords words)[n]? =
      if 57 * (n + 1) ≤ words.length then some (ofWords (words.drop (57 * n))) else none := by
  fun_induction ofAllWords words generalizing n with
  | case1 words hnone =>
    have hlength := List.drop_eq_nil_iff.mp hnone
    rw [if_neg (by omega)]
    rfl
  | case2 words first rest hrest ih =>
    have hlength := congrArg List.length hrest
    rw [List.length_drop, List.length_cons] at hlength
    have hdrop : words.drop 57 = rest := by
      rw [← List.tail_drop, hrest]
      rfl
    cases n with
    | zero =>
      rw [List.getElem?_cons_zero, if_pos (by omega), ofWords_take]
      rfl
    | succ n =>
      have hcount : 57 * (n + 1) ≤ rest.length ↔ 57 * (n + 1 + 1) ≤ words.length := by omega
      rw [List.getElem?_cons_succ, ih n, ← hdrop, List.drop_drop, Nat.add_comm 57, ← Nat.mul_succ,
        hdrop]
      simp only [hcount]

theorem length_ofAllWords (words : List UInt32) :
    (ofAllWords words).length = words.length / 57 := by
  fun_induction ofAllWords words with
  | case1 words hnone =>
    have hlength := List.drop_eq_nil_iff.mp hnone
    rw [List.length_nil]
    omega
  | case2 words first rest hrest ih =>
    have hlength := congrArg List.length hrest
    rw [List.length_drop, List.length_cons] at hlength
    rw [List.length_cons, ih]
    omega

end Node

/-! ## Nodes in place -/

/-- How many nodes are seen in a byte string: the whole ones, and no more than a trie can have. -/
def nodeCount (bytes : Bytes) : Nat := min (bytes.length / Node.byteCount) Trie.maxSize

def wordOffset (index : UInt32) (i : Nat) : Nat := index.toNat * Node.byteCount + 4 * i

def word? (bytes : Bytes) (index : UInt32) (i : Nat) : Option UInt32 :=
  if index.toNat < nodeCount bytes then some (wordAt bytes (wordOffset index i)) else none

def nodeAt (bytes : Bytes) (index : UInt32) : Node :=
  ⟨wordAt bytes (wordOffset index 0), wordAt bytes (wordOffset index 1),
    wordAt bytes (wordOffset index 2), Vector.ofFn fun symbol =>
      ⟨wordAt bytes (wordOffset index (3 + 2 * symbol.val)),
        wordAt bytes (wordOffset index (4 + 2 * symbol.val))⟩⟩

variable {bytes : Bytes} {index : UInt32}

theorem word?_eq_some (hindex : index.toNat < nodeCount bytes) (i : Nat) :
    word? bytes index i = some (wordAt bytes (wordOffset index i)) := if_pos hindex

theorem word?_eq_none (hindex : ¬ index.toNat < nodeCount bytes) (i : Nat) :
    word? bytes index i = none := if_neg hindex

@[simp] theorem slot_nodeAt (bytes : Bytes) (index : UInt32) (symbol : Symbol) :
    (nodeAt bytes index).slot symbol =
      ⟨wordAt bytes (wordOffset index (3 + 2 * symbol.val)),
        wordAt bytes (wordOffset index (4 + 2 * symbol.val))⟩ :=
  Vector.getElem_ofFn symbol.isLt

theorem wordOffset_le {i : Nat} (hindex : index.toNat < nodeCount bytes) (hi : i < Node.wordCount) :
    wordOffset index i + 4 ≤ nodeCount bytes * Node.byteCount ∧
      nodeCount bytes * Node.byteCount ≤ bytes.length := by
  have hcount : nodeCount bytes ≤ bytes.length / Node.byteCount := Nat.min_le_left _ _
  have hfit : bytes.length / Node.byteCount * Node.byteCount ≤ bytes.length :=
    Nat.div_mul_le_self _ _
  simp only [wordOffset, Node.byteCount, Node.wordCount] at *
  omega

private theorem ofWords_drop (hindex : index.toNat < nodeCount bytes) :
    Node.ofWords ((Word.ofAllBytes bytes).drop (57 * index.toNat)) = nodeAt bytes index := by
  have hword : ∀ i, i < 57 →
      ((Word.ofAllBytes bytes).drop (57 * index.toNat)).getD i 0 =
        wordAt bytes (wordOffset index i) := by
    intro i hi
    have hinside := wordOffset_le hindex hi
    have hplace : wordOffset index i = 4 * (57 * index.toNat + i) := by
      simp only [wordOffset, Node.byteCount, Node.wordCount]
      omega
    rw [List.getD_eq_getElem?_getD, List.getElem?_drop, Word.getElem?_ofAllBytes, ← hplace,
      if_pos (by omega)]
    rfl
  unfold Node.ofWords nodeAt
  rw [hword 0 (by decide), hword 1 (by decide), hword 2 (by decide)]
  congr
  funext symbol
  have hsymbol := symbol.isLt
  rw [hword _ (by omega), hword _ (by omega)]

theorem node?_ofBytes (bytes : Bytes) (index : UInt32) :
    (Trie.ofBytes bytes).node? index =
      if index.toNat < nodeCount bytes then some (nodeAt bytes index) else none := by
  have hcount : index.toNat < nodeCount bytes ↔
      index.toNat < Trie.maxSize ∧ 57 * (index.toNat + 1) ≤ (Word.ofAllBytes bytes).length := by
    rw [Word.length_ofAllBytes]
    simp only [nodeCount, Node.byteCount, Node.wordCount]
    omega
  unfold Trie.node? Trie.ofBytes
  rw [List.getElem?_toArray, List.getElem?_take, Node.ofAllBytes, Node.getElem?_ofAllWords]
  by_cases hindex : index.toNat < nodeCount bytes
  · rw [if_pos hindex, if_pos (hcount.mp hindex).1, if_pos (hcount.mp hindex).2,
      ofWords_drop hindex]
  · rw [if_neg hindex]
    split
    · next hfit => exact if_neg fun hwords => hindex (hcount.mpr ⟨hfit, hwords⟩)
    · rfl

theorem size_ofBytes (bytes : Bytes) : (Trie.ofBytes bytes).size = nodeCount bytes := by
  unfold Trie.size Trie.ofBytes nodeCount
  rw [List.size_toArray, List.length_take, Node.ofAllBytes, Node.length_ofAllWords,
    Word.length_ofAllBytes, Nat.div_div_eq_div_mul, Nat.min_comm]
  rfl

end Table

end StyleRules
