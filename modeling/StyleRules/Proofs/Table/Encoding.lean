import Mathlib.Algebra.Ring.Nat
import StyleRules.Table.Asset

/-!
# Tables survive their encoding

What is written as bytes is read back: words, nodes, runs of nodes, and the asset of two pools. A
lookup in an asset is therefore a lookup in the pools that it was made from.
-/

namespace StyleRules

namespace Word

private theorem or_shiftLeft {low k : Nat} (high : Nat) (hlow : low < 2 ^ k) :
    low ||| high <<< k = low + 2 ^ k * high := by
  rw [Nat.or_comm, Nat.shiftLeft_eq, Nat.mul_comm high, ← Nat.two_pow_add_eq_or_of_lt hlow]
  exact Nat.add_comm _ _

theorem toNat_ofBytes (b0 b1 b2 b3 : UInt8) :
    (ofBytes b0 b1 b2 b3).toNat =
      b0.toNat + 2 ^ 8 * b1.toNat + 2 ^ 16 * b2.toNat + 2 ^ 24 * b3.toNat := by
  have h0 := b0.toNat_lt
  have h1 := b1.toNat_lt
  have h2 := b2.toNat_lt
  have h3 := b3.toNat_lt
  have hmod : ∀ (b : UInt8) (k : Nat), k ≤ 24 → b.toNat <<< k % 2 ^ 32 = b.toNat <<< k := by
    intro b k hk
    have hb := b.toNat_lt
    have hpow : (2 : Nat) ^ k ≤ 2 ^ 24 := Nat.pow_le_pow_right (by decide) hk
    rw [Nat.shiftLeft_eq]
    apply Nat.mod_eq_of_lt
    calc b.toNat * 2 ^ k ≤ 255 * 2 ^ 24 := Nat.mul_le_mul (by omega) hpow
      _ < 2 ^ 32 := by decide
  simp only [ofBytes, UInt32.toNat_or, UInt32.toNat_shiftLeft, UInt8.toNat_toUInt32]
  rw [show UInt32.toNat 8 % 32 = 8 from rfl, show UInt32.toNat 16 % 32 = 16 from rfl,
    show UInt32.toNat 24 % 32 = 24 from rfl, hmod b1 8 (by decide), hmod b2 16 (by decide),
    hmod b3 24 (by decide), or_shiftLeft b1.toNat h0, or_shiftLeft b2.toNat (by omega),
    or_shiftLeft b3.toNat (by omega)]

theorem ofBytes_bytes (word : UInt32) :
    ofBytes word.toUInt8 (word >>> 8).toUInt8 (word >>> 16).toUInt8 (word >>> 24).toUInt8 =
      word := by
  have hlt := word.toNat_lt
  apply UInt32.toNat_inj.mp
  rw [toNat_ofBytes]
  simp only [UInt32.toNat_toUInt8, UInt32.toNat_shiftRight, Nat.shiftRight_eq_div_pow]
  rw [show UInt32.toNat 8 % 32 = 8 from rfl, show UInt32.toNat 16 % 32 = 16 from rfl,
    show UInt32.toNat 24 % 32 = 24 from rfl]
  omega

@[simp] theorem length_bytes (word : UInt32) : (bytes word).length = 4 := rfl

theorem length_flatMap_bytes (words : List UInt32) :
    (words.flatMap bytes).length = 4 * words.length := by
  induction words with
  | nil => rfl
  | cons word words ih =>
    rw [List.flatMap_cons, List.length_append, length_bytes, ih, List.length_cons]
    omega

theorem ofAllBytes_flatMap_bytes (words : List UInt32) :
    ofAllBytes (words.flatMap bytes) = words := by
  induction words with
  | nil => rfl
  | cons word words ih =>
    rw [List.flatMap_cons]
    show ofBytes _ _ _ _ :: ofAllBytes (words.flatMap bytes) = word :: words
    rw [ofBytes_bytes, ih]

end Word

namespace Table

namespace Node

private theorem getElem?_flatMap_slots (slots : List Slot) (i : Nat) :
    (slots.flatMap fun slot => [slot.value, slot.child])[2 * i]? =
        slots[i]?.map Slot.value ∧
      (slots.flatMap fun slot => [slot.value, slot.child])[2 * i + 1]? =
        slots[i]?.map Slot.child := by
  induction slots generalizing i with
  | nil => simp
  | cons slot slots ih =>
    cases i with
    | zero => simp
    | succ i =>
      have hnext := ih i
      rw [List.flatMap_cons, show 2 * (i + 1) = 2 * i + 1 + 1 by omega]
      simpa using hnext

private theorem length_flatMap_slots (slots : List Slot) :
    (slots.flatMap fun slot => [slot.value, slot.child]).length = 2 * slots.length := by
  induction slots with
  | nil => rfl
  | cons slot slots ih =>
    rw [List.flatMap_cons, List.length_append, ih]
    simp only [List.length_cons, List.length_nil]
    omega

@[simp] theorem length_words (node : Node) : node.words.length = wordCount := by
  simp only [words, List.length_cons]
  rw [length_flatMap_slots, Vector.length_toList]
  rfl

theorem ofWords_words (node : Node) : ofWords node.words = node := by
  have hslot : ∀ i : Fin 27,
      node.words.getD (3 + 2 * i.val) 0 = node.slots[i].value ∧
        node.words.getD (4 + 2 * i.val) 0 = node.slots[i].child := by
    intro i
    have hread := getElem?_flatMap_slots node.slots.toList i.val
    have hget : node.slots.toList[i.val]? = some node.slots[i] := by
      rw [Vector.getElem?_toList]
      exact Vector.getElem?_eq_getElem i.isLt
    rw [hget] at hread
    simp only [List.getD_eq_getElem?_getD, words,
      show 3 + 2 * i.val = 2 * i.val + 1 + 1 + 1 by omega,
      show 4 + 2 * i.val = 2 * i.val + 1 + 1 + 1 + 1 by omega, List.getElem?_cons_succ]
    rw [hread.1, hread.2]
    exact ⟨rfl, rfl⟩
  have hslots : (Vector.ofFn fun i : Fin 27 =>
      (⟨node.words.getD (3 + 2 * i.val) 0, node.words.getD (4 + 2 * i.val) 0⟩ : Slot)) =
        node.slots := by
    apply Vector.ext
    intro i hi
    rw [Vector.getElem_ofFn]
    have := hslot ⟨i, hi⟩
    rw [this.1, this.2]
    rfl
  unfold ofWords
  rw [hslots]
  rfl

theorem ofAllWords_flatMap_words (nodes : List Node) :
    ofAllWords (nodes.flatMap words) = nodes := by
  induction nodes with
  | nil =>
    rw [List.flatMap_nil, ofAllWords]
    rfl
  | cons node nodes ih =>
    rw [List.flatMap_cons, ofAllWords]
    have hlen : node.words.length = 57 := length_words node
    split
    · next hnone =>
      have := congrArg List.length hnone
      rw [List.length_drop, List.length_append, hlen] at this
      simp only [List.length_nil] at this
      omega
    · next first rest hrest =>
      have hdrop : (node.words ++ nodes.flatMap words).drop 57 = rest := by
        rw [← List.tail_drop, hrest]
        rfl
      rw [List.drop_left' hlen] at hdrop
      rw [List.take_left' hlen, ofWords_words, ← hdrop, ih]

theorem ofAllBytes_flatMap_bytes (nodes : List Node) :
    ofAllBytes (nodes.flatMap bytes) = nodes := by
  have hassoc : nodes.flatMap bytes = (nodes.flatMap words).flatMap Word.bytes := by
    rw [List.flatMap_assoc]
    rfl
  rw [hassoc, ofAllBytes, Word.ofAllBytes_flatMap_bytes, ofAllWords_flatMap_words]

theorem length_flatMap_bytes (nodes : List Node) :
    (nodes.flatMap bytes).length = nodes.length * byteCount := by
  induction nodes with
  | nil => rfl
  | cons node nodes ih =>
    rw [List.flatMap_cons, List.length_append, ih, bytes, Word.length_flatMap_bytes, length_words,
      List.length_cons, Nat.add_mul, Nat.one_mul, Nat.add_comm]
    rfl

end Node

theorem Trie.ofBytes_bytes {pool : Pool} (hcount : pool.nodes.size < Word.count) :
    Trie.ofBytes pool.bytes = ⟨pool.nodes⟩ := by
  rw [Trie.ofBytes, Pool.bytes, Node.ofAllBytes_flatMap_bytes,
    List.take_of_length_le (by rw [Array.length_toList]; exact Nat.le_pred_of_lt hcount)]

theorem Pool.length_bytes (pool : Pool) :
    pool.bytes.length = pool.nodes.size * Node.byteCount := by
  rw [Pool.bytes, Node.length_flatMap_bytes, Array.length_toList]

/-! ## Assets -/

@[simp] theorem length_headerBytes (renameCount replaceCount : UInt32) :
    (headerBytes renameCount replaceCount).length = headerLength := rfl

theorem halfAt_headerBytes (renameCount replaceCount : UInt32) (rest : Bytes) :
    halfAt (headerBytes renameCount replaceCount ++ rest) 4 = formatVersion := by
  show formatVersion.toUInt8.toUInt16 ||| (formatVersion >>> 8).toUInt8.toUInt16 <<< 8 =
    formatVersion
  decide

/-- The words of a header are the counts that it was written with, whatever follows it. -/
theorem wordAt_headerBytes (renameCount replaceCount : UInt32) (rest : Bytes) :
    wordAt (headerBytes renameCount replaceCount ++ rest) 8 = renameCount ∧
      wordAt (headerBytes renameCount replaceCount ++ rest) 12 = replaceCount :=
  ⟨Word.ofBytes_bytes renameCount, Word.ofBytes_bytes replaceCount⟩

theorem assetBytes_eq {rename replace : Pool} {asset : Bytes}
    (hasset : assetBytes rename replace = .ok asset) :
    rename.nodes.size < Word.count ∧ replace.nodes.size < Word.count ∧
      asset = headerBytes (UInt32.ofNat rename.nodes.size) (UInt32.ofNat replace.nodes.size) ++
        rename.bytes ++ replace.bytes := by
  unfold assetBytes at hasset
  split at hasset
  · next hcount => exact ⟨hcount.1, hcount.2, (Except.ok.inj hasset).symm⟩
  · exact absurd hasset (by simp)

theorem length_assetBytes {rename replace : Pool} {asset : Bytes}
    (hasset : assetBytes rename replace = .ok asset) :
    asset.length = headerLength + rename.nodes.size * Node.byteCount +
      replace.nodes.size * Node.byteCount := by
  rw [(assetBytes_eq hasset).2.2, List.length_append, List.length_append, length_headerBytes,
    Pool.length_bytes, Pool.length_bytes]

theorem wordAt_assetBytes {rename replace : Pool} {asset : Bytes}
    (hasset : assetBytes rename replace = .ok asset) (rest : Bytes) :
    (wordAt (asset ++ rest) 8).toNat = rename.nodes.size ∧
      (wordAt (asset ++ rest) 12).toNat = replace.nodes.size := by
  obtain ⟨hrename, hreplace, hbytes⟩ := assetBytes_eq hasset
  have hword := wordAt_headerBytes (UInt32.ofNat rename.nodes.size)
    (UInt32.ofNat replace.nodes.size) (rename.bytes ++ (replace.bytes ++ rest))
  simp only [hbytes, List.append_assoc]
  rw [hword.1, hword.2]
  exact ⟨UInt32.toNat_ofNat_of_lt' hrename, UInt32.toNat_ofNat_of_lt' hreplace⟩

/-- An asset is read as the two pools that it was written from, whatever follows it. -/
theorem read_assetBytes {rename replace : Pool} {asset : Bytes}
    (hasset : assetBytes rename replace = .ok asset) (rest : Bytes) :
    read (asset ++ rest) = .ok ⟨⟨rename.nodes⟩, ⟨replace.nodes⟩⟩ := by
  obtain ⟨hrename, hreplace, hbytes⟩ := assetBytes_eq hasset
  have hword := wordAt_assetBytes hasset rest
  have hlength := length_assetBytes hasset
  have hshape : asset ++ rest = headerBytes (UInt32.ofNat rename.nodes.size)
      (UInt32.ofNat replace.nodes.size) ++ (rename.bytes ++ (replace.bytes ++ rest)) := by
    rw [hbytes]
    simp only [List.append_assoc]
  unfold read
  rw [if_neg (by rw [List.length_append, hlength]; omega), hword.1, hword.2, hshape]
  rw [if_neg (by simp [headerBytes, magic])]
  rw [halfAt_headerBytes, if_neg (by simp), ← hshape]
  rw [if_neg (by rw [List.length_append, hlength]; omega)]
  rw [hshape, List.drop_left' (length_headerBytes _ _)]
  dsimp only
  rw [List.take_left' (Pool.length_bytes rename), List.drop_left' (Pool.length_bytes rename),
    List.take_left' (Pool.length_bytes replace), Trie.ofBytes_bytes hrename,
    Trie.ofBytes_bytes hreplace]

theorem ofBytes_assetBytes {rename replace : Pool} {asset : Bytes}
    (hasset : assetBytes rename replace = .ok asset) :
    ofBytes asset = ⟨⟨rename.nodes⟩, ⟨replace.nodes⟩⟩ := by
  have hread := read_assetBytes hasset []
  rw [List.append_nil] at hread
  rw [ofBytes, hread]

end Table

end StyleRules
