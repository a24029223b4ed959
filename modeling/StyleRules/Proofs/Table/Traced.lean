import StyleRules.Proofs.Table.Cells

/-!
# The words that a lookup reads

A lookup written out down to the single words that it reads, each noted with its byte offset. What
it yields is what `Trie.lookup` yields on the decoded nodes, so the noted offsets are those of a
lookup that decodes nothing beforehand.
-/

namespace StyleRules.Table

/-- A result, if there is one, with the offsets of the words that were read on the way. -/
structure Traced (α : Type) where
  result : Option α
  offsets : List Nat

namespace Traced

variable {α β : Type}

def fail : Traced α := ⟨none, []⟩

instance : Monad Traced where
  pure a := ⟨some a, []⟩
  bind first next :=
    match first.result with
    | none => ⟨none, first.offsets⟩
    | some a => ⟨(next a).result, first.offsets ++ (next a).offsets⟩

@[simp] theorem result_fail : (fail : Traced α).result = none := rfl

@[simp] theorem result_pure (a : α) : (pure a : Traced α).result = some a := rfl

@[simp] theorem result_bind (first : Traced α) (next : α → Traced β) :
    (first >>= next).result = first.result.bind fun a => (next a).result := by
  show (match first.result with | none => _ | some a => _ : Traced β).result = _
  cases first.result with
  | none => rfl
  | some a => rfl

@[simp] theorem result_ite (p : Prop) [Decidable p] (first second : Traced α) :
    (if p then first else second).result = if p then first.result else second.result := by
  split <;> rfl

/-- At most `count` words were read, each at a place where `Place` holds. -/
structure Reads (Place : Nat → Prop) (count : Nat) (traced : Traced α) : Prop where
  placed : ∀ offset ∈ traced.offsets, Place offset
  few : traced.offsets.length ≤ count

namespace Reads

variable {Place : Nat → Prop} {count more : Nat}

theorem none_fail : Reads Place 0 (fail : Traced α) := ⟨by simp [fail], Nat.le_refl 0⟩

theorem none_pure (a : α) : Reads Place 0 (pure a : Traced α) :=
  ⟨fun _ hmem => absurd hmem List.not_mem_nil, Nat.le_refl 0⟩

theorem weaken {traced : Traced α} (h : Reads Place count traced) (hle : count ≤ more) :
    Reads Place more traced := ⟨h.placed, Nat.le_trans h.few hle⟩

theorem bind {first : Traced α} {next : α → Traced β} (hfirst : Reads Place count first)
    (hnext : ∀ a, Reads Place more (next a)) : Reads Place (count + more) (first >>= next) := by
  have hbind : (first >>= next).offsets = match first.result with
      | none => first.offsets
      | some a => first.offsets ++ (next a).offsets := by
    show (match first.result with | none => _ | some a => _ : Traced β).offsets = _
    cases first.result with
    | none => rfl
    | some a => rfl
  cases hresult : first.result with
  | none =>
    rw [hresult] at hbind
    exact ⟨by rw [hbind]; exact hfirst.placed, by
      rw [hbind]
      exact Nat.le_trans hfirst.few (Nat.le_add_right _ _)⟩
  | some a =>
    rw [hresult] at hbind
    refine ⟨?_, ?_⟩
    · rw [hbind]
      intro offset hmem
      rcases List.mem_append.mp hmem with hmem | hmem
      · exact hfirst.placed offset hmem
      · exact (hnext a).placed offset hmem
    · rw [hbind, List.length_append]
      exact Nat.add_le_add hfirst.few (hnext a).few

theorem ite {p : Prop} [Decidable p] {first second : Traced α} (hfirst : Reads Place count first)
    (hsecond : Reads Place count second) : Reads Place count (if p then first else second) := by
  split
  · exact hfirst
  · exact hsecond

end Reads

/-! ## A lookup, word by word -/

def word (bytes : Bytes) (index : UInt32) (i : Nat) : Traced UInt32 :=
  if index.toNat < nodeCount bytes then
    ⟨some (wordAt bytes (wordOffset index i)), [wordOffset index i]⟩
  else fail

def holdsOther (bytes : Bytes) (index : UInt32) (unit : CodeUnit) : Traced Bool := do
  let charMap ← word bytes index 0
  if charMap &&& Node.bit Symbol.other = 0 then return false
  else return (← word bytes index 1) == unit.toUInt32

def alternate (bytes : Bytes) (unit : CodeUnit) : Nat → UInt32 → Traced UInt32
  | 0, _ => fail
  | steps + 1, index => do
    if ← holdsOther bytes index unit then return index
    else
      let next ← word bytes index 2
      if next = 0 then fail else alternate bytes unit steps next

def holder (bytes : Bytes) (index : UInt32) (unit : CodeUnit) : Traced UInt32 :=
  if unit.symbol = Symbol.other then alternate bytes unit (nodeCount bytes) index
  else do
    let charMap ← word bytes index 0
    if charMap &&& Node.bit unit.symbol = 0 then fail else return index

def lookup (bytes : Bytes) : UInt32 → CodeUnits → Traced UInt32
  | _, [] => fail
  | root, [last] => do
    let index ← holder bytes root last
    word bytes index (3 + 2 * last.symbol.val)
  | root, unit :: next :: rest => do
    let index ← holder bytes root unit
    let child ← word bytes index (4 + 2 * unit.symbol.val)
    if child = 0 then fail else lookup bytes child (next :: rest)

/-! ## It yields what a lookup in the decoded nodes yields -/

variable {bytes : Bytes} {index : UInt32}

@[simp] theorem result_word (bytes : Bytes) (index : UInt32) (i : Nat) :
    (word bytes index i).result = word? bytes index i := by
  unfold word word?
  split <;> rfl

theorem result_holdsOther (hindex : index.toNat < nodeCount bytes) (unit : CodeUnit) :
    (holdsOther bytes index unit).result = some ((nodeAt bytes index).holdsOther unit) := by
  unfold holdsOther Node.holdsOther
  simp only [result_bind, result_word, result_ite, result_pure, word?_eq_some hindex,
    Option.bind_some]
  by_cases hbit : wordAt bytes (wordOffset index 0) &&& Node.bit Symbol.other = 0
  · have hfree : (nodeAt bytes index).occupied Symbol.other = false :=
      bne_eq_false_iff_eq.mpr hbit
    rw [if_pos hbit, hfree, Bool.false_and]
  · have htaken : (nodeAt bytes index).occupied Symbol.other = true := bne_iff_ne.mpr hbit
    rw [if_neg hbit, htaken, Bool.true_and]
    rfl

theorem result_alternate_succ (hindex : index.toNat < nodeCount bytes) (unit : CodeUnit)
    (steps : Nat) :
    (alternate bytes unit (steps + 1) index).result =
      if (nodeAt bytes index).holdsOther unit then some index
      else if (nodeAt bytes index).nextOther = 0 then none
      else (alternate bytes unit steps (nodeAt bytes index).nextOther).result := by
  rw [alternate]
  simp only [result_bind, result_ite, result_word, result_pure, result_fail,
    result_holdsOther hindex, word?_eq_some hindex, Option.bind_some]
  rfl

theorem result_alternate_of_outside (hindex : ¬ index.toNat < nodeCount bytes) (unit : CodeUnit)
    (steps : Nat) : (alternate bytes unit steps index).result = none := by
  cases steps with
  | zero => rfl
  | succ steps =>
    rw [alternate]
    simp only [holdsOther, result_bind, result_word, word?_eq_none hindex, Option.bind_none]

theorem alternate?_ofBytes (bytes : Bytes) (unit : CodeUnit) (steps : Nat) (index : UInt32) :
    (Trie.ofBytes bytes).alternate? unit steps index =
      (alternate bytes unit steps index).result.map (nodeAt bytes) := by
  induction steps generalizing index with
  | zero => rfl
  | succ steps ih =>
    rw [Trie.alternate?, node?_ofBytes]
    by_cases hindex : index.toNat < nodeCount bytes
    · rw [if_pos hindex, result_alternate_succ hindex]
      simp only [ih, beq_iff_eq, apply_ite (Option.map (nodeAt bytes)), Option.map_some,
        Option.map_none]
    · rw [if_neg hindex, result_alternate_of_outside hindex]
      rfl

theorem result_holder_of_letter {unit : CodeUnit} (hletter : unit.symbol ≠ Symbol.other)
    (bytes : Bytes) (index : UInt32) :
    (holder bytes index unit).result =
      if index.toNat < nodeCount bytes ∧ (nodeAt bytes index).occupied unit.symbol = true then
        some index
      else none := by
  unfold holder
  rw [if_neg hletter]
  simp only [result_bind, result_word, result_ite, result_pure, result_fail]
  by_cases hindex : index.toNat < nodeCount bytes
  · rw [word?_eq_some hindex, Option.bind_some]
    by_cases hbit : wordAt bytes (wordOffset index 0) &&& Node.bit unit.symbol = 0
    · rw [if_pos hbit, if_neg fun hboth => bne_iff_ne.mp hboth.2 hbit]
    · rw [if_neg hbit, if_pos ⟨hindex, bne_iff_ne.mpr hbit⟩]
  · rw [word?_eq_none hindex, if_neg fun hboth => hindex hboth.1]
    rfl

theorem slot?_ofBytes (bytes : Bytes) (index : UInt32) (unit : CodeUnit) :
    (Trie.ofBytes bytes).slot? index unit =
      (holder bytes index unit).result.map fun found => (nodeAt bytes found).slot unit.symbol := by
  by_cases hother : unit.symbol = Symbol.other
  · rw [Trie.slot?, if_pos hother, holder, if_pos hother, alternate?_ofBytes, size_ofBytes,
      Option.map_map, hother]
    rfl
  · rw [Trie.slot?, if_neg hother, node?_ofBytes, result_holder_of_letter hother]
    by_cases hindex : index.toNat < nodeCount bytes
    · simp only [hindex, if_true, true_and, apply_ite (Option.map _), Option.map_some,
        Option.map_none]
    · rw [if_neg hindex, if_neg fun hboth => hindex hboth.1]
      rfl

theorem alternate_inside {unit : CodeUnit} {steps : Nat} {found : UInt32}
    (hfound : (alternate bytes unit steps index).result = some found) :
    found.toNat < nodeCount bytes := by
  induction steps generalizing index with
  | zero => exact absurd hfound (by simp [alternate])
  | succ steps ih =>
    by_cases hindex : index.toNat < nodeCount bytes
    · rw [result_alternate_succ hindex] at hfound
      split at hfound
      · exact Option.some.inj hfound ▸ hindex
      · split at hfound
        · exact absurd hfound (by simp)
        · exact ih hfound
    · rw [result_alternate_of_outside hindex] at hfound
      exact absurd hfound (by simp)

theorem holder_inside {unit : CodeUnit} {found : UInt32}
    (hfound : (holder bytes index unit).result = some found) :
    found.toNat < nodeCount bytes := by
  by_cases hother : unit.symbol = Symbol.other
  · rw [holder, if_pos hother] at hfound
    exact alternate_inside hfound
  · rw [result_holder_of_letter hother] at hfound
    split at hfound
    · next hboth => exact Option.some.inj hfound ▸ hboth.1
    · exact absurd hfound (by simp)

theorem lookup_ofBytes (bytes : Bytes) (root : UInt32) (key : CodeUnits) :
    (Trie.ofBytes bytes).lookup root key = (lookup bytes root key).result.getD 0 := by
  fun_induction lookup bytes root key with
  | case1 root => rfl
  | case2 root last =>
    rw [Trie.lookup, slot?_ofBytes, result_bind]
    cases hfound : (holder bytes root last).result with
    | none => rfl
    | some found =>
      simp only [Option.map_some, Option.bind_some, result_word,
        word?_eq_some (holder_inside hfound), slot_nodeAt, Option.getD_some]
  | case3 root unit next rest ih =>
    rw [Trie.lookup, slot?_ofBytes, result_bind]
    cases hfound : (holder bytes root unit).result with
    | none => rfl
    | some found =>
      simp only [Option.map_some, Option.bind_some, result_bind, result_word, result_ite,
        result_fail, word?_eq_some (holder_inside hfound), slot_nodeAt, beq_iff_eq, ih]
      split
      · rfl
      · rfl

/-! ## It stays inside the whole nodes -/

/-- The place of a word of a whole node. -/
def IsNodeWord (bytes : Bytes) (offset : Nat) : Prop :=
  ∃ (index : UInt32) (i : Nat), index.toNat < nodeCount bytes ∧ i < Node.wordCount ∧
    offset = wordOffset index i

theorem reads_word {i : Nat} (bytes : Bytes) (index : UInt32) (hi : i < Node.wordCount) :
    Reads (IsNodeWord bytes) 1 (word bytes index i) := by
  unfold word
  split
  · next hindex =>
    refine ⟨fun offset hmem => ?_, Nat.le_refl 1⟩
    exact ⟨index, i, hindex, hi, List.mem_singleton.mp hmem⟩
  · exact Reads.none_fail.weaken (Nat.zero_le 1)

theorem reads_holdsOther (bytes : Bytes) (index : UInt32) (unit : CodeUnit) :
    Reads (IsNodeWord bytes) 2 (holdsOther bytes index unit) := by
  have hunit : Reads (IsNodeWord bytes) (1 + 0) (word bytes index 1 >>= fun held =>
      pure (held == unit.toUInt32)) :=
    (reads_word bytes index (by decide)).bind fun _ => .none_pure _
  have hboth : Reads (IsNodeWord bytes) (1 + 1) (holdsOther bytes index unit) :=
    (reads_word bytes index (by decide)).bind fun _ =>
      .ite ((Reads.none_pure _).weaken (Nat.zero_le 1)) hunit
  exact hboth

theorem reads_alternate (bytes : Bytes) (unit : CodeUnit) (steps : Nat) (index : UInt32) :
    Reads (IsNodeWord bytes) (3 * steps) (alternate bytes unit steps index) := by
  induction steps generalizing index with
  | zero => exact .none_fail
  | succ steps ih =>
    have hlast : Reads (IsNodeWord bytes) (1 + 3 * steps) (word bytes index 2 >>= fun next =>
        if next = 0 then fail else alternate bytes unit steps next) :=
      (reads_word bytes index (by decide)).bind fun next =>
        .ite (Reads.none_fail.weaken (Nat.zero_le _)) (ih next)
    refine ((reads_holdsOther bytes index unit).bind fun found => ?_).weaken
      (show 2 + (1 + 3 * steps) ≤ 3 * (steps + 1) by omega)
    exact .ite ((Reads.none_pure _).weaken (Nat.zero_le _)) hlast

theorem reads_holder (bytes : Bytes) (index : UInt32) (unit : CodeUnit) :
    Reads (IsNodeWord bytes) (3 * nodeCount bytes + 1) (holder bytes index unit) := by
  refine .ite ((reads_alternate bytes unit _ index).weaken (Nat.le_succ _)) ?_
  have hletter : Reads (IsNodeWord bytes) (1 + 0) (word bytes index 0 >>= fun charMap =>
      if charMap &&& Node.bit unit.symbol = 0 then fail else pure index) :=
    (reads_word bytes index (by decide)).bind fun _ => .ite .none_fail (.none_pure _)
  exact hletter.weaken (Nat.le_add_left 1 _)

/-- A lookup reads words of whole nodes only, and no more of them than the length of the key and the
number of nodes allow. -/
theorem reads_lookup (bytes : Bytes) (root : UInt32) (key : CodeUnits) :
    Reads (IsNodeWord bytes) (key.length * (3 * nodeCount bytes + 2)) (lookup bytes root key) := by
  fun_induction lookup bytes root key with
  | case1 root => exact Reads.none_fail.weaken (Nat.zero_le _)
  | case2 root last =>
    have hsymbol := last.symbol.isLt
    refine ((reads_holder bytes root last).bind fun index =>
      reads_word bytes index (i := 3 + 2 * last.symbol.val) ?_).weaken ?_
    · unfold Node.wordCount
      omega
    · rw [List.length_singleton]
      omega
  | case3 root unit next rest ih =>
    have hsymbol := unit.symbol.isLt
    refine ((reads_holder bytes root unit).bind fun index =>
      (reads_word bytes index (i := 4 + 2 * unit.symbol.val) ?_).bind fun child =>
        .ite (Reads.none_fail.weaken (Nat.zero_le _)) (ih child)).weaken ?_
    · unfold Node.wordCount
      omega
    · have hlength : (unit :: next :: rest).length * (3 * nodeCount bytes + 2) =
          (next :: rest).length * (3 * nodeCount bytes + 2) + (3 * nodeCount bytes + 2) :=
        Nat.succ_mul _ _
      omega

end Traced

end StyleRules.Table
