import Mathlib.Data.Fintype.Card
import StyleRules.Proofs.CodeUnit.Fold
import StyleRules.Proofs.Table.Traced

/-!
# What a lookup finds, said of the bytes alone

Any bytes can stand where nodes are expected, so references may point anywhere and chains of
alternates may run in circles. The walk below follows a chain without counting its links. A lookup
follows it for as many links as there are nodes, which is enough: the nodes in front of the first
one that holds a unit are all different.
-/

namespace StyleRules.Table

/-! ## The walk -/

def nextAlternate? (bytes : Bytes) (index : UInt32) : Option UInt32 :=
  (word? bytes index 2).filter (· != 0)

def alternateAt? (bytes : Bytes) : Nat → UInt32 → Option UInt32
  | 0, index => some index
  | n + 1, index => (nextAlternate? bytes index).bind (alternateAt? bytes n)

def IsOccupied (bytes : Bytes) (index : UInt32) (symbol : Symbol) : Prop :=
  ∃ charMap, word? bytes index 0 = some charMap ∧ charMap &&& Node.bit symbol ≠ 0

def HoldsOther (bytes : Bytes) (unit : CodeUnit) (index : UInt32) : Prop :=
  IsOccupied bytes index Symbol.other ∧ word? bytes index 1 = some unit.toUInt32

/-- Node `holder` lies `n` links behind `index` and is the first one there that holds `unit`. -/
structure IsFirstHolder (bytes : Bytes) (unit : CodeUnit) (n : Nat) (index holder : UInt32) :
    Prop where
  reached : alternateAt? bytes n index = some holder
  holds : HoldsOther bytes unit holder
  first : ∀ m < n, ∀ earlier, alternateAt? bytes m index = some earlier →
    ¬ HoldsOther bytes unit earlier

/-- Node `holder` has the slot for `unit` at node `index`. -/
inductive HasSlot (bytes : Bytes) (index : UInt32) (unit : CodeUnit) : UInt32 → Prop where
  | letter (hletter : unit.isLetter = true) (hbit : IsOccupied bytes index unit.symbol) :
    HasSlot bytes index unit index
  | other {n : Nat} {holder : UInt32} (hother : unit.isLetter = false)
    (hfirst : IsFirstHolder bytes unit n index holder) : HasSlot bytes index unit holder

inductive Walk (bytes : Bytes) : UInt32 → CodeUnits → UInt32 → Prop where
  | nil (root : UInt32) : Walk bytes root [] 0
  | absent {root : UInt32} {unit : CodeUnit} (rest : CodeUnits)
    (hnone : ∀ holder, ¬ HasSlot bytes root unit holder) : Walk bytes root (unit :: rest) 0
  | last {root holder value : UInt32} {unit : CodeUnit} (hslot : HasSlot bytes root unit holder)
    (hvalue : word? bytes holder (3 + 2 * unit.symbol.val) = some value) :
    Walk bytes root [unit] value
  | childless {root holder : UInt32} {unit next : CodeUnit} (rest : CodeUnits)
    (hslot : HasSlot bytes root unit holder)
    (hchild : word? bytes holder (4 + 2 * unit.symbol.val) = some 0) :
    Walk bytes root (unit :: next :: rest) 0
  | child {root holder child value : UInt32} {unit next : CodeUnit} {rest : CodeUnits}
    (hslot : HasSlot bytes root unit holder)
    (hchild : word? bytes holder (4 + 2 * unit.symbol.val) = some child) (hne : child ≠ 0)
    (hrest : Walk bytes child (next :: rest) value) : Walk bytes root (unit :: next :: rest) value

/-! ## Chains of alternates -/

variable {bytes : Bytes} {unit : CodeUnit} {index holder : UInt32}

theorem alternateAt?_add (bytes : Bytes) (m n : Nat) (index : UInt32) :
    alternateAt? bytes (m + n) index =
      (alternateAt? bytes m index).bind (alternateAt? bytes n) := by
  induction m generalizing index with
  | zero => rw [Nat.zero_add]; rfl
  | succ m ih =>
    rw [Nat.add_right_comm, alternateAt?, alternateAt?, Option.bind_assoc]
    congr
    funext next
    exact ih next

theorem lt_nodeCount_of_word? {i : Nat} {word : UInt32} (hword : word? bytes index i = some word) :
    index.toNat < nodeCount bytes := by
  by_contra hindex
  rw [word?_eq_none hindex] at hword
  exact absurd hword (by simp)

theorem HoldsOther.lt_nodeCount (h : HoldsOther bytes unit index) :
    index.toNat < nodeCount bytes :=
  lt_nodeCount_of_word? h.2

theorem lt_nodeCount_of_alternateAt? {n : Nat} {last : UInt32}
    (hlast : alternateAt? bytes (n + 1) index = some last) : index.toNat < nodeCount bytes := by
  by_contra hindex
  rw [alternateAt?, nextAlternate?, word?_eq_none hindex] at hlast
  exact absurd hlast (by simp)

namespace IsFirstHolder

variable {n : Nat}

theorem exists_entry (h : IsFirstHolder bytes unit n index holder) {m : Nat} (hm : m ≤ n) :
    ∃ entry, alternateAt? bytes m index = some entry ∧ entry.toNat < nodeCount bytes ∧
      alternateAt? bytes (n - m) entry = some holder := by
  have hreached := h.reached
  rw [show n = m + (n - m) by omega, alternateAt?_add, Option.bind_eq_some_iff] at hreached
  obtain ⟨entry, hentry, hrest⟩ := hreached
  refine ⟨entry, hentry, ?_, hrest⟩
  rcases Nat.eq_or_lt_of_le hm with rfl | hlt
  · rw [Nat.sub_self] at hrest
    exact Option.some.inj hrest ▸ h.holds.lt_nodeCount
  · rw [show n - m = n - m - 1 + 1 by omega] at hrest
    exact lt_nodeCount_of_alternateAt? hrest

/-- A chain that has come back to a node holds nothing new, so no node comes twice. -/
theorem entry_ne (h : IsFirstHolder bytes unit n index holder) {i j : Nat} (hij : i < j)
    (hj : j ≤ n) : alternateAt? bytes i index ≠ alternateAt? bytes j index := by
  intro hsame
  obtain ⟨entry, hentry, -, hrest⟩ := h.exists_entry hj
  -- The shortcut past the circle reaches the holder too soon.
  have hshort : alternateAt? bytes (i + (n - j)) index = some holder := by
    rw [alternateAt?_add, hsame, hentry, Option.bind_some, hrest]
  exact h.first _ (by omega) holder hshort h.holds

theorem lt_nodeCount (h : IsFirstHolder bytes unit n index holder) : n < nodeCount bytes := by
  have hentry : ∀ m : Fin (n + 1), ∃ entry, alternateAt? bytes m.val index = some entry ∧
      entry.toNat < nodeCount bytes := by
    intro m
    obtain ⟨entry, hentry, hinside, -⟩ := h.exists_entry (Nat.le_of_lt_succ m.isLt)
    exact ⟨entry, hentry, hinside⟩
  choose entry hentry hinside using hentry
  let place : Fin (n + 1) → Fin (nodeCount bytes) := fun m => ⟨(entry m).toNat, hinside m⟩
  have hinjective : Function.Injective place := by
    intro i j hsame
    have hsame : entry i = entry j := UInt32.toNat_inj.mp (Fin.mk.inj hsame)
    by_contra hne
    have hchain : alternateAt? bytes i.val index = alternateAt? bytes j.val index := by
      rw [hentry i, hentry j, hsame]
    rcases Nat.lt_or_gt_of_ne (Fin.val_ne_of_ne hne) with hlt | hgt
    · exact h.entry_ne hlt (Nat.le_of_lt_succ j.isLt) hchain
    · exact h.entry_ne hgt (Nat.le_of_lt_succ i.isLt) hchain.symm
  have hcard := Fintype.card_le_of_injective place hinjective
  rw [Fintype.card_fin, Fintype.card_fin] at hcard
  exact hcard

end IsFirstHolder

theorem exists_isFirstHolder
    (h : ∃ n holder, alternateAt? bytes n index = some holder ∧ HoldsOther bytes unit holder) :
    ∃ n holder, IsFirstHolder bytes unit n index holder := by
  classical
  obtain ⟨holder, hreached, hholds⟩ := Nat.find_spec h
  refine ⟨Nat.find h, holder, hreached, hholds, fun m hm earlier hearlier hheld => ?_⟩
  exact Nat.find_min h hm ⟨earlier, hearlier, hheld⟩

/-! ## The capped search is the whole search -/

theorem isOccupied_iff {symbol : Symbol} :
    IsOccupied bytes index symbol ↔
      index.toNat < nodeCount bytes ∧ (nodeAt bytes index).occupied symbol = true := by
  constructor
  · rintro ⟨charMap, hword, hbit⟩
    have hindex := lt_nodeCount_of_word? hword
    rw [word?_eq_some hindex, Option.some.injEq] at hword
    subst hword
    exact ⟨hindex, bne_iff_ne.mpr hbit⟩
  · rintro ⟨hindex, hbit⟩
    exact ⟨_, word?_eq_some hindex 0, bne_iff_ne.mp hbit⟩

theorem holdsOther_iff :
    HoldsOther bytes unit index ↔
      index.toNat < nodeCount bytes ∧ (nodeAt bytes index).holdsOther unit = true := by
  rw [HoldsOther, isOccupied_iff, Node.holdsOther, Bool.and_eq_true, and_assoc]
  refine and_congr_right fun hindex => and_congr_right fun _ => ?_
  rw [word?_eq_some hindex, Option.some.injEq, beq_iff_eq]
  rfl

theorem isFirstHolder_zero :
    IsFirstHolder bytes unit 0 index holder ↔ index = holder ∧ HoldsOther bytes unit index := by
  constructor
  · intro h
    have hsame := Option.some.inj h.reached
    exact ⟨hsame, hsame ▸ h.holds⟩
  · rintro ⟨rfl, hholds⟩
    exact ⟨rfl, hholds, fun m hm => absurd hm (Nat.not_lt_zero m)⟩

theorem isFirstHolder_succ (n : Nat) :
    IsFirstHolder bytes unit (n + 1) index holder ↔
      ¬ HoldsOther bytes unit index ∧ ∃ next, nextAlternate? bytes index = some next ∧
        IsFirstHolder bytes unit n next holder := by
  constructor
  · intro h
    obtain ⟨next, hnext, hrest⟩ := Option.bind_eq_some_iff.mp h.reached
    refine ⟨h.first 0 (Nat.succ_pos n) index rfl, next, hnext, hrest, h.holds, ?_⟩
    intro m hm earlier hearlier
    refine h.first (m + 1) (Nat.succ_lt_succ hm) earlier ?_
    rw [alternateAt?, hnext, Option.bind_some, hearlier]
  · rintro ⟨hfree, next, hnext, h⟩
    refine ⟨?_, h.holds, ?_⟩
    · rw [alternateAt?, hnext, Option.bind_some, h.reached]
    · intro m hm earlier hearlier
      cases m with
      | zero => exact Option.some.inj hearlier ▸ hfree
      | succ m =>
        rw [alternateAt?, hnext, Option.bind_some] at hearlier
        exact h.first m (Nat.lt_of_succ_lt_succ hm) earlier hearlier

theorem nextAlternate?_eq (hindex : index.toNat < nodeCount bytes) :
    nextAlternate? bytes index =
      if (nodeAt bytes index).nextOther = 0 then none else some (nodeAt bytes index).nextOther := by
  rw [nextAlternate?, word?_eq_some hindex, Option.filter_some]
  by_cases hzero : wordAt bytes (wordOffset index 2) = 0
  · simp [nodeAt, hzero]
  · simp [nodeAt, hzero]

/-- The first holder within so many links is the node itself, or lies behind a node that does not
hold the unit. -/
theorem exists_lt_isFirstHolder_succ (steps : Nat) :
    (∃ n < steps + 1, IsFirstHolder bytes unit n index holder) ↔
      (index = holder ∧ HoldsOther bytes unit index) ∨
        ¬ HoldsOther bytes unit index ∧ ∃ next, nextAlternate? bytes index = some next ∧
          ∃ n < steps, IsFirstHolder bytes unit n next holder := by
  rw [Nat.exists_lt_succ_left, isFirstHolder_zero]
  refine or_congr_right ?_
  simp only [isFirstHolder_succ]
  constructor
  · rintro ⟨n, hn, hfree, next, hnext, hfirst⟩
    exact ⟨hfree, next, hnext, n, hn, hfirst⟩
  · rintro ⟨hfree, next, hnext, n, hn, hfirst⟩
    exact ⟨n, hn, hfree, next, hnext, hfirst⟩

/-- So many steps along the alternates find what lies within so many links. -/
theorem Traced.result_alternate_iff (bytes : Bytes) (unit : CodeUnit) (steps : Nat)
    (index found : UInt32) :
    (Traced.alternate bytes unit steps index).result = some found ↔
      ∃ n < steps, IsFirstHolder bytes unit n index found := by
  induction steps generalizing index with
  | zero =>
    exact iff_of_false (by simp [Traced.alternate]) fun ⟨n, hn, _⟩ => absurd hn (Nat.not_lt_zero n)
  | succ steps ih =>
    rw [exists_lt_isFirstHolder_succ]
    by_cases hindex : index.toNat < nodeCount bytes
    · rw [result_alternate_succ hindex, nextAlternate?_eq hindex, holdsOther_iff]
      by_cases hheld : (nodeAt bytes index).holdsOther unit = true
      · simp only [hheld, hindex, if_true, and_self, not_true_eq_false, false_and, or_false,
          and_true, Option.some.injEq]
      · by_cases hzero : (nodeAt bytes index).nextOther = 0
        · simp [hheld, hzero]
        · simp [hheld, hzero, ih]
    · have hfree : ¬ HoldsOther bytes unit index := fun h => hindex h.lt_nodeCount
      rw [result_alternate_of_outside hindex, nextAlternate?, word?_eq_none hindex]
      simp [hfree]

theorem Traced.result_holder_iff (bytes : Bytes) (index : UInt32) (unit : CodeUnit)
    (found : UInt32) :
    (Traced.holder bytes index unit).result = some found ↔ HasSlot bytes index unit found := by
  cases hletter : unit.isLetter with
  | false =>
    have hother := (CodeUnit.symbol_eq_other_iff unit).mpr hletter
    rw [Traced.holder, if_pos hother, Traced.result_alternate_iff]
    constructor
    · rintro ⟨n, -, hfirst⟩
      exact .other hletter hfirst
    · intro hslot
      cases hslot with
      | letter htrue => exact absurd (hletter.symm.trans htrue) Bool.false_ne_true
      | other _ hfirst => exact ⟨_, hfirst.lt_nodeCount, hfirst⟩
  | true =>
    have hsymbol : unit.symbol ≠ Symbol.other := fun hother =>
      absurd (((CodeUnit.symbol_eq_other_iff unit).mp hother).symm.trans hletter)
        Bool.false_ne_true
    rw [Traced.result_holder_of_letter hsymbol]
    constructor
    · intro hfound
      split at hfound
      · next hbit => exact Option.some.inj hfound ▸ .letter hletter (isOccupied_iff.mpr hbit)
      · exact absurd hfound (by simp)
    · intro hslot
      cases hslot with
      | letter _ hbit => rw [if_pos (isOccupied_iff.mp hbit)]
      | other hfalse => exact absurd (hfalse.symm.trans hletter) Bool.false_ne_true

theorem Traced.result_holder_eq_none_iff (bytes : Bytes) (index : UInt32) (unit : CodeUnit) :
    (Traced.holder bytes index unit).result = none ↔
      ∀ found, ¬ HasSlot bytes index unit found := by
  simp only [Option.eq_none_iff_forall_ne_some, Ne, Traced.result_holder_iff]

/-! ## The walk is what is computed -/

theorem walk_iff (bytes : Bytes) (root : UInt32) (key : CodeUnits) (value : UInt32) :
    Walk bytes root key value ↔ (Traced.lookup bytes root key).result.getD 0 = value := by
  constructor
  · intro hwalk
    induction hwalk with
    | nil root => rfl
    | @absent root unit rest hnone =>
      have hresult := (Traced.result_holder_eq_none_iff bytes root unit).mpr hnone
      cases rest with
      | nil => rw [Traced.lookup, Traced.result_bind, hresult]; rfl
      | cons next rest => rw [Traced.lookup, Traced.result_bind, hresult]; rfl
    | last hslot hvalue =>
      rw [Traced.lookup, Traced.result_bind, (Traced.result_holder_iff ..).mpr hslot]
      simp only [Option.bind_some, Traced.result_word, hvalue, Option.getD_some]
    | childless rest hslot hchild =>
      rw [Traced.lookup, Traced.result_bind, (Traced.result_holder_iff ..).mpr hslot]
      simp only [Option.bind_some, Traced.result_bind, Traced.result_word, hchild, if_true,
        Traced.result_fail, Option.getD_none]
    | child hslot hchild hne hrest ih =>
      rw [Traced.lookup, Traced.result_bind, (Traced.result_holder_iff ..).mpr hslot]
      simp only [Option.bind_some, Traced.result_bind, Traced.result_word, hchild, if_neg hne, ih]
  · rintro rfl
    fun_induction Traced.lookup bytes root key with
    | case1 root => exact .nil root
    | case2 root last =>
      rw [Traced.result_bind]
      cases hfound : (Traced.holder bytes root last).result with
      | none => exact .absent [] ((Traced.result_holder_eq_none_iff ..).mp hfound)
      | some found =>
        have hword := word?_eq_some (Traced.holder_inside hfound) (3 + 2 * last.symbol.val)
        rw [Option.bind_some, Traced.result_word, hword, Option.getD_some]
        exact .last ((Traced.result_holder_iff ..).mp hfound) hword
    | case3 root unit next rest ih =>
      rw [Traced.result_bind]
      cases hfound : (Traced.holder bytes root unit).result with
      | none => exact .absent _ ((Traced.result_holder_eq_none_iff ..).mp hfound)
      | some found =>
        have hslot := (Traced.result_holder_iff ..).mp hfound
        have hword := word?_eq_some (Traced.holder_inside hfound) (4 + 2 * unit.symbol.val)
        simp only [Option.bind_some, Traced.result_bind, Traced.result_word, hword]
        split
        · next hzero => exact .childless rest hslot (hzero ▸ hword)
        · next hne => exact .child hslot hword hne (ih _)

/-- The search for a node with `unit` succeeds whenever the chain reaches such a node, however far
away it lies. -/
theorem isSome_alternate?_iff (bytes : Bytes) (unit : CodeUnit) (index : UInt32) :
    ((Trie.ofBytes bytes).alternate? unit (Trie.ofBytes bytes).size index).isSome = true ↔
      ∃ n holder, alternateAt? bytes n index = some holder ∧ HoldsOther bytes unit holder := by
  rw [Traced.alternate?_ofBytes, size_ofBytes, Option.isSome_map, Option.isSome_iff_exists]
  constructor
  · rintro ⟨holder, hfound⟩
    obtain ⟨n, -, hfirst⟩ := (Traced.result_alternate_iff ..).mp hfound
    exact ⟨n, holder, hfirst.reached, hfirst.holds⟩
  · intro hreached
    obtain ⟨n, holder, hfirst⟩ := exists_isFirstHolder hreached
    exact ⟨holder, (Traced.result_alternate_iff ..).mpr ⟨n, hfirst.lt_nodeCount, hfirst⟩⟩

/-- Whatever the bytes, a lookup yields the value of the walk, which follows chains of alternates
without counting. The words read for it are words of whole nodes, boundedly many, and the number of
nodes as a limit hides no node that holds a unit. -/
theorem Trie.lookup_walks (bytes : Bytes) (root : UInt32) (key : CodeUnits) :
    (∀ value, (Trie.ofBytes bytes).lookup root key = value ↔ Walk bytes root key value) ∧
    ((Trie.ofBytes bytes).lookup root key = (Traced.lookup bytes root key).result.getD 0 ∧
      (∀ offset ∈ (Traced.lookup bytes root key).offsets,
        Traced.IsNodeWord bytes offset ∧ offset + 4 ≤ nodeCount bytes * Node.byteCount ∧
          nodeCount bytes * Node.byteCount ≤ bytes.length) ∧
      (Traced.lookup bytes root key).offsets.length ≤ key.length * (3 * nodeCount bytes + 2)) ∧
    ∀ unit index,
      ((Trie.ofBytes bytes).alternate? unit (Trie.ofBytes bytes).size index).isSome = true ↔
        ∃ n holder, alternateAt? bytes n index = some holder ∧ HoldsOther bytes unit holder := by
  have hvalue := Traced.lookup_ofBytes bytes root key
  have hreads := Traced.reads_lookup bytes root key
  refine ⟨fun value => ?_, ⟨hvalue, fun offset hmem => ?_, hreads.few⟩,
    isSome_alternate?_iff bytes⟩
  · rw [hvalue]
    exact (walk_iff bytes root key value).symm
  · refine ⟨hreads.placed offset hmem, ?_⟩
    obtain ⟨index, i, hindex, hi, rfl⟩ := hreads.placed offset hmem
    exact wordOffset_le hindex hi

/-- Three nodes whose alternates run in a circle that misses the first one. -/
example :
    let node (unit : CodeUnit) (next value : UInt32) : Node :=
      { (Node.empty.occupyOther unit).setValue Symbol.other value with nextOther := next }
    let trie := Trie.ofBytes (Pool.bytes ⟨#[node 0x31 1 1, node 0x32 2 2, node 0x33 1 3]⟩)
    trie.lookup 0 [0x33] = 3 ∧ trie.lookup 0 [0x34] = 0 := by
  decide +kernel

end StyleRules.Table
