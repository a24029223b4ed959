import StyleRules.Proofs.CodeUnit.Fold
import StyleRules.Proofs.Table.Slots
import StyleRules.Table.Trie

/-!
# Pools as forests

A pool holds several tries. Each node belongs to a place in one of them: the head of that place
serves the letters and one other unit, and the alternates behind it one more unit each. `Plan` names
the place of every node, `Forest` says that the links and references of the pool agree with it, and
`Holder` is the one node where the slot of a unit at a place is found. A lookup sees no more of a
pool than `valueAt` and `childAt`.
-/

namespace StyleRules.Table

namespace Trie

def valueAt (trie : Trie) (index : UInt32) (unit : CodeUnit) : UInt32 :=
  ((trie.slot? index unit).map Slot.value).getD 0

def childAt (trie : Trie) (index : UInt32) (unit : CodeUnit) : UInt32 :=
  ((trie.slot? index unit).map Slot.child).getD 0

theorem lookup_singleton (trie : Trie) (root : UInt32) (last : CodeUnit) :
    trie.lookup root [last] = trie.valueAt root last := by
  rw [lookup, valueAt]
  cases trie.slot? root last <;> rfl

theorem lookup_cons_cons (trie : Trie) (root : UInt32) (unit next : CodeUnit) (rest : CodeUnits) :
    trie.lookup root (unit :: next :: rest) =
      if trie.childAt root unit = 0 then 0
      else trie.lookup (trie.childAt root unit) (next :: rest) := by
  rw [lookup, childAt]
  cases trie.slot? root unit with
  | none => simp
  | some slot => simp

def walk (trie : Trie) (root : UInt32) : CodeUnits → Option UInt32
  | [] => some root
  | unit :: rest =>
    if trie.childAt root unit = 0 then none else walk trie (trie.childAt root unit) rest

theorem walk_append (trie : Trie) (root : UInt32) (front : CodeUnits) (unit : CodeUnit) :
    trie.walk root (front ++ [unit]) =
      (trie.walk root front).bind fun index => trie.walk index [unit] := by
  induction front generalizing root with
  | nil => rfl
  | cons first front ih =>
    simp only [List.cons_append, walk]
    split
    · rfl
    · rw [ih]
      rfl

/-- A lookup walks all units but the last and reads the value for that one. -/
theorem lookup_append (trie : Trie) (root : UInt32) (front : CodeUnits) (last : CodeUnit) :
    trie.lookup root (front ++ [last]) =
      ((trie.walk root front).map fun index => trie.valueAt index last).getD 0 := by
  induction front generalizing root with
  | nil => exact lookup_singleton trie root last
  | cons first front ih =>
    have hcons : ∃ next rest, front ++ [last] = next :: rest := by
      cases front with
      | nil => exact ⟨last, [], rfl⟩
      | cons next rest => exact ⟨next, rest ++ [last], rfl⟩
    obtain ⟨next, rest, hrest⟩ := hcons
    rw [List.cons_append, hrest, lookup_cons_cons, ← hrest, ih, walk]
    split <;> rfl

/-! ## Case -/

theorem slot?_of_fold (trie : Trie) (index : UInt32) {u v : CodeUnit} (hfold : u.fold = v.fold) :
    trie.slot? index u = trie.slot? index v := by
  obtain ⟨hsymbol, hsame⟩ := (CodeUnit.fold_eq_fold_iff u v).mp hfold
  by_cases hother : u.symbol = Symbol.other
  · rw [hsame hother]
  · rw [slot?, slot?, if_neg hother, if_neg (hsymbol ▸ hother), hsymbol]

theorem walk_of_fold (trie : Trie) (root : UInt32) {a b : CodeUnits}
    (hfold : CodeUnits.fold a = CodeUnits.fold b) : trie.walk root a = trie.walk root b := by
  induction a generalizing root b with
  | nil => rw [List.map_eq_nil_iff.mp hfold.symm]
  | cons u a ih =>
    cases b with
    | nil => exact absurd hfold (by simp [CodeUnits.fold])
    | cons v b =>
      obtain ⟨hunit, hrest⟩ := List.cons.inj hfold
      rw [walk, walk, childAt, childAt, trie.slot?_of_fold root hunit, ih _ hrest]

theorem lookup_of_fold (trie : Trie) (root : UInt32) {a b : CodeUnits}
    (hfold : CodeUnits.fold a = CodeUnits.fold b) : trie.lookup root a = trie.lookup root b := by
  rcases List.eq_nil_or_concat a with rfl | ⟨front, last, rfl⟩
  · rw [List.map_eq_nil_iff.mp hfold.symm]
  rcases List.eq_nil_or_concat b with rfl | ⟨front', last', rfl⟩
  · exact absurd hfold (by simp [CodeUnits.fold])
  rw [List.concat_eq_append, List.concat_eq_append] at hfold ⊢
  unfold CodeUnits.fold at hfold
  rw [List.map_append, List.map_append] at hfold
  obtain ⟨hfront, hlast⟩ := List.append_inj' hfold rfl
  have hunit := (List.cons.inj hlast).1
  rw [lookup_append, lookup_append, trie.walk_of_fold root hfront]
  simp only [valueAt, trie.slot?_of_fold _ hunit]

end Trie

namespace Pool

def trie (pool : Pool) : Trie := ⟨pool.nodes⟩

/-- The trie shows the nodes of the pool whose index is below `bound`. -/
structure Shows (pool : Pool) (trie : Trie) (bound : Nat) : Prop where
  node? : ∀ i, pool.Has i → trie.node? i = if i.toNat < bound then some (pool.node i) else none
  size : ∀ i, pool.Has i → i.toNat < bound → i.toNat < trie.size

theorem node?_of_has {pool : Pool} {index : UInt32} (hindex : pool.Has index) :
    pool.trie.node? index = some (pool.node index) := by
  unfold Trie.node? trie Pool.node
  rw [Array.getD_eq_getD_getElem?, Array.getElem?_eq_getElem hindex]
  rfl

theorem shows_trie (pool : Pool) : pool.Shows pool.trie Word.count :=
  ⟨fun i hi => by rw [node?_of_has hi, if_pos i.toNat_lt], fun _ hi _ => hi⟩

/-- Where each node belongs: the head of its place, the root of its trie, and the folded units that
lead from that root to the place. -/
structure Plan where
  head : UInt32 → UInt32
  root : UInt32 → UInt32
  path : UInt32 → CodeUnits

/-- The alternates that `index` reaches, itself included. -/
inductive Reaches (pool : Pool) : UInt32 → UInt32 → Prop
  | refl (index : UInt32) : Reaches pool index index
  | next {index last : UInt32} (hnext : (pool.node index).nextOther ≠ 0)
      (hrest : Reaches pool (pool.node index).nextOther last) : Reaches pool index last

theorem Reaches.snoc {pool : Pool} {index middle : UInt32} (hreach : pool.Reaches index middle)
    (hnext : (pool.node middle).nextOther ≠ 0) :
    pool.Reaches index (pool.node middle).nextOther := by
  induction hreach with
  | refl index => exact .next hnext (.refl _)
  | next hfirst _ ih => exact .next hfirst (ih hnext)

/-- `child` is a head, one unit further on than `index` in the same trie. -/
structure Leads (pool : Pool) (plan : Plan) (index : UInt32) (unit : CodeUnit)
    (child : UInt32) : Prop where
  has : pool.Has child
  head : plan.head child = child
  root : plan.root child = plan.root (plan.head index)
  path : plan.path child = plan.path (plan.head index) ++ [unit.fold]

/-- The links and references of a pool agree with a plan. -/
structure Forest (pool : Pool) (plan : Plan) : Prop where
  size_le : pool.nodes.size ≤ Word.count
  head_has : ∀ i, pool.Has i → pool.Has (plan.head i)
  /-- A link leads forward, to a node of the same place. -/
  link : ∀ i, pool.Has i → (pool.node i).nextOther ≠ 0 →
    i.toNat < (pool.node i).nextOther.toNat ∧ pool.Has (pool.node i).nextOther ∧
      plan.head (pool.node i).nextOther = plan.head i
  linked_occupied : ∀ i, pool.Has i → (pool.node i).nextOther ≠ 0 →
    (pool.node i).occupied Symbol.other = true
  /-- Every node of a place is linked from its head. -/
  reaches : ∀ i, pool.Has i → pool.Reaches (plan.head i) i
  /-- No two nodes of a place serve the same other unit. -/
  unit_inj : ∀ i j unit, pool.Has i → pool.Has j → plan.head i = plan.head j →
    (pool.node i).holdsOther unit = true → (pool.node j).holdsOther unit = true → i = j
  blank : ∀ i s, pool.Has i → (pool.node i).occupied s = false → (pool.node i).slot s = ⟨0, 0⟩
  child : ∀ i unit, pool.Has i → (pool.node i).serves unit = true →
    ((pool.node i).slot unit.symbol).child ≠ 0 →
      pool.Leads plan i unit ((pool.node i).slot unit.symbol).child

def IsHead (pool : Pool) (plan : Plan) (index : UInt32) : Prop :=
  pool.Has index ∧ plan.head index = index

def IsRoot (pool : Pool) (plan : Plan) (index : UInt32) : Prop :=
  pool.IsHead plan index ∧ plan.root index = index ∧ plan.path index = []

structure Holder (pool : Pool) (plan : Plan) (index : UInt32) (unit : CodeUnit)
    (holder : UInt32) : Prop where
  has : pool.Has holder
  head : plan.head holder = index
  serves : (pool.node holder).serves unit = true
  letter : unit.symbol ≠ Symbol.other → holder = index

namespace Forest

variable {pool : Pool} {plan : Plan}

theorem le_of_reaches (hforest : pool.Forest plan) {i j : UInt32} (hi : pool.Has i)
    (hreach : pool.Reaches i j) : i.toNat ≤ j.toNat := by
  induction hreach with
  | refl i => exact Nat.le_refl _
  | next hnext _ ih =>
    obtain ⟨hlt, hhas, _⟩ := hforest.link _ hi hnext
    exact Nat.le_of_lt (Nat.lt_of_lt_of_le hlt (ih hhas))

theorem has_of_reaches (hforest : pool.Forest plan) {i j : UInt32} (hi : pool.Has i)
    (hreach : pool.Reaches i j) : pool.Has j := by
  induction hreach with
  | refl i => exact hi
  | next hnext _ ih => exact ih (hforest.link _ hi hnext).2.1

theorem head_of_reaches (hforest : pool.Forest plan) {i j : UInt32} (hi : pool.Has i)
    (hreach : pool.Reaches i j) : plan.head j = plan.head i := by
  induction hreach with
  | refl i => rfl
  | next hnext _ ih =>
    obtain ⟨-, hhas, hhead⟩ := hforest.link _ hi hnext
    exact (ih hhas).trans hhead

/-- The search along the alternates finds the node that holds the unit, if the node is shown and the
search may take enough steps. -/
theorem alternate?_of_reaches (hforest : pool.Forest plan) {trie : Trie} {bound : Nat}
    (hshows : pool.Shows trie bound) {unit : CodeUnit} {i j : UInt32} (hi : pool.Has i)
    (hj : pool.Has j) (hhead : plan.head i = plan.head j) (hreach : pool.Reaches i j)
    (hholds : (pool.node j).holdsOther unit = true) (hbound : j.toNat < bound) {steps : Nat}
    (hsteps : j.toNat < i.toNat + steps) :
    trie.alternate? unit steps i = some (pool.node j) := by
  have hle := hforest.le_of_reaches hi hreach
  induction steps generalizing i with
  | zero => omega
  | succ steps ih =>
    rw [Trie.alternate?, hshows.node? i hi, if_pos (Nat.lt_of_le_of_lt hle hbound)]
    dsimp only
    by_cases hhere : (pool.node i).holdsOther unit = true
    · rw [if_pos hhere, hforest.unit_inj i j unit hi hj hhead hhere hholds]
    · rw [if_neg hhere]
      cases hreach with
      | refl => exact absurd hholds hhere
      | next hnext hrest =>
        obtain ⟨hlt, hhas, hsame⟩ := hforest.link i hi hnext
        rw [if_neg (by simpa using hnext)]
        exact ih hhas (hsame.trans hhead) hrest (by omega) (hforest.le_of_reaches hhas hrest)

/-- What the search finds is a shown node of the same place that holds the unit. -/
theorem holds_of_alternate? (hforest : pool.Forest plan) {trie : Trie} {bound : Nat}
    (hshows : pool.Shows trie bound) {unit : CodeUnit} {steps : Nat} {i : UInt32} {node : Node}
    (hi : pool.Has i) (hfound : trie.alternate? unit steps i = some node) :
    ∃ j, pool.Has j ∧ j.toNat < bound ∧ plan.head j = plan.head i ∧
      (pool.node j).holdsOther unit = true := by
  induction steps generalizing i with
  | zero => exact absurd hfound (by simp [Trie.alternate?])
  | succ steps ih =>
    rw [Trie.alternate?, hshows.node? i hi] at hfound
    by_cases hbound : i.toNat < bound
    · rw [if_pos hbound] at hfound
      dsimp only at hfound
      split at hfound
      · next hhere => exact ⟨i, hi, hbound, rfl, hhere⟩
      · split at hfound
        · exact absurd hfound (by simp)
        · next hnext =>
          obtain ⟨_, hhas, hsame⟩ := hforest.link i hi (by simpa using hnext)
          obtain ⟨j, hj, hlt, hhead, hholds⟩ := ih hhas hfound
          exact ⟨j, hj, hlt, hhead.trans hsame, hholds⟩
    · rw [if_neg hbound] at hfound
      exact absurd hfound (by simp)

theorem holder_unique (hforest : pool.Forest plan) {i : UInt32} {unit : CodeUnit} {h k : UInt32}
    (hh : pool.Holder plan i unit h) (hk : pool.Holder plan i unit k) : h = k := by
  by_cases hother : unit.symbol = Symbol.other
  · have hserves := hh.serves
    have kserves := hk.serves
    rw [Node.serves, if_pos hother] at hserves kserves
    exact hforest.unit_inj h k unit hh.has hk.has (hh.head.trans hk.head.symm) hserves kserves
  · rw [hh.letter hother, hk.letter hother]

theorem slot?_of_shows (hforest : pool.Forest plan) {trie : Trie} {bound : Nat}
    (hshows : pool.Shows trie bound) {i : UInt32} (hi : pool.IsHead plan i) {unit : CodeUnit}
    {h : UInt32} (hh : pool.Holder plan i unit h) :
    trie.slot? i unit =
      if h.toNat < bound then some ((pool.node h).slot unit.symbol) else none := by
  have hserves := hh.serves
  unfold Trie.slot?
  by_cases hother : unit.symbol = Symbol.other
  · rw [Node.serves, if_pos hother] at hserves
    rw [if_pos hother]
    split
    · next hbound =>
      have hreach := hforest.reaches h hh.has
      rw [hh.head] at hreach
      have hsize := hshows.size h hh.has hbound
      rw [hforest.alternate?_of_reaches hshows hi.1 hh.has (hi.2.trans hh.head.symm) hreach hserves
        hbound (by omega), hother]
      rfl
    · next hbound =>
      rw [Option.map_eq_none_iff, Option.eq_none_iff_forall_ne_some]
      intro node hfound
      obtain ⟨j, hj, hlt, hhead, hholds⟩ := hforest.holds_of_alternate? hshows hi.1 hfound
      have hplace : plan.head j = plan.head h := (hhead.trans hi.2).trans hh.head.symm
      rw [hforest.unit_inj j h unit hj hh.has hplace hholds hserves] at hlt
      exact hbound hlt
  · rw [Node.serves, if_neg hother] at hserves
    obtain rfl := hh.letter hother
    rw [if_neg hother, hshows.node? h hi.1]
    by_cases hbound : h.toNat < bound
    · rw [if_pos hbound, if_pos hbound]
      dsimp only
      rw [if_pos hserves]
    · rw [if_neg hbound, if_neg hbound]

theorem slot?_of_shows_of_no_holder (hforest : pool.Forest plan) {trie : Trie} {bound : Nat}
    (hshows : pool.Shows trie bound) {i : UInt32} (hi : pool.IsHead plan i)
    {unit : CodeUnit} (hnone : ∀ h, ¬pool.Holder plan i unit h) :
    trie.slot? i unit = none := by
  unfold Trie.slot?
  by_cases hother : unit.symbol = Symbol.other
  · rw [if_pos hother, Option.map_eq_none_iff, Option.eq_none_iff_forall_ne_some]
    intro node hfound
    obtain ⟨j, hj, -, hhead, hholds⟩ := hforest.holds_of_alternate? hshows hi.1 hfound
    apply hnone j
    exact ⟨hj, hhead.trans hi.2, by rw [Node.serves, if_pos hother]; exact hholds,
      fun hletter => absurd hother hletter⟩
  · have hfree : (pool.node i).occupied unit.symbol ≠ true := fun hoccupied =>
      hnone i ⟨hi.1, hi.2, by rw [Node.serves, if_neg hother]; exact hoccupied, fun _ => rfl⟩
    rw [if_neg hother, hshows.node? i hi.1]
    by_cases hbound : i.toNat < bound
    · rw [if_pos hbound]
      dsimp only
      rw [if_neg hfree]
    · rw [if_neg hbound]

theorem slot?_of_holder (hforest : pool.Forest plan) {i : UInt32} (hi : pool.IsHead plan i)
    {unit : CodeUnit} {h : UInt32} (hh : pool.Holder plan i unit h) :
    pool.trie.slot? i unit = some ((pool.node h).slot unit.symbol) := by
  rw [hforest.slot?_of_shows (shows_trie pool) hi hh, if_pos h.toNat_lt]

theorem slot?_of_no_holder (hforest : pool.Forest plan) {i : UInt32} (hi : pool.IsHead plan i)
    {unit : CodeUnit} (hnone : ∀ h, ¬pool.Holder plan i unit h) :
    pool.trie.slot? i unit = none :=
  hforest.slot?_of_shows_of_no_holder (shows_trie pool) hi hnone

theorem valueAt_of_holder (hforest : pool.Forest plan) {i : UInt32} (hi : pool.IsHead plan i)
    {unit : CodeUnit} {h : UInt32} (hh : pool.Holder plan i unit h) :
    pool.trie.valueAt i unit = ((pool.node h).slot unit.symbol).value := by
  rw [Trie.valueAt, hforest.slot?_of_holder hi hh]
  rfl

theorem childAt_of_holder (hforest : pool.Forest plan) {i : UInt32} (hi : pool.IsHead plan i)
    {unit : CodeUnit} {h : UInt32} (hh : pool.Holder plan i unit h) :
    pool.trie.childAt i unit = ((pool.node h).slot unit.symbol).child := by
  rw [Trie.childAt, hforest.slot?_of_holder hi hh]
  rfl

theorem valueAt_of_no_holder (hforest : pool.Forest plan) {i : UInt32} (hi : pool.IsHead plan i)
    {unit : CodeUnit} (hnone : ∀ h, ¬pool.Holder plan i unit h) :
    pool.trie.valueAt i unit = 0 := by
  rw [Trie.valueAt, hforest.slot?_of_no_holder hi hnone]
  rfl

theorem childAt_of_no_holder (hforest : pool.Forest plan) {i : UInt32} (hi : pool.IsHead plan i)
    {unit : CodeUnit} (hnone : ∀ h, ¬pool.Holder plan i unit h) :
    pool.trie.childAt i unit = 0 := by
  rw [Trie.childAt, hforest.slot?_of_no_holder hi hnone]
  rfl

end Forest

end Pool

end StyleRules.Table
