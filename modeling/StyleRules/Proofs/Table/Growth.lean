import StyleRules.Proofs.Table.Forest

/-!
# Pools while they grow

What the steps of an insertion do to a forest and to its answers. Making room for a unit changes no
answer; adding a child and setting a value change the answer for one unit at one place.
-/

namespace StyleRules.Table.Pool

theorem has_of_nextOther_ne_zero {pool : Pool} {index : UInt32}
    (hnext : (pool.node index).nextOther ≠ 0) : pool.Has index := by
  apply Classical.byContradiction
  intro hindex
  apply hnext
  unfold Pool.node
  rw [Array.getD_eq_getD_getElem?, Array.getElem?_eq_none (Nat.le_of_not_lt hindex)]
  rfl

theorem Reaches.mono {pool other : Pool}
    (hlinks : ∀ i, (pool.node i).nextOther ≠ 0 →
      (other.node i).nextOther = (pool.node i).nextOther)
    {i j : UInt32} (hreach : pool.Reaches i j) : other.Reaches i j := by
  induction hreach with
  | refl i => exact .refl i
  | next hnext _ ih =>
    have hsame := hlinks _ hnext
    exact .next (by rw [hsame]; exact hnext) (by rw [hsame]; exact ih)

/-- A forest that has all nodes of another one, in their places. -/
structure Grown (pool : Pool) (plan : Plan) (grown : Pool) (plan' : Plan) : Prop where
  forest : grown.Forest plan'
  has : ∀ i, pool.Has i → grown.Has i
  head : ∀ i, pool.Has i → plan'.head i = plan.head i
  root : ∀ i, pool.Has i → plan'.root i = plan.root i
  path : ∀ i, pool.Has i → plan'.path i = plan.path i

/-- Lookups from the heads of a pool go through the two pools alike. -/
def SameAnswers (pool : Pool) (plan : Plan) (grown : Pool) : Prop :=
  ∀ i, pool.IsHead plan i → ∀ unit,
    grown.trie.valueAt i unit = pool.trie.valueAt i unit ∧
      grown.trie.childAt i unit = pool.trie.childAt i unit

variable {pool grown : Pool} {plan plan' : Plan}

theorem Grown.refl (hforest : pool.Forest plan) : Grown pool plan pool plan :=
  ⟨hforest, fun _ h => h, fun _ _ => rfl, fun _ _ => rfl, fun _ _ => rfl⟩

theorem Grown.trans {last : Pool} {plan'' : Plan} (hfirst : Grown pool plan grown plan')
    (hsecond : Grown grown plan' last plan'') : Grown pool plan last plan'' where
  forest := hsecond.forest
  has i hi := hsecond.has i (hfirst.has i hi)
  head i hi := (hsecond.head i (hfirst.has i hi)).trans (hfirst.head i hi)
  root i hi := (hsecond.root i (hfirst.has i hi)).trans (hfirst.root i hi)
  path i hi := (hsecond.path i (hfirst.has i hi)).trans (hfirst.path i hi)

theorem Grown.isHead (hgrown : Grown pool plan grown plan') {i : UInt32}
    (hi : pool.IsHead plan i) : grown.IsHead plan' i :=
  ⟨hgrown.has i hi.1, (hgrown.head i hi.1).trans hi.2⟩

theorem Grown.isRoot (hgrown : Grown pool plan grown plan') {i : UInt32}
    (hi : pool.IsRoot plan i) : grown.IsRoot plan' i :=
  ⟨hgrown.isHead hi.1, (hgrown.root i hi.1.1).trans hi.2.1, (hgrown.path i hi.1.1).trans hi.2.2⟩

theorem Grown.holder (hgrown : Grown pool plan grown plan') {i h : UInt32} {unit : CodeUnit}
    (hh : pool.Holder plan i unit h) (hserves : (grown.node h).serves unit = true) :
    grown.Holder plan' i unit h :=
  ⟨hgrown.has h hh.has, (hgrown.head h hh.has).trans hh.head, hserves, hh.letter⟩

theorem Forest.modified {h : UInt32} {f : Node → Node} (hforest : (pool.modify h f).Forest plan) :
    Grown pool plan (pool.modify h f) plan :=
  ⟨hforest, fun i hi => (has_modify pool h i f).mpr hi, fun _ _ => rfl, fun _ _ => rfl,
    fun _ _ => rfl⟩

/-- Answers stay when slots stay and a newly served unit finds an empty slot. -/
theorem Grown.sameAnswers (hforest : pool.Forest plan) (hgrown : Grown pool plan grown plan')
    (hslot : ∀ k, pool.Has k → ∀ s, (grown.node k).slot s = (pool.node k).slot s)
    (hserves : ∀ k, pool.Has k → ∀ unit, (pool.node k).serves unit = true →
      (grown.node k).serves unit = true)
    (hfresh : ∀ k, grown.Has k → ∀ unit, (grown.node k).serves unit = true →
      (pool.Has k ∧ (pool.node k).serves unit = true) ∨
        (grown.node k).slot unit.symbol = ⟨0, 0⟩) :
    SameAnswers pool plan grown := by
  intro i hi unit
  have hi' := hgrown.isHead hi
  by_cases hold : ∃ h, pool.Holder plan i unit h
  · obtain ⟨h, hh⟩ := hold
    have hh' := hgrown.holder hh (hserves h hh.has unit hh.serves)
    rw [hgrown.forest.valueAt_of_holder hi' hh', hgrown.forest.childAt_of_holder hi' hh',
      hforest.valueAt_of_holder hi hh, hforest.childAt_of_holder hi hh, hslot h hh.has]
    exact ⟨rfl, rfl⟩
  · have hnone : ∀ h, ¬pool.Holder plan i unit h := fun h hh => hold ⟨h, hh⟩
    rw [hforest.valueAt_of_no_holder hi hnone, hforest.childAt_of_no_holder hi hnone]
    by_cases hnew : ∃ h, grown.Holder plan' i unit h
    · obtain ⟨h, hh⟩ := hnew
      rw [hgrown.forest.valueAt_of_holder hi' hh, hgrown.forest.childAt_of_holder hi' hh]
      rcases hfresh h hh.has unit hh.serves with ⟨hhas, hserved⟩ | hzero
      · exact absurd ⟨hhas, (hgrown.head h hhas).symm.trans hh.head, hserved, hh.letter⟩ (hnone h)
      · rw [hzero]
        exact ⟨rfl, rfl⟩
    · have hnone' : ∀ h, ¬grown.Holder plan' i unit h := fun h hh => hnew ⟨h, hh⟩
      exact ⟨hgrown.forest.valueAt_of_no_holder hi' hnone',
        hgrown.forest.childAt_of_no_holder hi' hnone'⟩

/-- Other units stay apart at their places when only one node, `fresh`, comes to hold a unit there,
which no node of its place held. -/
theorem Forest.unit_inj_of_fresh (hforest : pool.Forest plan) (unit : CodeUnit)
    (holds : UInt32 → Prop) (head : UInt32 → UInt32) (fresh : UInt32)
    (hholds : ∀ i, holds i →
      (pool.Has i ∧ head i = plan.head i ∧ (pool.node i).holdsOther unit = true) ∨
        i = fresh ∧ ∀ k, pool.Has k → plan.head k = head fresh →
          (pool.node k).holdsOther unit = false)
    {i j : UInt32} (hi : holds i) (hj : holds j) (hplace : head i = head j) : i = j := by
  rcases hholds i hi with ⟨hhasi, hheadi, hunit⟩ | ⟨rfl, hnone⟩
  · rcases hholds j hj with ⟨hhasj, hheadj, hunitj⟩ | ⟨rfl, hnone⟩
    · exact hforest.unit_inj i j unit hhasi hhasj (hheadi.symm.trans (hplace.trans hheadj)) hunit
        hunitj
    · rw [hnone i hhasi (hheadi.symm.trans hplace)] at hunit
      exact absurd hunit Bool.false_ne_true
  · rcases hholds j hj with ⟨hhasj, hheadj, hunit⟩ | ⟨rfl, -⟩
    · rw [hnone j hhasj (hheadj.symm.trans hplace.symm)] at hunit
      exact absurd hunit Bool.false_ne_true
    · rfl

/-- A write to one node keeps a forest when the link stays, the slots of unoccupied symbols stay
empty, a newly held unit is new at its place, and the children are where the plan says. -/
theorem Forest.modify (hforest : pool.Forest plan) {h : UInt32} (hh : pool.Has h) {f : Node → Node}
    (hlink : (f (pool.node h)).nextOther = (pool.node h).nextOther)
    (hoccupied : (pool.node h).occupied Symbol.other = true →
      (f (pool.node h)).occupied Symbol.other = true)
    (hunit : ∀ unit, (f (pool.node h)).holdsOther unit = true →
      (pool.node h).holdsOther unit = true ∨
        ∀ j, pool.Has j → plan.head j = plan.head h → (pool.node j).holdsOther unit = false)
    (hblank : ∀ s, (f (pool.node h)).occupied s = false → (f (pool.node h)).slot s = ⟨0, 0⟩)
    (hchild : ∀ unit, (f (pool.node h)).serves unit = true →
      ((f (pool.node h)).slot unit.symbol).child ≠ 0 →
        pool.Leads plan h unit ((f (pool.node h)).slot unit.symbol).child) :
    (pool.modify h f).Forest plan where
  size_le := by
    rw [size_modify]
    exact hforest.size_le
  head_has i hi := by
    rw [has_modify] at hi ⊢
    exact hforest.head_has i hi
  link i hi := by
    rw [has_modify] at hi ⊢
    rw [node_modify hh]
    split
    · next heq =>
      rw [hlink, heq]
      exact hforest.link i hi
    · exact hforest.link i hi
  linked_occupied i hi := by
    rw [has_modify] at hi
    rw [node_modify hh]
    split
    · next heq =>
      subst heq
      rw [hlink]
      exact fun hnext => hoccupied (hforest.linked_occupied h hi hnext)
    · exact hforest.linked_occupied i hi
  reaches i hi := by
    rw [has_modify] at hi
    refine Reaches.mono (fun j _ => ?_) (hforest.reaches i hi)
    rw [node_modify hh]
    split
    · next heq => rw [hlink, heq]
    · rfl
  unit_inj i j unit hi hj hplace := by
    rw [has_modify] at hi hj
    intro hholdsi hholdsj
    refine hforest.unit_inj_of_fresh unit
      (fun k => pool.Has k ∧ ((pool.modify h f).node k).holdsOther unit = true) plan.head h
      (fun k => ?_) ⟨hi, hholdsi⟩ ⟨hj, hholdsj⟩ hplace
    rintro ⟨hk, hholds⟩
    rw [node_modify hh] at hholds
    split at hholds
    · next heq =>
      subst heq
      exact (hunit unit hholds).imp (fun hold => ⟨hk, rfl, hold⟩) fun hnone => ⟨rfl, hnone⟩
    · exact .inl ⟨hk, rfl, hholds⟩
  blank i s hi := by
    rw [has_modify] at hi
    rw [node_modify hh]
    split
    · exact hblank s
    · exact hforest.blank i s hi
  child i unit hi := by
    rw [has_modify] at hi
    rw [node_modify hh]
    intro hserves hne
    have hleads : pool.Leads plan i unit
        ((if h = i then f (pool.node h) else pool.node i).slot unit.symbol).child := by
      split at hserves
      · next heq =>
        subst heq
        rw [if_pos rfl] at hne ⊢
        exact hchild unit hserves hne
      · next hnot =>
        rw [if_neg hnot] at hne ⊢
        exact hforest.child i unit hi hserves hne
    exact ⟨(has_modify pool h _ f).mpr hleads.has, hleads.head, hleads.root, hleads.path⟩

/-! ## Adding a node -/

def Plan.set (plan : Plan) (index head root : UInt32) (path : CodeUnits) : Plan where
  head i := if i = index then head else plan.head i
  root i := if i = index then root else plan.root i
  path i := if i = index then path else plan.path i

theorem has_push {added : UInt32} (hpush : pool.push = .ok (grown, added)) (index : UInt32) :
    grown.Has index ↔ pool.Has index ∨ index = added := by
  obtain ⟨hadded, hsize, _⟩ := push_spec hpush
  rw [Has, Has, hsize, ← UInt32.toNat_inj, hadded]
  omega

theorem not_has_added {added : UInt32} (hpush : pool.push = .ok (grown, added)) :
    ¬pool.Has added := by
  rw [Has, (push_spec hpush).1]
  exact Nat.lt_irrefl _

theorem ne_added {added index : UInt32} (hpush : pool.push = .ok (grown, added))
    (hindex : pool.Has index) : index ≠ added := by
  rintro rfl
  exact not_has_added hpush hindex

theorem added_ne_zero {added index : UInt32} (hpush : pool.push = .ok (grown, added))
    (hindex : pool.Has index) : added ≠ 0 := by
  have hnumber := (push_spec hpush).1
  intro hzero
  have hpos : index.toNat < pool.nodes.size := hindex
  rw [hzero, UInt32.toNat_zero] at hnumber
  omega

theorem Plan.set_of_ne {index i : UInt32} (h : i ≠ index) (plan : Plan) (head root : UInt32)
    (path : CodeUnits) : (plan.set index head root path).head i = plan.head i ∧
      (plan.set index head root path).root i = plan.root i ∧
      (plan.set index head root path).path i = plan.path i :=
  ⟨if_neg h, if_neg h, if_neg h⟩

/-- A pool with one more node, which has no values and no children, and with the other nodes as they
were but for their links. -/
structure Extends (pool grown : Pool) (added : UInt32) : Prop where
  size_le : grown.nodes.size ≤ Word.count
  has : ∀ i, grown.Has i ↔ pool.Has i ∨ i = added
  ne : ∀ i, pool.Has i → i ≠ added
  occupied : ∀ i, pool.Has i → ∀ s, (grown.node i).occupied s = (pool.node i).occupied s
  slot : ∀ i, pool.Has i → ∀ s, (grown.node i).slot s = (pool.node i).slot s
  serves : ∀ i, pool.Has i → ∀ unit, (grown.node i).serves unit = (pool.node i).serves unit
  holds : ∀ i, pool.Has i → ∀ unit, (grown.node i).holdsOther unit = (pool.node i).holdsOther unit
  blank : ∀ s, (grown.node added).slot s = ⟨0, 0⟩

/-- How the links go with one more node: as before, but the last node of the place of `head` may
link to the new one. -/
structure Links (pool : Pool) (plan : Plan) (grown : Pool) (added head : UInt32) : Prop where
  ending : (grown.node added).nextOther = 0
  kept : ∀ i, pool.Has i → (grown.node i).nextOther = (pool.node i).nextOther ∨
    (pool.node i).nextOther = 0 ∧ (grown.node i).nextOther = added ∧ i.toNat < added.toNat ∧
      plan.head i = head ∧ (pool.node i).occupied Symbol.other = true

theorem Links.reaches {added head : UInt32} (h : Links pool plan grown added head) {i j : UInt32}
    (hreach : pool.Reaches i j) : grown.Reaches i j := by
  refine hreach.mono fun k hnext => ?_
  exact (h.kept k (has_of_nextOther_ne_zero hnext)).resolve_right fun hnew => hnext hnew.1

/-- The links still lead forward within their places, from nodes that hold an other unit. -/
theorem Links.link {added head : UInt32} (h : Links pool plan grown added head)
    (hext : Extends pool grown added) (hforest : pool.Forest plan) (root : UInt32)
    (path : CodeUnits) {i : UInt32} (hi : grown.Has i) (hnext : (grown.node i).nextOther ≠ 0) :
    i.toNat < (grown.node i).nextOther.toNat ∧ grown.Has (grown.node i).nextOther ∧
      (plan.set added head root path).head (grown.node i).nextOther =
        (plan.set added head root path).head i ∧
      (grown.node i).occupied Symbol.other = true := by
  have hhead := fun k hk => (Plan.set_of_ne (hext.ne k hk) plan head root path).1
  rcases (hext.has i).mp hi with hold | rfl
  · rw [hhead i hold, hext.occupied i hold]
    rcases h.kept i hold with hsame | ⟨-, hnew, hlt, hplace, hoccupied⟩
    · rw [hsame] at hnext ⊢
      obtain ⟨hlt, hhas, hplace⟩ := hforest.link i hold hnext
      exact ⟨hlt, (hext.has _).mpr (.inl hhas), by rw [hhead _ hhas, hplace],
        hforest.linked_occupied i hold hnext⟩
    · rw [hnew]
      exact ⟨hlt, (hext.has added).mpr (.inr rfl), (if_pos rfl).trans hplace.symm, hoccupied⟩
  · exact absurd h.ending hnext

/-- A forest stays one with one more node that goes to the place of `head`, if its unit is new there
and the links still hold the places together. -/
theorem Extends.isGrown {added head root : UInt32} {path : CodeUnits}
    (h : Extends pool grown added) (hforest : pool.Forest plan) (hhead : grown.Has head)
    (hlinks : Links pool plan grown added head) (hadded : grown.Reaches head added)
    (hunit : ∀ k unit, pool.Has k → plan.head k = head →
      (grown.node added).holdsOther unit = true → (pool.node k).holdsOther unit = false) :
    Grown pool plan grown (plan.set added head root path) := by
  have hold := fun i hi => Plan.set_of_ne (h.ne i hi) plan head root path
  have hself : (plan.set added head root path).head added = head := if_pos rfl
  have hhas : ∀ i, pool.Has i → grown.Has i := fun i hi => (h.has i).mpr (.inl hi)
  have hlink := fun i hi hnext => hlinks.link h hforest root path (i := i) hi hnext
  refine ⟨⟨h.size_le, ?_, fun i hi hnext => ?_, fun i hi hnext => (hlink i hi hnext).2.2.2, ?_, ?_,
    ?_, ?_⟩, hhas, fun i hi => (hold i hi).1, fun i hi => (hold i hi).2.1,
    fun i hi => (hold i hi).2.2⟩
  · intro i hi
    rcases (h.has i).mp hi with hiold | rfl
    · rw [(hold i hiold).1]
      exact hhas _ (hforest.head_has i hiold)
    · rw [hself]
      exact hhead
  · obtain ⟨hlt, hnextHas, hplace, -⟩ := hlink i hi hnext
    exact ⟨hlt, hnextHas, hplace⟩
  · intro i hi
    rcases (h.has i).mp hi with hiold | rfl
    · rw [(hold i hiold).1]
      exact hlinks.reaches (hforest.reaches i hiold)
    · rw [hself]
      exact hadded
  · intro i j unit hi hj hplace hholdsi hholdsj
    refine hforest.unit_inj_of_fresh unit
      (fun k => grown.Has k ∧ (grown.node k).holdsOther unit = true)
      (plan.set added head root path).head added (fun k => ?_) ⟨hi, hholdsi⟩ ⟨hj, hholdsj⟩ hplace
    rintro ⟨hk, hholds⟩
    rcases (h.has k).mp hk with hkold | rfl
    · exact .inl ⟨hkold, (hold k hkold).1, (h.holds k hkold unit).symm.trans hholds⟩
    · exact .inr ⟨rfl, fun m hm hplace => hunit m unit hm (hplace.trans hself) hholds⟩
  · intro i s hi hunoccupied
    rcases (h.has i).mp hi with hiold | rfl
    · rw [h.occupied i hiold] at hunoccupied
      rw [h.slot i hiold]
      exact hforest.blank i s hiold hunoccupied
    · exact h.blank s
  · intro i unit hi hserves hne
    rcases (h.has i).mp hi with hiold | rfl
    · rw [h.serves i hiold] at hserves
      rw [h.slot i hiold] at hne ⊢
      have hleads := hforest.child i unit hiold hserves hne
      obtain ⟨hchildHead, hchildRoot, hchildPath⟩ := hold _ hleads.has
      obtain ⟨-, hplaceRoot, hplacePath⟩ := hold _ (hforest.head_has i hiold)
      exact ⟨hhas _ hleads.has, by rw [hchildHead, hleads.head],
        by rw [hchildRoot, (hold i hiold).1, hplaceRoot, hleads.root],
        by rw [hchildPath, (hold i hiold).1, hplacePath, hleads.path]⟩
    · rw [h.blank] at hne
      exact absurd rfl hne

theorem Extends.sameAnswers {added : UInt32} (h : Extends pool grown added)
    (hforest : pool.Forest plan) (hgrown : Grown pool plan grown plan') :
    SameAnswers pool plan grown := by
  refine hgrown.sameAnswers hforest h.slot (fun k hk unit hserved => ?_)
    (fun k hk unit hserved => ?_)
  · rw [h.serves k hk]
    exact hserved
  · rcases (h.has k).mp hk with hold | rfl
    · rw [h.serves k hold] at hserved
      exact .inl ⟨hold, hserved⟩
    · exact .inr (h.blank _)

theorem extends_push {added : UInt32} (hpush : pool.push = .ok (grown, added)) :
    Extends pool grown added := by
  obtain ⟨-, -, hcount, hempty, hkept⟩ := push_spec hpush
  refine ⟨hcount, has_push hpush, fun i hi => ne_added hpush hi, ?_, ?_, ?_, ?_, ?_⟩
  · exact fun i hi s => by rw [hkept i hi]
  · exact fun i hi s => by rw [hkept i hi]
  · exact fun i hi unit => by rw [hkept i hi]
  · exact fun i hi unit => by rw [hkept i hi]
  · intro s
    rw [hempty]
    exact Node.slot_empty s

theorem Grown.push (hforest : pool.Forest plan) {added : UInt32}
    (hpush : pool.push = .ok (grown, added)) (root : UInt32) (path : CodeUnits) :
    Grown pool plan grown (plan.set added added root path) := by
  obtain ⟨-, -, -, hempty, hkept⟩ := push_spec hpush
  have hlinks : Links pool plan grown added added :=
    ⟨by rw [hempty]; rfl, fun i hi => .inl (by rw [hkept i hi])⟩
  refine (extends_push hpush).isGrown hforest ((has_push hpush added).mpr (.inr rfl)) hlinks
    (.refl _) fun k unit _ _ hholds => ?_
  rw [hempty] at hholds
  exact absurd hholds (by simp [Node.holdsOther])

theorem sameAnswers_push (hforest : pool.Forest plan) {added : UInt32}
    (hpush : pool.push = .ok (grown, added)) (root : UInt32) (path : CodeUnits) :
    SameAnswers pool plan grown :=
  (extends_push hpush).sameAnswers hforest (Grown.push hforest hpush root path)

theorem serves_empty (unit : CodeUnit) : Node.empty.serves unit = false := by
  simp [Node.serves, Node.holdsOther]

theorem Forest.no_answers_of_empty (hforest : pool.Forest plan) {i : UInt32}
    (hi : pool.IsHead plan i) (hempty : pool.node i = Node.empty) (unit : CodeUnit) :
    pool.trie.valueAt i unit = 0 ∧ pool.trie.childAt i unit = 0 := by
  have hnone : ∀ h, ¬pool.Holder plan i unit h := by
    intro h hh
    have hsame : h = i := by
      have hreach := hforest.reaches h hh.has
      rw [hh.head] at hreach
      cases hreach with
      | refl => rfl
      | next hnext =>
        rw [hempty] at hnext
        exact absurd rfl hnext
    have hserves := hh.serves
    rw [hsame, hempty, serves_empty] at hserves
    exact Bool.false_ne_true hserves
  exact ⟨hforest.valueAt_of_no_holder hi hnone, hforest.childAt_of_no_holder hi hnone⟩

end StyleRules.Table.Pool
