import StyleRules.Proofs.Table.Insert
import StyleRules.Proofs.Table.Need

/-!
# Every node is needed

No node of a pool is one too many for the keys that are entered below its roots: a head is a root or
the child of a slot, its place is a proper beginning of some key, and all nodes of a place but a
single one hold units with which keys go on there.
-/

namespace StyleRules.Table.Pool

open CodeUnits (fold)

/-- The nodes of a pool are needed for the keys that go below its roots. -/
structure Census (pool : Pool) (plan : Plan) (roots : Finset UInt32)
    (keys : UInt32 → List CodeUnits) : Prop where
  forest : pool.Forest plan
  root_mem : ∀ i, pool.IsHead plan i → plan.root i ∈ roots
  /-- A head that is no root is somebody's child. -/
  parent : ∀ i, pool.IsHead plan i → pool.IsRoot plan i ∨
    ∃ above unit, pool.IsHead plan above ∧ pool.trie.walk above [unit] = some i
  place : ∀ i, pool.IsHead plan i → plan.path i ∈ places (keys (plan.root i))
  held : ∀ i, pool.Has i → (pool.node i).occupied Symbol.other = true →
    ∃ unit ∈ others (keys (plan.root (plan.head i))) (plan.path (plan.head i)),
      (pool.node i).holdsOther unit = true
  /-- Alternates are there for the unit that they hold. -/
  alternate : ∀ i, pool.Has i → plan.head i ≠ i → (pool.node i).occupied Symbol.other = true

variable {pool grown : Pool} {plan plan' : Plan} {roots : Finset UInt32}
  {keys : UInt32 → List CodeUnits}

theorem Forest.isHead_head (hforest : pool.Forest plan) {i : UInt32} (hi : pool.Has i) :
    pool.IsHead plan (plan.head i) :=
  have hhas := hforest.head_has i hi
  ⟨hhas, (hforest.head_of_reaches hhas (hforest.reaches i hi)).symm⟩

/-- A change that keeps the bit and the unit of a node's other slot keeps those of every node. -/
theorem other_modify {index : UInt32} (hhas : pool.Has index) {f : Node → Node}
    (hoccupied : (f (pool.node index)).occupied Symbol.other =
      (pool.node index).occupied Symbol.other)
    (hunit : (f (pool.node index)).otherUnit = (pool.node index).otherUnit) (i : UInt32) :
    ((pool.modify index f).node i).occupied Symbol.other =
        (pool.node i).occupied Symbol.other ∧
      ∀ v, ((pool.modify index f).node i).holdsOther v = (pool.node i).holdsOther v := by
  rw [node_modify hhas]
  split
  · next heq =>
    subst heq
    exact ⟨hoccupied, fun v => by rw [Node.holdsOther, Node.holdsOther, hoccupied, hunit]⟩
  · exact ⟨rfl, fun _ => rfl⟩

namespace Census

theorem head_inj (h : Census pool plan roots keys) {i j : UInt32} (hi : pool.IsHead plan i)
    (hj : pool.IsHead plan j) (hroot : plan.root i = plan.root j)
    (hpath : plan.path i = plan.path j) : i = j := by
  generalize hfront : plan.path j = front at hpath
  induction front using List.reverseRecOn generalizing i j with
  | nil =>
    have hisRoot : ∀ {k}, pool.IsHead plan k → plan.path k = [] → pool.IsRoot plan k := by
      intro k hk hnil
      refine (h.parent k hk).resolve_right ?_
      rintro ⟨above, unit, habove, hwalk⟩
      have hsnoc := (h.forest.place_of_walk habove hwalk).2.2
      rw [hnil] at hsnoc
      exact absurd hsnoc (by simp [fold])
    exact (hisRoot hi hpath).2.1.symm.trans (hroot.trans (hisRoot hj hfront).2.1)
  | append_singleton front unit ih =>
    have habove : ∀ {k}, pool.IsHead plan k → plan.path k = front ++ [unit] →
        ∃ above v, pool.IsHead plan above ∧ pool.trie.walk above [v] = some k ∧
          plan.root above = plan.root k ∧ plan.path above = front ∧ v.fold = unit := by
      intro k hk hsnoc
      rcases h.parent k hk with hrootk | ⟨above, v, habove, hwalk⟩
      · exact absurd (hrootk.2.2.symm.trans hsnoc) (by simp)
      · obtain ⟨-, hrootk, hpathk⟩ := h.forest.place_of_walk habove hwalk
        obtain ⟨hfront, hunit⟩ := List.append_inj' (hpathk.symm.trans hsnoc) rfl
        exact ⟨above, v, habove, hwalk, hrootk.symm, hfront, (List.cons.inj hunit).1⟩
    obtain ⟨a, v, ha, hwalka, hroota, hpatha, hv⟩ := habove hi hpath
    obtain ⟨b, w, hb, hwalkb, hrootb, hpathb, hw⟩ := habove hj hfront
    obtain rfl := ih ha hb (by rw [hroota, hrootb, hroot]) hpathb hpatha
    have hsame : pool.trie.walk a [v] = pool.trie.walk a [w] :=
      pool.trie.walk_of_fold a (by simp [fold, hv, hw])
    exact Option.some.inj (hwalka.symm.trans (hsame.trans hwalkb))

/-- What is needed stays needed while children stay, as long as every new head, every newly held
unit and every new alternate is needed. -/
theorem grow (h : Census pool plan roots keys) (hgrown : Grown pool plan grown plan')
    (hwalk : ∀ i, pool.IsHead plan i → ∀ unit j, pool.trie.walk i [unit] = some j →
      grown.trie.walk i [unit] = some j)
    (hhead : ∀ i, grown.IsHead plan' i → ¬ pool.Has i → plan'.root i ∈ roots ∧
      (grown.IsRoot plan' i ∨
        ∃ above unit, grown.IsHead plan' above ∧ grown.trie.walk above [unit] = some i) ∧
      plan'.path i ∈ places (keys (plan'.root i)))
    (hheld : ∀ i, grown.Has i → (grown.node i).occupied Symbol.other = true →
      (pool.Has i ∧ (pool.node i).occupied Symbol.other = true ∧
        ∀ unit, (pool.node i).holdsOther unit = true → (grown.node i).holdsOther unit = true) ∨
      ∃ unit ∈ others (keys (plan'.root (plan'.head i))) (plan'.path (plan'.head i)),
        (grown.node i).holdsOther unit = true)
    (halternate : ∀ i, grown.Has i → plan'.head i ≠ i →
      (pool.Has i ∧ ((pool.node i).occupied Symbol.other = true →
        (grown.node i).occupied Symbol.other = true)) ∨
      (grown.node i).occupied Symbol.other = true) :
    Census grown plan' roots keys := by
  have hold : ∀ {i}, grown.IsHead plan' i → pool.Has i → pool.IsHead plan i :=
    fun hi hhas => ⟨hhas, (hgrown.head _ hhas).symm.trans hi.2⟩
  refine ⟨hgrown.forest, fun i hi => ?_, fun i hi => ?_, fun i hi => ?_, fun i hi hoccupied => ?_,
    fun i hi hne => ?_⟩
  · by_cases hhas : pool.Has i
    · rw [hgrown.root i hhas]
      exact h.root_mem i (hold hi hhas)
    · exact (hhead i hi hhas).1
  · by_cases hhas : pool.Has i
    · rcases h.parent i (hold hi hhas) with hroot | ⟨above, unit, habove, hfirst⟩
      · exact .inl (hgrown.isRoot hroot)
      · exact .inr ⟨above, unit, hgrown.isHead habove, hwalk above habove unit i hfirst⟩
    · exact (hhead i hi hhas).2.1
  · by_cases hhas : pool.Has i
    · rw [hgrown.root i hhas, hgrown.path i hhas]
      exact h.place i (hold hi hhas)
    · exact (hhead i hi hhas).2.2
  · rcases hheld i hi hoccupied with ⟨hhas, hold, hholds⟩ | hnew
    · obtain ⟨unit, hunit, hfirst⟩ := h.held i hhas hold
      have hplace := h.forest.head_has i hhas
      rw [hgrown.head i hhas, hgrown.root _ hplace, hgrown.path _ hplace]
      exact ⟨unit, hunit, hholds unit hfirst⟩
    · exact hnew
  · rcases halternate i hi hne with ⟨hhas, hstays⟩ | hnew
    · exact hstays (h.alternate i hhas (by rwa [hgrown.head i hhas] at hne))
    · exact hnew

theorem letter (h : Census pool plan roots keys) {index : UInt32} {unit : CodeUnit}
    (hi : pool.IsHead plan index) (hletter : unit.symbol ≠ Symbol.other)
    (hclaimed : Claimed pool plan index unit
      (pool.modify index fun node => node.occupy unit.symbol) plan index) :
    Census (pool.modify index fun node => node.occupy unit.symbol) plan roots keys := by
  have hstays := other_modify hi.1 (f := fun node => node.occupy unit.symbol)
    (by rw [Node.occupied_occupy, decide_eq_false hletter, Bool.or_false])
    (Node.otherUnit_occupy ..)
  refine h.grow hclaimed.grown (fun i hi v j hwalk => ?_)
    (fun i hi hnot => absurd ((has_modify ..).mp hi.1) hnot) (fun i hhas hoccupied => ?_)
    (fun i hhas _ => .inl ⟨(has_modify ..).mp hhas, fun hold => (hstays i).1.trans hold⟩)
  · rwa [hclaimed.same.walk h.forest hi]
  · exact .inl ⟨(has_modify ..).mp hhas, (hstays i).1.symm.trans hoccupied,
      fun v hv => ((hstays i).2 v).trans hv⟩

theorem free (h : Census pool plan roots keys) {holder : UInt32} {unit : CodeUnit}
    (hh : pool.Has holder)
    (hunit : unit ∈ others (keys (plan.root (plan.head holder))) (plan.path (plan.head holder)))
    (hclaimed : Claimed pool plan (plan.head holder) unit
      (pool.modify holder fun node => node.occupyOther unit) plan holder) :
    Census (pool.modify holder fun node => node.occupyOther unit) plan roots keys := by
  have hnode : ∀ k, (pool.modify holder fun node => node.occupyOther unit).node k =
      if holder = k then (pool.node holder).occupyOther unit else pool.node k :=
    node_modify hh _
  refine h.grow hclaimed.grown (fun i hi v j hwalk => ?_)
    (fun i hi hnot => absurd ((has_modify ..).mp hi.1) hnot) (fun i hhas hoccupied => ?_)
    (fun i hhas _ => .inl ⟨(has_modify ..).mp hhas, fun hold => ?_⟩)
  · rwa [hclaimed.same.walk h.forest hi]
  · rw [hnode] at hoccupied ⊢
    split at hoccupied
    · next heq =>
      subst heq
      refine .inr ⟨unit, hunit, ?_⟩
      rw [if_pos rfl, Node.holdsOther_iff]
      exact ⟨hoccupied, rfl⟩
    · next hne =>
      rw [if_neg hne]
      exact .inl ⟨(has_modify ..).mp hhas, hoccupied, fun _ hv => hv⟩
  · rw [hnode]
    split
    · rw [Node.occupied_occupyOther, decide_eq_true rfl, Bool.or_true]
    · exact hold

theorem alternate_added (h : Census pool plan roots keys) {last added : UInt32} {unit : CodeUnit}
    (hpush : pool.push = .ok (grown, added)) (hh : pool.Has last)
    (hunit : unit ∈ others (keys (plan.root (plan.head last))) (plan.path (plan.head last)))
    (hclaimed : Claimed pool plan (plan.head last) unit (grown.addAlternate last added unit)
      (plan.set added (plan.head last) added []) added) :
    Census (grown.addAlternate last added unit) (plan.set added (plan.head last) added []) roots
      keys := by
  have hext : Extends pool (grown.addAlternate last added unit) added :=
    extends_addAlternate hpush hh
  have hself : (plan.set added (plan.head last) added []).head added = plan.head last :=
    if_pos rfl
  have hadded : (grown.addAlternate last added unit).node added = Node.empty.occupyOther unit :=
    node_addAlternate_added hpush hh
  refine h.grow hclaimed.grown (fun i hi v j hwalk => ?_) (fun i hi hnot => ?_)
    (fun i hhas hoccupied => ?_) (fun i hhas hne => ?_)
  · rwa [hclaimed.same.walk h.forest hi]
  · -- The new node has the head of `last`, so it is no head itself.
    obtain rfl := ((hext.has i).mp hi.1).resolve_left hnot
    have hheads := hi.2
    rw [hself] at hheads
    exact absurd (hheads ▸ h.forest.head_has last hh) hnot
  · rcases (hext.has i).mp hhas with hold | rfl
    · rw [hext.occupied i hold] at hoccupied
      exact .inl ⟨hold, hoccupied, fun v hv => (hext.holds i hold v).trans hv⟩
    · refine .inr ⟨unit, ?_, ?_⟩
      · have hplace := Plan.set_of_ne (ne_added hpush (h.forest.head_has last hh)) plan
          (plan.head last) i []
        rwa [hself, hplace.2.1, hplace.2.2]
      · rw [hadded]
        exact (holdsOther_empty_occupyOther unit).mpr rfl
  · rcases (hext.has i).mp hhas with hold | rfl
    · exact .inl ⟨hold, fun hoccupied => (hext.occupied i hold _).trans hoccupied⟩
    · refine .inr ?_
      rw [hadded, Node.occupied_occupyOther, decide_eq_true rfl, Bool.or_true]

theorem claims (h : Census pool plan roots keys) {index holder : UInt32} {unit : CodeUnit}
    {claimed : Pool} (hi : pool.IsHead plan index)
    (hunit : unit.symbol = Symbol.other → unit ∈ others (keys (plan.root index)) (plan.path index))
    (hclaims : Claims pool plan index unit claimed holder) :
    ∃ plan', Claimed pool plan index unit claimed plan' holder ∧
      Census claimed plan' roots keys := by
  cases hclaims with
  | letter hletter =>
    have hclaimed := claimed_letter h.forest hi hletter
    exact ⟨plan, hclaimed, h.letter hi hletter hclaimed⟩
  | free hother hh hplace hfree hnew =>
    subst hplace
    have hclaimed := claimed_free h.forest hh hother hfree hnew
    exact ⟨plan, hclaimed, h.free hh (hunit hother) hclaimed⟩
  | known hh => exact ⟨plan, claimed_known h.forest hh, h⟩
  | alternate hother hpush hh hplace hoccupied hlast hnew =>
    subst hplace
    have hclaimed := claimed_alternate h.forest hother hpush hh hoccupied hlast hnew
    exact ⟨_, hclaimed, h.alternate_added hpush hh (hunit hother) hclaimed⟩

theorem child (h : Census pool plan roots keys) {index holder : UInt32} {unit : CodeUnit}
    {descended : Pool} {below : UInt32} (hi : pool.IsHead plan index)
    (hh : pool.Holder plan index unit holder)
    (hplace : plan.path index ++ [unit.fold] ∈ places (keys (plan.root index)))
    (hchild : pool.child holder unit.symbol = .ok (descended, below)) :
    ∃ plan', Descended pool plan index unit descended plan' below ∧
      Census descended plan' roots keys := by
  rcases child_cases hchild with ⟨hknown, rfl, rfl⟩ | ⟨hnone, pushed, hpush, rfl⟩
  · exact ⟨plan, descended_known h.forest hi hh hknown, h⟩
  have hdescended := descended_added h.forest hi hh hnone hpush
  obtain ⟨-, -, -, hempty, hkept⟩ := push_spec hpush
  have hhas : ∀ i, (pushed.modify holder fun node => node.setChild unit.symbol below).Has i ↔
      pool.Has i ∨ i = below := fun i => (has_modify ..).trans (has_push hpush i)
  have hnode := other_modify ((has_push hpush holder).mpr (.inl hh.has))
    (f := fun node => node.setChild unit.symbol below) rfl rfl
  refine ⟨_, hdescended, h.grow hdescended.grown
    (fun i hi v j hwalk => hdescended.walk i hi [v] j hwalk) (fun i hi' hnot => ?_)
    (fun i hi' hoccupied => ?_) (fun i hi' hne => ?_)⟩
  · obtain rfl := ((hhas i).mp hi'.1).resolve_left hnot
    have hroot : ∀ head root path, (plan.set i head root path).root i = root :=
      fun _ _ _ => if_pos rfl
    have hpath : ∀ head root path, (plan.set i head root path).path i = path :=
      fun _ _ _ => if_pos rfl
    rw [hroot, hpath]
    exact ⟨h.root_mem index hi, .inr ⟨index, unit, hdescended.grown.isHead hi, hdescended.leads⟩,
      hplace⟩
  · rcases (hhas i).mp hi' with hold | rfl
    · rw [(hnode i).1, hkept i hold] at hoccupied
      exact .inl ⟨hold, hoccupied, fun v hv => by rwa [(hnode i).2, hkept i hold]⟩
    · rw [(hnode i).1, hempty, Node.occupied_empty] at hoccupied
      exact absurd hoccupied Bool.false_ne_true
  · rcases (hhas i).mp hi' with hold | rfl
    · exact .inl ⟨hold, fun hoccupied => by rwa [(hnode i).1, hkept i hold]⟩
    · exact absurd (if_pos rfl) hne

theorem setValue (h : Census pool plan roots keys) {index holder : UInt32} {unit : CodeUnit}
    (hh : pool.Holder plan index unit holder) (value : UInt32) :
    Census (pool.modify holder fun node => node.setValue unit.symbol value) plan roots keys := by
  have hgrown := (h.forest.setValue hh value).modified
  have hnode := other_modify hh.has (f := fun node => node.setValue unit.symbol value) rfl rfl
  refine h.grow hgrown (fun i hi v j hwalk => ?_)
    (fun i hi hnot => absurd ((has_modify ..).mp hi.1) hnot)
    (fun i hi hoccupied => .inl ⟨(has_modify ..).mp hi, (hnode i).1.symm.trans hoccupied,
      fun v hv => ((hnode i).2 v).trans hv⟩)
    (fun i hi _ => .inl ⟨(has_modify ..).mp hi, fun hoccupied => (hnode i).1.trans hoccupied⟩)
  rw [Trie.walk, childAt_setValue h.forest hh value hi]
  exact hwalk

theorem mono (h : Census pool plan roots keys) {more : Finset UInt32}
    {keys' : UInt32 → List CodeUnits} (hsubset : roots ⊆ more)
    (hkeys : ∀ root ∈ roots, keys' root = keys root) : Census pool plan more keys' := by
  refine ⟨h.forest, fun i hi => hsubset (h.root_mem i hi), h.parent, fun i hi => ?_,
    fun i hi hoccupied => ?_, h.alternate⟩
  · rw [hkeys _ (h.root_mem i hi)]
    exact h.place i hi
  · rw [hkeys _ (h.root_mem _ (h.forest.isHead_head hi))]
    exact h.held i hi hoccupied

theorem push (h : Census pool plan roots keys) {pushed : Pool} {added : UInt32}
    (hadded : added ∉ roots) (hpush : pool.push = .ok (pushed, added)) (values : List CodeUnits) :
    Census pushed (plan.set added added added []) ({added} ∪ roots)
      (Function.update keys added values) := by
  have hmore : Census pool plan ({added} ∪ roots) (Function.update keys added values) :=
    h.mono Finset.subset_union_right fun root hroot =>
      Function.update_of_ne (ne_of_mem_of_not_mem hroot hadded) _ _
  have hgrown := Grown.push h.forest hpush added []
  have hsame := sameAnswers_push h.forest hpush added []
  obtain ⟨-, -, -, hempty, hkept⟩ := push_spec hpush
  have hself : (plan.set added added added []).head added = added ∧
      (plan.set added added added []).root added = added ∧
      (plan.set added added added []).path added = [] := ⟨if_pos rfl, if_pos rfl, if_pos rfl⟩
  refine hmore.grow hgrown (fun i hi v j hwalk => ?_) (fun i hi hnot => ?_)
    (fun i hi hoccupied => ?_) (fun i hi hne => ?_)
  · rwa [hsame.walk h.forest hi]
  · obtain rfl := ((has_push hpush i).mp hi.1).resolve_left hnot
    rw [hself.2.1, hself.2.2]
    exact ⟨Finset.mem_union_left _ (Finset.mem_singleton_self _), .inl ⟨hi, hself.2⟩,
      mem_places.mpr (.inl rfl)⟩
  · rcases (has_push hpush i).mp hi with hold | rfl
    · rw [hkept i hold] at hoccupied ⊢
      exact .inl ⟨hold, hoccupied, fun _ hv => hv⟩
    · rw [hempty, Node.occupied_empty] at hoccupied
      exact absurd hoccupied Bool.false_ne_true
  · rcases (has_push hpush i).mp hi with hold | rfl
    · exact .inl ⟨hold, fun hoccupied => by rwa [hkept i hold]⟩
    · exact absurd hself.1 hne

theorem new (keys : UInt32 → List CodeUnits) : Census Pool.new Plan.new {0} keys := by
  have hzero : ∀ i, Pool.new.Has i → i = 0 := fun i => eq_zero_of_has_new
  have hnode : Pool.new.node 0 = Node.empty := rfl
  refine ⟨forest_new, fun i _ => Finset.mem_singleton_self 0, fun i hi => ?_,
    fun i _ => mem_places.mpr (.inl rfl), fun i hi hoccupied => ?_, fun i hi hne => ?_⟩
  · rw [hzero i hi.1]
    exact .inl isRoot_new
  · rw [hzero i hi, hnode, Node.occupied_empty] at hoccupied
    exact absurd hoccupied Bool.false_ne_true
  · exact absurd (hzero i hi).symm hne

end Census

end StyleRules.Table.Pool
