import StyleRules.Proofs.Table.Growth

/-!
# Making room for a unit

`claim` yields the holder of a unit at a head and changes no answer: a letter's slot is in the head
itself, and any other unit gets the head's own slot, the slot of an alternate that holds it, or a
new alternate behind the last one.
-/

namespace StyleRules.Table.Pool

variable {pool : Pool} {plan : Plan}

/-! ## One more alternate -/

/-- The pool with `added` linked behind `holder` and holding `unit`. -/
def addAlternate (grown : Pool) (holder added : UInt32) (unit : CodeUnit) : Pool :=
  (grown.modify holder fun node => { node with nextOther := added }).modify added
    fun node => node.occupyOther unit

section Alternate

variable {grown : Pool} {holder added : UInt32} {unit : CodeUnit}

theorem has_addAlternate (hpush : pool.push = .ok (grown, added)) (index : UInt32) :
    (grown.addAlternate holder added unit).Has index ↔ pool.Has index ∨ index = added := by
  rw [addAlternate, has_modify, has_modify, has_push hpush]

theorem node_addAlternate (hpush : pool.push = .ok (grown, added)) (hholder : pool.Has holder)
    {index : UInt32} (hindex : pool.Has index) :
    (grown.addAlternate holder added unit).node index =
      if holder = index then { pool.node index with nextOther := added }
      else pool.node index := by
  have hkept := (push_spec hpush).2.2.2.2
  have hgrown := (has_push hpush holder).mpr (.inl hholder)
  have hadded := (has_push hpush added).mpr (.inr rfl)
  rw [addAlternate, node_modify ((has_modify _ _ _ _).mpr hadded),
    if_neg (ne_added hpush hindex).symm, node_modify hgrown, hkept holder hholder,
    hkept index hindex]
  split
  · next heq => rw [heq]
  · rfl

theorem node_addAlternate_added (hpush : pool.push = .ok (grown, added))
    (hholder : pool.Has holder) :
    (grown.addAlternate holder added unit).node added = Node.empty.occupyOther unit := by
  have hempty := (push_spec hpush).2.2.2.1
  have hgrown := (has_push hpush holder).mpr (.inl hholder)
  have hadded := (has_push hpush added).mpr (.inr rfl)
  rw [addAlternate, node_modify ((has_modify _ _ _ _).mpr hadded), if_pos rfl, node_modify hgrown,
    if_neg (ne_added hpush hholder), hempty]

theorem holdsOther_empty_occupyOther (other : CodeUnit) :
    (Node.empty.occupyOther unit).holdsOther other = true ↔ unit = other := by
  rw [Node.holdsOther_iff]
  simp [UInt16.toUInt32_inj]

theorem extends_addAlternate (hpush : pool.push = .ok (grown, added))
    (hholder : pool.Has holder) :
    Extends pool (grown.addAlternate holder added unit) added := by
  obtain ⟨-, -, hcount, -, -⟩ := push_spec hpush
  have hnode : ∀ i, pool.Has i → (grown.addAlternate holder added unit).node i =
      if holder = i then { pool.node i with nextOther := added } else pool.node i :=
    fun i hi => node_addAlternate hpush hholder hi
  refine ⟨?_, has_addAlternate hpush, fun i hi => ne_added hpush hi, ?_, ?_, ?_, ?_, ?_⟩
  · rw [Pool.addAlternate, size_modify, size_modify]
    exact hcount
  · intro i hi s
    rw [hnode i hi]
    split <;> rfl
  · intro i hi s
    rw [hnode i hi]
    split <;> rfl
  · intro i hi v
    rw [hnode i hi]
    split <;> rfl
  · intro i hi v
    rw [hnode i hi]
    split <;> rfl
  · intro s
    rw [node_addAlternate_added hpush hholder, Node.slot_occupyOther, Node.slot_empty]

/-- An alternate goes behind the last node of a place that does not hold its unit yet. -/
theorem Grown.addAlternate (hforest : pool.Forest plan) (hpush : pool.push = .ok (grown, added))
    (hholder : pool.Has holder) (hoccupied : (pool.node holder).occupied Symbol.other = true)
    (hlast : (pool.node holder).nextOther = 0)
    (hnew : ∀ k, pool.Has k → plan.head k = plan.head holder →
      (pool.node k).holdsOther unit = false) :
    Grown pool plan (grown.addAlternate holder added unit)
      (plan.set added (plan.head holder) added []) := by
  have hext : Extends pool (grown.addAlternate holder added unit) added :=
    extends_addAlternate hpush hholder
  have hadded : (grown.addAlternate holder added unit).node added =
      Node.empty.occupyOther unit := node_addAlternate_added hpush hholder
  have hlink : ((grown.addAlternate holder added unit).node holder).nextOther = added := by
    rw [node_addAlternate hpush hholder hholder, if_pos rfl]
  have hlinks : Links pool plan (grown.addAlternate holder added unit) added
      (plan.head holder) := by
    refine ⟨by rw [hadded]; rfl, fun i hi => ?_⟩
    by_cases heq : holder = i
    · subst heq
      right
      refine ⟨hlast, hlink, ?_, rfl, hoccupied⟩
      rw [(push_spec hpush).1]
      exact hi
    · left
      rw [node_addAlternate hpush hholder hi, if_neg heq]
  refine hext.isGrown hforest ((hext.has _).mpr (.inl (hforest.head_has holder hholder))) hlinks ?_
    fun k v hk hplace hholds => ?_
  · have hsnoc := (hlinks.reaches (hforest.reaches holder hholder)).snoc
      (by rw [hlink]; exact added_ne_zero hpush hholder)
    rwa [hlink] at hsnoc
  · rw [hadded, holdsOther_empty_occupyOther] at hholds
    rw [← hholds]
    exact hnew k hk hplace

end Alternate

/-! ## Claiming -/

/-- What making room for `unit` at the head `index` comes to. -/
structure Claimed (pool : Pool) (plan : Plan) (index : UInt32) (unit : CodeUnit)
    (claimed : Pool) (plan' : Plan) (holder : UInt32) : Prop where
  grown : Grown pool plan claimed plan'
  same : SameAnswers pool plan claimed
  holder : claimed.Holder plan' index unit holder

/-- Answers stay when a write to one node keeps its slots and what it serves, and whatever it comes
to serve had an unoccupied symbol before. -/
theorem sameAnswers_modify (hforest : pool.Forest plan) {h : UInt32} (hh : pool.Has h)
    {f : Node → Node} (hgrown : (pool.modify h f).Forest plan)
    (hslot : ∀ s, (f (pool.node h)).slot s = (pool.node h).slot s)
    (hserves : ∀ unit, (pool.node h).serves unit = true → (f (pool.node h)).serves unit = true)
    (hfresh : ∀ unit, (f (pool.node h)).serves unit = true →
      (pool.node h).serves unit = true ∨ (pool.node h).occupied unit.symbol = false) :
    SameAnswers pool plan (pool.modify h f) := by
  refine hgrown.modified.sameAnswers hforest (fun k hk s => ?_) (fun k hk unit => ?_)
    (fun k hk unit hserved => ?_)
  · rw [node_modify hh]
    split
    · next heq => rw [hslot, heq]
    · rfl
  · rw [node_modify hh]
    split
    · next heq => exact fun hold => hserves unit (heq ▸ hold)
    · exact id
  · rw [has_modify] at hk
    rw [node_modify hh] at hserved ⊢
    split at hserved
    · next heq =>
      subst heq
      rw [if_pos rfl, hslot]
      rcases hfresh unit hserved with hold | hunoccupied
      · exact .inl ⟨hk, hold⟩
      · exact .inr (hforest.blank h _ hh hunoccupied)
    · exact .inl ⟨hk, hserved⟩

theorem claimed_letter (hforest : pool.Forest plan) {index : UInt32} (hi : pool.IsHead plan index)
    {unit : CodeUnit} (hletter : unit.symbol ≠ Symbol.other) :
    Claimed pool plan index unit (pool.modify index fun node => node.occupy unit.symbol) plan
      index := by
  have hserves : ∀ v, ((pool.node index).occupy unit.symbol).serves v =
      ((pool.node index).serves v || decide (unit.symbol = v.symbol)) := by
    intro v
    unfold Node.serves Node.holdsOther
    rw [Node.occupied_occupy, Node.otherUnit_occupy, Node.occupied_occupy]
    by_cases hv : v.symbol = Symbol.other
    · have hne : ¬unit.symbol = v.symbol := fun h => hletter (h.trans hv)
      rw [if_pos hv, if_pos hv, decide_eq_false hne, decide_eq_false hletter, Bool.or_false,
        Bool.or_false]
    · rw [if_neg hv, if_neg hv]
  have hgrown : (pool.modify index fun node => node.occupy unit.symbol).Forest plan := by
    refine hforest.modify hi.1 rfl (fun hold => ?_) (fun v hholds => ?_) (fun s hunoccupied => ?_)
      (fun v hserved hne => ?_)
    · rw [Node.occupied_occupy, hold, Bool.true_or]
    · left
      rw [Node.holdsOther_iff, Node.occupied_occupy, decide_eq_false hletter,
        Bool.or_false] at hholds
      exact (Node.holdsOther_iff _ _).mpr hholds
    · rw [Node.occupied_occupy, Bool.or_eq_false_iff] at hunoccupied
      exact hforest.blank index s hi.1 hunoccupied.1
    · rw [Node.slot_occupy] at hne ⊢
      rw [hserves, Bool.or_eq_true, decide_eq_true_eq] at hserved
      rcases hserved with hold | hsame
      · exact hforest.child index v hi.1 hold hne
      · by_cases hoccupied : (pool.node index).occupied v.symbol = true
        · refine hforest.child index v hi.1 ?_ hne
          rw [Node.serves, if_neg (hsame ▸ hletter)]
          exact hoccupied
        · rw [hforest.blank index _ hi.1 (by simpa using hoccupied)] at hne
          exact absurd rfl hne
  refine ⟨hgrown.modified, ?_, ?_⟩
  · refine sameAnswers_modify hforest hi.1 hgrown (fun _ => rfl) (fun v hold => ?_)
      (fun v hserved => ?_)
    · rw [hserves, hold, Bool.true_or]
    · rw [hserves, Bool.or_eq_true, decide_eq_true_eq] at hserved
      rcases hserved with hold | hsame
      · exact .inl hold
      · by_cases hoccupied : (pool.node index).occupied v.symbol = true
        · left
          rw [Node.serves, if_neg (hsame ▸ hletter)]
          exact hoccupied
        · exact .inr (by simpa using hoccupied)
  · refine ⟨(has_modify pool index index _).mpr hi.1, hi.2, ?_, fun _ => rfl⟩
    rw [node_modify hi.1, if_pos rfl, hserves, decide_eq_true rfl, Bool.or_true]

/-- A node that holds no other unit yet takes one that no node of its place holds. -/
theorem claimed_free (hforest : pool.Forest plan) {holder : UInt32} (hh : pool.Has holder)
    {unit : CodeUnit} (hother : unit.symbol = Symbol.other)
    (hfree : (pool.node holder).occupied Symbol.other = false)
    (hnew : ∀ k, pool.Has k → plan.head k = plan.head holder →
      (pool.node k).holdsOther unit = false) :
    Claimed pool plan (plan.head holder) unit
      (pool.modify holder fun node => node.occupyOther unit) plan holder := by
  have hholds : ∀ v, ((pool.node holder).occupyOther unit).holdsOther v = true ↔ unit = v := by
    intro v
    rw [Node.holdsOther_iff, Node.occupied_occupyOther, Node.otherUnit_occupyOther]
    simp [UInt16.toUInt32_inj]
  have hserves : ∀ v, ((pool.node holder).occupyOther unit).serves v = true ↔
      (pool.node holder).serves v = true ∨ unit = v := by
    intro v
    unfold Node.serves
    by_cases hv : v.symbol = Symbol.other
    · have hnone : (pool.node holder).holdsOther v = false := by
        rw [Node.holdsOther, hfree, Bool.false_and]
      rw [if_pos hv, if_pos hv, hholds, hnone]
      simp
    · have hne : unit ≠ v := fun h => hv (h ▸ hother)
      rw [if_neg hv, if_neg hv, Node.occupied_occupyOther,
        decide_eq_false (fun h => hv h.symm), Bool.or_false]
      simp [hne]
  have hgrown : (pool.modify holder fun node => node.occupyOther unit).Forest plan := by
    refine hforest.modify hh rfl (fun hold => ?_) (fun v hv => ?_) (fun s hunoccupied => ?_)
      (fun v hserved hne => ?_)
    · rw [hfree] at hold
      exact absurd hold Bool.false_ne_true
    · obtain rfl := (hholds v).mp hv
      exact .inr hnew
    · rw [Node.occupied_occupyOther, Bool.or_eq_false_iff] at hunoccupied
      exact hforest.blank holder s hh hunoccupied.1
    · rw [Node.slot_occupyOther] at hne ⊢
      rcases (hserves v).mp hserved with hold | rfl
      · exact hforest.child holder v hh hold hne
      · rw [hother, hforest.blank holder _ hh hfree] at hne
        exact absurd rfl hne
  refine ⟨hgrown.modified, ?_, ?_⟩
  · refine sameAnswers_modify hforest hh hgrown (fun _ => rfl)
      (fun v hold => (hserves v).mpr (.inl hold)) (fun v hserved => ?_)
    rcases (hserves v).mp hserved with hold | rfl
    · exact .inl hold
    · right
      rw [hother]
      exact hfree
  · refine ⟨(has_modify pool holder holder _).mpr hh, rfl, ?_, fun hletter => absurd hother hletter⟩
    rw [node_modify hh, if_pos rfl]
    exact (hserves unit).mpr (.inr rfl)

theorem claimed_known (hforest : pool.Forest plan) {index holder : UInt32} {unit : CodeUnit}
    (hh : pool.Holder plan index unit holder) : Claimed pool plan index unit pool plan holder :=
  ⟨Grown.refl hforest, fun _ _ _ => ⟨rfl, rfl⟩, hh⟩

theorem claimed_alternate (hforest : pool.Forest plan) {grown : Pool} {holder added : UInt32}
    {unit : CodeUnit} (hother : unit.symbol = Symbol.other)
    (hpush : pool.push = .ok (grown, added)) (hholder : pool.Has holder)
    (hoccupied : (pool.node holder).occupied Symbol.other = true)
    (hlast : (pool.node holder).nextOther = 0)
    (hnew : ∀ k, pool.Has k → plan.head k = plan.head holder →
      (pool.node k).holdsOther unit = false) :
    Claimed pool plan (plan.head holder) unit (grown.addAlternate holder added unit)
      (plan.set added (plan.head holder) added []) added := by
  have hgrown := Grown.addAlternate hforest hpush hholder hoccupied hlast hnew
  have hext : Extends pool (grown.addAlternate holder added unit) added :=
    extends_addAlternate hpush hholder
  refine ⟨hgrown, hext.sameAnswers hforest hgrown, (hext.has added).mpr (.inr rfl), if_pos rfl, ?_,
    fun hletter => absurd hother hletter⟩
  rw [node_addAlternate_added hpush hholder, Node.serves, if_pos hother]
  exact (holdsOther_empty_occupyOther unit).mpr rfl

/-- The ways in which room for `unit` is made at the head `index`. -/
inductive Claims (pool : Pool) (plan : Plan) (index : UInt32) (unit : CodeUnit) :
    Pool → UInt32 → Prop
  | letter (hletter : unit.symbol ≠ Symbol.other) :
    Claims pool plan index unit (pool.modify index fun node => node.occupy unit.symbol) index
  | free {holder : UInt32} (hother : unit.symbol = Symbol.other) (hh : pool.Has holder)
    (hplace : plan.head holder = index) (hfree : (pool.node holder).occupied Symbol.other = false)
    (hnew : ∀ k, pool.Has k → plan.head k = index → (pool.node k).holdsOther unit = false) :
    Claims pool plan index unit (pool.modify holder fun node => node.occupyOther unit) holder
  | known {holder : UInt32} (hh : pool.Holder plan index unit holder) :
    Claims pool plan index unit pool holder
  | alternate {grown : Pool} {last added : UInt32} (hother : unit.symbol = Symbol.other)
    (hpush : pool.push = .ok (grown, added)) (hh : pool.Has last) (hplace : plan.head last = index)
    (hoccupied : (pool.node last).occupied Symbol.other = true)
    (hlast : (pool.node last).nextOther = 0)
    (hnew : ∀ k, pool.Has k → plan.head k = index → (pool.node k).holdsOther unit = false) :
    Claims pool plan index unit (grown.addAlternate last added unit) added

/-- Claiming from `holder` on, when no node of its place that comes before it holds the unit. -/
theorem claimOther_claims (hforest : pool.Forest plan) {holder : UInt32} (hh : pool.Has holder)
    {unit : CodeUnit} (hother : unit.symbol = Symbol.other)
    (hahead : ∀ k, pool.Has k → plan.head k = plan.head holder →
      (pool.node k).holdsOther unit = true → pool.Reaches holder k)
    {claimed : Pool} {found : UInt32}
    (hclaim : pool.claimOther holder unit = .ok (claimed, found)) :
    Claims pool plan (plan.head holder) unit claimed found := by
  fun_induction Pool.claimOther pool holder unit with
  | case1 holder hfree =>
    obtain ⟨rfl, rfl⟩ := Prod.mk.inj (Except.ok.inj hclaim)
    have hfree : (pool.node holder).occupied Symbol.other = false := by simpa using hfree
    refine .free hother hh rfl hfree fun k hk hplace => ?_
    rw [Bool.eq_false_iff]
    intro hholds
    cases hahead k hk hplace hholds with
    | refl =>
      rw [Node.holdsOther_iff, hfree] at hholds
      exact Bool.false_ne_true hholds.1
    | next hnext =>
      have := hforest.linked_occupied holder hh hnext
      rw [hfree] at this
      exact Bool.false_ne_true this
  | case2 holder hoccupied hunit =>
    obtain ⟨rfl, rfl⟩ := Prod.mk.inj (Except.ok.inj hclaim)
    refine .known ⟨hh, rfl, ?_, fun hletter => absurd hother hletter⟩
    rw [Node.serves, if_pos hother, Node.holdsOther_iff]
    exact ⟨by simpa using hoccupied, by simpa using hunit⟩
  | case3 holder hoccupied hunit hforward ih =>
    have hnext : (pool.node holder).nextOther ≠ 0 := by
      intro hzero
      rw [hzero] at hforward
      exact absurd (UInt32.lt_iff_toNat_lt.mp hforward) (Nat.not_lt_zero _)
    obtain ⟨_, hhas, hplace⟩ := hforest.link holder hh hnext
    rw [← hplace]
    refine ih hhas (fun k hk hsame hholds => ?_) hclaim
    cases hahead k hk (hsame.trans hplace) hholds with
    | refl =>
      rw [Node.holdsOther_iff] at hholds
      exact absurd hholds.2 (by simpa using hunit)
    | next _ hrest => exact hrest
  | case4 holder hoccupied hunit hbackward =>
    have hlast : (pool.node holder).nextOther = 0 := by
      apply Classical.byContradiction
      intro hnext
      exact hbackward (UInt32.lt_iff_toNat_lt.mpr (hforest.link holder hh hnext).1)
    obtain ⟨⟨grown, added⟩, hpush, hclaim⟩ := exists_of_bind_eq_ok hclaim
    obtain ⟨rfl, rfl⟩ := Prod.mk.inj (Except.ok.inj hclaim)
    refine .alternate hother hpush hh rfl (by simpa using hoccupied) hlast fun k hk hplace => ?_
    rw [Bool.eq_false_iff]
    intro hholds
    cases hahead k hk hplace hholds with
    | refl =>
      rw [Node.holdsOther_iff] at hholds
      exact absurd hholds.2 (by simpa using hunit)
    | next hnext => exact hnext hlast

theorem claim_claims (hforest : pool.Forest plan) {index : UInt32} (hi : pool.IsHead plan index)
    {unit : CodeUnit} {claimed : Pool} {holder : UInt32}
    (hclaim : pool.claim index unit = .ok (claimed, holder)) :
    Claims pool plan index unit claimed holder := by
  unfold claim at hclaim
  split at hclaim
  · next hother =>
    have hclaims := claimOther_claims hforest hi.1 hother (fun k hk hplace _ => ?_) hclaim
    · rwa [hi.2] at hclaims
    · have hreach := hforest.reaches k hk
      rwa [hplace, hi.2] at hreach
  · next hletter =>
    obtain ⟨rfl, rfl⟩ := Prod.mk.inj (Except.ok.inj hclaim)
    exact .letter hletter

theorem claim_spec (hforest : pool.Forest plan) {index : UInt32} (hi : pool.IsHead plan index)
    {unit : CodeUnit} {claimed : Pool} {holder : UInt32}
    (hclaim : pool.claim index unit = .ok (claimed, holder)) :
    ∃ plan', Claimed pool plan index unit claimed plan' holder := by
  cases claim_claims hforest hi hclaim with
  | letter hletter => exact ⟨plan, claimed_letter hforest hi hletter⟩
  | free hother hh hplace hfree hnew =>
    subst hplace
    exact ⟨plan, claimed_free hforest hh hother hfree hnew⟩
  | known hh => exact ⟨plan, claimed_known hforest hh⟩
  | alternate hother hpush hh hplace hoccupied hlast hnew =>
    subst hplace
    exact ⟨_, claimed_alternate hforest hother hpush hh hoccupied hlast hnew⟩

end StyleRules.Table.Pool
