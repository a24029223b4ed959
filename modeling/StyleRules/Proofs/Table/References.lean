import StyleRules.Proofs.Table.Write

/-!
# References between nodes

A node refers to the children of its slots and to the next alternate. References lead forward, no
node is referred to twice, and no root is referred to at all; every write adds at most one
reference, to a node that is new. An alternate serves nothing but its unit.
-/

namespace StyleRules.Table

/-- A place in a node that holds a reference. -/
inductive Link where
  | child (symbol : Symbol)
  | alternate
  deriving DecidableEq, Repr

namespace Node

/-- What the node refers to, `0` if there is nothing. -/
def target (node : Node) : Link → UInt32
  | .child symbol => (node.slot symbol).child
  | .alternate => node.nextOther

@[simp] theorem target_occupy (node : Node) (s : Symbol) (link : Link) :
    (node.occupy s).target link = node.target link := by
  cases link <;> rfl

@[simp] theorem target_occupyOther (node : Node) (unit : CodeUnit) (link : Link) :
    (node.occupyOther unit).target link = node.target link := by
  cases link <;> rfl

@[simp] theorem target_empty (link : Link) : empty.target link = 0 := by
  cases link with
  | child s => rw [target, slot_empty]
  | alternate => rfl

@[simp] theorem target_setValue (node : Node) (s : Symbol) (value : UInt32) (link : Link) :
    (node.setValue s value).target link = node.target link := by
  cases link with
  | child t =>
    unfold target setValue
    dsimp only
    rw [slot_setSlot]
    split
    · next heq => rw [heq]
    · rfl
  | alternate => rfl

theorem target_setChild (node : Node) (s : Symbol) (child : UInt32) (link : Link) :
    (node.setChild s child).target link = if link = .child s then child else node.target link := by
  cases link with
  | child t =>
    unfold target setChild
    dsimp only
    rw [slot_setSlot]
    by_cases heq : s = t
    · rw [if_pos heq, if_pos (heq ▸ rfl)]
    · rw [if_neg heq, if_neg fun h => heq (Link.child.inj h).symm]
  | alternate => rfl

theorem target_link (node : Node) (next : UInt32) (link : Link) :
    ({ node with nextOther := next } : Node).target link =
      if link = .alternate then next else node.target link := by
  cases link <;> rfl

theorem occupied_of_charMap {node : Node} (h : node.charMap = bit Symbol.other) :
    node.occupied Symbol.other = true := by
  rw [occupied, h]
  decide

end Node

namespace Pool

structure Refers (pool : Pool) (i : UInt32) (link : Link) (j : UInt32) : Prop where
  has : pool.Has i
  target : (pool.node i).target link = j
  ne_zero : j ≠ 0

variable {pool grown : Pool} {plan : Plan}

theorem Refers.of_modify {index : UInt32} (hindex : pool.Has index) {f : Node → Node}
    (htarget : ∀ link, (f (pool.node index)).target link = (pool.node index).target link)
    {i j : UInt32} {link : Link} (h : (pool.modify index f).Refers i link j) :
    pool.Refers i link j := by
  obtain ⟨hhas, hto, hne⟩ := h
  rw [has_modify] at hhas
  rw [node_modify hindex] at hto
  split at hto
  · next heq =>
    subst heq
    exact ⟨hhas, (htarget link).symm.trans hto, hne⟩
  · exact ⟨hhas, hto, hne⟩

/-- Node `holder` comes to refer to the new node `added`, and no other reference is new. -/
structure Adopts (pool grown : Pool) (holder : UInt32) (new : Link) (added : UInt32) : Prop where
  holder_has : pool.Has holder
  fresh : ¬pool.Has added
  added_has : grown.Has added
  /-- A node that is new in a chain serves its unit only. -/
  charMap : new = .alternate → (grown.node added).charMap = Node.bit Symbol.other
  refers : ∀ i link j, grown.Refers i link j →
    pool.Refers i link j ∨ i = holder ∧ link = new ∧ j = added

/-- Where one reference is written and the new node is empty, no other reference is new. -/
theorem refers_of_added {added holder : UInt32} {new : Link}
    (hhas : ∀ i, grown.Has i → pool.Has i ∨ i = added)
    (hkept : ∀ i, pool.Has i → holder ≠ i → ∀ link,
      (grown.node i).target link = (pool.node i).target link)
    (hholder : ∀ link, (grown.node holder).target link =
      if link = new then added else (pool.node holder).target link)
    (hadded : ∀ link, (grown.node added).target link = 0) (i : UInt32) (link : Link) (j : UInt32)
    (h : grown.Refers i link j) :
    pool.Refers i link j ∨ i = holder ∧ link = new ∧ j = added := by
  obtain ⟨hi, hto, hne⟩ := h
  rcases hhas i hi with hold | rfl
  · by_cases heq : holder = i
    · subst heq
      rw [hholder] at hto
      split at hto
      · next hlink => exact .inr ⟨rfl, hlink, hto.symm⟩
      · exact .inl ⟨hold, hto, hne⟩
    · exact .inl ⟨hold, hkept i hold heq link ▸ hto, hne⟩
  · rw [hadded] at hto
    exact absurd hto.symm hne

theorem adopts_addAlternate {last added : UInt32} (hpush : pool.push = .ok (grown, added))
    (hhas : pool.Has last) (unit : CodeUnit) :
    Adopts pool (grown.addAlternate last added unit) last .alternate added := by
  have hhas' : ∀ i, (grown.addAlternate last added unit).Has i ↔ pool.Has i ∨ i = added :=
    has_addAlternate hpush
  have hadded : (grown.addAlternate last added unit).node added = Node.empty.occupyOther unit :=
    node_addAlternate_added hpush hhas
  refine ⟨hhas, not_has_added hpush, (hhas' added).mpr (.inr rfl), fun _ => ?_,
    refers_of_added (fun i => (hhas' i).mp) (fun i hi hne link => ?_) (fun link => ?_)
      fun link => ?_⟩
  · rw [hadded]
    rfl
  · rw [node_addAlternate hpush hhas hi, if_neg hne]
  · rw [node_addAlternate hpush hhas hhas, if_pos rfl, Node.target_link]
  · rw [hadded, Node.target_occupyOther, Node.target_empty]

theorem adopts_setChild {holder added : UInt32} (hpush : pool.push = .ok (grown, added))
    (hhas : pool.Has holder) (symbol : Symbol) :
    Adopts pool (grown.modify holder fun node => node.setChild symbol added) holder (.child symbol)
      added := by
  have hgrown : grown.Has holder := (has_push hpush holder).mpr (.inl hhas)
  obtain ⟨-, -, -, hempty, hkept⟩ := push_spec hpush
  refine ⟨hhas, not_has_added hpush, (has_modify ..).mpr ((has_push hpush added).mpr (.inr rfl)),
    fun heq => Link.noConfusion heq,
    refers_of_added (fun i hi => (has_push hpush i).mp ((has_modify ..).mp hi))
      (fun i hi hne link => ?_) (fun link => ?_) fun link => ?_⟩
  · rw [node_modify hgrown, if_neg hne, hkept i hi]
  · rw [node_modify hgrown, if_pos rfl, hkept holder hhas, Node.target_setChild]
  · rw [node_modify hgrown, if_neg (ne_added hpush hhas), hempty, Node.target_empty]

theorem Write.refers (h : Write pool grown) :
    (∀ i link j, grown.Refers i link j → pool.Refers i link j) ∨
      ∃ holder new added, Adopts pool grown holder new added := by
  cases h with
  | letter hhas => exact .inl fun _ _ _ => Refers.of_modify hhas fun _ => Node.target_occupy ..
  | free hhas => exact .inl fun _ _ _ => Refers.of_modify hhas fun _ => Node.target_occupyOther ..
  | value hhas => exact .inl fun _ _ _ => Refers.of_modify hhas fun _ => Node.target_setValue ..
  | alternate hpush hhas => exact .inr ⟨_, _, _, adopts_addAlternate hpush hhas _⟩
  | child hpush hhas => exact .inr ⟨_, _, _, adopts_setChild hpush hhas _⟩

/-! ## What holds of the references of a pool -/

/-- References lead forward, each to a node of its own that is no root, and alternates serve nothing
but their unit. -/
structure Linked (pool : Pool) (roots : List UInt32) : Prop where
  forward : ∀ i link j, pool.Refers i link j → i < j ∧ pool.Has j
  unique : ∀ i i' link link' j, pool.Refers i link j → pool.Refers i' link' j →
    i = i' ∧ link = link'
  not_root : ∀ i link j, pool.Refers i link j → j ∉ roots
  alternate : ∀ i j, pool.Refers i .alternate j → (pool.node j).charMap = Node.bit Symbol.other

variable {roots : List UInt32}

theorem Write.charMap_of_alternate (h : Write pool grown) {i j : UInt32} (hj : pool.Has j)
    (hrefers : pool.Refers i .alternate j)
    (hmap : (pool.node j).charMap = Node.bit Symbol.other) :
    (grown.node j).charMap = Node.bit Symbol.other := by
  cases h with
  | letter hhas hhead =>
    have hne := hhead i fun hzero => hrefers.ne_zero (hrefers.target.symm.trans hzero)
    rw [node_modify hhas, if_neg fun heq => hne (hrefers.target.trans heq.symm)]
    exact hmap
  | free hhas hfree =>
    rw [node_modify hhas, if_neg]
    · exact hmap
    · rintro rfl
      rw [Node.occupied_of_charMap hmap] at hfree
      exact Bool.false_ne_true hfree.symm
  | value hhas =>
    rw [node_modify hhas]
    split
    · next heq => exact heq ▸ hmap
    · exact hmap
  | alternate hpush hhas =>
    rw [node_addAlternate hpush hhas hj]
    split <;> exact hmap
  | child hpush hhas =>
    have hkept := (push_spec hpush).2.2.2.2
    rw [node_modify ((has_push hpush _).mpr (.inl hhas)), hkept _ hhas, hkept j hj]
    split
    · next heq => exact heq ▸ hmap
    · exact hmap

theorem Linked.of_refers (h : pool.Linked roots) (hhas : ∀ i, pool.Has i → grown.Has i)
    (hrefers : ∀ i link j, grown.Refers i link j → pool.Refers i link j)
    (halternate : ∀ i j, pool.Refers i .alternate j →
      (grown.node j).charMap = Node.bit Symbol.other) : grown.Linked roots where
  forward i link j hr := (h.forward i link j (hrefers i link j hr)).imp_right (hhas j)
  unique i i' link link' j hr hr' :=
    h.unique i i' link link' j (hrefers i link j hr) (hrefers i' link' j hr')
  not_root i link j hr := h.not_root i link j (hrefers i link j hr)
  alternate i j hr := halternate i j (hrefers i _ j hr)

/-- A new reference leads forward, and nothing in the pool can lead to a new node yet. -/
theorem Linked.of_adopts (h : pool.Linked roots) (hroots : ∀ root ∈ roots, pool.Has root)
    (hhas : ∀ i, pool.Has i → grown.Has i) {holder added : UInt32} {new : Link}
    (hadopts : Adopts pool grown holder new added)
    (halternate : ∀ i j, pool.Refers i .alternate j →
      (grown.node j).charMap = Node.bit Symbol.other) : grown.Linked roots := by
  have hfresh : ∀ {i link}, ¬pool.Refers i link added :=
    fun hr => hadopts.fresh (h.forward _ _ _ hr).2
  have hforward : holder < added := by
    apply UInt32.lt_iff_toNat_lt.mpr
    have hlt : holder.toNat < pool.nodes.size := hadopts.holder_has
    have hle : ¬added.toNat < pool.nodes.size := hadopts.fresh
    omega
  refine ⟨fun i link j hr => ?_, fun i i' link link' j hr hr' => ?_, fun i link j hr => ?_,
    fun i j hr => ?_⟩
  · rcases hadopts.refers i link j hr with hold | ⟨rfl, -, rfl⟩
    · exact (h.forward i link j hold).imp_right (hhas j)
    · exact ⟨hforward, hadopts.added_has⟩
  · rcases hadopts.refers i link j hr with hold | ⟨rfl, rfl, rfl⟩
    · rcases hadopts.refers i' link' j hr' with hold' | ⟨-, -, rfl⟩
      · exact h.unique i i' link link' j hold hold'
      · exact absurd hold hfresh
    · rcases hadopts.refers i' link' j hr' with hold' | ⟨rfl, rfl, -⟩
      · exact absurd hold' hfresh
      · exact ⟨rfl, rfl⟩
  · rcases hadopts.refers i link j hr with hold | ⟨-, -, rfl⟩
    · exact h.not_root i link j hold
    · exact fun hroot => hadopts.fresh (hroots j hroot)
  · rcases hadopts.refers i .alternate j hr with hold | ⟨-, hlink, rfl⟩
    · exact halternate i j hold
    · exact hadopts.charMap hlink.symm

theorem Linked.write (h : pool.Linked roots) (hroots : ∀ root ∈ roots, pool.Has root)
    (hwrite : Write pool grown) : grown.Linked roots := by
  have hhas := hwrite.keeps.has
  have halternate : ∀ i j, pool.Refers i .alternate j →
      (grown.node j).charMap = Node.bit Symbol.other := fun i j hrefers =>
    hwrite.charMap_of_alternate (h.forward i _ j hrefers).2 hrefers (h.alternate i j hrefers)
  rcases hwrite.refers with hrefers | ⟨holder, new, added, hadopts⟩
  · exact h.of_refers hhas hrefers halternate
  · exact h.of_adopts hroots hhas hadopts halternate

theorem Linked.writes (h : pool.Linked roots) (hroots : ∀ root ∈ roots, pool.Has root)
    (hwrites : Writes pool grown) : grown.Linked roots := by
  induction hwrites with
  | refl => exact h
  | tail hfirst hwrite ih =>
    exact ih.write (fun root hroot => (Writes.keeps hfirst).has root (hroots root hroot)) hwrite

/-- A new node refers to nothing and nothing refers to it, so it may be a root. -/
theorem Linked.push (h : pool.Linked roots) {added : UInt32}
    (hpush : pool.push = .ok (grown, added)) : grown.Linked (added :: roots) := by
  obtain ⟨-, -, -, hempty, hkept⟩ := push_spec hpush
  have hold : ∀ i link j, grown.Refers i link j → pool.Refers i link j := by
    rintro i link j ⟨hi, hto, hne⟩
    rcases (has_push hpush i).mp hi with hhas | rfl
    · exact ⟨hhas, hkept i hhas ▸ hto, hne⟩
    · rw [hempty, Node.target_empty] at hto
      exact absurd hto.symm hne
  have hlinked : grown.Linked roots := h.of_refers (keeps_push hpush).has hold fun i j hr => by
    rw [hkept j (h.forward i _ j hr).2]
    exact h.alternate i j hr
  refine { hlinked with not_root := fun i link j hr => ?_ }
  rw [List.mem_cons, not_or]
  exact ⟨ne_added hpush (h.forward i link j (hold i link j hr)).2, hlinked.not_root i link j hr⟩

/-! ## Chains of alternates -/

theorem Reaches.eq_or_refers {i j : UInt32} (hreach : pool.Reaches i j) :
    j = i ∨ ∃ above, pool.Refers above .alternate j := by
  induction hreach with
  | refl i => exact .inl rfl
  | @next i j hnext _ ih =>
    rcases ih with rfl | habove
    · exact .inr ⟨i, has_of_nextOther_ne_zero hnext, rfl, hnext⟩
    · exact .inr habove

/-- What nodes hold beside letters are code units. -/
def HoldsUnits (pool : Pool) : Prop :=
  ∀ i, pool.Has i → ∃ unit : CodeUnit, (pool.node i).otherUnit = unit.toUInt32

theorem HoldsUnits.modify (h : pool.HoldsUnits) {index : UInt32} (hindex : pool.Has index)
    {f : Node → Node} (hunit : ∃ unit : CodeUnit, (f (pool.node index)).otherUnit = unit.toUInt32) :
    (pool.modify index f).HoldsUnits := by
  intro i hi
  rw [node_modify hindex]
  split
  · exact hunit
  · exact h i ((has_modify ..).mp hi)

theorem HoldsUnits.push (h : pool.HoldsUnits) {added : UInt32}
    (hpush : pool.push = .ok (grown, added)) : grown.HoldsUnits := by
  obtain ⟨-, -, -, hempty, hkept⟩ := push_spec hpush
  intro i hi
  rcases (has_push hpush i).mp hi with hold | rfl
  · rw [hkept i hold]
    exact h i hold
  · rw [hempty]
    exact ⟨0, rfl⟩

theorem HoldsUnits.write (h : pool.HoldsUnits) (hwrite : Write pool grown) :
    grown.HoldsUnits := by
  cases hwrite with
  | letter hhas => exact h.modify hhas (h _ hhas)
  | @free holder unit hhas => exact h.modify hhas ⟨unit, rfl⟩
  | @alternate pushed last added unit hpush hhas =>
    have hlast := (has_push hpush last).mpr (.inl hhas)
    have hadded := (has_push hpush added).mpr (.inr rfl)
    exact ((h.push hpush).modify hlast (h.push hpush last hlast)).modify
      ((has_modify ..).mpr hadded) ⟨unit, rfl⟩
  | @child pushed holder added symbol hpush hhas =>
    have hholder := (has_push hpush holder).mpr (.inl hhas)
    exact (h.push hpush).modify hholder (h.push hpush holder hholder)
  | value hhas => exact h.modify hhas (h _ hhas)

theorem HoldsUnits.writes (h : pool.HoldsUnits) (hwrites : Writes pool grown) :
    grown.HoldsUnits := by
  induction hwrites with
  | refl => exact h
  | tail _ hwrite ih => exact ih.write hwrite

theorem Linked.eq_of_otherUnit (h : pool.Linked roots) (hforest : pool.Forest plan)
    (hunits : pool.HoldsUnits) {i j k : UInt32} (hj : pool.Reaches i j) (hk : pool.Reaches i k)
    (hsame : (pool.node j).otherUnit = (pool.node k).otherUnit) : j = k := by
  by_cases hnext : (pool.node i).nextOther = 0
  · -- The chain ends where it begins.
    have hfirst : ∀ {m}, pool.Reaches i m → m = i := by
      intro m hm
      cases hm with
      | refl => rfl
      | next hne => exact absurd hnext hne
    rw [hfirst hj, hfirst hk]
  · have hi := has_of_nextOther_ne_zero hnext
    have hoccupied : ∀ {m}, pool.Reaches i m → (pool.node m).occupied Symbol.other = true := by
      intro m hm
      rcases hm.eq_or_refers with rfl | ⟨above, hrefers⟩
      · exact hforest.linked_occupied m hi hnext
      · exact Node.occupied_of_charMap (h.alternate above m hrefers)
    have hhas := hforest.has_of_reaches hi hj
    obtain ⟨unit, hunit⟩ := hunits j hhas
    apply hforest.unit_inj j k unit hhas (hforest.has_of_reaches hi hk)
    · rw [hforest.head_of_reaches hi hj, hforest.head_of_reaches hi hk]
    · exact (Node.holdsOther_iff _ _).mpr ⟨hoccupied hj, hunit⟩
    · exact (Node.holdsOther_iff _ _).mpr ⟨hoccupied hk, hsame ▸ hunit⟩

end Pool

end StyleRules.Table
