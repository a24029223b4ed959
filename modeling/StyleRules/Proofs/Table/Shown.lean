import StyleRules.Proofs.Table.Encoding
import StyleRules.Proofs.Table.Insert
import StyleRules.Proofs.Table.References

/-!
# Lookups in a part of a pool

A trie has room for all nodes of a pool but the very last one that can be numbered. References lead
forward, so a lookup reads nothing behind the node where the slot of its last unit is found, and it
goes wrong only if that node is not shown.
-/

namespace StyleRules.Table.Pool

/-- The way of a lookup from a head, with the node where the slot of the last unit is found. -/
inductive Trail (pool : Pool) (plan : Plan) : UInt32 → CodeUnits → UInt32 → Prop
  | last {index holder : UInt32} {unit : CodeUnit} (hh : pool.Holder plan index unit holder) :
    Trail pool plan index [unit] holder
  | next {index above holder : UInt32} {unit next : CodeUnit} {rest : CodeUnits}
    (hh : pool.Holder plan index unit above)
    (hchild : ((pool.node above).slot unit.symbol).child ≠ 0)
    (hrest : Trail pool plan ((pool.node above).slot unit.symbol).child (next :: rest) holder) :
    Trail pool plan index (unit :: next :: rest) holder

variable {pool grown : Pool} {plan plan' : Plan} {roots : List UInt32} {trie : Trie} {bound : Nat}

theorem Holder.mono (hgrown : Grown pool plan grown plan') (hkeeps : Keeps pool grown)
    {index holder : UInt32} {unit : CodeUnit} (hh : pool.Holder plan index unit holder) :
    grown.Holder plan' index unit holder :=
  ⟨hgrown.has holder hh.has, (hgrown.head holder hh.has).trans hh.head,
    hkeeps.serves holder unit hh.has hh.serves, hh.letter⟩

theorem Trail.mono (hgrown : Grown pool plan grown plan') (hkeeps : Keeps pool grown)
    {index holder : UInt32} {key : CodeUnits} (h : Trail pool plan index key holder) :
    Trail grown plan' index key holder := by
  induction h with
  | last hh => exact .last (hh.mono hgrown hkeeps)
  | next hh hchild _ ih =>
    have hsame := hkeeps.child _ _ hh.has hchild
    exact .next (hh.mono hgrown hkeeps) (hsame ▸ hchild) (hsame ▸ ih)

theorem Linked.lt_child (hlinked : pool.Linked roots) {index above : UInt32} {unit : CodeUnit}
    (hh : pool.Holder plan index unit above)
    (hchild : ((pool.node above).slot unit.symbol).child ≠ 0) :
    above.toNat < ((pool.node above).slot unit.symbol).child.toNat :=
  UInt32.lt_iff_toNat_lt.mp
    (hlinked.forward above (.child unit.symbol) _ ⟨hh.has, rfl, hchild⟩).1

namespace Forest

theorem isHead_child (hforest : pool.Forest plan) {index above : UInt32} {unit : CodeUnit}
    (hh : pool.Holder plan index unit above)
    (hchild : ((pool.node above).slot unit.symbol).child ≠ 0) :
    pool.IsHead plan ((pool.node above).slot unit.symbol).child :=
  have hleads := hforest.child above unit hh.has hh.serves hchild
  ⟨hleads.has, hleads.head⟩

theorem le_holder (hforest : pool.Forest plan) {index holder : UInt32} {unit : CodeUnit}
    (hi : pool.IsHead plan index) (hh : pool.Holder plan index unit holder) :
    index.toNat ≤ holder.toNat := by
  have hreach := hforest.reaches holder hh.has
  rw [hh.head] at hreach
  exact hforest.le_of_reaches hi.1 hreach

theorem le_of_trail (hforest : pool.Forest plan) (hlinked : pool.Linked roots)
    {index holder : UInt32} {key : CodeUnits} (hi : pool.IsHead plan index)
    (h : Trail pool plan index key holder) : index.toNat ≤ holder.toNat := by
  induction h with
  | last hh => exact hforest.le_holder hi hh
  | next hh hchild _ ih =>
    have hle := hforest.le_holder hi hh
    have hlt := hlinked.lt_child hh hchild
    have hrest := ih (hforest.isHead_child hh hchild)
    omega

theorem childAt_of_shows (hforest : pool.Forest plan) (hshows : pool.Shows trie bound)
    {index above : UInt32} {unit : CodeUnit} (hi : pool.IsHead plan index)
    (hh : pool.Holder plan index unit above) :
    trie.childAt index unit =
      if above.toNat < bound then ((pool.node above).slot unit.symbol).child else 0 := by
  rw [Trie.childAt, hforest.slot?_of_shows hshows hi hh]
  split <;> rfl

/-- What is shown of a pool answers a key as the pool does if it shows the node of the last unit. -/
theorem lookup_of_trail (hforest : pool.Forest plan) (hlinked : pool.Linked roots)
    (hshows : pool.Shows trie bound) {index holder : UInt32} {key : CodeUnits}
    (hi : pool.IsHead plan index) (h : Trail pool plan index key holder) :
    trie.lookup index key = if holder.toNat < bound then pool.trie.lookup index key else 0 := by
  induction h with
  | last hh =>
    rw [Trie.lookup_singleton, Trie.lookup_singleton, hforest.valueAt_of_holder hi hh, Trie.valueAt,
      hforest.slot?_of_shows hshows hi hh]
    split <;> rfl
  | @next index above holder unit next rest hh hchild hrest ih =>
    have hhead := hforest.isHead_child hh hchild
    rw [Trie.lookup_cons_cons, Trie.lookup_cons_cons, hforest.childAt_of_holder hi hh,
      if_neg hchild, hforest.childAt_of_shows hshows hi hh]
    by_cases habove : above.toNat < bound
    · rw [if_pos habove, if_neg hchild]
      exact ih hhead
    · have hlt := hlinked.lt_child hh hchild
      have hle := hforest.le_of_trail hlinked hhead hrest
      rw [if_neg habove, if_pos rfl, if_neg (show ¬holder.toNat < bound by omega)]

theorem exists_trail (hforest : pool.Forest plan) (hshows : pool.Shows trie bound) {index : UInt32}
    {key : CodeUnits} (hi : pool.IsHead plan index) (hvalue : trie.lookup index key ≠ 0) :
    ∃ holder, Trail pool plan index key holder := by
  have hholder : ∀ {index} unit, pool.IsHead plan index → trie.slot? index unit ≠ none →
      ∃ holder, pool.Holder plan index unit holder := by
    intro index unit hi hsome
    apply Classical.byContradiction
    intro hnone
    exact hsome (hforest.slot?_of_shows_of_no_holder hshows hi fun h hh => hnone ⟨h, hh⟩)
  induction key generalizing index with
  | nil => exact absurd rfl hvalue
  | cons unit key ih =>
    cases key with
    | nil =>
      rw [Trie.lookup_singleton] at hvalue
      obtain ⟨holder, hh⟩ := hholder unit hi fun hnone => hvalue (by
        rw [Trie.valueAt, hnone]
        rfl)
      exact ⟨holder, .last hh⟩
    | cons next rest =>
      rw [Trie.lookup_cons_cons] at hvalue
      split at hvalue
      · exact absurd rfl hvalue
      · next hne =>
        obtain ⟨above, hh⟩ := hholder unit hi fun hnone => hne (by
          rw [Trie.childAt, hnone]
          rfl)
        rw [hforest.childAt_of_shows hshows hi hh] at hne hvalue
        split at hne
        · next hbound =>
          rw [if_pos hbound] at hvalue
          obtain ⟨holder, htrail⟩ := ih (hforest.isHead_child hh hne) hvalue
          exact ⟨holder, .next hh hne htrail⟩
        · exact absurd rfl hne

end Forest

/-- Two pools of which as much is shown give the same answer where they agree as a whole. -/
theorem lookup_of_shows (hforest : pool.Forest plan) (hlinked : pool.Linked roots)
    (hgrown : Grown pool plan grown plan') (hlinked' : grown.Linked roots)
    (hkeeps : Keeps pool grown) {shown shown' : Trie} (hshown : pool.Shows shown bound)
    (hshown' : grown.Shows shown' bound) {index : UInt32} (hi : pool.IsHead plan index)
    {key : CodeUnits} (hsame : grown.trie.lookup index key = pool.trie.lookup index key) :
    shown'.lookup index key = shown.lookup index key := by
  have hi' := hgrown.isHead hi
  by_cases htrail : ∃ holder, Trail pool plan index key holder
  · obtain ⟨holder, htrail⟩ := htrail
    rw [hgrown.forest.lookup_of_trail hlinked' hshown' hi' (htrail.mono hgrown hkeeps),
      hforest.lookup_of_trail hlinked hshown hi htrail, hsame]
  · have hnone : ∀ {trie : Trie} {bound : Nat}, pool.Shows trie bound →
        trie.lookup index key = 0 := fun hshows =>
      Classical.byContradiction fun hne => htrail (hforest.exists_trail hshows hi hne)
    rw [hnone hshown]
    apply Classical.byContradiction
    intro hne
    obtain ⟨holder, htrail'⟩ := hgrown.forest.exists_trail hshown' hi' hne
    rw [hgrown.forest.lookup_of_trail hlinked' hshown' hi' htrail', hsame,
      hnone (shows_trie pool), ite_self] at hne
    exact hne rfl

/-! ## Encoded pools -/

def encoded (pool : Pool) : Trie := Trie.ofBytes pool.bytes

theorem encoded_of_size_lt (hsize : pool.nodes.size < Word.count) : pool.encoded = pool.trie :=
  Trie.ofBytes_bytes hsize

theorem shows_encoded (pool : Pool) : pool.Shows pool.encoded Trie.maxSize := by
  have hnodes : pool.encoded = ⟨(pool.nodes.toList.take Trie.maxSize).toArray⟩ := by
    rw [encoded, Trie.ofBytes, bytes, Node.ofAllBytes_flatMap_bytes]
  refine ⟨fun i hi => ?_, fun i hi hbound => ?_⟩
  · rw [hnodes, Trie.node?, List.getElem?_toArray, List.getElem?_take, Array.getElem?_toList]
    rw [show pool.nodes[i.toNat]? = some (pool.node i) from node?_of_has hi]
  · rw [hnodes, Trie.size, List.size_toArray, List.length_take, Array.length_toList]
    exact Nat.lt_min.mpr ⟨hbound, hi⟩

theorem lookup_of_size_le {root : UInt32} (h : trie.size ≤ root.toNat) (key : CodeUnits) :
    trie.lookup root key = 0 := by
  have hnone : trie.node? root = none := Array.getElem?_eq_none h
  have halternate (unit : CodeUnit) (steps : Nat) : trie.alternate? unit steps root = none := by
    cases steps with
    | zero => rfl
    | succ steps => rw [Trie.alternate?, hnone]
  have hslot (unit : CodeUnit) : trie.slot? root unit = none := by
    unfold Trie.slot?
    split
    · rw [halternate, Option.map_none]
    · rw [hnone]
  cases key with
  | nil => rfl
  | cons unit rest => cases rest <;> rw [Trie.lookup, hslot]

theorem lookup_encoded_last (pool : Pool) (key : CodeUnits) :
    pool.encoded.lookup 4294967295 key = 0 := by
  apply lookup_of_size_le
  rw [encoded, Trie.ofBytes, Trie.size, List.size_toArray]
  exact List.length_take_le _ _

end StyleRules.Table.Pool
