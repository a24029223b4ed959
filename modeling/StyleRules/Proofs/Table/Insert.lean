import StyleRules.CodeUnit.Folded
import StyleRules.Proofs.Table.Write

/-!
# Inserting a key

Inserting a key below a root changes the lookup of that key from that root, up to ASCII case, and no
other lookup from any root (`insert_spec`). The walk to the changed slot is unique because every
head has its root and its folded path in the plan. An insertion that ends half way leaves nodes
behind (`afterInsert`) but changes no lookup.
-/

namespace StyleRules.Table.Pool

open CodeUnits (fold)

variable {pool grown : Pool} {plan plan' : Plan}

namespace Forest

theorem leads_childAt (hforest : pool.Forest plan) {i : UInt32} (hi : pool.IsHead plan i)
    {unit : CodeUnit} (hchild : pool.trie.childAt i unit ≠ 0) :
    pool.IsHead plan (pool.trie.childAt i unit) ∧
      plan.root (pool.trie.childAt i unit) = plan.root i ∧
      plan.path (pool.trie.childAt i unit) = plan.path i ++ [unit.fold] := by
  by_cases hold : ∃ h, pool.Holder plan i unit h
  · obtain ⟨h, hh⟩ := hold
    rw [hforest.childAt_of_holder hi hh] at hchild ⊢
    have hleads := hforest.child h unit hh.has hh.serves hchild
    exact ⟨⟨hleads.has, hleads.head⟩, by rw [hleads.root, hh.head], by rw [hleads.path, hh.head]⟩
  · exact absurd (hforest.childAt_of_no_holder hi fun h hh => hold ⟨h, hh⟩) hchild

/-- A walk from a root arrives where the plan has the root and the folded units. -/
theorem place_of_walk (hforest : pool.Forest plan) {i j : UInt32} (hi : pool.IsHead plan i)
    {units : CodeUnits} (hwalk : pool.trie.walk i units = some j) :
    pool.IsHead plan j ∧ plan.root j = plan.root i ∧ plan.path j = plan.path i ++ fold units := by
  induction units generalizing i with
  | nil =>
    obtain rfl := Option.some.inj hwalk
    exact ⟨hi, rfl, (List.append_nil _).symm⟩
  | cons unit units ih =>
    rw [Trie.walk] at hwalk
    split at hwalk
    · exact absurd hwalk (by simp)
    · next hchild =>
      obtain ⟨hhead, hroot, hpath⟩ := hforest.leads_childAt hi hchild
      obtain ⟨hj, hrootj, hpathj⟩ := ih hhead hwalk
      refine ⟨hj, hrootj.trans hroot, ?_⟩
      rw [hpathj, hpath, List.append_assoc]
      rfl

theorem place_of_root_walk (hforest : pool.Forest plan) {root j : UInt32}
    (hroot : pool.IsRoot plan root) {units : CodeUnits}
    (hwalk : pool.trie.walk root units = some j) :
    pool.IsHead plan j ∧ plan.root j = root ∧ plan.path j = fold units := by
  obtain ⟨hj, hrootj, hpathj⟩ := hforest.place_of_walk hroot.1 hwalk
  rw [hroot.2.1] at hrootj
  rw [hroot.2.2, List.nil_append] at hpathj
  exact ⟨hj, hrootj, hpathj⟩

/-- The plan tells the root and the folded units of every head: walks arrive at the same place from
the same root with the same folded units, and only so. -/
theorem walk_eq_iff (hforest : pool.Forest plan) {root r index : UInt32}
    (hroot : pool.IsRoot plan root) (hr : pool.IsRoot plan r) {front : CodeUnits}
    (hwalk : pool.trie.walk root front = some index) (units : CodeUnits) :
    pool.trie.walk r units = some index ↔ r = root ∧ fold units = fold front := by
  constructor
  · intro hto
    obtain ⟨-, hrooti, hpathi⟩ := hforest.place_of_root_walk hroot hwalk
    obtain ⟨-, hrootj, hpathj⟩ := hforest.place_of_root_walk hr hto
    exact ⟨hrootj.symm.trans hrooti, hpathj.symm.trans hpathi⟩
  · rintro ⟨rfl, hfold⟩
    rw [Trie.walk_of_fold _ _ hfold, hwalk]

/-- Walks from the heads go through two tries alike when the children of the heads are the same. -/
theorem walk_congr (hforest : pool.Forest plan) {trie : Trie}
    (hchild : ∀ j, pool.IsHead plan j → ∀ v, trie.childAt j v = pool.trie.childAt j v)
    {i : UInt32} (hi : pool.IsHead plan i) (units : CodeUnits) :
    trie.walk i units = pool.trie.walk i units := by
  induction units generalizing i with
  | nil => rfl
  | cons unit units ih =>
    rw [Trie.walk, Trie.walk, hchild i hi]
    split
    · rfl
    · next hne => exact ih (hforest.leads_childAt hi hne).1

end Forest

theorem serves_of_fold {node : Node} {u v : CodeUnit} (hfold : u.fold = v.fold)
    (hserves : node.serves u = true) : node.serves v = true := by
  obtain ⟨hsymbol, hsame⟩ := (CodeUnit.fold_eq_fold_iff u v).mp hfold
  by_cases hother : u.symbol = Symbol.other
  · rwa [← hsame hother]
  · rw [Node.serves, if_neg hother] at hserves
    rw [Node.serves, if_neg (hsymbol ▸ hother), ← hsymbol]
    exact hserves

theorem fold_eq_of_serves {node : Node} {u v : CodeUnit} (hu : node.serves u = true)
    (hv : node.serves v = true) (hsymbol : u.symbol = v.symbol) : u.fold = v.fold := by
  refine (CodeUnit.fold_eq_fold_iff u v).mpr ⟨hsymbol, fun hother => ?_⟩
  rw [Node.serves, if_pos hother, Node.holdsOther_iff] at hu
  rw [Node.serves, if_pos (hsymbol ▸ hother), Node.holdsOther_iff] at hv
  exact UInt16.toUInt32_inj.mp (hu.2.symm.trans hv.2)

theorem Holder.of_fold {i h : UInt32} {u v : CodeUnit} (hh : pool.Holder plan i u h)
    (hfold : u.fold = v.fold) : pool.Holder plan i v h := by
  have hsymbol := ((CodeUnit.fold_eq_fold_iff u v).mp hfold).1
  exact ⟨hh.has, hh.head, serves_of_fold hfold hh.serves, fun hv => hh.letter (hsymbol ▸ hv)⟩

/-! ## Unchanged answers -/

theorem SameAnswers.walk (hforest : pool.Forest plan) (hsame : SameAnswers pool plan grown)
    {i : UInt32} (hi : pool.IsHead plan i) (units : CodeUnits) :
    grown.trie.walk i units = pool.trie.walk i units :=
  hforest.walk_congr (fun j hj v => (hsame j hj v).2) hi units

theorem SameAnswers.lookup (hforest : pool.Forest plan) (hsame : SameAnswers pool plan grown)
    {i : UInt32} (hi : pool.IsHead plan i) (key : CodeUnits) :
    grown.trie.lookup i key = pool.trie.lookup i key := by
  rcases List.eq_nil_or_concat key with rfl | ⟨front, last, rfl⟩
  · rfl
  · rw [List.concat_eq_append, Trie.lookup_append, Trie.lookup_append, hsame.walk hforest hi]
    cases hwalk : pool.trie.walk i front with
    | none => rfl
    | some j =>
      rw [Option.map_some, Option.map_some, (hsame j (hforest.place_of_walk hi hwalk).1 last).1]

/-! ## Writing to the slot of a holder -/

/-- A write to a holder's slot is read for its unit at its place, and nowhere else. -/
theorem slot?_setSlot (hforest : pool.Forest plan) {index h : UInt32} {unit : CodeUnit}
    (hh : pool.Holder plan index unit h) {slot : Slot} {f : Node → Node}
    (hf : f (pool.node h) = (pool.node h).setSlot unit.symbol slot)
    (hafter : (pool.modify h f).Forest plan) {j : UInt32} (hj : pool.IsHead plan j)
    (v : CodeUnit) :
    (pool.modify h f).trie.slot? j v =
      if j = index ∧ v.fold = unit.fold then some slot else pool.trie.slot? j v := by
  have hserves : ∀ k w, ((pool.modify h f).node k).serves w = (pool.node k).serves w := by
    intro k w
    rw [node_modify hh.has]
    split
    · next heq =>
      subst heq
      rw [hf]
      rfl
    · rfl
  have hholder : ∀ {k}, pool.Holder plan j v k → (pool.modify h f).Holder plan j v k :=
    fun hk => ⟨(has_modify ..).mpr hk.has, hk.head, (hserves _ _).trans hk.serves, hk.letter⟩
  have hj' : (pool.modify h f).IsHead plan j := ⟨(has_modify ..).mpr hj.1, hj.2⟩
  by_cases hold : ∃ k, pool.Holder plan j v k
  · obtain ⟨k, hk⟩ := hold
    rw [hafter.slot?_of_holder hj' (hholder hk), hforest.slot?_of_holder hj hk, node_modify hh.has]
    by_cases hplace : j = index ∧ v.fold = unit.fold
    · obtain ⟨rfl, hfold⟩ := hplace
      obtain rfl := hforest.holder_unique (hh.of_fold hfold.symm) hk
      have hsymbol := ((CodeUnit.fold_eq_fold_iff v unit).mp hfold).1
      rw [if_pos rfl, if_pos ⟨rfl, hfold⟩, hf, Node.slot_setSlot, if_pos hsymbol.symm]
    · rw [if_neg hplace]
      split
      · next heq =>
        subst heq
        have hne : unit.symbol ≠ v.symbol := fun hsymbol => hplace
          ⟨hk.head.symm.trans hh.head, fold_eq_of_serves hk.serves hh.serves hsymbol.symm⟩
        rw [hf, Node.slot_setSlot, if_neg hne]
      · rfl
  · rw [if_neg, hforest.slot?_of_no_holder hj fun k hk => hold ⟨k, hk⟩,
      hafter.slot?_of_no_holder hj' fun k hk => hold ⟨k, (has_modify ..).mp hk.has, hk.head,
        (hserves k v).symm.trans hk.serves, hk.letter⟩]
    rintro ⟨rfl, hfold⟩
    exact hold ⟨h, hh.of_fold hfold.symm⟩

/-- A write to a holder's slot keeps the forest if the child that it leaves there is in its
place. -/
theorem Forest.setSlot (hforest : pool.Forest plan) {index h : UInt32} {unit : CodeUnit}
    (hh : pool.Holder plan index unit h) {slot : Slot} {f : Node → Node}
    (hf : f (pool.node h) = (pool.node h).setSlot unit.symbol slot)
    (hchild : slot.child ≠ 0 → pool.Leads plan h unit slot.child) :
    (pool.modify h f).Forest plan := by
  have hoccupied : (pool.node h).occupied unit.symbol = true := by
    have hserves := hh.serves
    unfold Node.serves at hserves
    split at hserves
    · next hother =>
      rw [hother]
      exact ((Node.holdsOther_iff _ _).mp hserves).1
    · exact hserves
  refine hforest.modify hh.has ?_ ?_ ?_ ?_ ?_ <;> rw [hf]
  · rfl
  · exact id
  · exact fun v hv => .inl hv
  · intro s hfree
    rw [Node.slot_setSlot, if_neg]
    · exact hforest.blank h s hh.has hfree
    · rintro rfl
      exact Bool.false_ne_true (hfree.symm.trans hoccupied)
  · intro v hserves hne
    have hv : (pool.node h).serves v = true := hserves
    rw [Node.slot_setSlot] at hne ⊢
    split at hne
    · next hsymbol =>
      rw [if_pos hsymbol]
      have hleads := hchild hne
      have hfold := fold_eq_of_serves hh.serves hv hsymbol
      exact ⟨hleads.has, hleads.head, hleads.root, by rw [hleads.path, hfold]⟩
    · next hsymbol =>
      rw [if_neg hsymbol]
      exact hforest.child h v hh.has hv hne

/-! ## The child of a slot -/

structure Descended (pool : Pool) (plan : Plan) (index : UInt32) (unit : CodeUnit)
    (descended : Pool) (plan' : Plan) (child : UInt32) : Prop where
  grown : Grown pool plan descended plan'
  lookup : ∀ i, pool.IsHead plan i → ∀ key,
    descended.trie.lookup i key = pool.trie.lookup i key
  walk : ∀ i, pool.IsHead plan i → ∀ units j, pool.trie.walk i units = some j →
    descended.trie.walk i units = some j
  leads : descended.trie.walk index [unit] = some child

theorem lookup_of_no_answers {trie : Trie} {i : UInt32}
    (hnone : ∀ unit, trie.valueAt i unit = 0 ∧ trie.childAt i unit = 0) (key : CodeUnits) :
    trie.lookup i key = 0 := by
  match key with
  | [] => rfl
  | [last] => rw [Trie.lookup_singleton, (hnone last).1]
  | unit :: next :: rest => rw [Trie.lookup_cons_cons, (hnone unit).2, if_pos rfl]

theorem descended_known (hforest : pool.Forest plan) {index h : UInt32} {unit : CodeUnit}
    (hi : pool.IsHead plan index) (hh : pool.Holder plan index unit h)
    (hknown : ((pool.node h).slot unit.symbol).child ≠ 0) :
    Descended pool plan index unit pool plan ((pool.node h).slot unit.symbol).child := by
  have hchild := hforest.childAt_of_holder hi hh
  have hne : pool.trie.childAt index unit ≠ 0 := by rwa [hchild]
  refine ⟨Grown.refl hforest, fun _ _ _ => rfl, fun _ _ _ _ hwalk => hwalk, ?_⟩
  rw [Trie.walk, if_neg hne, hchild]
  rfl

/-- A trie that has one more child than the pool, behind `unit` at `index`, where nothing led. The
child has no answers. -/
structure Opens (pool : Pool) (plan : Plan) (index : UInt32) (unit : CodeUnit) (opened : Trie)
    (added : UInt32) : Prop where
  ne : added ≠ 0
  blank : ∀ v, opened.valueAt added v = 0 ∧ opened.childAt added v = 0
  closed : ∀ j, pool.IsHead plan j → ∀ v, j = index ∧ v.fold = unit.fold →
    pool.trie.childAt j v = 0
  value : ∀ j, pool.IsHead plan j → ∀ v, opened.valueAt j v = pool.trie.valueAt j v
  child : ∀ j, pool.IsHead plan j → ∀ v, opened.childAt j v =
    if j = index ∧ v.fold = unit.fold then added else pool.trie.childAt j v

namespace Opens

variable {index added : UInt32} {unit : CodeUnit} {opened : Trie}

/-- The new child changes no lookup: the lookups that now go through it find nothing there. -/
theorem lookup (h : Opens pool plan index unit opened added) (hforest : pool.Forest plan)
    {i : UInt32} (hi : pool.IsHead plan i) (key : CodeUnits) :
    opened.lookup i key = pool.trie.lookup i key := by
  induction key generalizing i with
  | nil => rfl
  | cons v key ih =>
    cases key with
    | nil => rw [Trie.lookup_singleton, Trie.lookup_singleton, h.value i hi]
    | cons w key =>
      rw [Trie.lookup_cons_cons, Trie.lookup_cons_cons, h.child i hi]
      by_cases hplace : i = index ∧ v.fold = unit.fold
      · rw [if_pos hplace, if_neg h.ne, lookup_of_no_answers h.blank,
          if_pos (h.closed i hi v hplace)]
      · rw [if_neg hplace]
        split
        · rfl
        · next hne => exact ih (hforest.leads_childAt hi hne).1

theorem walk (h : Opens pool plan index unit opened added) (hforest : pool.Forest plan)
    {i j : UInt32} (hi : pool.IsHead plan i) {units : CodeUnits}
    (hwalk : pool.trie.walk i units = some j) : opened.walk i units = some j := by
  induction units generalizing i with
  | nil => exact hwalk
  | cons v units ih =>
    rw [Trie.walk] at hwalk ⊢
    split at hwalk
    · exact absurd hwalk (by simp)
    · next hne =>
      have hopen : ¬(i = index ∧ v.fold = unit.fold) := fun hplace => hne (h.closed i hi v hplace)
      rw [h.child i hi, if_neg hopen, if_neg hne]
      exact ih (hforest.leads_childAt hi hne).1 hwalk

theorem leads (h : Opens pool plan index unit opened added) (hi : pool.IsHead plan index) :
    opened.walk index [unit] = some added := by
  have hnew : opened.childAt index unit = added := by rw [h.child index hi, if_pos ⟨rfl, rfl⟩]
  rw [Trie.walk, hnew, if_neg h.ne]
  rfl

end Opens

theorem leads_push (hforest : pool.Forest plan) {index h : UInt32} {unit : CodeUnit}
    (hi : pool.IsHead plan index) (hh : pool.Holder plan index unit h) {pushed : Pool}
    {added : UInt32} (hpush : pool.push = .ok (pushed, added)) :
    pushed.Leads (plan.set added added (plan.root index) (plan.path index ++ [unit.fold])) h unit
      added := by
  have hgrown := Grown.push hforest hpush (plan.root index) (plan.path index ++ [unit.fold])
  refine ⟨(has_push hpush added).mpr (.inr rfl), if_pos rfl, ?_, ?_⟩
  · rw [hgrown.head h hh.has, hh.head, hgrown.root index hi.1]
    exact if_pos rfl
  · rw [hgrown.head h hh.has, hh.head, hgrown.path index hi.1]
    exact if_pos rfl

theorem descended_added (hforest : pool.Forest plan) {index h : UInt32} {unit : CodeUnit}
    (hi : pool.IsHead plan index) (hh : pool.Holder plan index unit h)
    (hnone : ((pool.node h).slot unit.symbol).child = 0) {pushed : Pool} {added : UInt32}
    (hpush : pool.push = .ok (pushed, added)) :
    Descended pool plan index unit (pushed.modify h fun node => node.setChild unit.symbol added)
      (plan.set added added (plan.root index) (plan.path index ++ [unit.fold])) added := by
  have hgrown := Grown.push hforest hpush (plan.root index) (plan.path index ++ [unit.fold])
  have hsame := sameAnswers_push hforest hpush (plan.root index) (plan.path index ++ [unit.fold])
  have hleads := leads_push hforest hi hh hpush
  obtain ⟨-, -, -, hempty, hkept⟩ := push_spec hpush
  generalize plan.set added added (plan.root index) (plan.path index ++ [unit.fold]) = plan'
    at hgrown hleads ⊢
  have hnode := hkept h hh.has
  have hholder : pushed.Holder plan' index unit h := hgrown.holder hh (hnode ▸ hh.serves)
  have hafter : (pushed.modify h fun node => node.setChild unit.symbol added).Forest plan' :=
    hgrown.forest.setSlot hholder rfl fun _ => hleads
  have hslot := fun j hj v => slot?_setSlot hgrown.forest hholder
    (f := fun node => node.setChild unit.symbol added) rfl hafter (j := j) hj v
  have hblank := hafter.no_answers_of_empty (i := added)
    ⟨hafter.modified.has added hleads.has, hleads.head⟩
    (by rw [node_modify (hgrown.has h hh.has), if_neg (ne_added hpush hh.has), hempty])
  have hopens : Opens pool plan index unit
      (pushed.modify h fun node => node.setChild unit.symbol added).trie added := by
    refine ⟨added_ne_zero hpush hh.has, hblank, ?_, fun j hj v => ?_, fun j hj v => ?_⟩
    · rintro j hj v ⟨rfl, hfold⟩
      rw [hforest.childAt_of_holder hj (hh.of_fold hfold.symm),
        ((CodeUnit.fold_eq_fold_iff v unit).mp hfold).1, hnone]
    · rw [Trie.valueAt, hslot j (hgrown.isHead hj)]
      split
      · next hplace =>
        obtain ⟨rfl, hfold⟩ := hplace
        rw [hforest.valueAt_of_holder hj (hh.of_fold hfold.symm),
          ((CodeUnit.fold_eq_fold_iff v unit).mp hfold).1, ← hnode]
        rfl
      · exact (hsame j hj v).1
    · rw [Trie.childAt, hslot j (hgrown.isHead hj)]
      split
      · rfl
      · exact (hsame j hj v).2
  exact ⟨hgrown.trans hafter.modified, fun i hi key => hopens.lookup hforest hi key,
    fun i hi units j hwalk => hopens.walk hforest hi hwalk, hopens.leads hi⟩

/-- The child of a slot is the one that is there, or a new node that the slot comes to refer to. -/
theorem child_cases {h : UInt32} {symbol : Symbol} {descended : Pool} {below : UInt32}
    (hchild : pool.child h symbol = .ok (descended, below)) :
    (((pool.node h).slot symbol).child ≠ 0 ∧ descended = pool ∧
        below = ((pool.node h).slot symbol).child) ∨
      ((pool.node h).slot symbol).child = 0 ∧ ∃ pushed, pool.push = .ok (pushed, below) ∧
        descended = pushed.modify h fun node => node.setChild symbol below := by
  unfold child at hchild
  dsimp only at hchild
  split at hchild
  · next hknown =>
    obtain ⟨rfl, rfl⟩ := Prod.mk.inj (Except.ok.inj hchild)
    exact .inl ⟨by simpa using hknown, rfl, rfl⟩
  · next hnone =>
    obtain ⟨⟨pushed, added⟩, hpush, hchild⟩ := exists_of_bind_eq_ok hchild
    obtain ⟨rfl, rfl⟩ := Prod.mk.inj (Except.ok.inj hchild)
    exact .inr ⟨by simpa using hnone, pushed, hpush, rfl⟩

theorem child_writes {h : UInt32} (hh : pool.Has h) {symbol : Symbol} {descended : Pool}
    {below : UInt32} (hchild : pool.child h symbol = .ok (descended, below)) :
    Writes pool descended := by
  rcases child_cases hchild with ⟨-, rfl, -⟩ | ⟨hnone, pushed, hpush, rfl⟩
  · exact .refl
  · exact .single (.child hpush hh hnone)

theorem child_spec (hforest : pool.Forest plan) {index h : UInt32} {unit : CodeUnit}
    (hi : pool.IsHead plan index) (hh : pool.Holder plan index unit h) {descended : Pool}
    {below : UInt32} (hchild : pool.child h unit.symbol = .ok (descended, below)) :
    ∃ plan', Descended pool plan index unit descended plan' below := by
  rcases child_cases hchild with ⟨hknown, rfl, rfl⟩ | ⟨hnone, pushed, hpush, rfl⟩
  · exact ⟨plan, descended_known hforest hi hh hknown⟩
  · exact ⟨_, descended_added hforest hi hh hnone hpush⟩

/-! ## Insertion -/

theorem Forest.setValue (hforest : pool.Forest plan) {index h : UInt32} {unit : CodeUnit}
    (hh : pool.Holder plan index unit h) (value : UInt32) :
    (pool.modify h fun node => node.setValue unit.symbol value).Forest plan :=
  hforest.setSlot hh rfl fun hne => hforest.child h unit hh.has hh.serves hne

theorem childAt_setValue (hforest : pool.Forest plan) {index h : UInt32} {unit : CodeUnit}
    (hh : pool.Holder plan index unit h) (value : UInt32) {j : UInt32} (hj : pool.IsHead plan j)
    (v : CodeUnit) :
    (pool.modify h fun node => node.setValue unit.symbol value).trie.childAt j v =
      pool.trie.childAt j v := by
  rw [Trie.childAt, slot?_setSlot hforest hh rfl (hforest.setValue hh value) hj]
  split
  · next hplace =>
    obtain ⟨rfl, hfold⟩ := hplace
    rw [hforest.childAt_of_holder hj (hh.of_fold hfold.symm),
      ((CodeUnit.fold_eq_fold_iff v unit).mp hfold).1]
    rfl
  · rfl

/-- Setting the value at the end of a walk is seen by the lookups that go that way, up to case. -/
theorem setValue_spec (hforest : pool.Forest plan) {root index h : UInt32} {front : CodeUnits}
    {last : CodeUnit} (hroot : pool.IsRoot plan root)
    (hwalk : pool.trie.walk root front = some index) (hh : pool.Holder plan index last h)
    (value : UInt32) :
    Grown pool plan (pool.modify h fun node => node.setValue last.symbol value) plan ∧
      ∀ r, pool.IsRoot plan r → ∀ key,
        (pool.modify h fun node => node.setValue last.symbol value).trie.lookup r key =
          if r = root ∧ fold key = fold (front ++ [last]) then value
          else pool.trie.lookup r key := by
  have hafter := hforest.setValue hh value
  refine ⟨hafter.modified, fun r hr key => ?_⟩
  have hvalue : ∀ j, pool.IsHead plan j → ∀ v,
      (pool.modify h fun node => node.setValue last.symbol value).trie.valueAt j v =
        if j = index ∧ v.fold = last.fold then value else pool.trie.valueAt j v := by
    intro j hj v
    rw [Trie.valueAt, slot?_setSlot hforest hh rfl hafter hj]
    split <;> rfl
  rcases List.eq_nil_or_concat key with rfl | ⟨units, v, rfl⟩
  · rw [if_neg]
    · rfl
    · rintro ⟨-, hfold⟩
      exact absurd hfold (by simp [fold])
  · have hfolds : fold (units ++ [v]) = fold (front ++ [last]) ↔
        fold units = fold front ∧ v.fold = last.fold := by
      simp [fold]
    have hplace := hforest.walk_eq_iff hroot hr hwalk units
    rw [List.concat_eq_append, Trie.lookup_append, Trie.lookup_append,
      hforest.walk_congr (fun j hj v => childAt_setValue hforest hh value hj v) hr.1]
    simp only [hfolds, ← and_assoc, ← hplace]
    cases hto : pool.trie.walk r units with
    | none => simp
    | some j =>
      rw [Option.map_some, Option.map_some, Option.getD_some, Option.getD_some,
        hvalue j (hforest.place_of_root_walk hr hto).1]
      simp only [Option.some.injEq]

/-- The pool that an insertion leaves, also when it ends half way for want of nodes. -/
def afterInsert (pool : Pool) (root : UInt32) (key : CodeUnits) (value : UInt32) : Pool :=
  match key with
  | [] => pool
  | [last] =>
    match pool.claim root last with
    | .ok (claimed, holder) => claimed.modify holder fun node => node.setValue last.symbol value
    | .error _ => pool
  | unit :: next :: rest =>
    match pool.claim root unit with
    | .ok (claimed, holder) =>
      match claimed.child holder unit.symbol with
      | .ok (grown, below) => grown.afterInsert below (next :: rest) value
      | .error _ => claimed
    | .error _ => pool

theorem insert_of_claim {root holder : UInt32} {last : CodeUnit} {claimed : Pool}
    (hclaim : pool.claim root last = .ok (claimed, holder)) (value : UInt32) :
    pool.insert root [last] value =
      .ok (claimed.modify holder fun node => node.setValue last.symbol value) := by
  rw [insert, hclaim]
  rfl

theorem insert_of_child {root holder below : UInt32} {unit next : CodeUnit} {rest : CodeUnits}
    {claimed grown : Pool} (hclaim : pool.claim root unit = .ok (claimed, holder))
    (hchild : claimed.child holder unit.symbol = .ok (grown, below)) (value : UInt32) :
    pool.insert root (unit :: next :: rest) value = grown.insert below (next :: rest) value := by
  rw [insert, hclaim]
  simp only [bind, Except.bind, hchild]

theorem insert_of_claim_error {root : UInt32} {unit : CodeUnit} {cause : BuildError}
    (hclaim : pool.claim root unit = .error cause) (rest : CodeUnits) (value : UInt32) :
    pool.insert root (unit :: rest) value = .error cause := by
  cases rest <;> rw [insert, hclaim] <;> rfl

theorem insert_of_child_error {root holder : UInt32} {unit next : CodeUnit} {rest : CodeUnits}
    {claimed : Pool} {cause : BuildError} (hclaim : pool.claim root unit = .ok (claimed, holder))
    (hchild : claimed.child holder unit.symbol = .error cause) (value : UInt32) :
    pool.insert root (unit :: next :: rest) value = .error cause := by
  rw [insert, hclaim]
  simp only [bind, Except.bind, hchild]

theorem afterInsert_of_insert {root : UInt32} {key : CodeUnits} {value : UInt32} {inserted : Pool}
    (hinsert : pool.insert root key value = .ok inserted) :
    pool.afterInsert root key value = inserted := by
  fun_induction afterInsert pool root key value with
  | case1 pool root => exact absurd hinsert (by simp [insert])
  | case2 pool root last claimed holder hclaim =>
    exact Except.ok.inj ((insert_of_claim hclaim value).symm.trans hinsert)
  | case3 pool root last cause hclaim =>
    exact absurd ((insert_of_claim_error hclaim [] value).symm.trans hinsert) (by simp)
  | case4 pool root unit next rest claimed holder hclaim grown below hchild ih =>
    exact ih ((insert_of_child hclaim hchild value).symm.trans hinsert)
  | case5 pool root unit next rest claimed holder hclaim cause hchild =>
    exact absurd ((insert_of_child_error hclaim hchild value).symm.trans hinsert) (by simp)
  | case6 pool root unit next rest cause hclaim =>
    exact absurd ((insert_of_claim_error hclaim _ value).symm.trans hinsert) (by simp)

/-- Inserting a key below the node that `front` leads to: the lookup of the key changes if the
insertion succeeds, and no other lookup changes in any case. -/
theorem afterInsert_below_spec (hforest : pool.Forest plan) {root index : UInt32}
    {front : CodeUnits} (hroot : pool.IsRoot plan root)
    (hwalk : pool.trie.walk root front = some index) (key : CodeUnits) (value : UInt32) :
    ∃ plan', Grown pool plan (pool.afterInsert index key value) plan' ∧
      Writes pool (pool.afterInsert index key value) ∧
      ∀ r, pool.IsRoot plan r → ∀ query,
        (pool.afterInsert index key value).trie.lookup r query =
          if (pool.insert index key value).isOk = true ∧ r = root ∧
            fold query = fold (front ++ key) then value
          else pool.trie.lookup r query := by
  have hfailed : ∀ {result : Except BuildError Pool} {cause : BuildError} {p : Prop},
      result = .error cause → ¬(result.isOk = true ∧ p) := by
    rintro result cause p rfl ⟨hok, -⟩
    exact Bool.false_ne_true hok
  fun_induction afterInsert pool index key value generalizing plan front with
  | case1 pool index =>
    exact ⟨plan, Grown.refl hforest, .refl, fun r _ query => (if_neg (hfailed rfl)).symm⟩
  | case2 pool index last claimed holder hclaim =>
    have hi := (hforest.place_of_walk hroot.1 hwalk).1
    obtain ⟨plan', hclaimed⟩ := claim_spec hforest hi hclaim
    have hwalk' : claimed.trie.walk root front = some index := by
      rw [hclaimed.same.walk hforest hroot.1, hwalk]
    obtain ⟨hset, hlookup⟩ := setValue_spec hclaimed.grown.forest
      (hclaimed.grown.isRoot hroot) hwalk' hclaimed.holder value
    refine ⟨plan', hclaimed.grown.trans hset,
      ((claim_claims hforest hi hclaim).writes hforest hi).tail (.value hclaimed.holder.has),
      fun r hr query => ?_⟩
    rw [hlookup r (hclaimed.grown.isRoot hr), hclaimed.same.lookup hforest hr.1,
      insert_of_claim hclaim]
    simp only [Except.isOk, Except.toBool, true_and]
  | case3 pool index last cause hclaim =>
    exact ⟨plan, Grown.refl hforest, .refl, fun r _ query =>
      (if_neg (hfailed (insert_of_claim_error hclaim [] value))).symm⟩
  | case4 pool index unit next rest claimed holder hclaim grown below hchild ih =>
    have hi := (hforest.place_of_walk hroot.1 hwalk).1
    obtain ⟨plan₁, hclaimed⟩ := claim_spec hforest hi hclaim
    obtain ⟨plan₂, hdescended⟩ := child_spec hclaimed.grown.forest
      (hclaimed.grown.isHead hi) hclaimed.holder hchild
    have hstep := hclaimed.grown.trans hdescended.grown
    have hwalk' : grown.trie.walk root (front ++ [unit]) = some below := by
      rw [Trie.walk_append, hdescended.walk root (hclaimed.grown.isHead hroot.1) front index
        (by rw [hclaimed.same.walk hforest hroot.1, hwalk])]
      exact hdescended.leads
    obtain ⟨plan₃, hlast, hwrites, hlookup⟩ :=
      ih hdescended.grown.forest (hstep.isRoot hroot) hwalk'
    refine ⟨plan₃, hstep.trans hlast, (((claim_claims hforest hi hclaim).writes hforest hi).trans
      (child_writes hclaimed.holder.has hchild)).trans hwrites, fun r hr query => ?_⟩
    rw [hlookup r (hstep.isRoot hr), hdescended.lookup r (hclaimed.grown.isHead hr.1),
      hclaimed.same.lookup hforest hr.1, insert_of_child hclaim hchild, List.append_assoc]
    rfl
  | case5 pool index unit next rest claimed holder hclaim cause hchild =>
    have hi := (hforest.place_of_walk hroot.1 hwalk).1
    obtain ⟨plan', hclaimed⟩ := claim_spec hforest hi hclaim
    refine ⟨plan', hclaimed.grown, (claim_claims hforest hi hclaim).writes hforest hi,
      fun r hr query => ?_⟩
    rw [if_neg (hfailed (insert_of_child_error hclaim hchild value)),
      hclaimed.same.lookup hforest hr.1]
  | case6 pool index unit next rest cause hclaim =>
    exact ⟨plan, Grown.refl hforest, .refl, fun r _ query =>
      (if_neg (hfailed (insert_of_claim_error hclaim _ value))).symm⟩

theorem insert_below_spec (hforest : pool.Forest plan) {root index : UInt32} {front : CodeUnits}
    (hroot : pool.IsRoot plan root) (hwalk : pool.trie.walk root front = some index)
    {key : CodeUnits} {value : UInt32} {inserted : Pool}
    (hinsert : pool.insert index key value = .ok inserted) :
    ∃ plan', Grown pool plan inserted plan' ∧ ∀ r, pool.IsRoot plan r → ∀ query,
      inserted.trie.lookup r query =
        if r = root ∧ fold query = fold (front ++ key) then value
        else pool.trie.lookup r query := by
  obtain ⟨plan', hgrown, -, hlookup⟩ := afterInsert_below_spec hforest hroot hwalk key value
  rw [afterInsert_of_insert hinsert] at hgrown hlookup
  refine ⟨plan', hgrown, fun r hr query => ?_⟩
  rw [hlookup r hr, hinsert]
  simp only [Except.isOk, Except.toBool, true_and]

/-- Inserting a key changes the lookup of that key from its root, and no other lookup. -/
theorem insert_spec (hforest : pool.Forest plan) {root : UInt32} (hroot : pool.IsRoot plan root)
    {key : CodeUnits} {value : UInt32} {inserted : Pool}
    (hinsert : pool.insert root key value = .ok inserted) :
    ∃ plan', Grown pool plan inserted plan' ∧ ∀ r, pool.IsRoot plan r → ∀ query,
      inserted.trie.lookup r query =
        if r = root ∧ fold query = fold key then value else pool.trie.lookup r query :=
  insert_below_spec hforest hroot (show pool.trie.walk root [] = some root from rfl) hinsert

def Plan.new : Plan := ⟨fun _ => 0, fun _ => 0, fun _ => []⟩

theorem eq_zero_of_has_new {i : UInt32} (hi : Pool.new.Has i) : i = 0 := by
  have hlt : i.toNat < 1 := hi
  apply UInt32.toNat_inj.mp
  rw [UInt32.toNat_zero]
  omega

theorem forest_new : Pool.new.Forest Plan.new := by
  have hzero : ∀ i, Pool.new.Has i → i = 0 := fun i => eq_zero_of_has_new
  have hnode : Pool.new.node 0 = Node.empty := rfl
  refine ⟨by decide, fun _ _ => Nat.one_pos, ?_, ?_, ?_, ?_, ?_, ?_⟩
  · intro i hi hnext
    rw [hzero i hi, hnode] at hnext
    exact absurd rfl hnext
  · intro i hi hnext
    rw [hzero i hi, hnode] at hnext
    exact absurd rfl hnext
  · intro i hi
    rw [hzero i hi]
    exact .refl 0
  · intro i j unit hi hj _ _ _
    rw [hzero i hi, hzero j hj]
  · intro i s hi _
    rw [hzero i hi, hnode]
    exact Node.slot_empty s
  · intro i unit hi hserves
    rw [hzero i hi, hnode, serves_empty] at hserves
    exact absurd hserves Bool.false_ne_true

theorem isRoot_new : Pool.new.IsRoot Plan.new 0 := ⟨⟨Nat.one_pos, rfl⟩, rfl, rfl⟩

theorem lookup_new (key : CodeUnits) : Pool.new.trie.lookup 0 key = 0 :=
  lookup_of_no_answers (forest_new.no_answers_of_empty isRoot_new.1 rfl) key

end StyleRules.Table.Pool
