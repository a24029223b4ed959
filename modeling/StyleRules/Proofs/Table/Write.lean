import Mathlib.Logic.Relation
import StyleRules.Proofs.Table.Claim

/-!
# Writes to a pool

Whatever an insertion does to a pool, it does by writes of five kinds. `Write` lists them with what
holds where each of them is made, so a property of pools is kept by every insertion, finished or
not, when it is kept by each of the five.
-/

namespace StyleRules.Table

namespace Node

theorem serves_occupy {node : Node} {unit : CodeUnit} (h : node.serves unit = true) (s : Symbol) :
    (node.occupy s).serves unit = true := by
  unfold serves at h ⊢
  split at h
  · next hother =>
    rw [holdsOther_iff] at h
    rw [if_pos hother, holdsOther_iff, occupied_occupy, h.1]
    exact ⟨rfl, h.2⟩
  · next hletter => rw [if_neg hletter, occupied_occupy, h, Bool.true_or]

/-- A unit taken by a node without one leaves the letters that the node serves. -/
theorem serves_occupyOther {node : Node} {unit : CodeUnit} (h : node.serves unit = true)
    (hfree : node.occupied Symbol.other = false) (taken : CodeUnit) :
    (node.occupyOther taken).serves unit = true := by
  unfold serves at h ⊢
  split at h
  · rw [holdsOther, hfree] at h
    exact absurd h Bool.false_ne_true
  · next hletter => rw [if_neg hletter, occupied_occupyOther, h, Bool.true_or]

end Node

namespace Pool

inductive Write (pool : Pool) : Pool → Prop
  /-- A node that is no alternate makes room for a letter. -/
  | letter {index : UInt32} {unit : CodeUnit} (hhas : pool.Has index)
    (hhead : ∀ i, (pool.node i).nextOther ≠ 0 → (pool.node i).nextOther ≠ index)
    (hletter : unit.symbol ≠ Symbol.other) :
    Write pool (pool.modify index fun node => node.occupy unit.symbol)
  /-- A node that holds no other unit takes one. -/
  | free {holder : UInt32} {unit : CodeUnit} (hhas : pool.Has holder)
    (hfree : (pool.node holder).occupied Symbol.other = false) :
    Write pool (pool.modify holder fun node => node.occupyOther unit)
  /-- The last node of a chain gets an alternate. -/
  | alternate {grown : Pool} {last added : UInt32} {unit : CodeUnit}
    (hpush : pool.push = .ok (grown, added)) (hhas : pool.Has last)
    (hlast : (pool.node last).nextOther = 0) :
    Write pool (grown.addAlternate last added unit)
  /-- A slot without a child gets one. -/
  | child {grown : Pool} {holder added : UInt32} {symbol : Symbol}
    (hpush : pool.push = .ok (grown, added)) (hhas : pool.Has holder)
    (hnone : ((pool.node holder).slot symbol).child = 0) :
    Write pool (grown.modify holder fun node => node.setChild symbol added)
  /-- A slot gets a value. -/
  | value {holder : UInt32} {symbol : Symbol} {value : UInt32} (hhas : pool.Has holder) :
    Write pool (pool.modify holder fun node => node.setValue symbol value)

abbrev Writes : Pool → Pool → Prop := Relation.ReflTransGen Write

variable {pool grown : Pool} {plan : Plan}

theorem Forest.nextOther_ne_of_isHead (hforest : pool.Forest plan) {index : UInt32}
    (hi : pool.IsHead plan index) {i : UInt32} (hnext : (pool.node i).nextOther ≠ 0) :
    (pool.node i).nextOther ≠ index := by
  intro heq
  have hhas := has_of_nextOther_ne_zero hnext
  obtain ⟨hlt, -, hhead⟩ := hforest.link i hhas hnext
  have hle := hforest.le_of_reaches (hforest.head_has i hhas) (hforest.reaches i hhas)
  rw [← hhead, heq, hi.2] at hle
  rw [heq] at hlt
  omega

theorem Claims.writes (hforest : pool.Forest plan) {index holder : UInt32} {unit : CodeUnit}
    (hi : pool.IsHead plan index) {claimed : Pool}
    (hclaims : Claims pool plan index unit claimed holder) : Writes pool claimed := by
  cases hclaims with
  | letter hletter =>
    exact .single (.letter hi.1 (fun _ hnext => hforest.nextOther_ne_of_isHead hi hnext) hletter)
  | free _ hh _ hfree => exact .single (.free hh hfree)
  | known => exact .refl
  | alternate _ hpush hh _ _ hlast => exact .single (.alternate hpush hh hlast)

/-! ## What stays -/

/-- Nodes stay, and so do the units that they serve and the children that they have. -/
structure Keeps (pool grown : Pool) : Prop where
  has : ∀ i, pool.Has i → grown.Has i
  serves : ∀ i unit, pool.Has i → (pool.node i).serves unit = true →
    (grown.node i).serves unit = true
  child : ∀ i s, pool.Has i → ((pool.node i).slot s).child ≠ 0 →
    ((grown.node i).slot s).child = ((pool.node i).slot s).child

theorem Keeps.refl (pool : Pool) : Keeps pool pool :=
  ⟨fun _ hi => hi, fun _ _ _ hserves => hserves, fun _ _ _ _ => rfl⟩

theorem Keeps.trans {last : Pool} (hfirst : Keeps pool grown) (hsecond : Keeps grown last) :
    Keeps pool last where
  has i hi := hsecond.has i (hfirst.has i hi)
  serves i unit hi hserves :=
    hsecond.serves i unit (hfirst.has i hi) (hfirst.serves i unit hi hserves)
  child i s hi hchild := by
    have hsame := hfirst.child i s hi hchild
    rw [hsecond.child i s (hfirst.has i hi) (by rwa [hsame]), hsame]

theorem keeps_modify {index : UInt32} (hindex : pool.Has index) {f : Node → Node}
    (hserves : ∀ unit, (pool.node index).serves unit = true →
      (f (pool.node index)).serves unit = true)
    (hchild : ∀ s, ((pool.node index).slot s).child ≠ 0 →
      ((f (pool.node index)).slot s).child = ((pool.node index).slot s).child) :
    Keeps pool (pool.modify index f) := by
  refine ⟨fun i hi => (has_modify ..).mpr hi, fun i unit _ => ?_, fun i s _ => ?_⟩
  · rw [node_modify hindex]
    split
    · next heq => exact heq ▸ hserves unit
    · exact id
  · rw [node_modify hindex]
    split
    · next heq => exact heq ▸ hchild s
    · exact fun _ => rfl

theorem keeps_push {added : UInt32} (hpush : pool.push = .ok (grown, added)) :
    Keeps pool grown := by
  have hkept := (push_spec hpush).2.2.2.2
  refine ⟨fun i hi => (has_push hpush i).mpr (.inl hi), fun i unit hi => ?_, fun i s hi => ?_⟩
  · rw [hkept i hi]
    exact id
  · rw [hkept i hi]
    exact fun _ => rfl

theorem Write.keeps (h : Write pool grown) : Keeps pool grown := by
  cases h with
  | letter hhas hhead hletter =>
    exact keeps_modify hhas (fun _ hserves => Node.serves_occupy hserves _) fun _ _ => rfl
  | free hhas hfree =>
    exact keeps_modify hhas (fun _ hserves => Node.serves_occupyOther hserves hfree _)
      fun _ _ => rfl
  | @alternate pushed last added unit hpush hhas hlast =>
    have hext : Extends pool (pushed.addAlternate last added unit) added :=
      extends_addAlternate hpush hhas
    refine ⟨fun i hi => (hext.has i).mpr (.inl hi), fun i unit hi => ?_, fun i s hi => ?_⟩
    · rw [hext.serves i hi]
      exact id
    · rw [hext.slot i hi]
      exact fun _ => rfl
  | @child pushed holder added symbol hpush hhas hnone =>
    have hpushed : pushed.Has holder := (has_push hpush holder).mpr (.inl hhas)
    refine (keeps_push hpush).trans
      (keeps_modify hpushed (fun _ hserves => hserves) fun s hne => ?_)
    rw [(push_spec hpush).2.2.2.2 holder hhas] at hne ⊢
    unfold Node.setChild
    rw [Node.slot_setSlot, if_neg]
    rintro rfl
    exact hne hnone
  | @value holder symbol value hhas =>
    refine keeps_modify hhas (fun _ hserves => hserves) fun s _ => ?_
    unfold Node.setValue
    rw [Node.slot_setSlot]
    split
    · next heq => rw [heq]
    · rfl

theorem Writes.keeps (h : Writes pool grown) : Keeps pool grown := by
  induction h with
  | refl => exact Keeps.refl pool
  | tail _ hwrite ih => exact ih.trans hwrite.keeps

end Pool

end StyleRules.Table
