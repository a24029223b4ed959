import StyleRules.Table.Pool

/-!
# Slots of a node

What the writes to a node do to its occupied symbols, its slots and its links. From here on a node
is seen through `occupied`, `slot`, `otherUnit` and `nextOther` only, and a pool through its nodes.
-/

namespace StyleRules.Table

namespace Node

theorem bit_and_bit (s t : Symbol) : bit s &&& bit t ≠ 0 ↔ s = t := by
  revert s t
  decide +kernel

theorem occupied_occupy (node : Node) (s t : Symbol) :
    (node.occupy s).occupied t = (node.occupied t || decide (s = t)) := by
  have hor : ∀ a b c : UInt32, (a ||| b) &&& c = (a &&& c) ||| (b &&& c) := by
    intro a b c
    apply UInt32.toBitVec_inj.mp
    rw [UInt32.toBitVec_and, UInt32.toBitVec_or, UInt32.toBitVec_or, UInt32.toBitVec_and,
      UInt32.toBitVec_and, BitVec.and_comm, BitVec.and_or_distrib_left]
    rw [BitVec.and_comm, BitVec.and_comm c.toBitVec]
  have hbit := bit_and_bit s t
  rw [Bool.eq_iff_iff]
  simp only [occupied, occupy, hor, bne_iff_ne, Bool.or_eq_true, decide_eq_true_eq, ne_eq,
    UInt32.or_eq_zero_iff] at hbit ⊢
  rw [← hbit, Classical.not_and_iff_not_or_not]

@[simp] theorem slot_occupy (node : Node) (s t : Symbol) :
    (node.occupy s).slot t = node.slot t := rfl

@[simp] theorem otherUnit_occupy (node : Node) (s : Symbol) :
    (node.occupy s).otherUnit = node.otherUnit := rfl

@[simp] theorem occupied_occupyOther (node : Node) (unit : CodeUnit) (s : Symbol) :
    (node.occupyOther unit).occupied s = (node.occupied s || decide (Symbol.other = s)) :=
  occupied_occupy node Symbol.other s

@[simp] theorem slot_occupyOther (node : Node) (unit : CodeUnit) (s : Symbol) :
    (node.occupyOther unit).slot s = node.slot s := rfl

@[simp] theorem otherUnit_occupyOther (node : Node) (unit : CodeUnit) :
    (node.occupyOther unit).otherUnit = unit.toUInt32 := rfl

theorem slot_setSlot (node : Node) (s t : Symbol) (slot : Slot) :
    (node.setSlot s slot).slot t = if s = t then slot else node.slot t := by
  unfold setSlot Node.slot
  show (node.slots.set s.val slot)[t.val] = _
  rw [Vector.getElem_set]
  simp only [Fin.ext_iff]
  rfl

@[simp] theorem slot_empty (s : Symbol) : empty.slot s = ⟨0, 0⟩ := by
  unfold empty Node.slot
  exact Vector.getElem_replicate s.isLt

@[simp] theorem occupied_empty (s : Symbol) : empty.occupied s = false := by
  simp [empty, occupied]

theorem holdsOther_iff (node : Node) (unit : CodeUnit) :
    node.holdsOther unit = true ↔
      node.occupied Symbol.other = true ∧ node.otherUnit = unit.toUInt32 := by
  simp [holdsOther]

def serves (node : Node) (unit : CodeUnit) : Bool :=
  if unit.symbol = Symbol.other then node.holdsOther unit else node.occupied unit.symbol

end Node

namespace Pool

def Has (pool : Pool) (index : UInt32) : Prop := index.toNat < pool.nodes.size

@[simp] theorem size_modify (pool : Pool) (index : UInt32) (f : Node → Node) :
    (pool.modify index f).nodes.size = pool.nodes.size := Array.size_modify

@[simp] theorem has_modify (pool : Pool) (index other : UInt32) (f : Node → Node) :
    (pool.modify index f).Has other ↔ pool.Has other := by
  rw [Has, Has, size_modify]

theorem node_modify {pool : Pool} {index : UInt32} (hindex : pool.Has index) (f : Node → Node)
    (other : UInt32) :
    (pool.modify index f).node other =
      if index = other then f (pool.node index) else pool.node other := by
  unfold Pool.node Pool.modify
  rw [Array.getD_eq_getD_getElem?, Array.getElem?_modify, Array.getD_eq_getD_getElem?,
    Array.getD_eq_getD_getElem?]
  by_cases heq : index = other
  · subst heq
    rw [if_pos rfl, if_pos rfl, Array.getElem?_eq_getElem hindex]
    rfl
  · have hne : index.toNat ≠ other.toNat := fun h => heq (UInt32.toNat_inj.mp h)
    rw [if_neg hne, if_neg heq]

theorem exists_of_bind_eq_ok {α β : Type} {first : Except BuildError α}
    {rest : α → Except BuildError β} {result : β} (h : first >>= rest = .ok result) :
    ∃ answer, first = .ok answer ∧ rest answer = .ok result := by
  cases first with
  | error cause => exact absurd h (by simp [bind, Except.bind])
  | ok answer => exact ⟨answer, rfl, h⟩

theorem push_spec {pool grown : Pool} {added : UInt32} (hpush : pool.push = .ok (grown, added)) :
    added.toNat = pool.nodes.size ∧ grown.nodes.size = pool.nodes.size + 1 ∧
      grown.nodes.size ≤ Word.count ∧ grown.node added = Node.empty ∧
      ∀ index, pool.Has index → grown.node index = pool.node index := by
  unfold push at hpush
  split at hpush
  · next hsize =>
    obtain ⟨rfl, rfl⟩ := Prod.mk.inj (Except.ok.inj hpush)
    have hadded : (UInt32.ofNat pool.nodes.size).toNat = pool.nodes.size :=
      UInt32.toNat_ofNat_of_lt' hsize
    refine ⟨hadded, Array.size_push _, by rw [Array.size_push]; exact hsize, ?_, ?_⟩
    · unfold Pool.node
      rw [Array.getD_eq_getD_getElem?, hadded, Array.getElem?_push_size]
      rfl
    · intro index hindex
      unfold Pool.node
      rw [Array.getD_eq_getD_getElem?, Array.getD_eq_getD_getElem?, Array.getElem?_push_lt hindex,
        Array.getElem?_eq_getElem hindex]
  · exact absurd hpush (by simp)

end Pool

end StyleRules.Table
