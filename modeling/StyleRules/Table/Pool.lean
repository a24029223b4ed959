import StyleRules.Table.Node
import StyleRules.Text.Utf16

/-!
# Pools of nodes under construction

Keys are inserted below a root; nodes are only ever added behind those that are there, so every
reference points forward. Inserting a key again replaces its value.
-/

namespace StyleRules.Table

inductive BuildError where
  | emptyKey
  | zeroId
  | tooManyNodes
  deriving DecidableEq, Repr

namespace BuildError

def message : BuildError → String
  | emptyKey => "rule keys must be non-empty"
  | zeroId => "rule ids must be non-zero (0 means \"no rule\")"
  | tooManyNodes => "rule table exceeds the u32 node limit"

end BuildError

structure Pool where
  nodes : Array Node

namespace Pool

def new : Pool := ⟨#[Node.empty]⟩

def node (pool : Pool) (index : UInt32) : Node := pool.nodes.getD index.toNat Node.empty

def modify (pool : Pool) (index : UInt32) (f : Node → Node) : Pool :=
  ⟨pool.nodes.modify index.toNat f⟩

/-- Adds an empty node and answers with its index. -/
def push (pool : Pool) : Except BuildError (Pool × UInt32) :=
  if pool.nodes.size < Word.count then
    .ok (⟨pool.nodes.push Node.empty⟩, UInt32.ofNat pool.nodes.size)
  else .error .tooManyNodes

/-- Makes room for a unit other than a letter at `holder` or in its alternates, and answers with the
node that has the room. Alternates lie behind their holder; a link that does not is no alternate. -/
def claimOther (pool : Pool) (holder : UInt32) (unit : CodeUnit) :
    Except BuildError (Pool × UInt32) :=
  if !(pool.node holder).occupied Symbol.other then
    .ok (pool.modify holder fun node => node.occupyOther unit, holder)
  else if (pool.node holder).otherUnit == unit.toUInt32 then .ok (pool, holder)
  else if holder < (pool.node holder).nextOther then
    claimOther pool (pool.node holder).nextOther unit
  else do
    let (grown, next) ← pool.push
    let linked := grown.modify holder fun node => { node with nextOther := next }
    .ok (linked.modify next fun node => node.occupyOther unit, next)
termination_by Word.count - holder.toNat
decreasing_by
  next hforward =>
    have := UInt32.lt_iff_toNat_lt.mp hforward
    have := (pool.node holder).nextOther.toNat_lt
    unfold Word.count
    omega

/-- Makes room for `unit` at node `index` and answers with the node that has the room. -/
def claim (pool : Pool) (index : UInt32) (unit : CodeUnit) : Except BuildError (Pool × UInt32) :=
  if unit.symbol = Symbol.other then pool.claimOther index unit
  else .ok (pool.modify index fun node => node.occupy unit.symbol, index)

/-- The child at a slot, added if there is none. -/
def child (pool : Pool) (holder : UInt32) (symbol : Symbol) : Except BuildError (Pool × UInt32) :=
  let known := ((pool.node holder).slot symbol).child
  if known != 0 then .ok (pool, known)
  else do
    let (grown, added) ← pool.push
    .ok (grown.modify holder fun node => node.setChild symbol added, added)

def insert (pool : Pool) (root : UInt32) (key : CodeUnits) (value : UInt32) :
    Except BuildError Pool :=
  match key with
  | [] => .error .emptyKey
  | [last] => do
    let (claimed, holder) ← pool.claim root last
    .ok (claimed.modify holder fun node => node.setValue last.symbol value)
  | unit :: next :: rest => do
    let (claimed, holder) ← pool.claim root unit
    let (grown, below) ← claimed.child holder unit.symbol
    grown.insert below (next :: rest) value

def bytes (pool : Pool) : Bytes := pool.nodes.toList.flatMap Node.bytes

end Pool

end StyleRules.Table
