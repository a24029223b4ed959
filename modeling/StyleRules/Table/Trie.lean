import StyleRules.Table.Node

/-!
# Looking keys up

A trie is an array of nodes with references between them. A letter's slot is in the node itself;
any other unit's slot is in the node or in the chain of its alternates. The chain is followed for at
most as many steps as there are nodes, so a lookup ends on any references whatever.
-/

namespace StyleRules.Table

structure Trie where
  nodes : Array Node

namespace Trie

def empty : Trie := ⟨#[]⟩

/-- How many nodes a trie has at most; their number has to fit in a word. -/
def maxSize : Nat := Word.count - 1

/-- The trie that a byte string holds. -/
def ofBytes (bytes : Bytes) : Trie := ⟨((Node.ofAllBytes bytes).take maxSize).toArray⟩

def size (trie : Trie) : Nat := trie.nodes.size

def node? (trie : Trie) (index : UInt32) : Option Node := trie.nodes[index.toNat]?

/-- The first of at most `steps` nodes, from `index` on along the alternates, that holds `unit`. -/
def alternate? (trie : Trie) (unit : CodeUnit) : Nat → UInt32 → Option Node
  | 0, _ => none
  | steps + 1, index =>
    match trie.node? index with
    | none => none
    | some node =>
      if node.holdsOther unit then some node
      else if node.nextOther == 0 then none
      else alternate? trie unit steps node.nextOther

def slot? (trie : Trie) (index : UInt32) (unit : CodeUnit) : Option Slot :=
  if unit.symbol = Symbol.other then
    (trie.alternate? unit trie.size index).map fun node => node.slot Symbol.other
  else
    match trie.node? index with
    | none => none
    | some node => if node.occupied unit.symbol then some (node.slot unit.symbol) else none

/-- The value of `key` from node `root` on: `0` for an empty key, an absent key, and a walk that
leaves the trie. -/
def lookup (trie : Trie) (root : UInt32) : CodeUnits → UInt32
  | [] => 0
  | [last] =>
    match trie.slot? root last with
    | none => 0
    | some slot => slot.value
  | unit :: next :: rest =>
    match trie.slot? root unit with
    | none => 0
    | some slot => if slot.child == 0 then 0 else lookup trie slot.child (next :: rest)

end Trie

end StyleRules.Table
