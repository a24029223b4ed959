import StyleRules.Table.Symbol
import StyleRules.Table.Word

/-!
# Trie nodes and their bytes

A node is 57 little-endian words: the map of occupied symbols, the unit that its symbol `other`
stands for, the next alternate node, and a value and a child for each symbol. The reference `0`
means "none", since node `0` is a root and nobody's child.
-/

namespace StyleRules.Table

/-- What a node holds for one symbol: a value for keys that end here, a child for longer keys. -/
structure Slot where
  value : UInt32
  child : UInt32
  deriving DecidableEq, Repr

structure Node where
  /-- Bit `i` tells whether symbol `i` is occupied. -/
  charMap : UInt32
  /-- The unit that the symbol `other` stands for here. -/
  otherUnit : UInt32
  /-- The node for one more unit that is not a letter. -/
  nextOther : UInt32
  slots : Vector Slot 27
  deriving DecidableEq

namespace Node

def empty : Node := ⟨0, 0, 0, Vector.replicate 27 ⟨0, 0⟩⟩

def bit (symbol : Symbol) : UInt32 := 1 <<< UInt32.ofNat symbol.val

def occupied (node : Node) (symbol : Symbol) : Bool := node.charMap &&& bit symbol != 0

def occupy (node : Node) (symbol : Symbol) : Node :=
  { node with charMap := node.charMap ||| bit symbol }

/-- The node whose symbol `other` stands for `unit`. -/
def occupyOther (node : Node) (unit : CodeUnit) : Node :=
  { node.occupy Symbol.other with otherUnit := unit.toUInt32 }

def holdsOther (node : Node) (unit : CodeUnit) : Bool :=
  node.occupied Symbol.other && node.otherUnit == unit.toUInt32

def slot (node : Node) (symbol : Symbol) : Slot := node.slots[symbol]

def setSlot (node : Node) (symbol : Symbol) (slot : Slot) : Node :=
  { node with slots := node.slots.set symbol slot }

def setValue (node : Node) (symbol : Symbol) (value : UInt32) : Node :=
  node.setSlot symbol { node.slot symbol with value := value }

def setChild (node : Node) (symbol : Symbol) (child : UInt32) : Node :=
  node.setSlot symbol { node.slot symbol with child := child }

/-! ## Encoding -/

def wordCount : Nat := 57

def byteCount : Nat := 4 * wordCount

def words (node : Node) : List UInt32 :=
  node.charMap :: node.otherUnit :: node.nextOther ::
    node.slots.toList.flatMap fun slot => [slot.value, slot.child]

def bytes (node : Node) : Bytes := node.words.flatMap Word.bytes

/-- The node that the first 57 words describe; missing words count as `0`. -/
def ofWords (words : List UInt32) : Node :=
  ⟨words.getD 0 0, words.getD 1 0, words.getD 2 0,
    Vector.ofFn fun symbol =>
      ⟨words.getD (3 + 2 * symbol.val) 0, words.getD (4 + 2 * symbol.val) 0⟩⟩

/-- The nodes that a run of words describes; words after the last whole node are left out. -/
def ofAllWords (words : List UInt32) : List Node :=
  match _h : words.drop 56 with
  | [] => []
  | _ :: rest => ofWords (words.take 57) :: ofAllWords rest
termination_by words.length
decreasing_by
  have := congrArg List.length _h
  simp only [List.length_drop, List.length_cons] at this
  omega

/-- The nodes that a byte string describes; bytes after the last whole node are left out. -/
def ofAllBytes (bytes : Bytes) : List Node := ofAllWords (Word.ofAllBytes bytes)

end Node

end StyleRules.Table
