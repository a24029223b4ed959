import StyleRules.Token.Kind

/-!
# Tokens

A token is a kind, a length in code units and two flags. Readers build it from its end: what follows
the first units is read as a token of its own and then grown over them.
-/

namespace StyleRules

structure Flags where
  /-- The text ended before the token did. -/
  unterminated : Bool
  /-- The token holds an escape. -/
  escaped : Bool
  deriving DecidableEq, Repr

namespace Flags

def empty : Flags := ⟨false, false⟩

def union (a b : Flags) : Flags := ⟨a.unterminated || b.unterminated, a.escaped || b.escaped⟩

/-- The flags as bits: 1 for unterminated, 2 for escaped. -/
def bits (flags : Flags) : Nat :=
  (if flags.unterminated then 1 else 0) + (if flags.escaped then 2 else 0)

def names (flags : Flags) : List String :=
  (if flags.unterminated then ["unterminated"] else []) ++
    (if flags.escaped then ["escaped"] else [])

end Flags

structure Token where
  kind : Token.Kind
  length : Nat
  flags : Flags
  deriving DecidableEq, Repr

namespace Token

def plain (kind : Kind) (length : Nat) : Token := ⟨kind, length, .empty⟩

def eof : Token := plain .eof 0

/-- The token that also covers the `n` units before it. -/
def grow (n : Nat) (token : Token) : Token := { token with length := n + token.length }

def markEscaped (token : Token) : Token :=
  { token with flags := { token.flags with escaped := true } }

def markUnterminated (token : Token) : Token :=
  { token with flags := { token.flags with unterminated := true } }

@[simp] theorem length_plain (kind : Kind) (n : Nat) : (plain kind n).length = n := rfl

@[simp] theorem length_grow (n : Nat) (token : Token) :
    (token.grow n).length = n + token.length := rfl

theorem grow_grow (token : Token) (m n : Nat) : (token.grow m).grow n = token.grow (n + m) := by
  simp only [grow, Nat.add_assoc]

@[simp] theorem length_markEscaped (token : Token) : token.markEscaped.length = token.length := rfl

end Token

end StyleRules
