import StyleRules.Token.Kind

/-!
# Nesting

How many blocks of each sort are open. A closer without its opener counts for nothing.
-/

namespace StyleRules

structure Nesting where
  brace : Nat
  paren : Nat
  bracket : Nat
  deriving DecidableEq, Repr

namespace Nesting

def top : Nesting := ⟨0, 0, 0⟩

def isTop (nesting : Nesting) : Bool :=
  nesting.brace == 0 && nesting.paren == 0 && nesting.bracket == 0

/-- The nesting behind a token. A function opens a parenthesis. -/
def after (nesting : Nesting) (kind : Token.Kind) : Nesting :=
  match kind with
  | .function | .leftParen => { nesting with paren := nesting.paren + 1 }
  | .leftBracket => { nesting with bracket := nesting.bracket + 1 }
  | .leftBrace => { nesting with brace := nesting.brace + 1 }
  | .rightParen => { nesting with paren := nesting.paren - 1 }
  | .rightBracket => { nesting with bracket := nesting.bracket - 1 }
  | .rightBrace => { nesting with brace := nesting.brace - 1 }
  | _ => nesting

@[simp] theorem isTop_top : top.isTop = true := rfl

theorem isTop_iff (nesting : Nesting) : nesting.isTop = true ↔ nesting = top := by
  cases nesting
  simp [isTop, top, and_assoc]

end Nesting

end StyleRules
