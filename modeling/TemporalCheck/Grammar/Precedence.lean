import TemporalCheck.Grammar.Parser

namespace TemporalCheck.Grammar

/-- A binary operator: the level it stands on, the least level of an operator inside its right
operand, the tokens between the operands, and the value it builds. -/
structure Binary (α : Type) where
  level : Nat
  rightLevel : Nat
  token : Parser Unit
  build : α → α → α

namespace Binary

variable {α : Type}

def leftToRight (level : Nat) (token : Parser Unit) (build : α → α → α) : Binary α :=
  ⟨level, level + 1, token, build⟩

def rightToLeft (level : Nat) (token : Parser Unit) (build : α → α → α) : Binary α :=
  ⟨level, level, token, build⟩

end Binary

/-- An operand may contain expressions of any least level, and the operators are tried in
order. -/
structure Precedence (α : Type) where
  operand : (Nat → Parser α) → Parser α
  binaries : List (Binary α)

namespace Precedence

variable {α : Type}

def continuation (expr : Nat → Parser α) (least : Nat) (left : α) : List (Binary α) → Parser α
  | [] => Parser.fail
  | b :: bs =>
    if least ≤ b.level then
      (do
        b.token
        let right ← expr b.rightLevel
        pure (b.build left right)) <|> continuation expr least left bs
    else continuation expr least left bs

def extend (expr : Nat → Parser α) (binaries : List (Binary α)) (least : Nat) : Nat → α → Parser α
  | 0, left => pure left
  | n + 1, left =>
    (continuation expr least left binaries >>= extend expr binaries least n) <|> pure left

/-- Reads an expression whose operators stand on the level `least` or above, nested at most
`depth` times. -/
def expression (g : Precedence α) : Nat → Nat → Parser α
  | 0, _ => Parser.fail
  | depth + 1, least => fun c =>
    (g.operand (g.expression depth) >>=
      extend (g.expression depth) g.binaries least c.rest.length) c

/-- Reads an expression of any level. Nesting and continuation take a character each, so the
length of the text bounds both. -/
def parser (g : Precedence α) : Parser α := fun c => g.expression (c.rest.length + 1) 0 c

end Precedence

end TemporalCheck.Grammar
