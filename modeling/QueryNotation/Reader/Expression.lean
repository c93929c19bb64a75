import QueryNotation.Reader.State

/-!
# Reading expressions

An expression is a chain of operands joined by the loosest operators; the operands of a chain are
chains of the next tighter level, and those of the tightest level are prefix expressions.

    chain 0           := prefix operators, then a primary expression
    chain (level + 1) := chain level (operator of level + 1, chain level)*
    primary           := literal | word | word "(" arguments ")" | "(" chain loosest ")"

Every operand but the first of a chain, every operand of a prefix operator, every group and every
list of arguments lies one level deeper than what encloses it.  `Levels` holds the readers for
one depth; `levels room` builds them from the readers for the depth below, so that the recursion is
on the number of levels that are left.
-/

namespace QueryNotation

open BinaryOperator

/-- The readers of expressions at one depth. -/
structure Levels where
  /-- Reads a chain of operators up to the given level. -/
  chain : Nat → Reader Directive
  /-- Reads on after the left operand of a chain of the given level. -/
  chainRest : Nat → Directive → Reader Directive

namespace Reader

/-- Goes one level deeper, if there is one. -/
def descend {α : Type} (deeper : Option Levels) (reader : Levels → Reader α) : Reader α := do
  modify fun s => { s with depth := s.depth + 1 }
  match deeper with
  | some levels => reader levels
  | none => throw (.tooDeep (← get).start)

/-- Reads on after the left operand of a chain: operators of the level, each with an operand of
the next tighter level. -/
def chainRest (deeper : Option Levels) (level : Nat) (left : Directive) : Reader Directive := do
  match atLevel? level (← get).token with
  | none => pure left
  | some op =>
    advance
    descend deeper fun levels => do
      let right ← levels.chain (level - 1)
      levels.chainRest level (.binary op left right)

/-- Reads arguments up to the closing parenthesis.  A comma may follow the last.  Every argument
takes the token after it from the text, so that there are no more of them than characters in
`left`, which holds all that is ahead. -/
def arguments (levels : Levels) (left : List Char) : Reader (List Directive) := do
  if (← get).token = .symbol .closeParen then
    advance
    pure []
  else
    let first ← levels.chain loosest
    if (← get).token ≠ .symbol .closeParen then
      expect (.symbol .comma)
    match left with
    | [] => fail (.token (.symbol .closeParen))
    | _ :: left => pure (first :: (← arguments levels left))

def callArguments (levels : Levels) : Reader (List Directive) := do
  arguments levels (← get).cursor.ahead

def primary (deeper : Option Levels) : Reader Directive := do
  match (← get).token with
  | .literal value => take; pure (.constant value)
  | .symbol .and => take; pure (.column "and")
  | .symbol .or => take; pure (.column "or")
  | .word name =>
    take
    if (← get).token = .symbol .openParen then
      advance
      let arguments ← restoringDepth (descend deeper callArguments)
      pure (.call name arguments)
    else
      pure (.column name)
  | .symbol .openParen =>
    take
    let inner ← restoringDepth (descend deeper fun levels => levels.chain loosest)
    expect (.symbol .closeParen)
    pure (.group inner)
  | _ => fail .expression

def prefixed (deeper : Option Levels) : Reader Directive := do
  match UnaryOperator.ofToken? (← get).token with
  | none => primary deeper
  | some op =>
    advance
    let operand ← restoringDepth (descend deeper fun levels => levels.chain 0)
    pure (.unary op operand)

/-- Reads a chain of operators up to the given level. -/
def chain (deeper : Option Levels) : Nat → Reader Directive
  | 0 => prefixed deeper
  | level + 1 => restoringDepth do
    let left ← chain deeper level
    chainRest deeper (level + 1) left

/-- The readers at a depth, given those one level deeper. -/
def atDepth (deeper : Option Levels) : Levels where
  chain := chain deeper
  chainRest := chainRest deeper

/-- The readers at a depth with `room` levels below it. -/
def levels : (room : Nat) → Levels
  | 0 => atDepth none
  | room + 1 => atDepth (some (levels room))

/-- Reads an expression, and leaves what follows it. -/
def expression : Reader Directive := do
  (levels (maxDepth - (← get).depth)).chain loosest

end Reader

end QueryNotation
