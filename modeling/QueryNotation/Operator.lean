import QueryNotation.Token

/-!
# Languages and operators

The two languages in which a query is written, and the operators with a symbol in each.  Infix
operators fall into five levels; a higher level binds less tightly.
-/

namespace QueryNotation

inductive Language where
  | compact
  | relational
  deriving DecidableEq, Repr

/-- An operator in front of one operand. -/
inductive UnaryOperator where
  | positive
  | negative
  | not
  deriving DecidableEq, Repr

namespace UnaryOperator

def symbol : UnaryOperator → Language → String
  | positive, _ => "+"
  | negative, _ => "-"
  | not, .compact => "!"
  | not, .relational => "not"

/-- The operator that a token in front of an operand stands for. -/
def ofToken? : Token → Option UnaryOperator
  | .symbol .plus => some positive
  | .symbol .minus => some negative
  | .symbol .exclamation => some not
  | _ => none

end UnaryOperator

/-- An operator between two operands. -/
inductive BinaryOperator where
  | multiply
  | divide
  | plus
  | subtract
  | equal
  | notEqual
  | less
  | lessEqual
  | greater
  | greaterEqual
  | and
  | or
  deriving DecidableEq, Repr

namespace BinaryOperator

/-- The symbol of the operator in a language.  Only the word operators stand between spaces. -/
def symbol : BinaryOperator → Language → String
  | multiply, _ => "*"
  | divide, _ => "/"
  | plus, _ => "+"
  | subtract, _ => "-"
  | equal, _ => "=="
  | notEqual, _ => "!="
  | less, _ => "<"
  | lessEqual, _ => "<="
  | greater, _ => ">"
  | greaterEqual, _ => ">="
  | and, .compact => " and "
  | and, .relational => " AND "
  | or, .compact => " or "
  | or, .relational => " OR "

/-- The operator that a token between two operands stands for. -/
def ofToken? : Token → Option BinaryOperator
  | .symbol .star => some multiply
  | .symbol .slash => some divide
  | .symbol .plus => some plus
  | .symbol .minus => some subtract
  | .symbol .equal => some equal
  | .symbol .notEqual => some notEqual
  | .symbol .less => some less
  | .symbol .lessEqual => some lessEqual
  | .symbol .greater => some greater
  | .symbol .greaterEqual => some greaterEqual
  | .symbol .and => some and
  | .symbol .or => some or
  | _ => none

/-- The level of the operator, from the tightest, 1, to the loosest, 5. -/
def level : BinaryOperator → Nat
  | multiply | divide => 1
  | plus | subtract => 2
  | equal | notEqual | less | lessEqual | greater | greaterEqual => 3
  | and => 4
  | or => 5

def loosest : Nat := 5

theorem level_pos (op : BinaryOperator) : 0 < op.level := by cases op <;> decide

theorem level_le_loosest (op : BinaryOperator) : op.level ≤ loosest := by cases op <;> decide

/-- The operator of the given level that a token stands for. -/
def atLevel? (level : Nat) (token : Token) : Option BinaryOperator :=
  (ofToken? token).filter (·.level == level)

theorem atLevel?_eq_some_iff {level : Nat} {token : Token} {op : BinaryOperator} :
    atLevel? level token = some op ↔ ofToken? token = some op ∧ op.level = level := by
  simp [atLevel?, Option.filter_eq_some_iff]

end BinaryOperator

end QueryNotation
