import QueryNotation.Operator

/-!
# Directives

The tree that describes one item of a query: an expression over columns, a marker, or a clause.
Any directive may stand anywhere in a tree.  Only a query gives clauses and markers their meaning.
-/

namespace QueryNotation

open Number

/-- A clause with nothing but an inner directive. -/
inductive Clause where
  | filter
  /-- Groups rows by a key, which is selected as well. -/
  | grouping
  | groupFilter
  | limit
  | offset
  deriving DecidableEq, Repr

namespace Clause

/-- The word in front of the clause. -/
def word : Clause → String
  | filter => "where"
  | grouping => "by"
  | groupFilter => "having"
  | limit => "limit"
  | offset => "offset"

def all : List Clause := [filter, grouping, groupFilter, limit, offset]

def ofWord? (word : String) : Option Clause := all.find? (·.word == word)

end Clause

inductive Directive where
  | column (name : String)
  | constant (value : Value)
  | call (name : String) (arguments : List Directive)
  | group (inner : Directive)
  | unary (op : UnaryOperator) (operand : Directive)
  | binary (op : BinaryOperator) (left right : Directive)
  | distinct
  | all
  | clause (clause : Clause) (inner : Directive)
  /-- A sort key; positive directions sort upwards, negative ones downwards. -/
  | order (key : Directive) (direction : Binary64)

namespace Directive

/-- The name of the kind of directive in messages. -/
def kind : Directive → String
  | column _ => "column"
  | constant _ => "constant"
  | call _ _ => "call"
  | group _ => "group"
  | unary _ _ => "unary"
  | binary _ _ _ => "binary"
  | distinct => "distinct"
  | all => "all"
  | clause c _ => c.word
  | order _ _ => "order"

mutual

/-- Equality of trees, with constants and directions compared as their types define it. -/
def equal : Directive → Directive → Bool
  | column a, column b => a == b
  | constant v, constant w => v.equal w
  | call f xs, call g ys => f == g && equalLists xs ys
  | group x, group y => x.equal y
  | unary o x, unary p y => o == p && x.equal y
  | binary o x x', binary p y y' => o == p && x.equal y && x'.equal y'
  | distinct, distinct => true
  | all, all => true
  | clause c x, clause d y => c == d && x.equal y
  | order x a, order y b => x.equal y && a.equal b
  | _, _ => false

def equalLists : List Directive → List Directive → Bool
  | [], [] => true
  | x :: xs, y :: ys => x.equal y && equalLists xs ys
  | _, _ => false

end

/-- How messages name a directive that is not what they expect. -/
def describe : Directive → String
  | constant value => value.typeName ++ " constant"
  | directive => directive.kind

end Directive

end QueryNotation
