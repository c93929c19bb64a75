import QueryNotation.Reader.Expression

/-!
# Reading items

An item of a query is a marker, a clause or an expression.  A clause is first read as an
expression: a call that carries the name of a clause and has arguments becomes the clause, and
everything else that starts with such a name stays what it is.
-/

namespace QueryNotation

open Number

/-- The number that a direction stands for: a numeric constant behind any number of signs. -/
def Directive.direction? : Directive → Option Binary64
  | .constant value => value.toBinary64?
  | .unary .negative operand => operand.direction?.map (- ·)
  | .unary .positive operand => operand.direction?
  | _ => none

namespace Reader

/-- The words that introduce a clause. -/
def isClauseWord (word : String) : Bool := word == "order" || (Clause.ofWord? word).isSome

/-- The directive that a call with the name of a clause stands for.  Without arguments it remains
a call. -/
def clauseOfCall (word : String) (arguments : List Directive) (place : Text.Position) :
    Except ReadError Directive :=
  match arguments, Clause.ofWord? word with
  | [], _ => .ok (.call word [])
  | [inner], some clause => .ok (.clause clause inner)
  | [key], none => .ok (.order key .one)
  | [key, direction], none =>
    match direction.direction? with
    | some d => .ok (.order key d)
    | none => .error (.invalidDirection direction place)
  | _, _ => .error (.clauseArity word arguments.length place)

/-- Reads an item that starts with the name of a clause. -/
def clauseItem (word : String) : Reader Directive := do
  let place := (← get).start
  match ← expression with
  | .call name arguments =>
    if name = word then MonadExcept.ofExcept (clauseOfCall word arguments place)
    else pure (.call name arguments)
  | other => pure other

/-- Reads an item, and leaves what follows it. -/
def item : Reader Directive := do
  match (← get).token with
  | .word "distinct" => advance; pure .distinct
  | .word "all" => advance; pure .all
  | .word name => if isClauseWord name then clauseItem name else expression
  | _ => expression

/-- Reads a single item up to the end of the text. -/
def directive : Reader Directive := do
  let result ← item
  expect .endOfText
  pure result

end Reader

/-- Reads a single directive, such as `where(a>1)` or `sum(x)*2`. -/
def Directive.parse (text : String) : Except ReadError Directive :=
  match Reader.start text.toList with
  | .error e => .error (.lexical e)
  | .ok s =>
    match Reader.directive s with
    | .ok directive _ => .ok directive
    | .error e _ => .error e

end QueryNotation
