import QueryNotation.Query
import QueryNotation.Reader.Item

/-!
# Reading queries

A query is written as its table and, in brackets, its items with commas between them.  An item may
be empty, because markers are written as nothing.
-/

namespace QueryNotation

namespace Reader

/-- Reads an item unless it is empty. -/
def possibleItem : Reader (List Directive) := do
  match (← get).token with
  | .symbol .closeBracket | .symbol .comma => pure []
  | _ => pure [← item]

/-- Reads the items and the commas between them.  Every comma is taken from the text, so that there
are no more of them than characters in `left`, which holds the token ahead and all that follows
it. -/
def items (left : List Char) : Reader (List Directive) := do
  let here ← possibleItem
  if (← get).token = .symbol .comma then
    match left with
    | [] => fail (.token (.symbol .closeBracket))
    | _ :: left =>
      advance
      pure (here ++ (← items left))
  else
    pure here

/-- Reads a query up to the end of the text. -/
def query : Reader Query := do
  let table ← expectWord
  let left := (← get).cursor.ahead
  expect (.symbol .openBracket)
  let directives ← items left
  expect (.symbol .closeBracket)
  expect .endOfText
  pure ((Query.new table).appendAll directives)

end Reader

/-- Reads a query, such as `sales[by(region),where(amount>100)]`. -/
def Query.parse (text : String) : Except ReadError Query :=
  match Reader.start text.toList with
  | .error e => .error (.lexical e)
  | .ok s =>
    match Reader.query s with
    | .ok query _ => .ok query
    | .error e _ => .error e

end QueryNotation
