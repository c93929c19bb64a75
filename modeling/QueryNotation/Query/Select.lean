import QueryNotation.Directive.Render
import QueryNotation.Query.Arrangement

/-!
# SELECT statements

The text of the statement for an arranged log.  Its parts always come in the same order, and a
part without members is left out, keyword and all.
-/

namespace QueryNotation.Select

/-- The largest row count that a statement may ask for. -/
def maxRows : Nat := 2 ^ 63 - 1

def pick (log : Array Directive) (positions : Array Nat) : List Directive :=
  positions.toList.filterMap (log[·]?)

def commaJoined (members : List (List Char)) : List Char := ", ".toList.intercalate members

/-- Members of a condition: one stands bare, several are put in parentheses one by one. -/
def conjunction : List (List Char) → List Char
  | [member] => member
  | members => '(' :: ") AND (".toList.intercalate members ++ [')']

def led (keyword : String) (text : List Char) : List Char := keyword.toList ++ text

/-- A keyword with its members, or nothing if there are none. -/
def part (keyword : String) (join : List (List Char) → List Char) (members : List (List Char)) :
    List Char :=
  if members.isEmpty then [] else led keyword (join members)

/-- What is selected: the given members, or every column. -/
def selection (members : List (List Char)) : List Char :=
  if members.isEmpty then ['*'] else commaJoined members

/-- A sort key with its keyword; a direction of zero has none. -/
def sortKey (directive : Directive) : List Char :=
  directive.render .relational ++
    match directive with
    | .order _ direction =>
      if direction.isPositive then " ASC".toList
      else if direction.isNegative then " DESC".toList
      else []
    | _ => []

/-- The relational text of the directives at the given positions. -/
def members (log : Array Directive) (positions : Array Nat) : List (List Char) :=
  (pick log positions).map (·.render .relational)

/-- The bounds on the rows.  Rows can only be skipped under a limit, so that an offset alone
brings the largest limit with it. -/
def rowBounds (log : Array Directive) (limit offset : Option Nat) : List Char :=
  let bound (position : Option Nat) := members log position.toArray
  let limits :=
    if limit.isNone && offset.isSome then [Nat.toDigits 10 maxRows] else bound limit
  part " LIMIT " commaJoined limits ++ part " OFFSET " commaJoined (bound offset)

/-- The statement for a table and an arranged log. -/
def statement (table : String) (log : Array Directive) (a : Arrangement) : List Char :=
  led (if a.distinct then "SELECT DISTINCT " else "SELECT ") (selection (members log a.values)) ++
    led " FROM " (Directive.columnText table .relational) ++
    part " WHERE " conjunction (members log a.filters) ++
    part " GROUP BY " commaJoined (members log a.groupings) ++
    part " HAVING " conjunction (members log a.groupFilters) ++
    part " ORDER BY " commaJoined ((pick log a.orders).map sortKey) ++
    rowBounds log a.limit a.offset

example : String.ofList (rowBounds #[.constant (.integer 5)] none (some 0)) =
    " LIMIT 9223372036854775807 OFFSET 5" := by decide +kernel

end QueryNotation.Select
