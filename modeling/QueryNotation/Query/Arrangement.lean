import QueryNotation.Directive

/-!
# Arranging a log of directives

The directives of a query are kept in the order in which they were appended.  An arrangement
sorts them into the parts of a SELECT statement.  It names a directive by its position in the log.
-/

namespace QueryNotation

/-- The positions in a log of what each part of a statement is made of. -/
structure Arrangement where
  /-- Whether the last marker asks for distinct rows. -/
  distinct : Bool := false
  /-- What is selected: expressions and grouping keys. -/
  values : Array Nat := #[]
  filters : Array Nat := #[]
  groupings : Array Nat := #[]
  groupFilters : Array Nat := #[]
  orders : Array Nat := #[]
  /-- The last limit. -/
  limit : Option Nat := none
  /-- The last offset. -/
  offset : Option Nat := none
  deriving DecidableEq, Repr, Inhabited

namespace Arrangement

/-- Puts the directive at the next position into its part.  A grouping key is also selected, and
markers, limits and offsets take the place of earlier ones. -/
def place (a : Arrangement) (entry : Directive × Nat) : Arrangement :=
  let position := entry.2
  match entry.1 with
  | .distinct => { a with distinct := true }
  | .all => { a with distinct := false }
  | .clause .filter _ => { a with filters := a.filters.push position }
  | .clause .grouping _ =>
    { a with groupings := a.groupings.push position, values := a.values.push position }
  | .clause .groupFilter _ => { a with groupFilters := a.groupFilters.push position }
  | .order _ _ => { a with orders := a.orders.push position }
  | .clause .limit _ => { a with limit := some position }
  | .clause .offset _ => { a with offset := some position }
  | .column _ | .constant _ | .call _ _ | .group _ | .unary _ _ | .binary _ _ _ =>
    { a with values := a.values.push position }

/-- The arrangement of a log, in one pass from its front. -/
def ofLog (log : List Directive) : Arrangement := log.zipIdx.foldl place {}

end Arrangement

end QueryNotation
