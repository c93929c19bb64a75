import QueryNotation.Query.Select

/-!
# Queries

A query over one table is a log of directives that only grows at its end.  It is written in the
notation, which keeps the order of the log, or as a SELECT statement.

The arrangement that a statement needs is made at the first read and kept for the next.  Appending
throws it away; `classified` puts it back.
-/

namespace QueryNotation

structure Query where
  table : String := ""
  log : Array Directive := #[]
  /-- The arrangement of the log, if a read has already asked for it. -/
  arrangement : Option Arrangement := none
  deriving Inhabited

namespace Query

/-- A query over a table with nothing in its log. -/
def new (table : String) : Query := { table }

def setTable (q : Query) (table : String) : Query := { q with table }

def append (q : Query) (directive : Directive) : Query :=
  { q with log := q.log.push directive, arrangement := none }

/-- Puts directives at the end of the log, in order. -/
def appendAll (q : Query) (directives : List Directive) : Query := directives.foldl append q

def ofDirectives (directives : List Directive) : Query := appendAll {} directives

/-- The directives of the query, in the order in which they were appended. -/
def directives (q : Query) : List Directive := q.log.toList

def arranged (q : Query) : Arrangement := q.arrangement.getD (.ofLog q.directives)

/-- The same query with its arrangement at hand. -/
def classified (q : Query) : Query := { q with arrangement := some q.arranged }

def isDistinct (q : Query) : Bool := q.arranged.distinct

/-- The notation of the query: its table and, in brackets, its directives. -/
def compactText (q : Query) : List Char :=
  q.table.toList ++ '[' :: [','].intercalate (q.directives.map (·.render .compact)) ++ [']']

def render (q : Query) : Language → List Char
  | .compact => q.compactText
  | .relational => Select.statement q.table q.log q.arranged

def text (q : Query) (language : Language) : String := String.ofList (q.render language)

/-- Reads something off a query, and keeps the arrangement that this takes. -/
def read {α : Type} (view : Query → α) (q : Query) : α × Query :=
  let q := q.classified
  (view q, q)

@[simp] theorem directives_append (q : Query) (d : Directive) :
    (q.append d).directives = q.directives ++ [d] := by simp [append, directives]

@[simp] theorem table_append (q : Query) (d : Directive) : (q.append d).table = q.table := rfl

@[simp] theorem directives_appendAll (q : Query) (ds : List Directive) :
    (q.appendAll ds).directives = q.directives ++ ds := by
  induction ds generalizing q with
  | nil => simp [appendAll]
  | cons d ds ih => simpa [appendAll] using ih (q.append d)

@[simp] theorem directives_classified (q : Query) : q.classified.directives = q.directives := rfl

@[simp] theorem arranged_classified (q : Query) : q.classified.arranged = q.arranged := rfl

end Query

end QueryNotation
