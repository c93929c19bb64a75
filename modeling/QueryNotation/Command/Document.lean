import QueryNotation.Command.Render

/-!
# Documents

The texts that describe the notation to its users: an overview, and one document for each topic.
-/

namespace QueryNotation.Command

open Text

/-- A subject with a document of its own. -/
inductive Topic where
  | queries
  | expressions
  | operators
  | clauses
  | statements
  deriving DecidableEq, Repr

namespace Topic

/-- The topic with the given name.  Case does not count, nor does the choice between a hyphen and
an underscore. -/
def ofName? (name : String) : Option Topic :=
  let spelled := (lowercase name).toList.map fun c => if c = '-' then '_' else c
  match String.ofList spelled with
  | "syntax" | "notation" | "dql" => some queries
  | "expressions" | "expression" | "expr" => some expressions
  | "operators" | "ops" => some operators
  | "clauses" | "clause" => some clauses
  | "sql" | "relational" => some statements
  | _ => none

def queriesDocument : String := r#"SYNTAX - Notation Queries

  table[directive,directive,...]

  The table name comes first, followed by a bracketed, comma separated list
  of directives. Directives are kept in the order they are written.

  sales[]                      Every column of sales
  sales[region,amount]         Two columns
  sales[distinct,region]       Distinct regions

  Whitespace between tokens is ignored. Nothing inside the brackets is
  escaped: names must not contain '[', ']' or ','.
"#

def expressionsDocument : String := r#"EXPRESSIONS - Values in a Query

COLUMNS
  region                       Notation: region     SQL: "region"

CONSTANTS
  100                          Integer
  2.5                          Float
  'north' or "north"           String (rendered without quotes)
  true / false                 Boolean

CALLS
  sum(amount)                  Notation: sum(amount)
                               SQL:      sum("amount")
  round(price, 2)              Arguments are joined with ", "

GROUPS
  (a+b)*c                      Parentheses are kept as written. Operators
                               never add parentheses on their own.
"#

def operatorsDocument : String := r#"OPERATORS - Arithmetic, Comparison, Logical

  Operator      Notation      SQL
  --------      --------      ---
  multiply      *             *
  divide        /             /
  plus          +             +
  subtract      -             -
  equal         ==            ==
  not equal     !=            !=
  less          <             <
  less-eq       <=            <=
  greater       >             >
  greater-eq    >=            >=
  and           ' and '       ' AND '
  or            ' or '        ' OR '

  Prefix operators: +x, -x, !x (SQL: not"x")

  Precedence, lowest first: or, and, comparison, + -, * /, prefix.
"#

def clausesDocument : String := r#"CLAUSES - Shaping the Result

  where(expr)         Filter rows. Several where clauses are combined with AND.
  by(expr)            Group by expr. The key is also selected.
  having(expr)        Filter groups. Several are combined with AND.
  order(expr)         Sort ascending.
  order(expr,-1)      Sort descending. Any positive number sorts ascending,
                      any negative number descending, 0 leaves it unspecified.
  limit(n)            Maximum number of rows. The last limit wins.
  offset(n)           Rows to skip. The last offset wins.
  distinct            Select distinct rows.
  all                 Select all rows. The last of distinct/all wins.

  distinct and all render as nothing in notation.
"#

/-- How directives are placed into a statement. -/
def statementsDocument : String := r#"SQL - Relational Rendering

  Clauses are always emitted in this order, whatever order they were written:

    SELECT [DISTINCT] values | *
    FROM "table"
    WHERE ...
    GROUP BY ...
    HAVING ...
    ORDER BY ... ASC|DESC
    LIMIT ...
    OFFSET ...

  A single where renders bare:      WHERE "a">1
  Several are bracketed and joined: WHERE ("a">1) AND ("b"<2)

  An offset without a limit gets LIMIT 9223372036854775807 so engines that
  require OFFSET to follow LIMIT accept it.

  Values are not parameterized and identifiers are not escaped. Only render
  input you trust.
"#

def document : Topic → String
  | queries => queriesDocument
  | expressions => expressionsDocument
  | operators => operatorsDocument
  | clauses => clausesDocument
  | statements => statementsDocument

end Topic

def document (name : String) : Except Failure String :=
  match Topic.ofName? name with
  | some topic => .ok topic.document
  | none => .error (.unknownTopic name)

def overview : String := r#"DATAQUERY DOCUMENTATION

Dataquery describes a query over a single table as a list of directives and
renders it either as compact notation (DQL) or as a SQL SELECT statement.

DOCUMENTATION CATEGORIES

  syntax            Shape of a notation query
  expressions       Columns, constants, calls and groups
  operators         Arithmetic, comparison and logical operators
  clauses           where, by, having, order, limit, offset, distinct, all
  sql               How directives are placed into the SELECT statement

QUICK REFERENCE

  sales[region,amount]               Select two columns
  sales[by(region),sum(amount)]      Group and aggregate
  sales[where(amount>100)]           Filter rows
  sales[order(amount,-1),limit(10)]  Top ten by amount

  dataquery render 'sales[by(region)]' --to both
"#

end QueryNotation.Command
