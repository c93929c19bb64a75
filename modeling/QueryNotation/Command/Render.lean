import QueryNotation.Reader.Query
import QueryNotation.Text.Json
import QueryNotation.Text.Lowercase

/-!
# The render command

Reads a query and writes it in one language, in both, or as a JSON object.  Blanks around the
query do not count, and a query of nothing but blanks is none.
-/

namespace QueryNotation.Command

open Text

inductive Style where
  | compact
  | relational
  | both
  deriving DecidableEq, Repr

/-- A name, in lower case, that no style has. -/
structure UnknownStyle where
  name : String

def UnknownStyle.message (e : UnknownStyle) : String :=
  s!"unknown format '{e.name}' (expected dql, sql or both)"

/-- The style with the given name, in any case. -/
def Style.ofName (name : String) : Except UnknownStyle Style :=
  match lowercase name with
  | "dql" | "notation" => .ok .compact
  | "sql" => .ok .relational
  | "both" => .ok .both
  | other => .error ⟨other⟩

/-- Why a command does not succeed. -/
inductive Failure where
  | unreadable (error : ReadError)
  | notText
  | noQuery
  | unknownTopic (name : String)

def Failure.message : Failure → String
  | unreadable e => s!"Parse error: {e.message}"
  | notText => "IO error: stream did not contain valid UTF-8"
  | noQuery => "No query provided. Pass a query argument or pipe one to stdin."
  | unknownTopic name =>
    s!"Unknown category: '{name}'\nRun 'dataquery docs' to see available categories."

structure RenderRequest where
  query : Option String := none
  style : Style := .relational
  /-- Whether to print an object instead of text. -/
  json : Bool := false

/-- What the render command has found. -/
inductive Rendering where
  | text (content : String)
  | object (members : List (String × String))

/-- The members of the object that describes a query. -/
def describeQuery (q : Query) : List (String × String) :=
  [("dql", q.text .compact), ("sql", q.text .relational), ("table", q.table)]

def Style.text (style : Style) (q : Query) : String :=
  match style with
  | compact => q.text .compact
  | relational => q.text .relational
  | both => q.text .compact ++ "\n" ++ q.text .relational

def render (request : RenderRequest) : Except Failure Rendering := do
  let some text := request.query | throw .noQuery
  let trimmed := trimBlanks text.toList
  if trimmed.isEmpty then throw .noQuery
  match Query.parse (String.ofList trimmed) with
  | .error e => throw (.unreadable e)
  | .ok q =>
    let q := q.classified
    if request.json then pure (.object (describeQuery q))
    else pure (.text (request.style.text q))

/-- What is printed of a rendering; only objects can be spread over several lines. -/
def Rendering.output (pretty : Bool) : Rendering → String
  | text content => content
  | object members => Json.object members pretty

end QueryNotation.Command
