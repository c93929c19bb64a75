import QueryNotation.Directive

/-!
# The text of a directive

A directive is written in either language.  Operators never add parentheses; only a group prints
them.  Markers print nothing.  In relational text a clause prints its inner directive alone,
because the statement around it supplies the keywords.
-/

namespace QueryNotation.Directive

open Number

/-- A column name, which relational text puts between double quotes. -/
def columnText (name : String) : Language → List Char
  | .compact => name.toList
  | .relational => '"' :: name.toList ++ ['"']

/-- A word with its argument, or the argument alone in relational text. -/
def clauseText (word : String) (inner : List Char) : Language → List Char
  | .compact => word.toList ++ '(' :: inner ++ [')']
  | .relational => inner

/-- A sort key with its direction, which is left out where it is one.  In relational text the
direction follows the key as a keyword, and the statement supplies it. -/
def orderText (key : List Char) (direction : Binary64) : Language → List Char
  | .compact =>
    let argument := if direction.equal .one then [] else ',' :: direction.text
    clauseText "order" (key ++ argument) .compact
  | .relational => key

mutual

/-- The text of a directive in a language. -/
def render (language : Language) : Directive → List Char
  | column name => columnText name language
  | constant value => value.text
  | call name arguments =>
    name.toList ++ '(' :: ", ".toList.intercalate (renderAll language arguments) ++ [')']
  | group inner => '(' :: inner.render language ++ [')']
  | unary op operand => (op.symbol language).toList ++ operand.render language
  | binary op left right =>
    left.render language ++ (op.symbol language).toList ++ right.render language
  | distinct | all => []
  | clause c inner => clauseText c.word (inner.render language) language
  | order key direction => orderText (key.render language) direction language

/-- The texts of several directives. -/
def renderAll (language : Language) : List Directive → List (List Char)
  | [] => []
  | directive :: rest => directive.render language :: renderAll language rest

end

theorem renderAll_eq_map (language : Language) (directives : List Directive) :
    renderAll language directives = directives.map (render language) := by
  induction directives with
  | nil => simp [renderAll]
  | cons d rest ih => simp [renderAll, ih]

/-- The text of a directive as a string. -/
def text (directive : Directive) (language : Language) : String :=
  String.ofList (directive.render language)

end QueryNotation.Directive
