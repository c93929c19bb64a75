/-!
# JSON text

Writing an object whose members are all strings, on one line or over several.
-/

namespace QueryNotation.Text.Json

/-- A character inside a quoted string.  Quotes, backslashes and control characters are escaped,
and nothing else is. -/
def escape (c : Char) : List Char :=
  match c with
  | '"' => ['\\', '"']
  | '\\' => ['\\', '\\']
  | '\x08' => ['\\', 'b']
  | '\x0c' => ['\\', 'f']
  | '\n' => ['\\', 'n']
  | '\r' => ['\\', 'r']
  | '\t' => ['\\', 't']
  | c =>
    if c.toNat < 0x20 then
      ['\\', 'u', '0', '0', Nat.digitChar (c.toNat / 16), Nat.digitChar (c.toNat % 16)]
    else [c]

/-- The text as a quoted string. -/
def quoted (text : String) : String :=
  "\"" ++ String.ofList (text.toList.flatMap escape) ++ "\""

/-- An object with the given members, in order. -/
def object (members : List (String × String)) (pretty : Bool) : String :=
  if pretty then
    let line (m : String × String) := "  " ++ quoted m.1 ++ ": " ++ quoted m.2
    "\x7b\n" ++ ",\n".intercalate (members.map line) ++ "\n\x7d"
  else
    let member (m : String × String) := quoted m.1 ++ ":" ++ quoted m.2
    "\x7b" ++ ",".intercalate (members.map member) ++ "\x7d"

end QueryNotation.Text.Json
