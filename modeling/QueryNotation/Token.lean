import QueryNotation.Value

/-!
# Tokens

The words of the notation.  A token is a literal with its value, a word, one of a fixed set of
symbols, or the end of the text.
-/

namespace QueryNotation

/-- The symbols of the notation, the two word operators among them. -/
inductive Symbol where
  | exclamation
  | equal
  | notEqual
  | less
  | greater
  | lessEqual
  | greaterEqual
  | plus
  | minus
  | star
  | slash
  | and
  | or
  | openBracket
  | closeBracket
  | openParen
  | closeParen
  | comma
  deriving DecidableEq, Repr

/-- How the symbol is written. -/
def Symbol.text : Symbol → String
  | exclamation => "!"
  | equal => "=="
  | notEqual => "!="
  | less => "<"
  | greater => ">"
  | lessEqual => "<="
  | greaterEqual => ">="
  | plus => "+"
  | minus => "-"
  | star => "*"
  | slash => "/"
  | and => "and"
  | or => "or"
  | openBracket => "["
  | closeBracket => "]"
  | openParen => "("
  | closeParen => ")"
  | comma => ","

/-- A token of the notation. -/
inductive Token where
  | literal (value : Value)
  | word (name : String)
  | symbol (symbol : Symbol)
  | endOfText
  deriving DecidableEq

namespace Token

/-- How messages name the token.  Decimals show all their places. -/
def describe : Token → String
  | literal (.integer n) => "number " ++ String.ofList (Value.integerText n)
  | literal (.float x) => "number " ++ String.ofList x.text
  | literal (.decimal d) => "number " ++ String.ofList d.text
  | literal (.string s) => "string \"" ++ s ++ "\""
  | literal (.boolean b) => "boolean " ++ String.ofList (Value.booleanText b)
  | word name => "identifier '" ++ name ++ "'"
  | symbol s => "'" ++ s.text ++ "'"
  | endOfText => "end of input"

/-- The token of a run of word characters: two words are operators, two are truth values. -/
def ofWord (name : String) : Token :=
  match name with
  | "and" => symbol .and
  | "or" => symbol .or
  | "true" => literal (.boolean true)
  | "false" => literal (.boolean false)
  | _ => word name

end Token

end QueryNotation
