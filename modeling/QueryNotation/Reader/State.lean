import QueryNotation.Directive
import QueryNotation.Token.Lexer

/-!
# Reading with one token ahead

The state of a reader is a cursor, the token that was read last and is still to be used, the
place where that token starts, and the nesting depth of the directive that is being read.

A failure does not undo anything, and a reader can be asked again after one.  When the text ahead
is at fault, `advance` keeps the token that it was to replace, while `take` has already given its
token away and leaves the end of the text in its stead.
-/

namespace QueryNotation

open Text

/-- What a reader was ready to accept. -/
inductive Expectation where
  | identifier
  | expression
  | token (token : Token)
  deriving DecidableEq

def Expectation.describe : Expectation → String
  | identifier => "identifier"
  | expression => "expression"
  | token t => t.describe

def maxDepth : Nat := 128

/-- Why a text is not a directive or not a query. -/
inductive ReadError where
  | lexical (error : LexError)
  /-- The token at the place is not the one expected there. -/
  | unexpected (expected : Expectation) (found : Token) (place : Position)
  | invalidDirection (found : Directive) (place : Position)
  | clauseArity (clause : String) (count : Nat) (place : Position)
  | tooDeep (place : Position)

namespace ReadError

def place : ReadError → Position
  | lexical e => e.place
  | unexpected _ _ place | invalidDirection _ place | clauseArity _ _ place | tooDeep place => place

def message : ReadError → String
  | lexical e => e.message
  | unexpected expected found place =>
    s!"expected {expected.describe}, found {found.describe} at {place.describe}"
  | invalidDirection found place =>
    s!"expected a numeric order direction, found {found.describe} at {place.describe}"
  | clauseArity clause count place =>
    s!"'{clause}' takes a single argument, found {count} at {place.describe}"
  | tooDeep place => s!"expression nested deeper than {maxDepth} levels at {place.describe}"

end ReadError

structure ReaderState where
  cursor : Cursor
  token : Token
  /-- Where the token ahead starts. -/
  start : Position
  /-- How many levels enclose the token ahead. -/
  depth : Nat
  deriving DecidableEq

/-- Programs that read with one token ahead. -/
abbrev Reader := EStateM ReadError ReaderState

namespace Reader

/-- Reads the token after the one ahead.  On a failure the token ahead stays as it is, although
its place has moved to the fault. -/
def advance : Reader Unit := fun s =>
  let start := s.cursor.skipBlanks.place
  match Lexer.next s.cursor with
  | .ok token cursor => .ok () { s with cursor, token, start }
  | .error e cursor => .error (.lexical e) { s with cursor, start }

/-- Gives the token ahead away and reads the one after it. -/
def take : Reader Unit := do
  modify fun s => { s with token := .endOfText }
  advance

def fail {α : Type} (expected : Expectation) : Reader α := fun s =>
  .error (.unexpected expected s.token s.start) s

def expect (token : Token) : Reader Unit := do
  if (← get).token = token then advance else fail (.token token)

def expectWord : Reader String := do
  match (← get).token with
  | .word name => take; pure name
  | _ => fail .identifier

/-- Runs a reader and, if it succeeds, puts the depth back to what it was. -/
def restoringDepth {α : Type} (reader : Reader α) : Reader α := do
  let depth := (← get).depth
  let result ← reader
  modify fun s => { s with depth }
  pure result

/-- The state of a reader before a text, or the failure to read a first token from it. -/
def start (text : List Char) : Except LexError ReaderState :=
  let cursor := Cursor.ofText text
  match Lexer.next cursor with
  | .ok token stop => .ok ⟨stop, token, cursor.skipBlanks.place, 0⟩
  | .error e _ => .error e

end Reader

end QueryNotation
