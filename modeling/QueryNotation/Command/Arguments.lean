import QueryNotation.Command.Document

/-!
# Command line arguments

What the arguments of the program ask for.  Options may stand before and after the operands of
their command; two hyphens end them.  Every option may be given once to each command.  The first
argument that cannot be used decides: nothing after it is looked at.
-/

namespace QueryNotation.Command

inductive Argument where
  | terminator
  /-- A name after two hyphens, with the value after an equals sign. -/
  | long (name : String) (value : Option String)
  | short (letters : List Char)
  | operand (text : String)

/-- Reads the shape of an argument.  A hyphen alone is an operand. -/
def Argument.ofText (text : String) : Argument :=
  match text.toList with
  | ['-', '-'] => terminator
  | '-' :: '-' :: rest =>
    let name := String.ofList (rest.takeWhile (· ≠ '='))
    match rest.dropWhile (· ≠ '=') with
    | [] => long name none
    | _ :: value => long name (some (String.ofList value))
  | '-' :: letter :: letters => short (letter :: letters)
  | _ => operand text

/-- An option of the program or of one of its commands. -/
inductive Switch where
  | style
  | json
  | pretty
  | logLevel
  | help
  | version
  deriving DecidableEq, Repr

namespace Switch

def name : Switch → String
  | style => "to"
  | json => "json"
  | pretty => "pretty"
  | logLevel => "log-level"
  | help => "help"
  | version => "version"

def letter? : Switch → Option Char
  | style => some 't'
  | json => some 'j'
  | pretty => some 'p'
  | logLevel => none
  | help => some 'h'
  | version => some 'V'

def takesValue : Switch → Bool
  | style | logLevel => true
  | _ => false

end Switch

/-- Why the arguments ask for no command. -/
inductive Halt where
  | usage
  | help
  | version
  deriving DecidableEq, Repr

/-- What a command accepts. -/
structure Interface where
  switches : List Switch
  /-- How many operands there may be.  Without a number the first one names a command, and what
  follows it belongs to that command. -/
  operands : Option Nat

/-- What has been gathered from the arguments of a command. -/
structure Gathered where
  given : List Switch := []
  style : Command.Style := .relational
  operands : List String := []

namespace Gathered

def has (g : Gathered) (switch : Switch) : Bool := g.given.contains switch

def give (g : Gathered) (switch : Switch) (value : String) : Except Halt Gathered := do
  if switch = .help then throw .help
  if switch = .version then throw .version
  if g.has switch then throw .usage
  let g := { g with given := switch :: g.given }
  if switch = .style then
    match Style.ofName value with
    | .ok style => pure { g with style }
    | .error _ => throw .usage
  else pure g

def giveOperand (i : Interface) (g : Gathered) (text : String) : Except Halt Gathered :=
  if (i.operands.getD 0) ≤ g.operands.length then throw .usage
  else pure { g with operands := g.operands ++ [text] }

/-- Takes joined letters.  The rest after the letter of an option with a value is the value; if
nothing is left, the option still waits for it. -/
def giveLetters (i : Interface) (g : Gathered) : List Char → Except Halt (Gathered × Option Switch)
  | [] => pure (g, none)
  | letter :: rest => do
    let some switch := i.switches.find? (·.letter? == some letter) | throw .usage
    if switch.takesValue then
      match rest with
      | [] => pure (g, some switch)
      | '=' :: value => pure (← g.give switch (String.ofList value), none)
      | value => pure (← g.give switch (String.ofList value), none)
    else giveLetters i (← g.give switch "") rest

def giveLong (i : Interface) (g : Gathered) (name : String) (value : Option String) :
    Except Halt (Gathered × Option Switch) := do
  let some switch := i.switches.find? (·.name == name) | throw .usage
  match switch.takesValue, value with
  | true, some value => pure (← g.give switch value, none)
  | true, none => pure (g, some switch)
  | false, none => pure (← g.give switch "", none)
  | false, some _ => throw .usage

/-- Goes through the arguments of a command, with the option that waits for its value. -/
def gather (i : Interface) (g : Gathered) (waiting : Option Switch) :
    List String → Except Halt Gathered
  | [] => if waiting.isSome then throw .usage else pure g
  | argument :: rest => do
    match waiting, Argument.ofText argument with
    | some switch, .operand value => gather i (← g.give switch value) none rest
    | some _, _ => throw .usage
    | none, .terminator => rest.foldlM (giveOperand i) g
    | none, .long name value =>
      let (g, waiting) ← giveLong i g name value
      gather i g waiting rest
    | none, .short letters =>
      let (g, waiting) ← giveLetters i g letters
      gather i g waiting rest
    | none, .operand text =>
      if i.operands.isNone then pure { g with operands := text :: rest }
      else gather i (← giveOperand i g text) none rest

end Gathered

inductive Invocation where
  /-- Render the given query, or the one on standard input. -/
  | render (query : Option String) (style : Style) (json pretty : Bool)
  | overview
  | document (name : String)

namespace Invocation

def program : Interface := ⟨[.logLevel, .help, .version], none⟩

def ofCommand (name : String) (arguments : List String) : Except Halt Invocation := do
  match name with
  | "render" =>
    let g ← Gathered.gather ⟨[.style, .json, .pretty, .logLevel, .help], some 1⟩ {} none arguments
    pure (render g.operands.head? g.style (g.has .json) (g.has .pretty))
  | "docs" =>
    let _ ← Gathered.gather ⟨[.logLevel, .help], some 0⟩ {} none arguments
    pure overview
  | "doc" =>
    let g ← Gathered.gather ⟨[.logLevel, .help], some 1⟩ {} none arguments
    match g.operands with
    | [name] => pure (document name)
    | _ => throw .usage
  | "help" =>
    match arguments with
    | [] | ["render"] | ["docs"] | ["doc"] | ["help"] => throw .help
    | _ => throw .usage
  | _ => throw .usage

/-- What the arguments of the program ask for. -/
def ofArguments (arguments : List String) : Except Halt Invocation := do
  let g ← Gathered.gather program {} none arguments
  match g.operands with
  | name :: rest => ofCommand name rest
  | [] => throw .usage

end Invocation

end QueryNotation.Command
