import QueryNotation.Command.Arguments

/-!
# Running the program

The program as a function of its arguments and its standard input.  A command that fails says so
on standard error and exits with 1; arguments that cannot be used lead to 2.
-/

namespace QueryNotation.Command

/-- What a run of the program leaves behind. -/
structure Outcome where
  code : Nat := 0
  stdout : String := ""
  stderr : String := ""

/-- The summary that is printed for help, and for arguments that cannot be used. -/
def usage : String :=
  "Usage: dataquery [--log-level <LEVEL>] <COMMAND>\n\n" ++
  "  render [QUERY] [-t|--to dql|sql|both] [-j|--json] [-p|--pretty]\n" ++
  "  docs\n" ++
  "  doc <CATEGORY>\n"

def versionText : String := "dataquery 0.1.0\n"

/-- Whether the command reads standard input. -/
def Invocation.readsInput : Invocation → Bool
  | render none _ _ _ => true
  | _ => false

def Invocation.output (input : ByteArray) : Invocation → Except Failure String
  | render query style json pretty => do
    let query ← match query with
      | some text => pure text
      | none =>
        match String.fromUTF8? input with
        | some text => pure text
        | none => throw .notText
    let rendering ← Command.render { query := some query, style, json }
    pure (rendering.output pretty ++ "\n")
  | overview => pure Command.overview
  | document name => Command.document name

def Invocation.run (input : ByteArray) (invocation : Invocation) : Outcome :=
  match invocation.output input with
  | .ok text => { stdout := text }
  | .error e => { code := 1, stderr := e.message ++ "\n" }

/-- What is left behind when no command is carried out. -/
def Halt.outcome : Halt → Outcome
  | usage => { code := 2, stderr := Command.usage }
  | help => { stdout := Command.usage }
  | version => { stdout := versionText }

def readsInput (arguments : List String) : Bool :=
  match Invocation.ofArguments arguments with
  | .ok invocation => invocation.readsInput
  | .error _ => false

def run (arguments : List String) (input : ByteArray) : Outcome :=
  match Invocation.ofArguments arguments with
  | .ok invocation => invocation.run input
  | .error halt => halt.outcome

end QueryNotation.Command
