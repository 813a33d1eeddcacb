/-
Choreography/Command/Arguments.lean

The arguments of the command line.

    keyframer [-v…] check --in FILE
    keyframer [-v…] compile --in FILE [--out FILE] [--strict] [--pretty]
    keyframer --version

Arguments are read from left to right and the first one that does not fit decides.
A long option takes its value from the next argument or from behind an equals sign;
only in the latter case may the value begin with a dash.  An option is given at
most once, but for `-v` and `--verbose`, which may stand anywhere and be repeated.
-/

namespace Choreography

namespace Command

/-- What to do with the result of a compilation. -/
structure CompileRequest where
  input : String
  output : Option String
  strict : Bool
  pretty : Bool
  deriving DecidableEq

/-- What the arguments ask for. -/
inductive Invocation where
  /-- The arguments make no sense. -/
  | misuse
  | help
  | version
  | check (input : String)
  | compile (request : CompileRequest)
  deriving DecidableEq

/-- The commands that take options. -/
inductive Verb where
  | check
  | compile
  deriving DecidableEq

/-- The options met so far. -/
structure Given where
  input : Option String
  output : Option String
  strict : Bool
  pretty : Bool

namespace Given

/-- No options. -/
def none : Given := ⟨.none, .none, false, false⟩

/-- Takes the input file. -/
def withInput (g : Given) (path : String) : Option Given :=
  if g.input.isSome || path.isEmpty then .none else some { g with input := some path }

/-- Takes the output file. -/
def withOutput (g : Given) (path : String) : Option Given :=
  if g.output.isSome || path.isEmpty then .none else some { g with output := some path }

/-- Takes an option with a value. -/
def withValue (verb : Verb) (option value : String) (g : Given) : Option Given :=
  if option = "--in" then g.withInput value
  else if option = "--out" ∧ verb = .compile then g.withOutput value
  else .none

/-- Takes an option without a value. -/
def withFlag (verb : Verb) (option : String) (g : Given) : Option Given :=
  if option = "--strict" ∧ verb = .compile ∧ !g.strict then some { g with strict := true }
  else if option = "--pretty" ∧ verb = .compile ∧ !g.pretty then some { g with pretty := true }
  else .none

/-- What the options of a command ask for. -/
def invocation (verb : Verb) (g : Given) : Invocation :=
  match g.input, verb with
  | .none, _ => .misuse
  | some input, .check => .check input
  | some input, .compile => .compile ⟨input, g.output, g.strict, g.pretty⟩

end Given

/-- Whether an argument looks like an option. -/
def isDashed (argument : String) : Bool :=
  match argument.toList with
  | '-' :: _ :: _ => true
  | _ => false

/-- Cuts an option at its first equals sign. -/
def cutAtEquals (argument : String) : Option (String × String) :=
  let cs := argument.toList
  match cs.dropWhile (· != '=') with
  | _ :: value => some (String.ofList (cs.takeWhile (· != '=')), String.ofList value)
  | [] => none

/-- A cluster of one-letter options: repeated `v`, and what stops it. -/
def cluster (argument : String) : Option (Option Char) :=
  match argument.toList with
  | '-' :: c :: cs =>
    if c = '-' then none else some ((c :: cs).find? (· != 'v'))
  | _ => none

/-- Whether an option takes the next argument as its value. -/
def takesValue (verb : Verb) (option : String) : Bool :=
  option = "--in" || (option = "--out" && verb = .compile)

/-- Reads the options of a command; `waiting` is an option that lacks its value. -/
def readOptions (verb : Verb) : Option String → Given → List String → Invocation
  | some _, _, [] => .misuse
  | none, g, [] => g.invocation verb
  | some option, g, value :: rest =>
    if isDashed value then .misuse
    else
      match g.withValue verb option value with
      | some g => readOptions verb none g rest
      | none => .misuse
  | none, g, argument :: rest =>
    if argument = "--verbose" then readOptions verb none g rest
    else if argument = "--help" then .help
    else if argument = "--" then (if rest.isEmpty then g.invocation verb else .misuse)
    else if takesValue verb argument then readOptions verb (some argument) g rest
    else
      match cluster argument, g.withFlag verb argument, cutAtEquals argument with
      | some none, _, _ => readOptions verb none g rest
      | some (some c), _, _ => if c = 'h' then .help else .misuse
      | none, some g, _ => readOptions verb none g rest
      | none, none, some (option, value) =>
        match g.withValue verb option value with
        | some g => readOptions verb none g rest
        | none => .misuse
      | none, none, none => .misuse

/-- Reads arguments. -/
def readArguments : List String → Invocation
  | [] => .misuse
  | argument :: rest =>
    if argument = "check" then readOptions .check none .none rest
    else if argument = "compile" then readOptions .compile none .none rest
    else if argument = "--verbose" then readArguments rest
    else if argument = "--version" then .version
    else if argument = "--help" then .help
    else if argument = "help" then
      if rest = [] ∨ rest = ["check"] ∨ rest = ["compile"] ∨ rest = ["help"] then .help else .misuse
    else
      match cluster argument with
      | some none => readArguments rest
      | some (some 'V') => .version
      | some (some 'h') => .help
      | _ => .misuse

end Command

end Choreography
