/-
Choreography/Command/Run.lean

What the command line does.

`check` reads a document and says whether its tree is well formed; `compile` also
compiles it and writes the result, after a warning for each diagnostic.  A strict
compilation with diagnostics fails before anything is written.
-/
import Choreography.Command.Arguments
import Choreography.Command.Disk
import Choreography.Document
import Choreography.Json.Reader
import Choreography.Json.Writer

namespace Choreography

namespace Command

/-- Why a run has failed, and whether the file system knows more about it. -/
structure Complaint where
  message : String
  hasCause : Bool

/-- What a run leaves behind besides files. -/
structure Outcome where
  exitCode : Nat
  output : String
  notes : String
  complaint : Option Complaint

namespace Outcome

/-- Success. -/
def success (output notes : String) : Outcome := ⟨0, output, notes, none⟩

/-- A failure with a cause of its own. -/
def failed (notes message : String) : Outcome := ⟨1, "", notes, some ⟨message, false⟩⟩

/-- A failure whose cause lies in a file. -/
def failedOn (notes message : String) : Outcome := ⟨1, "", notes, some ⟨message, true⟩⟩

/-- Arguments that make no sense. -/
def misuse : Outcome := ⟨2, "", "", none⟩

end Outcome

/-- The name and the version of the program. -/
def versionText : String := "keyframer 0.1.0\n"

/-- How the program is called. -/
def usageText : String :=
  "Usage: keyframer [-v] check --in <FILE>\n" ++
  "       keyframer [-v] compile --in <FILE> [--out <FILE>] [--strict] [--pretty]\n"

/-- Reads the document of a source. -/
def document (path : String) : Source → Except Outcome (Document Float)
  | .missing => .error (.failedOn "" ("open document '" ++ path ++ "'"))
  | .garbled => .error (.failedOn "" "parse document JSON")
  | .text content =>
    match (Json.parse? content).bind Document.ofJson? with
    | some d => .ok d
    | none => .error (.failedOn "" "parse document JSON")

/-- Reads a document with a well-formed tree. -/
def validDocument (path : String) (source : Source) : Except Outcome (Document Float) := do
  let d ← document path source
  match d.animation.validate with
  | .ok () => .ok d
  | .error v => .error (.failed "" v.toFailure.message)

/-- The warnings of a compilation. -/
def warnings (diagnostics : List Diagnostic) : String :=
  String.join (diagnostics.map fun d => "warning: " ++ d.message ++ "\n")

/-- What a compilation writes, unless it fails: the notes and the text. -/
def compiled (request : CompileRequest) (source : Source) : Except Outcome (String × String) := do
  let d ← validDocument request.input source
  let result := d.compile
  let notes := warnings result.diagnostics
  match request.strict, result.strict with
  | true, .error f => .error (.failed notes f.message)
  | _, _ =>
    let json := result.toJson
    .ok (notes, if request.pretty then json.renderPretty else json.render)

variable {m : Type → Type} [Monad m]

/-- Writes a text to a file, in a directory that is made if need be. -/
def save (disk : Disk m) (path notes text : String) : m Outcome := do
  let parent := Path.parent path
  let hasParent ← if parent.isEmpty then pure true else disk.makeDirs parent
  if !hasParent then
    return .failedOn notes ("create output dir '" ++ parent ++ "'")
  else if ← disk.write path text then
    return .success "" (notes ++ "wrote " ++ path ++ "\n")
  else
    return .failedOn notes ("write output '" ++ path ++ "'")

/-- Carries out what the arguments ask for. -/
def run (disk : Disk m) (arguments : List String) : m Outcome := do
  match readArguments arguments with
  | .misuse => return .misuse
  | .help => return .success usageText ""
  | .version => return .success versionText ""
  | .check path =>
    match validDocument path (← disk.read path) with
    | .ok _ => return .success "" (path ++ ": ok\n")
    | .error outcome => return outcome
  | .compile request =>
    match compiled request (← disk.read request.input) with
    | .error outcome => return outcome
    | .ok (notes, text) =>
      match request.output with
      | some path => save disk path notes text
      | none => return .success (text ++ "\n") notes

end Command

end Choreography
