import Protowire.CommandLine.Options
import Protowire.Files.Output
import Protowire.Generator.Exchange

/-!
# CommandLine/Run — the program on any disk

The program answers a request, from its input or from a file, or generates from a file set and
writes what is generated.  It is written against a `Disk`, and so is the same on real files and on a
file tree.
-/

namespace Protowire.CommandLine

/-- Why the program failed: a message, and the causes from the nearest to the first. -/
structure Failure where
  message : String
  causes : List String
  deriving DecidableEq, Repr

namespace Failure

/-- A cause with its first line behind a mark, and the others as far in as that. -/
def renderCause (mark : String) (cause : String) : String :=
  let margin := String.ofList (List.replicate mark.length ' ')
  "\n" ++ mark ++
    String.join (cause.toList.map fun c => if c = '\n' then "\n" ++ margin else c.toString)

/-- The causes: one stands by itself, several are numbered from zero. -/
def renderCauses : List String → String
  | [] => ""
  | [cause] => "\n\nCaused by:" ++ renderCause "    " cause
  | causes =>
    "\n\nCaused by:" ++ String.join (causes.zipIdx.map fun (cause, i) =>
      let number := toString i
      renderCause (String.ofList (List.replicate (5 - number.length) ' ') ++ number ++ ": ") cause)

/-- The text shown to the user. -/
def render (f : Failure) : String :=
  "Error: " ++ f.message ++ renderCauses f.causes

end Failure

/-- What a run of the program leaves behind. -/
structure Outcome where
  code : Nat
  output : Bytes
  failure : Option Failure
  deriving DecidableEq, Repr

/-- The name and version of the program. -/
def versionLine : String := CodeFile.generatorName ++ " 0.1.0\n"

/-- A reminder of the options. -/
def helpText : String :=
  "Usage: " ++ CodeFile.generatorName ++ " [OPTIONS]\n\n" ++
    String.join (longNames.map fun entry => "  --" ++ entry.1 ++ "\n")

/-- The outcome when the arguments are not acted upon. -/
def Outcome.ofStop : Stop → Outcome
  | .usage => ⟨2, [], none⟩
  | .help => ⟨0, Bytes.ofString helpText, none⟩
  | .version => ⟨0, Bytes.ofString versionLine, none⟩

/-- The outcome when they are. -/
def Outcome.ofResult : Except Failure Bytes → Outcome
  | .ok output => ⟨0, output, none⟩
  | .error failure => ⟨1, [], some failure⟩

/-- The response to a request. -/
def answer (request : Bytes) : Except Failure Bytes :=
  (Exchange.start.run request none).1.mapError fun e => ⟨"Plugin exchange failed", [e.message]⟩

/-- The response to a request in a file.  A directory is found, and then cannot be read. -/
def answerFrom (path : String) : Except DiskFault Bytes → Except Failure Bytes
  | .ok request => answer request
  | .error .isDirectory =>
    .error ⟨"Plugin exchange failed",
      [ExchangeError.message (.unread .isDirectory), DiskFault.message .isDirectory]⟩
  | .error fault => .error ⟨s!"Failed to open request: {path}", [fault.message]⟩

/-- The files generated from a file set. -/
def generateOffline (options : Options) (path : String) (content : Except DiskFault Bytes) :
    Except Failure (List CodeFile) := do
  let content ← content.mapError fun fault =>
    ⟨s!"Failed to read descriptor set: {path}", [fault.message]⟩
  let files ← match Message.decode .fileDescriptorSet content with
    | .ok message => pure (FileDescriptorSet.ofMessage message).files
    | .error e => throw ⟨s!"Failed to decode descriptor set: {path}", [e.message]⟩
  if files.isEmpty then throw ⟨s!"Descriptor set is empty: {path}", []⟩
  let targets := if options.files.isEmpty then files.map (·.name) else options.files
  let config ← (Config.parse options.param).mapError fun e => ⟨e.message, []⟩
  (generateFiles files targets config).mapError fun e =>
    ⟨s!"Failed to generate code from {path}", [e.message]⟩

/-- Lines of output, with the same words in front of each. -/
def report (words : String) (paths : List String) : Bytes :=
  Bytes.ofString (String.join (paths.map fun path => words ++ path ++ "\n"))

section

variable {m : Type → Type} [Monad m]

/-- Writes generated files, or only names them. -/
def emit (disk : Disk m) (options : Options) (files : List CodeFile) :
    m (Except Failure Bytes) := do
  if options.dryRun then
    return .ok (report "Would write: " (files.map fun file => Path.join options.output file.name))
  match ← disk.writeFiles options.output options.force files with
  | .ok paths => return .ok (report "Wrote " paths)
  | .error e =>
    let message := s!"Failed to write output to {options.output} (use --force to overwrite)"
    return .error ⟨message, e.message :: e.cause?.toList.map DiskFault.message⟩

/-- Does what the options ask for. -/
def perform (disk : Disk m) (input : m Bytes) (options : Options) : m (Except Failure Bytes) := do
  match options.source with
  | .input => return answer (← input)
  | .request path => return answerFrom path (← disk.read path)
  | .descriptorSet path =>
    match generateOffline options path (← disk.read path) with
    | .ok files => emit disk options files
    | .error failure => return .error failure

/-- Runs the program on its arguments. -/
def run (disk : Disk m) (input : m Bytes) (args : List String) : m Outcome := do
  match Options.parse args with
  | .error stop => return .ofStop stop
  | .ok options => return .ofResult (← perform disk input options)

end

end Protowire.CommandLine
