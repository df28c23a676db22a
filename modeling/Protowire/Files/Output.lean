import Protowire.Codegen.FileCode
import Protowire.Files.Disk
import Protowire.Files.Path

/-!
# Files/Output — writing generated files below a directory

Each file is written at its name, taken from the output directory; a name that leads out of it is
refused.  Directories are made as they are needed.  Files are written **one after the other**: those
before a fault stay.
-/

namespace Protowire

/-- Why a file was not written. -/
inductive OutputError where
  | escapes (name : String)
  | noDirectory (path : String) (cause : DiskFault)
  | noFile (path : String) (cause : DiskFault)
  deriving DecidableEq, Repr

namespace OutputError

/-- The text shown to the user. -/
def message : OutputError → String
  | escapes name => s!"path traversal detected: '{name}' would escape output directory"
  | noDirectory path cause => s!"failed to create directory '{path}': {cause.message}"
  | noFile path cause => s!"failed to write file '{path}': {cause.message}"

/-- The fault behind the error. -/
def cause? : OutputError → Option DiskFault
  | escapes _ => none
  | noDirectory _ cause | noFile _ cause => some cause

end OutputError

/-- The path of a file below a directory. -/
def outputPath (dir name : String) : Except OutputError String :=
  if Path.staysBelow name then .ok (Path.join dir name) else .error (.escapes name)

namespace Disk

variable {m : Type → Type} [Monad m]

/-- Makes a directory, or finds that it is there. -/
def ensureDirectory (disk : Disk m) (path : String) : m (Except DiskFault Unit) := do
  match ← disk.makeDirectory path with
  | .ok () => return .ok ()
  | .error fault => return if ← disk.isDirectory path then .ok () else .error fault

/-- Makes the first of the directories, after those around it where they are missing. -/
def ensureDirectories (disk : Disk m) : List String → m (Except DiskFault Unit)
  | [] => return .error .notFound
  | path :: around => do
    if path = "" then return .ok ()
    match ← disk.ensureDirectory path with
    | .error .notFound =>
      match ← disk.ensureDirectories around with
      | .ok () => disk.ensureDirectory path
      | .error fault => return .error fault
    | result => return result

/-- Writes a file, and the directory it is in before it. -/
def writeFile (disk : Disk m) (overwrite : Bool) (path content : String) :
    m (Except OutputError Unit) := do
  match Path.parent? path with
  | none => pure ()
  | some parent =>
    match ← disk.ensureDirectories (Path.lineage parent) with
    | .ok () => pure ()
    | .error fault => return .error (.noDirectory parent fault)
  let write := if overwrite then disk.replace else disk.create
  return (← write path (Bytes.ofString content)).mapError (.noFile path)

/-- Writes files below a directory and gives their paths. -/
def writeFiles (disk : Disk m) (dir : String) (overwrite : Bool) :
    List CodeFile → m (Except OutputError (List String))
  | [] => return .ok []
  | file :: files => do
    match outputPath dir file.name with
    | .error e => return .error e
    | .ok path =>
      match ← disk.writeFile overwrite path file.content with
      | .error e => return .error e
      | .ok () => return (← disk.writeFiles dir overwrite files).map (path :: ·)

end Disk

end Protowire
