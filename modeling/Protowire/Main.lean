import Protowire.CommandLine.Run

/-!
# Main — the program on real files

The operations of a `Disk` on the files of the system, and the program on them.
-/

namespace Protowire

/-- The fault with a number. -/
def DiskFault.ofCode (code : Nat) (text : String) : DiskFault :=
  match code with
  | 2 => .notFound
  | 17 => .alreadyExists
  | 20 => .notDirectory
  | 21 => .isDirectory
  | 36 => .nameTooLong
  | _ => .other code text

/-- The fault behind an error. -/
def DiskFault.ofError : IO.Error → DiskFault
  | .alreadyExists _ code text | .otherError code text | .resourceBusy code text
  | .resourceVanished code text | .unsupportedOperation code text | .hardwareFault code text
  | .unsatisfiedConstraints code text | .illegalOperation code text | .protocolError code text
  | .timeExpired code text | .interrupted _ code text | .noFileOrDirectory _ code text
  | .invalidArgument _ code text | .permissionDenied _ code text | .resourceExhausted _ code text
  | .inappropriateType _ code text | .noSuchThing _ code text => ofCode code.toNat text
  | .unexpectedEof => .other 0 "unexpected end of file"
  | .userError text => .other 0 text

/-- The result of an action, or the fault in it. -/
def attempt {α : Type} (action : IO α) : IO (Except DiskFault α) := do
  try
    return .ok (← action)
  catch e =>
    return .error (.ofError e)

/-- Writes a file that is opened in the given way. -/
def writeOpened (path : String) (mode : IO.FS.Mode) (content : Bytes) : IO Unit := do
  let file ← IO.FS.Handle.mk path mode
  file.write ⟨content.toArray⟩

/-- The operations on the files of the system. -/
def systemDisk : Disk IO where
  read path := attempt do return (← IO.FS.readBinFile path).data.toList
  makeDirectory path := attempt (IO.FS.createDir path)
  isDirectory path := do return (← attempt (IO.FS.realPath (path ++ "/."))).toOption.isSome
  create path content := attempt (writeOpened path .writeNew content)
  replace path content := attempt (writeOpened path .write content)

/-- The whole of the input. -/
def readInput : IO Bytes := do
  return (← (← IO.getStdin).readBinToEnd).data.toList

end Protowire

/-- The program. -/
def main (args : List String) : IO UInt32 := do
  let outcome ← Protowire.CommandLine.run Protowire.systemDisk Protowire.readInput args
  let output ← IO.getStdout
  output.write ⟨outcome.output.toArray⟩
  output.flush
  match outcome.failure with
  | some failure => IO.eprintln failure.render
  | none => if outcome.code = 2 then IO.eprintln Protowire.CommandLine.helpText
  return outcome.code.toUInt32
