import Protowire.Wire.Bytes

/-!
# Files/Disk — what can be done with files, and what goes wrong

A program that reads and writes files is written against a `Disk`: a handful of operations, each of
which works or fails with a fault.  The operations act on whatever the monad keeps.
-/

namespace Protowire

/-- Why an operation on a file failed. -/
inductive DiskFault where
  | notFound
  | alreadyExists
  | notDirectory
  | isDirectory
  | nameTooLong
  /-- A name with a NUL character in it. -/
  | badName
  /-- Anything else, with the number and the words of the system. -/
  | other (code : Nat) (text : String)
  deriving DecidableEq, Repr

namespace DiskFault

/-- The text of a fault that has a number. -/
def numbered (text : String) (code : Nat) : String :=
  s!"{text} (os error {code})"

/-- The text shown to the user. -/
def message : DiskFault → String
  | notFound => numbered "No such file or directory" 2
  | alreadyExists => numbered "File exists" 17
  | notDirectory => numbered "Not a directory" 20
  | isDirectory => numbered "Is a directory" 21
  | nameTooLong => numbered "File name too long" 36
  | badName => "file name contained an unexpected NUL byte"
  | other code text => numbered text code

end DiskFault

/-- What can be done with files. -/
structure Disk (m : Type → Type) where
  /-- The content of a file. -/
  read : (path : String) → m (Except DiskFault Bytes)
  /-- Makes a directory in one that exists. -/
  makeDirectory : (path : String) → m (Except DiskFault Unit)
  /-- Is there a directory? -/
  isDirectory : (path : String) → m Bool
  /-- Writes a file that does not exist. -/
  create : (path : String) → Bytes → m (Except DiskFault Unit)
  /-- Writes a file whether or not it exists. -/
  replace : (path : String) → Bytes → m (Except DiskFault Unit)

end Protowire
