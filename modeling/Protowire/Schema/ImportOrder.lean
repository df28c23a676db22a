import Protowire.Descriptor.Basic
import Protowire.Naming.Repeated
import Protowire.Schema.Error

/-!
# Schema/ImportOrder — files after what they import

Files come in any order; `importOrder` puts each of them **after everything it imports**, and
otherwise keeps to the order they came in.  That is possible when no two files have one name, all
that is imported is among the files and no file leads back to itself.

The walk (`follow`) goes down along imports.  It keeps the files that are not on the way down, so
that each step down leaves fewer of them: this is why it ends.
-/

namespace Protowire

/-- The file of the given name. -/
def FileDescriptor.named? (files : List FileDescriptor) (name : String) : Option FileDescriptor :=
  files.find? fun f => f.name == name

/-- The files but those of the given name. -/
def FileDescriptor.allBut (name : String) (files : List FileDescriptor) : List FileDescriptor :=
  files.filter fun f => f.name != name

/-- Where there is a file of a name, the files but those of that name are fewer. -/
theorem FileDescriptor.length_allBut_lt {files : List FileDescriptor} {name : String}
    {f : FileDescriptor} (h : named? files name = some f) :
    (allBut name files).length < files.length := by
  refine List.length_filter_lt_length_iff_exists.mpr ⟨f, List.mem_of_find?_eq_some h, ?_⟩
  have := List.find?_some h
  simp_all

namespace Schema

/-- The names around a cycle, when the innermost file of the path imports the file `name` on it. -/
def cycleOf (name : String) (path : List String) : List String :=
  name :: (path.takeWhile (· != name)).reverse ++ [name]

/-- Puts the named files, and before each of them its imports, behind the files that are done.
`path` holds the names on the way down, innermost first, and `away` the files not on it. -/
def follow (away : List FileDescriptor) (path : List String) :
    (names : List String) → (done : List FileDescriptor) →
      Except SchemaError (List FileDescriptor)
  | [], done => .ok done
  | name :: names, done =>
    if (FileDescriptor.named? done name).isSome then follow away path names done
    else if path.contains name then .error (.importCycle (cycleOf name path))
    else
      match h : FileDescriptor.named? away name with
      | none => .error (.missingImport (path.headD "") name)
      | some f => do
        have := FileDescriptor.length_allBut_lt h
        let done ← follow (FileDescriptor.allBut name away) (name :: path) f.imports done
        follow away path names (done ++ [f])
termination_by names => (away.length, names.length)

/-- The files, each after everything it imports. -/
def importOrder (files : List FileDescriptor) : Except SchemaError (List FileDescriptor) :=
  let names := files.map (·.name)
  match Naming.firstRepeated? [] names with
  | some name => .error (.duplicateName name)
  | none => follow files [] names []

end Schema

end Protowire
