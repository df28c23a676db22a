import Protowire.Schema.Binding
import Protowire.Schema.Contents
import Protowire.Schema.ImportOrder
import Protowire.Schema.MapField

/-!
# Schema/Resolve — from descriptors to a schema

`Schema.resolve` orders the files, checks what they declare, binds the fields of every message and
then turns map fields into maps.  **Each step looks at everything** before the next begins, so a
fault of an earlier step is reported however late in the files it stands.
-/

namespace Protowire.Schema

/-- The enum that is declared. -/
def enumOf (d : Declared EnumDescriptor) : Enum :=
  { name := d.name, fullName := d.fullName, file := d.file, parent := d.parent
    values := d.body.values }

/-- The schema of files that come after what they import. -/
def resolveOrdered (files : List FileDescriptor) : Except SchemaError Schema := do
  checkDeclarations (declarations files)
  let symbols := Symbols.ofFiles files
  let bound ← (symbols.messages.zip (messageContents files)).mapM fun (d, contents) =>
    bindMessage symbols d contents
  let messages ← bound.mapM (attachMaps bound)
  return { files := files.zipWith (fun f contents => ⟨f, importIds files f, contents⟩)
             (fileContents files)
           messages
           enums := symbols.enums.map enumOf }

/-- The schema of files in any order. -/
def resolve (files : List FileDescriptor) : Except SchemaError Schema := do
  resolveOrdered (← importOrder files)

end Protowire.Schema
