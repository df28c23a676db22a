import Protowire.Codegen.Config
import Protowire.Naming.Ident
import Protowire.Schema.Embedding

/-!
# Codegen/Site — where code stands, and how it reaches types from there

What is nested in a message stands in a module named after the message, and each schema file has a
module of its own; the modules of all files are siblings.  A type is reached **from the module code
stands in** (`Site.typePath`): up by `super` to the innermost module that both have in common, then
down.  The modules of two files have nothing in common but the module around them.
-/

namespace Protowire

/-- Where code stands and how it should look. -/
structure Site where
  schema : Schema
  config : Config
  /-- The file the code is written for. -/
  file : Schema.FileId
  /-- The modules from the root of the file down to the code. -/
  modules : List String

namespace Site

/-- The site inside a module. -/
def enter (site : Site) (module : String) : Site :=
  { site with modules := site.modules ++ [module] }

@[simp] theorem schema_enter (site : Site) (module : String) :
    (site.enter module).schema = site.schema := rfl

/-- A path into the runtime. -/
def runtime (site : Site) (path : String) : String :=
  site.config.runtimePath ++ "::" ++ path

/-- How many modules two ways down have in common. -/
def commonDepth : List String → List String → Nat
  | a :: as, b :: bs => if a = b then commonDepth as bs + 1 else 0
  | _, _ => 0

/-- The way from one module to another of the same file. -/
def route (here there : List String) : List String :=
  let common := commonDepth here there
  List.replicate (here.length - common) "super" ++ there.drop common

/-- The modules down to what is declared in `parent`. -/
def modulesOf (site : Site) (parent : Option Schema.MessageId) : List String :=
  (site.schema.ancestors parent).filterMap fun id =>
    (site.schema.messages[id]?).map fun m => Naming.moduleIdent m.name

/-- The name of a file. -/
def fileName (site : Site) (file : Schema.FileId) : String :=
  (site.schema.files[file]?).elim "" (·.source.name)

/-- The way to the type of a name that is declared in `parent`. -/
def typePath (site : Site) (file : Schema.FileId) (parent : Option Schema.MessageId)
    (name : String) : List String :=
  let there := site.modulesOf parent
  let way :=
    if file = site.file then route site.modules there
    else
      List.replicate (site.modules.length + 1) "super" ++
        Naming.fileModule (site.fileName file) :: there
  way ++ [Naming.typeIdent name]

/-- The path to a message. -/
def messagePath (site : Site) (id : Schema.MessageId) : String :=
  (site.schema.messages[id]?).elim "" fun m =>
    "::".intercalate (site.typePath m.file m.parent m.name)

/-- The path to an enum. -/
def enumPath (site : Site) (id : Schema.EnumId) : String :=
  (site.schema.enums[id]?).elim "" fun e =>
    "::".intercalate (site.typePath e.file e.parent e.name)

/-- The type of one value of a scalar kind. -/
def scalarType : Scalar → String
  | .double => "f64"
  | .float => "f32"
  | .int32 | .sint32 | .sfixed32 => "i32"
  | .int64 | .sint64 | .sfixed64 => "i64"
  | .uint32 | .fixed32 => "u32"
  | .uint64 | .fixed64 => "u64"
  | .bool => "bool"
  | .string => "::std::string::String"
  | .bytes => "::std::vec::Vec<u8>"

/-- The type of one value of a field; an enum value is kept as its number. -/
def valueType (site : Site) : Schema.FieldType → String
  | .scalar kind => scalarType kind
  | .enumeration _ => "i32"
  | .message id => site.messagePath id

/-- The module of the runtime that writes and reads values of a field. -/
def encodingModule (site : Site) (type : Schema.FieldType) : String :=
  site.runtime <| "encoding::" ++
    match type with
    | .scalar kind => kind.name
    | .enumeration _ => "enumeration"
    | .message _ => "message"

/-- Is the value of a field of the message `owner` boxed?  A message that can hold itself through
it would otherwise have no finite size. -/
def isBoxed (site : Site) (owner : Schema.MessageId) (f : Schema.Field) : Bool :=
  match f.type, f.isRepeated with
  | .message target, false => site.schema.isRecursive owner target
  | _, _ => false

/-- The type of one value of a field, boxed where it has to be. -/
def boxedType (site : Site) (owner : Schema.MessageId) (f : Schema.Field) : String :=
  let type := site.valueType f.type
  if site.isBoxed owner f then "::std::boxed::Box<" ++ type ++ ">" else type

/-- The type of a field of a struct. -/
def fieldType (site : Site) (owner : Schema.MessageId) (f : Schema.Field) : String :=
  match f.map with
  | some entry =>
    let map := if site.config.btreeMap then "BTreeMap" else "HashMap"
    s!"::std::collections::{map}<{scalarType entry.key}, {site.valueType entry.value}>"
  | none =>
    if f.isRepeated then "::std::vec::Vec<" ++ site.valueType f.type ++ ">"
    else
      match f.type with
      | .message _ => "::core::option::Option<" ++ site.boxedType owner f ++ ">"
      | type => site.valueType type

end Site

end Protowire
