import Protowire.Codegen.Code
import Protowire.Codegen.Site
import Protowire.Codegen.Variant

/-!
# Codegen/FieldPlan — how the generated methods treat a field

A message writes itself, measures itself and reads itself, and in each of the three every field has
its part.  `Site.plan` decides once for all three **which functions of the runtime carry the field,
under which condition and from which place**; `FieldPlan.write` and `FieldPlan.arm` only put that
into words.
-/

namespace Protowire

/-- What becomes of a value that was read. -/
inductive Store where
  /-- It is read into a place that always holds a value. -/
  | direct (place : String)
  /-- It is read into a place that is made to hold a value first. -/
  | inserted (place : String)
  /-- It is read aside, through a reference, and then wrapped as a variant into a oneof. -/
  | wrapped (type reference oneof variant : String)
  deriving DecidableEq, Repr

/-- How the generated methods treat a field. -/
inductive FieldPlan where
  /-- A map, with the modules that carry its keys and its values. -/
  | map (number : Nat) (key value place : String)
  /-- A list, packed or not, with the module that carries its values. -/
  | list (number : Nat) (module : String) (isPacked : Bool) (place : String)
  /-- A single value, the condition under which there is one, and where it is then found. -/
  | single (number : Nat) (module guard source : String) (store : Store)
  deriving DecidableEq, Repr

/-- The two methods that go over the fields from outside: one writes, one measures. -/
inductive Pass where
  | write
  | measure
  deriving DecidableEq, Repr

namespace Pass

/-- The function of a module that writes or measures one value. -/
def function : Pass → String
  | write => "encode"
  | measure => "encoded_len"

/-- What comes in front of a call: sizes are added up. -/
def opening : Pass → String
  | write => ""
  | measure => "len += "

/-- The arguments of a call behind the value: there is a buffer to write into. -/
def buffer : Pass → List String
  | write => ["buf"]
  | measure => []

/-- A call of the function of a module. -/
def call (pass : Pass) (module form : String) (number : Nat) (value : String) : Code :=
  let args := ", ".intercalate (toString number :: value :: pass.buffer)
  .line s!"{pass.opening}{module}::{pass.function}{form}({args});"

end Pass

namespace FieldPlan

/-- The number of the field. -/
def number : FieldPlan → Nat
  | map number .. | list number .. | single number .. => number

/-- The functions a map needs for its keys or its values: writing needs both of them. -/
def mapFunctions (pass : Pass) (module : String) : List String :=
  match pass with
  | .write => [module ++ "::encode", module ++ "::encoded_len"]
  | .measure => [module ++ "::encoded_len"]

/-- The field's part in writing or measuring a message. -/
def write (site : Site) (pass : Pass) : FieldPlan → List Code
  | map number key value place =>
    Code.arguments (pass.opening ++ site.runtime ("encoding::map::" ++ pass.function))
      (mapFunctions pass key ++ mapFunctions pass value ++
        toString number :: ("&" ++ place) :: pass.buffer) ";"
  | list number module isPacked place =>
    [pass.call module (if isPacked then "_packed" else "_repeated") number ("&" ++ place)]
  | single number module guard source _ =>
    Code.braces ("if " ++ guard) [pass.call module "" number source]

/-- The field's arm in reading a message. -/
def arm (site : Site) : FieldPlan → List Code
  | map number key value place =>
    Code.arguments (s!"{number} => " ++ site.runtime "encoding::map::merge")
      [key ++ "::merge", value ++ "::merge", "wire_type", "&mut " ++ place, "reader", "ctx"] ","
  | list number module _ place =>
    [.line s!"{number} => {module}::merge_repeated(wire_type, &mut {place}, reader, ctx),"]
  | single number module _ _ (.direct place) =>
    [.line s!"{number} => {module}::merge(wire_type, &mut {place}, reader, ctx),"]
  | single number module _ _ (.inserted place) =>
    Code.arguments s!"{number} => {module}::merge" ["wire_type", place, "reader", "ctx"] ","
  | single number module _ _ (.wrapped type reference oneof variant) =>
    Code.braces s!"{number} =>"
      [.line s!"let mut value: {type} = ::core::default::Default::default();",
        .line s!"{module}::merge(wire_type, {reference}, reader, ctx)?;",
        .line s!"{oneof} = ::core::option::Option::Some({variant}(value));",
        .line "::core::result::Result::Ok(())"]

end FieldPlan

namespace Site

/-- The place of a name in the message. -/
def place (name : String) : String :=
  "self." ++ Naming.fieldIdent name

/-- The condition under which a scalar is not zero.  A floating-point value is compared by its
bits. -/
def isNonzero (type : Schema.FieldType) (place : String) : String :=
  match type with
  | .scalar .double | .scalar .float => place ++ ".to_bits() != 0"
  | .scalar .string | .scalar .bytes => "!" ++ place ++ ".is_empty()"
  | .scalar .bool => place
  | _ => place ++ " != 0"

/-- The condition under which an option holds a pattern. -/
def isSome (pattern place : String) : String :=
  s!"let ::core::option::Option::Some({pattern}) = &{place}"

/-- The path to the enum of a oneof, from where the message itself stands. -/
def oneofPath (m : Schema.Message) (oneof : String) : String :=
  Naming.moduleIdent m.name ++ "::" ++ Naming.typeIdent oneof

/-- How the generated methods treat a member of a oneof. -/
def planMember (site : Site) (owner : Schema.MessageId) (m : Schema.Message) (oneof : Nat)
    (f : Schema.Field) : FieldPlan :=
  let name := (m.oneofs[oneof]?).elim "" (·.name)
  let variant := oneofPath m name ++ "::" ++ m.variantName oneof f
  let isBoxed := site.isBoxed owner f
  .single f.number (site.encodingModule f.type) (isSome (variant ++ "(value)") (place name))
    (if isBoxed then "&**value" else "value")
    (.wrapped (site.boxedType owner f) (if isBoxed then "&mut *value" else "&mut value")
      (place name) variant)

/-- How the generated methods treat a single value outside oneofs. -/
def planSingle (site : Site) (owner : Schema.MessageId) (f : Schema.Field) : FieldPlan :=
  let here := place f.name
  let module := site.encodingModule f.type
  match f.type with
  | .message _ =>
    let isBoxed := site.isBoxed owner f
    let inserted := here ++ ".get_or_insert_with(::core::default::Default::default)"
    .single f.number module (isSome "value" here) (if isBoxed then "&**value" else "value")
      (.inserted (if isBoxed then "&mut **" ++ inserted else inserted))
  | type => .single f.number module (isNonzero type here) ("&" ++ here) (.direct here)

/-- How the generated methods treat a field of a message. -/
def plan (site : Site) (owner : Schema.MessageId) (m : Schema.Message) (f : Schema.Field) :
    FieldPlan :=
  match f.map, f.isRepeated, f.oneof with
  | some entry, _, _ =>
    .map f.number (site.encodingModule (.scalar entry.key)) (site.encodingModule entry.value)
      (place f.name)
  | none, true, _ => .list f.number (site.encodingModule f.type) f.isPacked (place f.name)
  | none, false, some oneof => site.planMember owner m oneof f
  | none, false, none => site.planSingle owner f

/-- How the generated methods treat the fields of a message, by ascending number. -/
def plans (site : Site) (owner : Schema.MessageId) (m : Schema.Message) : List FieldPlan :=
  m.byNumber.map (site.plan owner m)

end Site

end Protowire
