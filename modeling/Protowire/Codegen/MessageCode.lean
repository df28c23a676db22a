import Protowire.Codegen.EnumCode
import Protowire.Codegen.FieldPlan

/-!
# Codegen/MessageCode — the code of a message

A message becomes a struct, accessors for its enum fields, the methods that write, measure and read
it, and **a module for what is nested in it**: messages, enums and the enums of its oneofs.  Entries
of map fields have no code, and neither has anything inside them.
-/

namespace Protowire.Site

/-- The struct. -/
def structItem (site : Site) (id : Schema.MessageId) (m : Schema.Message) : List Code :=
  let fields := (m.fields.filter (·.oneof.isNone)).map fun f =>
    Code.line s!"pub {Naming.fieldIdent f.name}: {site.fieldType id f},"
  let oneofs := m.usedOneofs.map fun (name, _) =>
    Code.line s!"pub {Naming.fieldIdent name}: ::core::option::Option<{oneofPath m name}>,"
  .line "#[derive(Clone, PartialEq, Debug, Default)]" ::
    Code.braces ("pub struct " ++ Naming.typeIdent m.name) (fields ++ oneofs)

/-- The accessor of a field that holds a value of an enum. -/
def accessor (site : Site) (f : Schema.Field) (id : Schema.EnumId) : List Code :=
  let path := site.enumPath id
  let ident := Naming.fieldIdent f.name
  let type := (site.schema.enums[id]?).elim "" (·.ident)
  let opening := s!"/// Returns `{f.name}` as `{type}`, "
  .line (opening ++ "falling back to the default for unknown values.") ::
    Code.braces s!"pub fn {ident}(&self) -> {path}"
      [.line s!"{path}::try_from(self.{ident}).unwrap_or_default()"]

/-- The accessors of the enum fields that are neither repeated nor in a oneof. -/
def accessors (site : Site) (m : Schema.Message) : List (List Code) :=
  m.fields.filterMap fun f =>
    match f.type, f.isRepeated, f.oneof with
    | .enumeration id, false, none => some (site.accessor f id)
    | _, _, _ => none

/-- The accessors as one item, if there are any. -/
def accessorItem? (site : Site) (m : Schema.Message) : Option (List Code) :=
  let found := site.accessors m
  if found.isEmpty then none
  else some (Code.braces ("impl " ++ Naming.typeIdent m.name) (Code.items found))

/-- The method that writes a message. -/
def writeMethod (site : Site) (plans : List FieldPlan) : List Code :=
  let opening := "fn encode_raw<B: " ++ site.runtime "bytes::BufMut" ++ ">(&self, "
  if plans.isEmpty then [.line (opening ++ "_buf: &mut B) \x7b\x7d")]
  else Code.braces (opening ++ "buf: &mut B)") (plans.flatMap (·.write site .write))

/-- The method that reads a field of a message. -/
def readMethod (site : Site) (plans : List FieldPlan) : List Code :=
  let context := if plans.isEmpty then "_ctx" else "ctx"
  let skip := site.runtime "wire::skip_field"
  let arms := plans.flatMap (·.arm site) ++ [.line s!"_ => {skip}(number, wire_type, reader),"]
  [.line "fn merge_field(",
    .nest
      [.line "&mut self,",
        .line "number: u32,",
        .line ("wire_type: " ++ site.runtime "WireType" ++ ","),
        .line ("reader: &mut " ++ site.runtime "WireReader" ++ "<'_>,"),
        .line (context ++ ": " ++ site.runtime "DecodeContext" ++ ",")]] ++
    Code.braces (") -> " ++ site.runtime "Result" ++ "<()>") (Code.braces "match number" arms)

/-- The method that measures a message. -/
def measureMethod (site : Site) (plans : List FieldPlan) : List Code :=
  let sum := [.line "let mut len = 0;"] ++ plans.flatMap (·.write site .measure) ++ [.line "len"]
  Code.braces "fn encoded_len(&self) -> usize" (if plans.isEmpty then [.line "0"] else sum)

/-- The methods of a message. -/
def methodsItem (site : Site) (id : Schema.MessageId) (m : Schema.Message) : List Code :=
  let plans := site.plans id m
  Code.braces ("impl " ++ site.runtime "Message" ++ " for " ++ Naming.typeIdent m.name) <|
    Code.items [site.writeMethod plans, site.readMethod plans, site.measureMethod plans]

/-- The enum of a oneof, in the module of its message. -/
def oneofItem (site : Site) (owner : Schema.MessageId) (m : Schema.Message)
    (oneof : String × Nat) : List Code :=
  .line "#[derive(Clone, PartialEq, Debug)]" ::
    Code.braces ("pub enum " ++ Naming.typeIdent oneof.1)
      ((m.oneofVariants oneof.2).map fun (f, name) =>
        .line s!"{name}({site.boxedType owner f}),")

/-- The module of a message around the items in it, if there are any. -/
def moduleItem? (m : Schema.Message) (items : List (List Code)) : Option (List Code) :=
  if items.isEmpty then none
  else some <|
    .line s!"/// Nested message and enum types in `{Naming.typeIdent m.name}`." ::
      Code.braces ("pub mod " ++ Naming.moduleIdent m.name) (Code.items items)

/-- The items of enums. -/
def enumItems (site : Site) (ids : List Schema.EnumId) : List (List Code) :=
  ids.flatMap fun id => (site.schema.enums[id]?).elim [] (·.code)

/-- The items of a message. -/
def messageItems (site : Site) (id : Schema.MessageId) : List (List Code) :=
  match site.schema.messages[id]? with
  | none => []
  | some m =>
    if m.isMapEntry then []
    else
      let inner := site.enter (Naming.moduleIdent m.name)
      let nested := (site.schema.messagesInside id).attach.flatMap fun child =>
        messageItems inner child.1
      let items := nested ++ inner.enumItems (site.schema.enumsInside id) ++
        m.usedOneofs.map (inner.oneofItem id m)
      [site.structItem id m] ++ (site.accessorItem? m).toList ++ [site.methodsItem id m] ++
        (moduleItem? m items).toList
termination_by site.schema.messages.length - id
decreasing_by
  have := Schema.lt_of_mem_messagesInside child.2
  rw [schema_enter]
  omega

end Protowire.Site
