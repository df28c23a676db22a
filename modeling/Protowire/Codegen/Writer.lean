import Protowire.Codegen.FileCode

/-!
# Codegen/Writer — code written line after line

A file can be written from top to bottom, with no tree of code in between: the writer knows how deep
the next line is indented, whether a blank line has to come before the next item, and the modules
that are open.  Each of these is moved by hand, forth and back, by whoever writes.  **The writer
stops where it is moved back too far**: out of the left margin, or out of a module when none is
open.
-/

namespace Protowire

/-- Where a writer stands. -/
structure Writer.Place where
  /-- The modules that are open, from the root of the file down. -/
  scope : List String
  /-- How deep the next line is indented. -/
  level : Nat
  /-- Does the next item come behind another one, with a blank line between them? -/
  separates : Bool
  deriving DecidableEq, Repr

/-- A writer: where it stands, what one level is indented by, and what it has written. -/
structure Writer extends Writer.Place where
  margin : String
  text : String
  deriving DecidableEq, Repr

/-- Writing, which stops where the writer is moved back too far. -/
abbrev Write := StateT Writer Option

/-- The writer of a file before the first line. -/
def Writer.start (margin : String) : Writer :=
  { scope := [], level := 0, separates := false, margin, text := "" }

namespace Write

/-- Writes text as it is. -/
def put (text : String) : Write Unit :=
  modify fun w => { w with text := w.text ++ text }

/-- Writes a line. -/
def line (text : String) : Write Unit := do
  let w ← get
  put (Line.render w.margin ⟨w.level, text⟩)

/-- Writes a blank line, which is not indented. -/
def blank : Write Unit := put "\n"

/-- Moves the margin in. -/
def indent : Write Unit :=
  modify fun w => { w with level := w.level + 1 }

/-- Moves the margin back out. -/
def dedent : Write Unit := do
  match (← get).level with
  | 0 => failure
  | level + 1 => modify fun w => { w with level }

/-- Says whether the next item needs a blank line before it. -/
def separate (separates : Bool) : Write Unit :=
  modify fun w => { w with separates }

/-- Goes on to the next item. -/
def beginItem : Write Unit := do
  if (← get).separates then blank
  separate true

/-- Writes a line that opens something; the items in it start anew. -/
def opening (text : String) : Write Unit := do
  line text
  indent
  separate false

/-- Writes the line that closes what is open. -/
def closing (text : String) : Write Unit := do
  dedent
  separate true
  line text

/-- Goes into a module. -/
def enter (module : String) : Write Unit :=
  modify fun w => { w with scope := w.scope ++ [module] }

/-- Goes out of the module again. -/
def leave : Write Unit := do
  if (← get).scope.isEmpty then failure
  modify fun w => { w with scope := w.scope.dropLast }

/-- The site the writer stands at, in the file of `root`. -/
def here (root : Site) : Write Site :=
  return { root with modules := (← get).scope }

/-- Writes arguments on lines of their own. -/
def arguments (text : String) (args : List String) (after : String) : Write Unit := do
  line (text ++ "(")
  indent
  args.forM fun arg => line (arg ++ ",")
  dedent
  line (")" ++ after)

/-! ## Enums -/

/-- Writes the type of an enum. -/
def enumType (e : Schema.Enum) : Write Unit := do
  beginItem
  line "#[derive(Clone, Copy, Debug, PartialEq, Eq, Hash, PartialOrd, Ord)]"
  line "#[repr(i32)]"
  opening ("pub enum " ++ e.ident ++ " \x7b")
  e.primaries.forM fun v => line s!"{v.ident} = {v.number.toInt},"
  closing "\x7d"

/-- Writes the other names of variants. -/
def enumAliases (e : Schema.Enum) : Write Unit := do
  let aliases := e.variants.filter fun v => !v.isPrimary
  aliases.forM fun v => do
    line "#[allow(non_upper_case_globals)]"
    line s!"pub const {v.ident}: Self = Self::{v.target};"
  if !aliases.isEmpty then blank

/-- Writes the names of the values, and the values by name. -/
def enumNames (e : Schema.Enum) : Write Unit := do
  beginItem
  opening ("impl " ++ e.ident ++ " \x7b")
  enumAliases e
  line "/// Name of the value as written in the `.proto` definition."
  opening ("pub fn as_str_name(&self) -> &'static str" ++ " \x7b")
  opening ("match self" ++ " \x7b")
  e.primaries.forM fun v => line s!"Self::{v.ident} => \"{v.name}\","
  closing "\x7d"
  closing "\x7d"
  blank
  line "/// Looks up a value by its `.proto` name."
  opening ("pub fn from_str_name(value: &str) -> ::core::option::Option<Self>" ++ " \x7b")
  opening ("match value" ++ " \x7b")
  e.variants.forM fun v => line s!"\"{v.name}\" => ::core::option::Option::Some(Self::{v.target}),"
  line "_ => ::core::option::Option::None,"
  closing "\x7d"
  closing "\x7d"
  closing "\x7d"

/-- Writes the default, if there is one. -/
def enumDefault (e : Schema.Enum) : Write Unit :=
  e.defaultVariant?.forM fun v => do
    beginItem
    opening ("impl ::core::default::Default for " ++ e.ident ++ " \x7b")
    opening ("fn default() -> Self" ++ " \x7b")
    line ("Self::" ++ v.ident)
    closing "\x7d"
    closing "\x7d"

/-- Writes the conversion from numbers. -/
def enumOfNumber (e : Schema.Enum) : Write Unit := do
  beginItem
  opening ("impl ::core::convert::TryFrom<i32> for " ++ e.ident ++ " \x7b")
  line "type Error = i32;"
  blank
  opening ("fn try_from(value: i32) -> ::core::result::Result<Self, i32>" ++ " \x7b")
  opening ("match value" ++ " \x7b")
  e.primaries.forM fun v =>
    line s!"{v.number.toInt} => ::core::result::Result::Ok(Self::{v.ident}),"
  line "other => ::core::result::Result::Err(other),"
  closing "\x7d"
  closing "\x7d"
  closing "\x7d"

/-- Writes the conversion to numbers. -/
def enumToNumber (e : Schema.Enum) : Write Unit := do
  beginItem
  opening (s!"impl ::core::convert::From<{e.ident}> for i32" ++ " \x7b")
  opening (s!"fn from(value: {e.ident}) -> i32" ++ " \x7b")
  line "value as i32"
  closing "\x7d"
  closing "\x7d"

/-- Writes an enum. -/
def enum (e : Schema.Enum) : Write Unit := do
  enumType e
  enumNames e
  enumDefault e
  enumOfNumber e
  enumToNumber e

/-- Writes the enums with the given numbers. -/
def enums (root : Site) (ids : List Schema.EnumId) : Write Unit :=
  ids.forM fun id => (root.schema.enums[id]?).forM enum

/-! ## Fields -/

/-- Writes a call of the function of a module. -/
def call (pass : Pass) (module form : String) (number : Nat) (value : String) : Write Unit :=
  let args := ", ".intercalate (toString number :: value :: pass.buffer)
  line s!"{pass.opening}{module}::{pass.function}{form}({args});"

/-- Writes a field's part in writing or measuring a message. -/
def fieldPass (site : Site) (pass : Pass) : FieldPlan → Write Unit
  | .map number key value place =>
    arguments (pass.opening ++ site.runtime ("encoding::map::" ++ pass.function))
      (FieldPlan.mapFunctions pass key ++ FieldPlan.mapFunctions pass value ++
        toString number :: ("&" ++ place) :: pass.buffer) ";"
  | .list number module isPacked place =>
    call pass module (if isPacked then "_packed" else "_repeated") number ("&" ++ place)
  | .single number module guard source _ => do
    opening ("if " ++ guard ++ " \x7b")
    call pass module "" number source
    closing "\x7d"

/-- Writes a field's arm in reading a message. -/
def fieldArm (site : Site) : FieldPlan → Write Unit
  | .map number key value place =>
    arguments (s!"{number} => " ++ site.runtime "encoding::map::merge")
      [key ++ "::merge", value ++ "::merge", "wire_type", "&mut " ++ place, "reader", "ctx"] ","
  | .list number module _ place =>
    line s!"{number} => {module}::merge_repeated(wire_type, &mut {place}, reader, ctx),"
  | .single number module _ _ (.direct place) =>
    line s!"{number} => {module}::merge(wire_type, &mut {place}, reader, ctx),"
  | .single number module _ _ (.inserted place) =>
    arguments s!"{number} => {module}::merge" ["wire_type", place, "reader", "ctx"] ","
  | .single number module _ _ (.wrapped type reference oneof variant) => do
    opening (s!"{number} =>" ++ " \x7b")
    line s!"let mut value: {type} = ::core::default::Default::default();"
    line s!"{module}::merge(wire_type, {reference}, reader, ctx)?;"
    line s!"{oneof} = ::core::option::Option::Some({variant}(value));"
    line "::core::result::Result::Ok(())"
    dedent
    line "\x7d"

/-! ## Messages -/

/-- Writes the struct of a message. -/
def struct (root : Site) (id : Schema.MessageId) (m : Schema.Message) : Write Unit := do
  let site ← here root
  beginItem
  line "#[derive(Clone, PartialEq, Debug, Default)]"
  opening ("pub struct " ++ Naming.typeIdent m.name ++ " \x7b")
  (m.fields.filter (·.oneof.isNone)).forM fun f =>
    line s!"pub {Naming.fieldIdent f.name}: {site.fieldType id f},"
  m.usedOneofs.forM fun (name, _) =>
    line s!"pub {Naming.fieldIdent name}: ::core::option::Option<{Site.oneofPath m name}>,"
  closing "\x7d"

/-- The fields with an accessor, and the enums these return. -/
def enumFields (m : Schema.Message) : List (Schema.Field × Schema.EnumId) :=
  m.fields.filterMap fun f =>
    match f.type, f.isRepeated, f.oneof with
    | .enumeration id, false, none => some (f, id)
    | _, _, _ => none

/-- Writes the accessor of a field that holds a value of an enum. -/
def accessor (site : Site) (f : Schema.Field) (id : Schema.EnumId) : Write Unit := do
  let path := site.enumPath id
  let ident := Naming.fieldIdent f.name
  let type := (site.schema.enums[id]?).elim "" (·.ident)
  beginItem
  let front := s!"/// Returns `{f.name}` as `{type}`, "
  line (front ++ "falling back to the default for unknown values.")
  opening (s!"pub fn {ident}(&self) -> {path}" ++ " \x7b")
  line s!"{path}::try_from(self.{ident}).unwrap_or_default()"
  closing "\x7d"

/-- Writes the accessors of a message, if there are any. -/
def accessors (root : Site) (m : Schema.Message) : Write Unit := do
  let site ← here root
  if (enumFields m).isEmpty then return
  beginItem
  opening ("impl " ++ Naming.typeIdent m.name ++ " \x7b")
  (enumFields m).forM fun (f, id) => accessor site f id
  closing "\x7d"

/-- Writes the method that writes a message. -/
def writeMethod (site : Site) (plans : List FieldPlan) : Write Unit := do
  let front := "fn encode_raw<B: " ++ site.runtime "bytes::BufMut" ++ ">(&self, "
  beginItem
  if plans.isEmpty then line (front ++ "_buf: &mut B) \x7b\x7d")
  else
    opening (front ++ "buf: &mut B)" ++ " \x7b")
    plans.forM (fieldPass site .write)
    closing "\x7d"

/-- Writes the method that reads a field of a message. -/
def readMethod (site : Site) (plans : List FieldPlan) : Write Unit := do
  let context := if plans.isEmpty then "_ctx" else "ctx"
  let skip := site.runtime "wire::skip_field"
  beginItem
  opening "fn merge_field("
  line "&mut self,"
  line "number: u32,"
  line ("wire_type: " ++ site.runtime "WireType" ++ ",")
  line ("reader: &mut " ++ site.runtime "WireReader" ++ "<'_>,")
  line (context ++ ": " ++ site.runtime "DecodeContext" ++ ",")
  dedent
  line (") -> " ++ site.runtime "Result" ++ "<()>" ++ " \x7b")
  indent
  line ("match number" ++ " \x7b")
  indent
  plans.forM (fieldArm site)
  line s!"_ => {skip}(number, wire_type, reader),"
  closing "\x7d"
  closing "\x7d"

/-- Writes the method that measures a message. -/
def measureMethod (site : Site) (plans : List FieldPlan) : Write Unit := do
  beginItem
  opening ("fn encoded_len(&self) -> usize" ++ " \x7b")
  if plans.isEmpty then line "0"
  else
    line "let mut len = 0;"
    plans.forM (fieldPass site .measure)
    line "len"
  closing "\x7d"

/-- Writes the methods of a message. -/
def methods (root : Site) (id : Schema.MessageId) (m : Schema.Message) : Write Unit := do
  let site ← here root
  let plans := site.plans id m
  beginItem
  opening ("impl " ++ site.runtime "Message" ++ " for " ++ Naming.typeIdent m.name ++ " \x7b")
  writeMethod site plans
  readMethod site plans
  measureMethod site plans
  closing "\x7d"

/-- Writes the enum of a oneof; the writer stands in the module of the message. -/
def oneof (root : Site) (owner : Schema.MessageId) (m : Schema.Message) (decl : String × Nat) :
    Write Unit := do
  let site ← here root
  beginItem
  line "#[derive(Clone, PartialEq, Debug)]"
  opening ("pub enum " ++ Naming.typeIdent decl.1 ++ " \x7b")
  (m.oneofVariants decl.2).forM fun (f, name) => line s!"{name}({site.boxedType owner f}),"
  closing "\x7d"

/-- The messages declared in a message that are no entries of maps. -/
def modulesIn (s : Schema) (id : Schema.MessageId) : List Schema.MessageId :=
  (s.messagesInside id).filter fun child => !(s.messages[child]?).any (·.isMapEntry)

/-- Writes the module for what is nested in a message, if there is anything; `inner` writes the
messages in it. -/
def nestedModule (root : Site) (id : Schema.MessageId) (m : Schema.Message) (inner : Write Unit) :
    Write Unit := do
  if (modulesIn root.schema id).isEmpty && (root.schema.enumsInside id).isEmpty &&
      m.usedOneofs.isEmpty then
    return
  beginItem
  line s!"/// Nested message and enum types in `{Naming.typeIdent m.name}`."
  opening ("pub mod " ++ Naming.moduleIdent m.name ++ " \x7b")
  enter (Naming.moduleIdent m.name)
  inner
  enums root (root.schema.enumsInside id)
  m.usedOneofs.forM (oneof root id m)
  leave
  closing "\x7d"

/-- Writes a message; nothing is written for the entry of a map. -/
def message (root : Site) (id : Schema.MessageId) : Write Unit :=
  match root.schema.messages[id]? with
  | none => pure ()
  | some m => do
    if m.isMapEntry then return
    struct root id m
    accessors root m
    methods root id m
    nestedModule root id m <|
      (modulesIn root.schema id).attach.forM fun child => message root child.1
termination_by root.schema.messages.length - id
decreasing_by
  have := Schema.lt_of_mem_messagesInside (List.mem_filter.1 child.2).1
  omega

/-! ## Files -/

/-- Writes the lines above the items of a file. -/
def header (config : Config) (file : Schema.File) : Write Unit := do
  line s!"// This file is @generated by {CodeFile.generatorName}. Do not edit."
  line ("// source: " ++ file.source.name)
  if config.emitDigest then line ("// descriptor digest: " ++ file.digest)
  blank

/-- Writes a file. -/
def file (root : Site) (file : Schema.File) : Write Unit := do
  header root.config file
  (root.schema.topMessages root.file).forM (message root)
  enums root (root.schema.topEnums root.file)

end Write

end Protowire
