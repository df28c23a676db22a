import Protowire.Codegen.Code
import Protowire.Codegen.Variant

/-!
# Codegen/EnumCode — the code of an enum

An enum becomes five items that are written **from one table of variants**: the type, its names,
its default and the conversions from and to numbers.
-/

namespace Protowire

namespace Schema.Enum

/-- The variants that stand for a number. -/
def primaries (e : Enum) : List Variant :=
  e.variants.filter (·.isPrimary)

/-- The variant of the default value. -/
def defaultVariant? (e : Enum) : Option Variant :=
  (e.default?.bind fun v => e.primaries.find? fun w => w.number == v.number).or e.primaries.head?

/-- The identifier of the type. -/
def ident (e : Enum) : String := Naming.typeIdent e.name

/-- The type. -/
def typeItem (e : Enum) : List Code :=
  [.line "#[derive(Clone, Copy, Debug, PartialEq, Eq, Hash, PartialOrd, Ord)]",
    .line "#[repr(i32)]"] ++
    Code.braces ("pub enum " ++ e.ident)
      (e.primaries.map fun v => .line s!"{v.ident} = {v.number.toInt},")

/-- The other names of variants, as constants. -/
def aliasCode (e : Enum) : List Code :=
  let aliases := e.variants.filter fun v => !v.isPrimary
  let lines := aliases.flatMap fun v =>
    [.line "#[allow(non_upper_case_globals)]",
      .line s!"pub const {v.ident}: Self = Self::{v.target};"]
  if aliases.isEmpty then [] else lines ++ [.blank]

/-- The names of the values, and the values by name. -/
def namesItem (e : Enum) : List Code :=
  let toName := e.primaries.map fun v => Code.line s!"Self::{v.ident} => \"{v.name}\","
  let ofName := e.variants.map fun v =>
    Code.line s!"\"{v.name}\" => ::core::option::Option::Some(Self::{v.target}),"
  Code.braces ("impl " ++ e.ident) <|
    e.aliasCode ++
    [.line "/// Name of the value as written in the `.proto` definition."] ++
    Code.braces "pub fn as_str_name(&self) -> &'static str" (Code.braces "match self" toName) ++
    [.blank, .line "/// Looks up a value by its `.proto` name."] ++
    Code.braces "pub fn from_str_name(value: &str) -> ::core::option::Option<Self>"
      (Code.braces "match value" (ofName ++ [.line "_ => ::core::option::Option::None,"]))

/-- The default. -/
def defaultItem (e : Enum) (v : Variant) : List Code :=
  Code.braces ("impl ::core::default::Default for " ++ e.ident)
    (Code.braces "fn default() -> Self" [.line ("Self::" ++ v.ident)])

/-- The conversion from numbers. -/
def ofNumberItem (e : Enum) : List Code :=
  let arms := e.primaries.map fun v =>
    Code.line s!"{v.number.toInt} => ::core::result::Result::Ok(Self::{v.ident}),"
  Code.braces ("impl ::core::convert::TryFrom<i32> for " ++ e.ident) <|
    [.line "type Error = i32;", .blank] ++
    Code.braces "fn try_from(value: i32) -> ::core::result::Result<Self, i32>"
      (Code.braces "match value"
        (arms ++ [.line "other => ::core::result::Result::Err(other),"]))

/-- The conversion to numbers. -/
def toNumberItem (e : Enum) : List Code :=
  Code.braces s!"impl ::core::convert::From<{e.ident}> for i32"
    (Code.braces s!"fn from(value: {e.ident}) -> i32" [.line "value as i32"])

/-- The items of an enum. -/
def code (e : Enum) : List (List Code) :=
  [e.typeItem, e.namesItem] ++ e.defaultVariant?.toList.map e.defaultItem ++
    [e.ofNumberItem, e.toNumberItem]

end Schema.Enum

end Protowire
