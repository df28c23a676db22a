import Protowire.Naming.Ident
import Protowire.Schema.Basic

/-!
# Codegen/Variant — names that stay apart in generated code

Different names of a schema may have one identifier.  An enum value whose identifier is taken gets
its number behind it, again and again **until it is free** (`freshIdent`); a member of a oneof gets
its field number once.

The first value with a number is the one that stands for it; later values with that number are
other names for it.
-/

namespace Protowire

/-- The identifier, with the ending added until it is not in use.  What is added makes it longer,
so an identifier that was met does not come again and need not be kept. -/
def freshIdent (ending : String) (used : List String) (ident : String) : String :=
  if h : ident ∈ used then
    have : (used.erase ident).length < used.length := by
      have := List.length_pos_of_mem h
      rw [List.length_erase_of_mem h]
      omega
    freshIdent ending (used.erase ident) (ident ++ ending)
  else ident
termination_by used.length

/-- An enum value in generated code. -/
structure Variant where
  /-- The name in the schema. -/
  name : String
  ident : String
  number : Int32
  /-- The identifier of the earlier value with the same number, if there is one. -/
  aliasOf : Option String
  deriving DecidableEq, Repr

/-- The identifier of the value that stands for the number. -/
def Variant.target (v : Variant) : String :=
  v.aliasOf.getD v.ident

/-- Does the value stand for its number? -/
def Variant.isPrimary (v : Variant) : Bool :=
  v.aliasOf.isNone

/-- The next value, after those in `before`. -/
def Variant.next (enumName : String) (before : List Variant) (v : EnumValueDescriptor) : Variant :=
  { name := v.name
    ident := freshIdent s!"_{v.number.toInt}" (before.map (·.ident))
      (Naming.enumVariant enumName v.name)
    number := v.number
    aliasOf := (before.find? fun w => w.isPrimary && w.number == v.number).map (·.ident) }

/-- The values of an enum in generated code. -/
def Schema.Enum.variants (e : Schema.Enum) : List Variant :=
  e.values.foldl (fun before v => before ++ [Variant.next e.name before v]) []

/-- Members of a oneof with the names of their variants, when the names in `used` are taken. -/
def nameMembers : (used : List String) → List Schema.Field → List (Schema.Field × String)
  | _, [] => []
  | used, f :: fs =>
    let ident := Naming.typeIdent f.name
    let name := if used.contains ident then s!"{ident}{f.number}" else ident
    (f, name) :: nameMembers (name :: used) fs

namespace Schema.Message

/-- The members of a oneof. -/
def memberFields (m : Message) (oneof : Nat) : List Field :=
  (m.members oneof).filterMap (m.fields[·]?)

/-- The members of a oneof with the names of their variants. -/
def oneofVariants (m : Message) (oneof : Nat) : List (Field × String) :=
  nameMembers [] (m.memberFields oneof)

/-- The name of the variant of a member. -/
def variantName (m : Message) (oneof : Nat) (f : Field) : String :=
  ((m.oneofVariants oneof).find? fun v => v.1.number == f.number).elim
    (Naming.typeIdent f.name) (·.2)

/-- The oneofs that have members, by name and position. -/
def usedOneofs (m : Message) : List (String × Nat) :=
  (m.oneofs.zipIdx.filter fun o => !o.1.fields.isEmpty).map fun o => (o.1.name, o.2)

end Schema.Message

end Protowire
