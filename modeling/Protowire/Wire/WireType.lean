/-!
# Wire/WireType — how the payload of a field is framed

Four framings are in use, each with a three-bit code.  The codes of groups and the undefined ones
name no framing (`WireType.ofCode?`).
-/

namespace Protowire

/-- The framing of a field's payload. -/
inductive WireType where
  /-- A base-128 integer of one to ten bytes. -/
  | varint
  /-- Eight bytes, lowest first. -/
  | fixed64
  /-- A varint length, then that many bytes. -/
  | lengthDelimited
  /-- Four bytes, lowest first. -/
  | fixed32
  deriving DecidableEq, Repr

namespace WireType

/-- The code that stands in the low three bits of a tag. -/
def code : WireType → Nat
  | varint => 0
  | fixed64 => 1
  | lengthDelimited => 2
  | fixed32 => 5

/-- The framing with the given code, if it has one. -/
def ofCode? : Nat → Option WireType
  | 0 => some varint
  | 1 => some fixed64
  | 2 => some lengthDelimited
  | 5 => some fixed32
  | _ => none

/-- The name error messages use. -/
def name : WireType → String
  | varint => "Varint"
  | fixed64 => "Fixed64"
  | lengthDelimited => "LengthDelimited"
  | fixed32 => "Fixed32"

/-- A code names a framing exactly when it is that framing's code. -/
theorem ofCode?_eq_some_iff {c : Nat} {w : WireType} : ofCode? c = some w ↔ c = w.code := by
  constructor
  · intro h
    unfold ofCode? at h
    split at h <;> simp_all <;> subst h <;> rfl
  · rintro rfl
    cases w <;> rfl

end WireType

end Protowire
