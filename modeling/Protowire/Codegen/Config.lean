import Protowire.Text.Blank
import Protowire.Text.Split

/-!
# Codegen/Config — what generated code looks like, and parameters that say so

A parameter is a list of items between commas.  An item is a key, or a key and a value with an
equals sign between them; blanks around items, keys and values do not count, and neither do empty
items.  **Every item is one `Setting`** and the settings take effect in order, so that the last one
for a key decides.  The first item that is no setting refuses the whole parameter.
-/

namespace Protowire

/-- What generated code looks like. -/
structure Config where
  /-- The path by which generated code reaches the runtime. -/
  runtimePath : String
  /-- Are map fields kept in key order? -/
  btreeMap : Bool
  /-- Does the header show the digest of the descriptor? -/
  emitDigest : Bool
  /-- Is there an index of the generated files? -/
  emitIndex : Bool
  /-- What one level of nesting is indented by. -/
  indent : String
  deriving DecidableEq, Repr

/-- What generated code looks like when no parameter says otherwise. -/
def Config.standard : Config :=
  { runtimePath := "::tagwire", btreeMap := false, emitDigest := true, emitIndex := true
    indent := "    " }

/-- What is wrong with an item. -/
inductive ParameterFault where
  | expectedPath
  | expectedFlag
  | expectedWidth
  | unknownOption
  deriving DecidableEq, Repr

/-- The words for what is wrong. -/
def ParameterFault.reason : ParameterFault → String
  | expectedPath => "expected a path"
  | expectedFlag => "expected true or false"
  | expectedWidth => "expected a width between 1 and 16"
  | unknownOption => "unknown option"

/-- An item that is no setting. -/
structure ParameterError where
  /-- The item without blanks around it. -/
  item : String
  fault : ParameterFault
  deriving DecidableEq, Repr

/-- The text shown to the user. -/
def ParameterError.message (e : ParameterError) : String :=
  s!"invalid parameter '{e.item}': {e.fault.reason}"

/-- One choice about generated code. -/
inductive Setting where
  | runtimePath (path : String)
  | btreeMap (on : Bool)
  | emitDigest (on : Bool)
  | emitIndex (on : Bool)
  | indent (width : Nat)
  deriving DecidableEq, Repr

namespace Setting

/-- The configuration with the choice made. -/
def apply (config : Config) : Setting → Config
  | runtimePath path => { config with runtimePath := path }
  | btreeMap on => { config with btreeMap := on }
  | emitDigest on => { config with emitDigest := on }
  | emitIndex on => { config with emitIndex := on }
  | indent width => { config with indent := String.ofList (List.replicate width ' ') }

/-- The path a value gives; an empty one is none. -/
def path? : Option (List Char) → Option String
  | some (c :: cs) => some (String.ofList (c :: cs))
  | _ => none

/-- The flag a value gives; no value switches on. -/
def flag? : Option (List Char) → Option Bool
  | none => some true
  | some value =>
    if value = "true".toList then some true
    else if value = "false".toList then some false
    else none

/-- The number of a row of digits. -/
def ofDigits? (digits : List Char) : Option Nat :=
  if digits ≠ [] ∧ digits.all Char.isDigit then
    some (digits.foldl (fun n d => 10 * n + (d.toNat - '0'.toNat)) 0)
  else none

/-- The width a value gives: digits, with a plus sign in front at will, for a number from 1 to
16. -/
def width? : Option (List Char) → Option Nat
  | none => none
  | some value =>
    let digits := match value with
      | '+' :: digits => digits
      | digits => digits
    (ofDigits? digits).filter fun width => 1 ≤ width && width ≤ 16

/-- The setting of a key and a value. -/
def ofKey (key : List Char) (value : Option (List Char)) : Except ParameterFault Setting :=
  if key = "runtime_path".toList then
    (path? value).elim (.error .expectedPath) fun path => .ok (runtimePath path)
  else if key = "btree_map".toList then
    (flag? value).elim (.error .expectedFlag) fun on => .ok (btreeMap on)
  else if key = "emit_digest".toList then
    (flag? value).elim (.error .expectedFlag) fun on => .ok (emitDigest on)
  else if key = "emit_index".toList then
    (flag? value).elim (.error .expectedFlag) fun on => .ok (emitIndex on)
  else if key = "indent".toList then
    (width? value).elim (.error .expectedWidth) fun width => .ok (indent width)
  else .error .unknownOption

/-- The setting of an item without blanks around it. -/
def ofItem (item : List Char) : Except ParameterError Setting :=
  let found := match Text.splitOnce '=' item with
    | some (key, value) => ofKey (Text.trim key) (some (Text.trim value))
    | none => ofKey item none
  found.mapError fun fault => ⟨String.ofList item, fault⟩

end Setting

namespace Config

/-- The items of a parameter, without blanks around them and without empty ones. -/
def items (parameter : String) : List (List Char) :=
  ((Text.splitAll ',' parameter.toList).map Text.trim).filter fun item => !item.isEmpty

/-- The settings of a parameter, in order. -/
def settings (parameter : String) : Except ParameterError (List Setting) :=
  (items parameter).mapM Setting.ofItem

/-- The configuration a parameter describes. -/
def parse (parameter : String) : Except ParameterError Config := do
  return (← settings parameter).foldl Setting.apply standard

end Config

end Protowire
