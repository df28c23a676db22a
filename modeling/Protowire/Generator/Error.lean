import Protowire.Codegen.Config
import Protowire.Schema.Error
import Protowire.Wire.Error

/-!
# Generator/Error — why nothing is generated
-/

namespace Protowire

/-- Why nothing is generated. -/
inductive GeneratorError where
  /-- The request is no message. -/
  | undecodable (cause : DecodeError)
  /-- The parameter is none. -/
  | badParameter (cause : ParameterError)
  /-- A file to generate from is not there. -/
  | unknownFile (name : String)
  /-- The files are no schema. -/
  | badSchema (cause : SchemaError)
  /-- Two files to generate from lead to files of one name. -/
  | duplicateOutput (name : String)
  deriving DecidableEq, Repr

/-- The text shown to the user. -/
def GeneratorError.message : GeneratorError → String
  | undecodable cause => s!"failed to decode request: {cause.message}"
  | badParameter cause => cause.message
  | unknownFile name => s!"file to generate '{name}' was not supplied"
  | badSchema cause => cause.message
  | duplicateOutput name => s!"more than one file maps to output '{name}'"

end Protowire
