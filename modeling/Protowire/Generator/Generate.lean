import Protowire.Codegen.FileCode
import Protowire.Descriptor.Exchange
import Protowire.Generator.Error
import Protowire.Naming.Repeated
import Protowire.Schema.Resolve

/-!
# Generator/Generate — code for the files that are asked for

One file is generated for each name that is asked for, in the order of the first time it is, and
the index comes last.  **All or nothing**: when two of the generated files would have one name, or
anything else is wrong, there is no file at all.
-/

namespace Protowire

/-- The files generated for the named files of a schema, and the index if it is wanted. -/
def Schema.codeFiles (schema : Schema) (targets : List String) (config : Config) :
    List CodeFile :=
  let files := targets.filterMap fun name => do
    let id ← schema.fileNamed? name
    let file ← schema.files[id]?
    return CodeFile.ofFile schema config id file
  let index := if config.emitIndex && !targets.isEmpty then [CodeFile.index config targets] else []
  files ++ index

/-- The files generated for the named ones among the given. -/
def generateFiles (files : List FileDescriptor) (targets : List String) (config : Config) :
    Except GeneratorError (List CodeFile) := do
  match targets.find? fun name => (FileDescriptor.named? files name).isNone with
  | some name => throw (.unknownFile name)
  | none => pure ()
  let schema ← (Schema.resolve files).mapError .badSchema
  let outputs := schema.codeFiles targets.eraseDups config
  match Naming.firstRepeated? [] (outputs.map (·.name)) with
  | some name => throw (.duplicateOutput name)
  | none => return outputs

/-- The files a request asks for. -/
def GeneratorRequest.generate (request : GeneratorRequest) :
    Except GeneratorError (List CodeFile) := do
  let config ← (Config.parse request.parameter).mapError .badParameter
  generateFiles request.files request.targets config

end Protowire
