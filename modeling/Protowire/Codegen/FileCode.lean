import Protowire.Codegen.MessageCode

/-!
# Codegen/FileCode — the files that are generated

Each schema file becomes a file of code: a header, a blank line, and the items of its messages and
enums.  **The index declares one module for each of them**, in ascending order.
-/

namespace Protowire

/-- A file that was generated. -/
structure CodeFile where
  name : String
  content : String
  deriving DecidableEq, Repr

namespace CodeFile

/-- The name of the generator. -/
def generatorName : String := "protoc-gen-tagwire"

/-- The name of the index. -/
def indexName : String := "mod.rs"

/-- The first line of every file. -/
def notice : Code :=
  .line s!"// This file is @generated by {generatorName}. Do not edit."

/-- The lines above the items of a file. -/
def header (config : Config) (file : Schema.File) : List Code :=
  [notice, .line ("// source: " ++ file.source.name)] ++
    (if config.emitDigest then [.line ("// descriptor digest: " ++ file.digest)] else []) ++
    [.blank]

/-- The items of a file. -/
def fileItems (site : Site) : List (List Code) :=
  (site.schema.topMessages site.file).flatMap site.messageItems ++
    site.enumItems (site.schema.topEnums site.file)

/-- The code of a file. -/
def fileCode (schema : Schema) (config : Config) (id : Schema.FileId) (file : Schema.File) :
    List Code :=
  header config file ++ Code.items (fileItems ⟨schema, config, id, []⟩)

/-- The file generated for a schema file. -/
def ofFile (schema : Schema) (config : Config) (id : Schema.FileId) (file : Schema.File) :
    CodeFile :=
  ⟨Naming.outputFileName file.source.name,
    Code.render config.indent (fileCode schema config id file)⟩

/-- The index of the modules generated for the named files. -/
def index (config : Config) (names : List String) : CodeFile :=
  let modules := ((names.map Naming.fileModule).mergeSort (fun a b => decide (a ≤ b))).eraseDups
  ⟨indexName, Code.render config.indent <|
    [notice, .blank] ++ modules.map fun module => .line s!"pub mod {module};"⟩

end CodeFile

end Protowire
