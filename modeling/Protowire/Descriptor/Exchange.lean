import Protowire.Descriptor.Basic

/-!
# Descriptor/Exchange — what a compiler asks of a code generator, and the answer

A compiler sends all files of a schema, the names of those to generate from and a parameter; the
generator answers with files, or with an error and no files.
-/

namespace Protowire

/-- The version of a compiler. -/
structure Version where
  major : Int32
  minor : Int32
  patch : Int32
  suffix : String
  deriving DecidableEq, Repr

/-- The version as text: three numbers, and the suffix after a dash if there is one. -/
def Version.display (v : Version) : String :=
  let numbers := s!"{v.major.toInt}.{v.minor.toInt}.{v.patch.toInt}"
  if v.suffix.isEmpty then numbers else s!"{numbers}-{v.suffix}"

/-- A file set on its own, as compilers write it for later use. -/
structure FileDescriptorSet where
  files : List FileDescriptor

/-- What a compiler asks of a code generator. -/
structure GeneratorRequest where
  /-- The names of the files to generate from. -/
  targets : List String
  parameter : String
  compilerVersion : Option Version
  /-- The files to generate from and everything they import. -/
  files : List FileDescriptor

/-- A file in the answer of a code generator. -/
structure ResponseFile where
  name : String
  insertionPoint : String
  content : String
  deriving DecidableEq, Repr

/-- The answer of a code generator. -/
structure GeneratorResponse where
  error : Option String
  supportedFeatures : UInt64
  files : List ResponseFile
  deriving DecidableEq, Repr

end Protowire
