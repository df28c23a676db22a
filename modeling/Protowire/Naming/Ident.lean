import Protowire.Naming.Words

/-!
# Naming/Ident — identifiers of generated code

Every name of a schema has an identifier in the generated code, whatever characters it is made of:
types and enum values in camel case, fields and modules in snake case.  Keywords are escaped, with
`r#` where the language lets a keyword stand as a raw identifier and by an underscore otherwise, and
an identifier that is empty or starts with a digit gets an underscore in front.
-/

namespace Protowire.Naming

/-- The keywords of the generated language. -/
def keywords : List String :=
  ["abstract", "as", "async", "await", "become", "box", "break", "const", "continue", "crate",
    "do", "dyn", "else", "enum", "extern", "false", "final", "fn", "for", "gen", "if", "impl", "in",
    "let", "loop", "macro", "match", "mod", "move", "mut", "override", "priv", "pub", "ref",
    "return", "self", "Self", "static", "struct", "super", "trait", "true", "try", "type",
    "typeof", "unsafe", "unsized", "use", "virtual", "where", "while", "yield"]

/-- The keywords that may not stand as raw identifiers. -/
def unrawableKeywords : List String := ["crate", "self", "Self", "super"]

/-- Is the identifier a keyword? -/
def isKeyword (ident : String) : Bool := keywords.contains ident

/-- Does the identifier lack a character that may come first? -/
def lacksStart (ident : List Char) : Bool :=
  match ident.head? with
  | none => true
  | some c => c.isDigit

/-- The identifier with an underscore in front where it lacks a first character. -/
def withStart (ident : List Char) : List Char :=
  if lacksStart ident then '_' :: ident else ident

/-- The identifier of a type, or of a variant, from a name in any case. -/
def typeChars (name : List Char) : List Char :=
  let ident := upperCamel name
  if ident = "Self".toList then "Self_".toList else withStart ident

/-- The identifier of a type or a variant. -/
def typeIdent (name : String) : String := String.ofList (typeChars name.toList)

/-- The identifier of a field or of its accessor. -/
def fieldIdent (name : String) : String :=
  let ident := String.ofList (snake name.toList)
  if unrawableKeywords.contains ident then ident ++ "_"
  else if isKeyword ident then "r#" ++ ident
  else String.ofList (withStart ident.toList)

/-- The identifier of the module that holds the types nested in a message. -/
def moduleIdent (name : String) : String :=
  let ident := String.ofList (snake name.toList)
  if isKeyword ident then ident ++ "_" else ident

/-- The name of a schema file without its extension. -/
def stem (fileName : String) : String :=
  let extension := ".proto".toList
  let name := fileName.toList
  if extension.isSuffixOf name then String.ofList (name.take (name.length - extension.length))
  else fileName

/-- The module generated for a schema file. -/
def fileModule (fileName : String) : String :=
  String.ofList (withStart (moduleIdent (stem fileName)).toList)

/-- The name of the file generated for a schema file. -/
def outputFileName (fileName : String) : String := fileModule fileName ++ ".rs"

/-- The identifier of an enum value.  The name of the enum is left out in front when what remains
starts with a capital. -/
def enumVariant (enumName valueName : String) : String :=
  let head := upperCamel enumName.toList
  let camel := upperCamel valueName.toList
  let rest := camel.drop head.length
  if head.isPrefixOf camel ∧ rest.head?.any Char.isUpper then String.ofList (typeChars rest)
  else String.ofList (typeChars camel)

end Protowire.Naming
