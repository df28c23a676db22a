/-!
# CommandLine/Options — what the arguments of the program say

An argument with two dashes is an option by its long name, perhaps with a value after an equals
sign; an argument with one dash is a row of short options, the last of which may have its value
behind it.  A value may also be the next argument, unless that one looks like an option.  Arguments
are taken **one after the other** (`Arguments.parse`), and the first that is wrong, or that asks for
the version, decides.  What may stand with what is checked at the end (`Arguments.toOptions`).
-/

namespace Protowire.CommandLine

/-- Why the arguments are not acted upon. -/
inductive Stop where
  | usage
  | help
  | version
  deriving DecidableEq, Repr

/-- An option with a value. -/
inductive Valued where
  | request
  | descriptorSet
  | file
  | param
  | output
  deriving DecidableEq, Repr

/-- An option without a value. -/
inductive Switch where
  | verbose
  | force
  | dryRun
  | help
  | version
  deriving DecidableEq, Repr

/-- An option. -/
inductive Opt where
  | valued (v : Valued)
  | switch (s : Switch)
  deriving DecidableEq, Repr

/-- The options by their long names. -/
def longNames : List (String × Opt) :=
  [("request", .valued .request), ("descriptor-set", .valued .descriptorSet),
    ("file", .valued .file), ("param", .valued .param), ("output", .valued .output),
    ("verbose", .switch .verbose), ("force", .switch .force), ("dry-run", .switch .dryRun),
    ("help", .switch .help), ("version", .switch .version)]

/-- The options by their short names. -/
def shortNames : List (Char × Opt) :=
  [('o', .valued .output), ('v', .switch .verbose), ('h', .switch .help),
    ('V', .switch .version)]

/-- What has been said so far. -/
structure Arguments where
  request : Option String
  descriptorSet : Option String
  files : List String
  param : Option String
  output : Option String
  verbosity : Nat
  force : Bool
  dryRun : Bool
  deriving DecidableEq, Repr

namespace Arguments

/-- Nothing said. -/
def blank : Arguments :=
  { request := none, descriptorSet := none, files := [], param := none, output := none
    verbosity := 0, force := false, dryRun := false }

/-- A value that is given once, in place of none. -/
def once {α : Type} (old : Option α) (value : α) : Except Stop (Option α) :=
  if old.isSome then .error .usage else .ok (some value)

/-- A path that is given once; it is not empty. -/
def pathOnce (old : Option String) (path : String) : Except Stop (Option String) :=
  if path = "" then .error .usage else once old path

/-- The arguments with a value given. -/
def give (a : Arguments) (value : String) : Valued → Except Stop Arguments
  | .request => return { a with request := ← pathOnce a.request value }
  | .descriptorSet => return { a with descriptorSet := ← pathOnce a.descriptorSet value }
  | .file => return { a with files := a.files ++ [value] }
  | .param => return { a with param := ← once a.param value }
  | .output => return { a with output := ← pathOnce a.output value }

/-- The arguments with a switch on. -/
def turnOn (a : Arguments) : Switch → Except Stop Arguments
  | .verbose => .ok { a with verbosity := a.verbosity + 1 }
  | .force => if a.force then .error .usage else .ok { a with force := true }
  | .dryRun => if a.dryRun then .error .usage else .ok { a with dryRun := true }
  | .help => .error .help
  | .version => .error .version

/-- A long option, by its name and the value behind an equals sign.  An option without a value of
its own waits for the next argument. -/
def takeLong (a : Arguments) (name : String) (value : Option String) :
    Except Stop (Arguments × Option Valued) :=
  match longNames.lookup name, value with
  | some (.valued v), some value => return (← a.give value v, none)
  | some (.valued v), none => return (a, some v)
  | some (.switch s), none => return (← a.turnOn s, none)
  | some (.switch _), some _ => .error .usage
  | none, _ => .error .usage

/-- A row of short options.  A value may have an equals sign in front. -/
def takeShort (a : Arguments) : List Char → Except Stop (Arguments × Option Valued)
  | [] => .ok (a, none)
  | c :: rest =>
    match shortNames.lookup c, rest with
    | some (.switch s), rest => do (← a.turnOn s).takeShort rest
    | some (.valued v), [] => .ok (a, some v)
    | some (.valued v), '=' :: value => return (← a.give (String.ofList value) v, none)
    | some (.valued v), value => return (← a.give (String.ofList value) v, none)
    | none, _ => .error .usage

/-- A long option as it is written behind its dashes. -/
def splitLong (text : List Char) : String × Option String :=
  let name := text.takeWhile (· != '=')
  let value := text.drop name.length
  (String.ofList name, if value.isEmpty then none else some (String.ofList (value.drop 1)))

/-- What comes of the arguments, when an option may be waiting for its value. -/
def parse (a : Arguments) (waiting : Option Valued) : List String → Except Stop Arguments
  | [] => if waiting.isSome then .error .usage else .ok a
  | arg :: rest =>
    match arg.toList, waiting with
    | ['-', '-'], waiting =>
      if waiting.isSome ∨ rest ≠ [] then .error .usage else .ok a
    | '-' :: _ :: _, some _ => .error .usage
    | '-' :: '-' :: text, none => do
      let (name, value) := splitLong text
      let (a, waiting) ← a.takeLong name value
      a.parse waiting rest
    | '-' :: c :: text, none => do
      let (a, waiting) ← a.takeShort (c :: text)
      a.parse waiting rest
    | _, some v => do (← a.give arg v).parse none rest
    | _, none => .error .usage

end Arguments

/-- Where the program takes its request from. -/
inductive Source where
  | input
  | request (path : String)
  | descriptorSet (path : String)
  deriving DecidableEq, Repr

/-- What the program is asked to do. -/
structure Options where
  source : Source
  /-- The files to generate from; none stands for all. -/
  files : List String
  param : String
  output : String
  verbosity : Nat
  force : Bool
  dryRun : Bool
  deriving DecidableEq, Repr

/-- Where the request comes from: not from two places. -/
def Arguments.source (a : Arguments) : Except Stop Source :=
  match a.request, a.descriptorSet with
  | some _, some _ => .error .usage
  | some path, none => .ok (.request path)
  | none, some path => .ok (.descriptorSet path)
  | none, none => .ok .input

/-- What the arguments ask for.  Files and a parameter say nothing about a request from the
input. -/
def Arguments.toOptions (a : Arguments) : Except Stop Options := do
  let source ← a.source
  if source = .input ∧ (a.files ≠ [] ∨ a.param.isSome) then throw .usage
  return { source, files := a.files, param := a.param.getD "", output := a.output.getD "."
           verbosity := a.verbosity, force := a.force, dryRun := a.dryRun }

/-- What the arguments of the program ask for. -/
def Options.parse (args : List String) : Except Stop Options := do
  (← Arguments.blank.parse none args).toOptions

end Protowire.CommandLine
