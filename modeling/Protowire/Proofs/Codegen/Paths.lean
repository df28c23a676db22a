import Protowire.Proofs.Codegen.NamedTypes
import Protowire.Proofs.Naming.Characters

/-!
# Proofs/Codegen/Paths — the paths to types lead to them

A path is read from the module that it stands in.  Its segments are cut out of the text
(`segments`), and **`super` goes one module up, any other segment one down** (`follow`), all below
the module around those of the files.  No module is called `super`, and no identifier has a colon in
it, so what is read is the way that was printed (`Site.segments_typePath`).

What is printed goes up to where both ways down part, or past the module of the file, and then down:
it leads to the file of the type, through the modules of the messages around it, to the type
(`Site.follow_typePath`).
-/

namespace Protowire

open Schema

/-! ## Reading a path -/

/-- The pieces between double colons. -/
def cutPath : List Char → List (List Char)
  | [] => [[]]
  | ':' :: ':' :: rest => [] :: cutPath rest
  | c :: rest => (cutPath rest).modifyHead (c :: ·)

/-- The segments of a path. -/
def segments (path : String) : List String :=
  (cutPath path.toList).map String.ofList

theorem cutPath_cons {c : Char} (hc : c ≠ ':') (rest : List Char) :
    cutPath (c :: rest) = (cutPath rest).modifyHead (c :: ·) := by
  rw [cutPath]
  exact fun _ h => absurd h hc

theorem cutPath_of_notMem {piece : List Char} (h : ':' ∉ piece) : cutPath piece = [piece] := by
  induction piece with
  | nil => rfl
  | cons c piece ih =>
    rw [List.mem_cons, not_or] at h
    rw [cutPath_cons (Ne.symm h.1), ih h.2]
    rfl

theorem cutPath_append {piece : List Char} (h : ':' ∉ piece) (rest : List Char) :
    cutPath (piece ++ ':' :: ':' :: rest) = piece :: cutPath rest := by
  induction piece with
  | nil => rfl
  | cons c piece ih =>
    rw [List.mem_cons, not_or] at h
    rw [List.cons_append, cutPath_cons (Ne.symm h.1), ih h.2]
    rfl

/-- **A path that was printed has the segments it was printed from.** -/
theorem segments_intercalate {way : List String} (hne : way ≠ [])
    (h : ∀ segment ∈ way, ':' ∉ segment.toList) : segments ("::".intercalate way) = way := by
  have hcut : cutPath ("::".intercalate way).toList = way.map String.toList := by
    rw [String.toList_intercalate]
    induction way with
    | nil => exact absurd rfl hne
    | cons segment way ih =>
      obtain ⟨hsegment, hway⟩ := List.forall_mem_cons.1 h
      cases way with
      | nil =>
        rw [List.map_singleton, List.intercalate_singleton]
        exact cutPath_of_notMem hsegment
      | cons next way =>
        rw [List.map_cons, List.map_cons, List.intercalate_cons_cons, List.append_assoc]
        exact (cutPath_append hsegment _).trans (congrArg _ (ih (List.cons_ne_nil _ _) hway))
  rw [segments, hcut, List.map_map]
  exact List.map_id'' (fun _ => String.ofList_toList) way

/-- Where a path leads from a module, which is given by the modules around it and itself.  There is
nothing above the module around all. -/
def follow : List String → List String → Option (List String)
  | place, [] => some place
  | place, segment :: way =>
    if segment = "super" then if place = [] then none else follow place.dropLast way
    else follow (place ++ [segment]) way

section Follow

variable {place way : List String}

theorem follow_append (way' : List String) :
    follow place (way ++ way') = (follow place way).bind (follow · way') := by
  induction way generalizing place with
  | nil => rfl
  | cons segment way ih =>
    rw [List.cons_append, follow, follow]
    split
    · split
      · rfl
      · exact ih
    · exact ih

/-- As many times `super` as there were modules down lead back up. -/
theorem follow_up (place down : List String) :
    follow (place ++ down) (List.replicate down.length "super") = some place := by
  induction down using List.reverseRecOn with
  | nil => rw [List.append_nil]; rfl
  | append_singleton down module ih =>
    rw [List.length_append, List.length_singleton, List.replicate_succ, ← List.append_assoc,
      follow, if_pos rfl, if_neg (List.append_ne_nil_of_right_ne_nil _ (List.cons_ne_nil _ _)),
      List.dropLast_concat]
    exact ih

/-- Without `super` a path leads down. -/
theorem follow_down (h : "super" ∉ way) : follow place way = some (place ++ way) := by
  induction way generalizing place with
  | nil => rw [List.append_nil]; rfl
  | cons segment way ih =>
    rw [List.mem_cons, not_or] at h
    rw [follow, if_neg (Ne.symm h.1), ih h.2, List.append_assoc]
    rfl

end Follow

/-! ## The way from one module to another -/

namespace Site

/-- Two ways down are the same as far as they have modules in common. -/
theorem take_commonDepth : ∀ here there : List String,
    here.take (commonDepth here there) = there.take (commonDepth here there)
  | [], _ => by simp [commonDepth]
  | _ :: _, [] => by simp [commonDepth]
  | a :: here, b :: there => by
    rw [commonDepth]
    split
    · rename_i hab
      rw [hab, List.take_succ_cons, List.take_succ_cons, take_commonDepth here there]
    · rfl

/-- **The way from one module to another leads there**, from anywhere that both are below. -/
theorem follow_route (root here : List String) {there : List String} (h : "super" ∉ there) :
    follow (root ++ here) (route here there) = some (root ++ there) := by
  -- Up to where the ways part, and down from there.
  have hhere : root ++ here = (root ++ there.take (commonDepth here there)) ++
      here.drop (commonDepth here there) := by
    rw [← take_commonDepth, List.append_assoc, List.take_append_drop]
  have hdown : "super" ∉ there.drop (commonDepth here there) := fun hmem =>
    h (List.mem_of_mem_drop hmem)
  rw [route, follow_append, hhere, ← List.length_drop, follow_up, Option.bind_some,
    follow_down hdown, List.append_assoc, List.take_append_drop]

/-- The module that code stands in, with the modules around it. -/
def address (site : Site) : List String :=
  Naming.fileModule (site.fileName site.file) :: site.modules

variable {site : Site} {file : FileId} {parent : Option MessageId} {name : String}

theorem exists_of_mem_modulesOf {module : String} (h : module ∈ site.modulesOf parent) :
    ∃ name, module = Naming.moduleIdent name := by
  obtain ⟨id, -, hmodule⟩ := List.mem_filterMap.1 h
  obtain ⟨m, -, rfl⟩ := Option.map_eq_some_iff.1 hmodule
  exact ⟨m.name, rfl⟩

/-- No module is called `super`. -/
theorem super_notMem_modulesOf : "super" ∉ site.modulesOf parent := fun h => by
  obtain ⟨name, hname⟩ := exists_of_mem_modulesOf h
  exact Naming.moduleIdent_not_keyword name (hname ▸ by decide)

theorem super_ne_typeIdent (name : String) : "super" ≠ Naming.typeIdent name := fun h =>
  Naming.typeIdent_not_keyword name (h ▸ by decide)

theorem super_ne_fileModule (name : String) : "super" ≠ Naming.fileModule name := fun h =>
  Naming.fileModule_not_keyword name (h ▸ by decide)

/-- **The way to a type leads to it**, through the module of its file and those of the messages
around it. -/
theorem follow_typePath (site : Site) (file : FileId) (parent : Option MessageId) (name : String) :
    follow site.address (site.typePath file parent name) =
      some (Naming.fileModule (site.fileName file) :: site.modulesOf parent ++
        [Naming.typeIdent name]) := by
  have htype (root : List String) :
      follow root [Naming.typeIdent name] = some (root ++ [Naming.typeIdent name]) :=
    follow_down fun h => super_ne_typeIdent name (List.mem_singleton.1 h)
  rw [typePath, follow_append]
  split
  · rename_i hfile
    have hthere : "super" ∉ site.modulesOf parent := super_notMem_modulesOf
    have hroute := follow_route [Naming.fileModule (site.fileName site.file)] site.modules hthere
    rw [address, ← List.singleton_append, hroute, Option.bind_some, htype, hfile]
    rfl
  · have hup := follow_up [] site.address
    have hdown : "super" ∉ Naming.fileModule (site.fileName file) :: site.modulesOf parent := by
      rw [List.mem_cons, not_or]
      exact ⟨super_ne_fileModule _, super_notMem_modulesOf⟩
    rw [List.nil_append, address, List.length_cons] at hup
    rw [address, follow_append, hup, Option.bind_some, follow_down hdown, Option.bind_some, htype]
    rfl

/-- The way to a type of another file passes the module around those of the files. -/
theorem exists_follow_typePath_eq_nil (h : file ≠ site.file) : ∃ up down,
    site.typePath file parent name = up ++ down ∧ follow site.address up = some [] := by
  refine ⟨_, (Naming.fileModule (site.fileName file) :: site.modulesOf parent) ++
    [Naming.typeIdent name], ?_, follow_up [] site.address⟩
  rw [typePath, if_neg h, List.append_assoc]
  rfl

/-- **The segments of a way to a type are of letters, digits and underscores.** -/
theorem identChar_of_mem_typePath {segment : String}
    (h : segment ∈ site.typePath file parent name) :
    ∀ c ∈ segment.toList, Naming.IdentChar c := by
  have hsuper {n : Nat} (h : segment ∈ List.replicate n "super") :
      ∀ c ∈ segment.toList, Naming.IdentChar c := by
    rw [List.eq_of_mem_replicate h]
    decide
  have hmodule (h : segment ∈ site.modulesOf parent) :
      ∀ c ∈ segment.toList, Naming.IdentChar c := by
    obtain ⟨name, rfl⟩ := exists_of_mem_modulesOf h
    exact fun _ => Naming.identChar_of_mem_moduleIdent
  rw [typePath, List.mem_append, List.mem_singleton] at h
  rcases h with h | rfl
  · split at h
    · exact (List.mem_append.1 h).elim hsuper fun h => hmodule (List.mem_of_mem_drop h)
    · rw [List.mem_append, List.mem_cons] at h
      rcases h with h | rfl | h
      · exact hsuper h
      · exact fun _ => Naming.identChar_of_mem_fileModule
      · exact hmodule h
  · exact fun _ => Naming.identChar_of_mem_typeIdent

/-- No segment of a way to a type has a colon in it. -/
theorem colon_notMem_typePath {segment : String} (h : segment ∈ site.typePath file parent name) :
    ':' ∉ segment.toList := fun hcolon =>
  absurd (identChar_of_mem_typePath h ':' hcolon) (by decide)

theorem segments_typePath : segments ("::".intercalate (site.typePath file parent name)) =
    site.typePath file parent name :=
  segments_intercalate (List.append_ne_nil_of_right_ne_nil _ (List.cons_ne_nil _ _))
    fun _ => colon_notMem_typePath

end Site

/-! ## The modules around a type -/

namespace Schema

/-- The modules around what is declared in `parent`, of the messages around it, the outermost
first. -/
inductive ModulesAround (s : Schema) : Option MessageId → List String → Prop where
  | file : ModulesAround s none []
  | message {p : MessageId} {m : Message} {modules : List String} (hm : s.messages[p]? = some m)
      (h : ModulesAround s m.parent modules) :
      ModulesAround s (some p) (modules ++ [Naming.moduleIdent m.name])

/-- A symbol is declared in a file and a message, or outside all messages, by a name. -/
inductive Symbol.Declares (s : Schema) : Symbol → FileId → Option MessageId → String → Prop where
  | message {id : MessageId} {m : Message} (hm : s.messages[id]? = some m) :
      Declares s (.message id) m.file m.parent m.name
  | enumeration {id : EnumId} {e : Enum} (he : s.enums[id]? = some e) :
      Declares s (.enumeration id) e.file e.parent e.name

section Around

variable {s : Schema}

theorem modulesAround_of_message (h : Coherent s) (config : Config) {file : FileId}
    {p : MessageId} {m : Message} (hm : s.messages[p]? = some m) :
    s.ModulesAround (some p) (Site.placeOf s config file (some p)).modules := by
  induction p using Nat.strongRecOn generalizing m with
  | ind p ih =>
    rw [Site.placeOf_some h file hm]
    refine .message hm ?_
    cases hparent : m.parent with
    | none => exact .file
    | some q =>
      obtain ⟨n, hn, -⟩ := (h.messages p m hm).nested q hparent
      exact ih q ((h.messages p m hm).parent_lt q hparent) hn

/-- The modules down to what is declared are those of the messages around it. -/
theorem modulesAround_modulesOf (h : Coherent s) (config : Config) {file : FileId}
    {parent : Option MessageId} {name fullName : String}
    (hname : CoherentName s file parent name fullName) :
    s.ModulesAround parent (Site.placeOf s config file parent).modules := by
  cases parent with
  | none => exact .file
  | some p =>
    obtain ⟨m, hm, -⟩ := hname.nested p rfl
    exact modulesAround_of_message h config hm

/-- What a symbol declares is in a file that there is, named after what is around it. -/
theorem Symbol.Declares.coherentName (h : Coherent s) {symbol : Symbol} {file : FileId}
    {parent : Option MessageId} {name : String} (hsymbol : symbol.Declares s file parent name) :
    ∃ fullName, CoherentName s file parent name fullName := by
  cases hsymbol with
  | message hm => exact ⟨_, (h.messages _ _ hm).toCoherentName⟩
  | enumeration he => exact ⟨_, (h.enums _ _ he).toCoherentName⟩

end Around

end Schema

/-! ## Paths that are written -/

namespace Site

/-- The path to a symbol is the way to its type. -/
theorem path_eq {site : Site} {symbol : Symbol} {file : FileId} {parent : Option MessageId}
    {name : String} (h : symbol.Declares site.schema file parent name) :
    site.path symbol = "::".intercalate (site.typePath file parent name) := by
  cases h with
  | message hm => rw [path, messagePath, hm]; rfl
  | enumeration he => rw [path, enumPath, he]; rfl

/-- **Every path that is written here leads to its type**: to the module of the file, through those
of the messages around the type, and to the type.  Where the file is another one, it passes the
module around those of the files. -/
def PathsLead (here : Site) : Prop :=
  ∀ symbol file parent name, symbol.Declares here.schema file parent name →
    ∃ f modules, here.schema.files[file]? = some f ∧ here.schema.ModulesAround parent modules ∧
      follow here.address (segments (here.path symbol)) =
        some (Naming.fileModule f.source.name :: modules ++ [Naming.typeIdent name]) ∧
      (file ≠ here.file → ∃ up down, segments (here.path symbol) = up ++ down ∧
        follow here.address up = some [])

theorem fileName_eq {site : Site} {file : FileId} {f : File}
    (hf : site.schema.files[file]? = some f) : site.fileName file = f.source.name := by
  rw [fileName, hf]
  rfl

/-- **In a coherent schema every path leads to its type**, from wherever it is written. -/
theorem pathsLead {here : Site} (h : Coherent here.schema) : here.PathsLead := by
  intro symbol file parent name hsymbol
  obtain ⟨fullName, hname⟩ := hsymbol.coherentName h
  have hf := List.getElem?_eq_getElem hname.file_lt
  have hmodules : here.schema.ModulesAround parent (here.modulesOf parent) :=
    modulesAround_modulesOf h here.config hname
  have hsegments : segments (here.path symbol) = here.typePath file parent name := by
    rw [path_eq hsymbol, segments_typePath]
  rw [hsegments]
  refine ⟨_, _, hf, hmodules, ?_, exists_follow_typePath_eq_nil⟩
  rw [follow_typePath, fileName_eq hf]

end Site

/-- **Where the code of a message stands, and where paths lead from there.**  Its items stand in the
modules of the messages around it, what is inside it in its own; from both, paths lead to their
types. -/
structure PathsFrom (config : Config) (id : MessageId) (m : Schema.Message) (site : Site) :
    Prop where
  address : ∃ f, site.schema.files[m.file]? = some f ∧
    site.address = Naming.fileModule f.source.name :: site.modules
  modules : site.schema.ModulesAround m.parent site.modules
  items : ∀ item ∈ site.messageItems id,
    StandsIn (CodeFile.fileItems ⟨site.schema, config, m.file, []⟩) site.modules item
  innerItems : ∀ item ∈ site.innerItems id m,
    StandsIn (CodeFile.fileItems ⟨site.schema, config, m.file, []⟩)
      (site.modules ++ [Naming.moduleIdent m.name]) item
  lead : site.PathsLead
  innerLead : (site.enter (Naming.moduleIdent m.name)).PathsLead

/-- **Paths lead to their types.**  In what files resolve to, whatever message is written out, a
path that is written where the message stands, or inside its module, leads to the type it is
printed for. -/
theorem paths_lead_to_types {files : List FileDescriptor} {s : Schema} (h : resolve files = .ok s)
    (config : Config) {id : MessageId} {m : Schema.Message} (hm : s.messages[id]? = some m)
    (hout : (Symbol.message id).WrittenOut s) :
    ∃ modules, PathsFrom config id m ⟨s, config, m.file, modules⟩ := by
  obtain ⟨order, bound, -, hsorted, hbound⟩ := exists_resolvesTo h
  have hcoherent : Coherent s := hbound.coherent hsorted
  have hname := (hcoherent.messages id m hm).toCoherentName
  have hf := List.getElem?_eq_getElem hname.file_lt
  obtain ⟨hentry, hclear⟩ := (writtenOut_message_iff hm).1 hout
  have hitems : ∀ item ∈ (Site.placeOf s config m.file m.parent).messageItems id,
      StandsIn (CodeFile.fileItems ⟨s, config, m.file, []⟩)
        (Site.placeOf s config m.file m.parent).modules item :=
    fun _ => Site.standsIn_messageItems hcoherent hm hclear
  refine ⟨(Site.placeOf s config m.file m.parent).modules,
    { address := ⟨_, hf, congrArg (Naming.fileModule · :: _) (Site.fileName_eq hf)⟩
      modules := modulesAround_modulesOf hcoherent config hname
      items := hitems
      innerItems := fun item hitem => ?_
      lead := Site.pathsLead hcoherent
      innerLead := Site.pathsLead hcoherent }⟩
  have hinner := Site.standsIn_innerItems hcoherent hm hentry hitems hitem
  rwa [Site.placeOf_some hcoherent m.file hm] at hinner

/-- A file with a message inside another. -/
def bark : FileDescriptor where
  name := "bark.proto"
  package := ""
  imports := []
  messages := [⟨"Root", [], [⟨"Bark", [], [], [], none, []⟩], [], none, []⟩]
  enums := []
  dialect := "proto3"

/-- A file whose messages name one another and one of `bark`, and one of them is a keyword. -/
def boughs : FileDescriptor where
  name := "boughs.proto"
  package := ""
  imports := ["bark.proto"]
  messages := [⟨"Super", [], [⟨"Leaf",
    [⟨"up", 1, 1, 11, "Super", none, none, "up", false⟩,
      ⟨"bark", 2, 1, 11, "Root.Bark", none, none, "bark", false⟩], [], [], none, []⟩],
    [], none, []⟩]
  enums := []
  dialect := "proto3"

/-- The message of `boughs` that is inside another. -/
def leaf : Schema.Message where
  name := "Leaf"
  fullName := "Super.Leaf"
  file := 1
  parent := some 2
  fields := [⟨"up", 1, .message 2, false, false, none, none⟩,
    ⟨"bark", 2, .message 1, false, false, none, none⟩]
  oneofs := []
  contents := ⟨[], []⟩
  isMapEntry := false

/-- A message of a module that would be called `super` reaches the message around it, and one of
another file. -/
theorem paths_lead_to_types_leaf : ∃ s, resolve [bark, boughs] = .ok s ∧
    s.messages[3]? = some leaf ∧ (Symbol.message 3).WrittenOut s ∧
    Site.messagePath ⟨s, Config.standard, 1, ["super_"]⟩ 2 = "super::Super" ∧
    Site.messagePath ⟨s, Config.standard, 1, ["super_"]⟩ 1 = "super::super::bark::root::Bark" ∧
    follow ["boughs", "super_"] (segments "super::super::bark::root::Bark") =
      some ["bark", "root", "Bark"] ∧
    ∃ modules, PathsFrom Config.standard 3 leaf ⟨s, Config.standard, 1, modules⟩ := by
  have horder : importOrder [bark, boughs] = .ok [bark, boughs] := by cbv
  obtain ⟨s, hresolve, hlook⟩ := exists_resolve_of_map_eq_ok
    (g := fun s => (s.messages.all (!·.isMapEntry), s.messages[3]?,
      Site.messagePath ⟨s, Config.standard, 1, ["super_"]⟩ 2,
      Site.messagePath ⟨s, Config.standard, 1, ["super_"]⟩ 1))
    (a := (true, some leaf, "super::Super", "super::super::bark::root::Bark"))
    horder (by decide +kernel)
  obtain ⟨hentries, hlook⟩ := Prod.mk.inj hlook
  obtain ⟨hm, hlook⟩ := Prod.mk.inj hlook
  obtain ⟨hup, hdown⟩ := Prod.mk.inj hlook
  have hout : (Symbol.message 3).WrittenOut s := by
    refine (writtenOut_message_iff hm).2 ⟨rfl, ?_⟩
    rintro ⟨id, -, m, hid, hentry⟩
    simpa [hentry] using List.all_eq_true.1 hentries m (List.mem_of_getElem? hid)
  exact ⟨s, hresolve, hm, hout, hup, hdown, by decide +kernel,
    paths_lead_to_types hresolve Config.standard hm hout⟩

end Protowire
