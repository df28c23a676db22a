import Protowire.Proofs.Codegen.Paths
import Protowire.Proofs.Naming.Legal

/-!
# Proofs/Codegen/ModuleIdents — which modules of messages have legal identifiers

The module of a message is printed in four places: where it is opened for what is inside the
message, in the struct and in the methods, which find the enums of oneofs in it, and on the way to
what is declared in the message.  **It has one identifier in all of them** (`Site.PrintsModule`),
which is never a keyword.  It is legal when the first letter or digit of the name is a letter:
nothing is put in front of a digit here, as it is for types, fields and files.
-/

namespace Protowire

open Schema

namespace Site

/-- **A module is the one that a message is printed with.**  It is opened for what is inside the
message, and no other is; the struct has the enums of its oneofs in it, and so has every path to
one; and the way to what is declared in the message, as far as it goes down, ends in it. -/
structure PrintsModule (site : Site) (id : MessageId) (m : Schema.Message) (module : String) :
    Prop where
  opened : ∀ comment name body,
    .line comment :: Code.braces ("pub mod " ++ name) body ∈ site.messageItems id → name = module
  opens : m.isMapEntry = false → site.innerItems id m ≠ [] → ∃ comment,
    .line comment :: Code.braces ("pub mod " ++ module) (Code.items (site.innerItems id m)) ∈
      site.messageItems id
  struct : ∀ o ∈ m.usedOneofs,
    Code.Shows (optionOf (module ++ "::" ++ Naming.typeIdent o.1)) (site.structItem id m)
  oneof : ∀ name, segments (oneofPath m name) = [module, Naming.typeIdent name]
  way : ∀ symbol file name, symbol.Declares site.schema file (some id) name →
    ∃ up down around, segments (site.path symbol) = up ++ down ∧
      (∀ segment ∈ up, segment = "super") ∧ down ≠ [] ∧
      down <:+ around ++ [module, Naming.typeIdent name]

variable {site : Site} {id : MessageId} {m : Schema.Message}

/-- Code in braces has no comment in front of it. -/
theorem comment_braces_ne_braces {comment opening opening' : String} {body body' : List Code} :
    .line comment :: Code.braces opening body ≠ Code.braces opening' body' := fun h =>
  absurd (congrArg List.length h) (by simp [Code.braces])

/-- Code in braces behind a comment has an opening of its own. -/
theorem opening_eq_of_comment_braces {comment comment' opening opening' : String}
    {body body' : List Code}
    (h : Code.line comment :: Code.braces opening body =
      .line comment' :: Code.braces opening' body') : opening = opening' := by
  have hline := (List.cons.inj (List.cons.inj h).2).1
  exact (String.append_left_inj _).1 (Code.line.inj hline)

/-- **The only module among the items of a message is its own.** -/
theorem eq_of_moduleItem_mem (hm : site.schema.messages[id]? = some m) {comment name : String}
    {body : List Code}
    (h : .line comment :: Code.braces ("pub mod " ++ name) body ∈ site.messageItems id) :
    name = Naming.moduleIdent m.name := by
  cases hentry : m.isMapEntry with
  | true =>
    rw [messageItems_of_isMapEntry hm hentry] at h
    exact absurd h List.not_mem_nil
  | false =>
    rw [messageItems_eq hm hentry] at h
    simp only [List.mem_append, List.mem_singleton, Option.mem_toList] at h
    rcases h with ((h | h) | h) | h
    · -- The struct is code in braces behind an attribute.
      have hopening := congrArg (·.toList[4]?) (opening_eq_of_comment_braces h)
      rw [String.toList_append, String.toList_append] at hopening
      exact absurd hopening (by simp)
    · rw [accessorItem?] at h
      split at h
      · exact absurd h.symm (Option.some_ne_none _)
      · exact absurd (Option.some.inj h).symm comment_braces_ne_braces
    · exact absurd h comment_braces_ne_braces
    · rw [moduleItem?] at h
      split at h
      · exact absurd h.symm (Option.some_ne_none _)
      · have hopening := opening_eq_of_comment_braces (Option.some.inj h)
        exact ((String.append_right_inj _).1 hopening).symm

/-- The enum of a oneof is in the module of the message. -/
theorem segments_oneofPath (m : Schema.Message) (name : String) :
    segments (oneofPath m name) = [Naming.moduleIdent m.name, Naming.typeIdent name] := by
  have hcolon : ¬ Naming.IdentChar ':' := by decide
  have hpath : oneofPath m name =
      "::".intercalate [Naming.moduleIdent m.name, Naming.typeIdent name] := by
    rw [String.intercalate_cons_cons, String.intercalate_singleton, oneofPath]
  rw [hpath]
  refine segments_intercalate (List.cons_ne_nil _ _) (List.forall_mem_cons.2 ⟨?_, ?_⟩)
  · exact mt Naming.identChar_of_mem_moduleIdent hcolon
  · exact List.forall_mem_singleton.2 (mt Naming.identChar_of_mem_typeIdent hcolon)

/-- The modules around what is declared in a message end in that of the message. -/
theorem modulesOf_some (h : Coherent site.schema) (hm : site.schema.messages[id]? = some m) :
    site.modulesOf (some id) = site.modulesOf m.parent ++ [Naming.moduleIdent m.name] :=
  congrArg Site.modules (@placeOf_some site.schema site.config h site.file id m hm)

/-- The way to a type goes up, and down to the end of the modules around the type. -/
theorem exists_typePath_eq (site : Site) (file : FileId) (parent : Option MessageId)
    (name : String) : ∃ up down root, site.typePath file parent name = up ++ down ∧
      (∀ segment ∈ up, segment = "super") ∧ down ≠ [] ∧
      down <:+ root ++ site.modulesOf parent ++ [Naming.typeIdent name] := by
  dsimp only [typePath]
  split
  · rw [route, List.append_assoc]
    refine ⟨_, _, [], rfl, fun _ => List.eq_of_mem_replicate, ?_, ?_⟩
    · exact List.append_ne_nil_of_right_ne_nil _ (List.cons_ne_nil _ _)
    · exact List.suffix_append_self_iff.2 (List.drop_suffix _ _)
  · rw [List.append_assoc]
    refine ⟨_, _, [Naming.fileModule (site.fileName file)], rfl,
      fun _ => List.eq_of_mem_replicate, List.cons_ne_nil _ _, ?_⟩
    exact List.suffix_refl _

/-- **The module of a message is printed as its identifier**, from wherever. -/
theorem printsModule (h : Coherent site.schema) (hm : site.schema.messages[id]? = some m) :
    site.PrintsModule id m (Naming.moduleIdent m.name) where
  opened _ _ _ := eq_of_moduleItem_mem hm
  opens hentry hinner := by
    obtain ⟨item, hitem⟩ := List.exists_mem_of_ne_nil _ hinner
    exact exists_moduleItem hm hentry hitem
  struct o ho := by
    have hfield : (Naming.fieldIdent o.1, optionOf (oneofPath m o.1)) ∈ site.declared id m :=
      List.mem_append_right _ (List.mem_map_of_mem ho)
    have hline : Code.Shows (optionOf (oneofPath m o.1))
        [.line s!"pub {Naming.fieldIdent o.1}: {optionOf (oneofPath m o.1)},"] := by
      refine .line List.mem_cons_self ?_
      simp only [toString, String.toList_append]
      exact List.infix_append ..
    rw [structItem_eq, structOf]
    refine (Code.Shows.braces _ (hline.mono ?_)).mono (List.subset_cons_self _ _)
    exact List.cons_subset.2 ⟨List.mem_map.2 ⟨_, hfield, rfl⟩, List.nil_subset _⟩
  oneof := segments_oneofPath m
  way symbol file name hsymbol := by
    obtain ⟨up, down, root, hway, hup, hdown, hsuffix⟩ :=
      exists_typePath_eq site file (some id) name
    refine ⟨up, down, root ++ site.modulesOf m.parent, ?_, hup, hdown, ?_⟩
    · rw [path_eq hsymbol, segments_typePath, hway]
    · rwa [modulesOf_some h hm, ← List.append_assoc, List.append_assoc _ [_]] at hsuffix

end Site

/-- **Which modules of messages have legal identifiers.**  In what files resolve to, every message
has one module identifier, from wherever it is printed, which is no keyword.  It is legal when the
first letter or digit of the name is a letter, and only then. -/
theorem module_legal_iff {files : List FileDescriptor} {s : Schema} (h : resolve files = .ok s)
    {id : MessageId} {m : Schema.Message} (hm : s.messages[id]? = some m) :
    ∃ module, (∀ site : Site, site.schema = s → site.PrintsModule id m module) ∧
      ¬ Naming.IsKeyword module ∧ (Naming.LegalIdent module ↔ Naming.LeadsWithLetter m.name) := by
  obtain ⟨order, bound, -, hsorted, hbound⟩ := exists_resolvesTo h
  have hcoherent : Coherent s := hbound.coherent hsorted
  refine ⟨Naming.moduleIdent m.name, ?_, ?_, Naming.legalIdent_moduleIdent_iff m.name⟩
  · rintro site rfl
    exact Site.printsModule hcoherent hm
  · exact mt Naming.mem_keywords_iff.2 (Naming.moduleIdent_not_keyword m.name)

/-- A file with a message that has a oneof and is called like a keyword, and one that has an enum
in it and whose first letter or digit is a digit. -/
def solids : FileDescriptor where
  name := "solids.proto"
  package := ""
  imports := []
  messages :=
    [⟨"Type", [⟨"edge", 1, 1, 5, "", none, some 0, "edge", false⟩], [], [], none, [⟨"kind"⟩]⟩,
      ⟨"_3D", [], [], [⟨"Axis", [⟨"X", 0⟩]⟩], none, []⟩]
  enums := []
  dialect := "proto3"

/-- The message of `solids` that is called like a keyword. -/
def solidType : Schema.Message where
  name := "Type"
  fullName := "Type"
  file := 0
  parent := none
  fields := [⟨"edge", 1, .scalar .int32, false, false, none, some 0⟩]
  oneofs := [⟨"kind", [0]⟩]
  contents := ⟨[], []⟩
  isMapEntry := false

/-- The message of `solids` with an enum in it. -/
def solid3D : Schema.Message where
  name := "_3D"
  fullName := "_3D"
  file := 0
  parent := none
  fields := []
  oneofs := []
  contents := ⟨[], [0]⟩
  isMapEntry := false

/-- The module of a message that is called like a keyword has a legal identifier. -/
theorem module_legal_iff_type : ∃ s, resolve [solids] = .ok s ∧ s.messages[0]? = some solidType ∧
    Site.oneofPath solidType "kind" = "type_::Kind" ∧ Naming.LeadsWithLetter "Type" ∧
    ∃ module, (∀ site : Site, site.schema = s → site.PrintsModule 0 solidType module) ∧
      ¬ Naming.IsKeyword module ∧
      (Naming.LegalIdent module ↔ Naming.LeadsWithLetter solidType.name) := by
  have horder : importOrder [solids] = .ok [solids] := by cbv
  obtain ⟨s, hresolve, hm⟩ := exists_resolve_of_map_eq_ok (g := (·.messages[0]?))
    (a := some solidType) horder (by decide +kernel)
  exact ⟨s, hresolve, hm, by decide +kernel, ⟨'T', by decide, by decide⟩,
    module_legal_iff hresolve hm⟩

/-- **A module has an identifier that is not legal**, as it starts with a digit. -/
theorem module_not_legal : ∃ s, resolve [solids] = .ok s ∧ s.messages[1]? = some solid3D ∧
    Naming.HasLetterOrDigit solid3D.name ∧
    (∃ comment body, .line comment :: Code.braces "pub mod 3_d" body ∈
      Site.messageItems ⟨s, Config.standard, 0, []⟩ 1) ∧
    ¬ Naming.LegalIdent "3_d" := by
  have horder : importOrder [solids] = .ok [solids] := by cbv
  obtain ⟨s, hresolve, hlook⟩ := exists_resolve_of_map_eq_ok
    (g := fun s => (s.messages[1]?, s.enumsInside 1, s.enums[0]?.map (·.name)))
    (a := (some solid3D, [0], some "Axis")) horder (by decide +kernel)
  obtain ⟨hm, hlook⟩ := Prod.mk.inj hlook
  obtain ⟨hnested, hname⟩ := Prod.mk.inj hlook
  obtain ⟨e, he, -⟩ := Option.map_eq_some_iff.1 hname
  let site : Site := ⟨s, Config.standard, 0, []⟩
  let inner := site.enter (Naming.moduleIdent "_3D")
  have henum : e.typeItem ∈ inner.enumItems (s.enumsInside 1) := by
    rw [hnested]
    refine List.mem_flatMap.2 ⟨0, List.mem_cons_self, ?_⟩
    rw [Site.schema_enter, he]
    exact List.mem_cons_self
  have hinner : e.typeItem ∈ site.innerItems 1 solid3D :=
    List.mem_append_left _ (List.mem_append_right _ henum)
  obtain ⟨comment, hmodule⟩ := @Site.exists_moduleItem site 1 solid3D hm rfl _ hinner
  have hident : Naming.moduleIdent solid3D.name = "3_d" := by decide +kernel
  rw [hident] at hmodule
  refine ⟨s, hresolve, hm, by decide, ⟨comment, _, hmodule⟩, fun h => ?_⟩
  obtain ⟨c, hc, hdigit⟩ := h.start
  obtain rfl : '3' = c := Option.some.inj hc
  exact absurd hdigit (by decide)

end Protowire
