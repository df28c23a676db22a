import Protowire.Proofs.Codegen.Members
import Protowire.Proofs.Codegen.Methods

/-!
# Proofs/Codegen/StructFields — the methods touch what the struct declares, lists in oneofs apart

The struct of a message declares its fields outside oneofs, and its oneofs (`Site.declared`).  The
methods, though, ask first whether a field is a list and only then whether it is in a oneof, and
nothing keeps a list out of one.  Such a list they look for under its own name, where the struct has
its oneof instead: **that is the only way to touch what is not declared**
(`FieldCode.Of.touched_iff`), and it does happen.
-/

namespace Protowire

open Schema

/-- The struct of a name with fields and their types. -/
def structOf (ident : String) (fields : List (String × String)) : List Code :=
  .line "#[derive(Clone, PartialEq, Debug, Default)]" ::
    Code.braces ("pub struct " ++ ident)
      (fields.map fun (field, type) => .line s!"pub {field}: {type},")

namespace Site

/-- The type of a value that may be absent. -/
def optionOf (type : String) : String :=
  s!"::core::option::Option<{type}>"

/-- What the struct of a message declares: fields outside oneofs and oneofs with members, each with
its type. -/
def declared (site : Site) (id : MessageId) (m : Schema.Message) : List (String × String) :=
  ((m.fields.filter (·.oneof.isNone)).map fun f =>
    (Naming.fieldIdent f.name, site.fieldType id f)) ++
  m.usedOneofs.map fun (name, _) =>
    (Naming.fieldIdent name, optionOf (oneofPath m name))

/-- The names of what the struct declares. -/
def declaredIdents (site : Site) (id : MessageId) (m : Schema.Message) : List String :=
  (site.declared id m).map (·.1)

theorem structItem_eq (site : Site) (id : MessageId) (m : Schema.Message) :
    site.structItem id m = structOf (Naming.typeIdent m.name) (site.declared id m) := by
  have hoption (field path : String) : s!"pub {field}: ::core::option::Option<{path}>," =
      s!"pub {field}: {optionOf path}," := by
    unfold optionOf
    exact String.toList_inj.1 (by simp [toString])
  simp only [structItem, structOf, declared, List.map_append, List.map_map, Function.comp_def,
    hoption]

section Declared

variable {site : Site} {id : MessageId} {m : Schema.Message}

/-- A field is declared under its name when it is in no oneof, and a oneof when it has members. -/
theorem mem_declaredIdents (hlists : m.ListsMembers) {ident : String} :
    ident ∈ site.declaredIdents id m ↔
    (∃ f ∈ m.fields, f.oneof = none ∧ Naming.fieldIdent f.name = ident) ∨
      ∃ f ∈ m.fields, ∃ k oneof, f.oneof = some k ∧ m.oneofs[k]? = some oneof ∧
        Naming.fieldIdent oneof.name = ident := by
  have hused : (∃ o ∈ m.usedOneofs, Naming.fieldIdent o.1 = ident) ↔
      ∃ f ∈ m.fields, ∃ k oneof, f.oneof = some k ∧ m.oneofs[k]? = some oneof ∧
        Naming.fieldIdent oneof.name = ident := by
    constructor
    · rintro ⟨⟨name, k⟩, ho, hident⟩
      obtain ⟨oneof, hdecl, rfl, f, hf, hk⟩ := hlists.mem_usedOneofs.1 ho
      exact ⟨f, hf, k, oneof, hk, hdecl, hident⟩
    · rintro ⟨f, hf, k, oneof, hk, hdecl, hident⟩
      exact ⟨(oneof.name, k), hlists.mem_usedOneofs.2 ⟨oneof, hdecl, rfl, f, hf, hk⟩, hident⟩
  rw [← hused, declaredIdents, declared, List.map_append, List.mem_append, List.map_map,
    List.map_map, List.mem_map, List.mem_map]
  simp only [List.mem_filter, Option.isNone_iff_eq_none, and_assoc, Function.comp_def]

end Declared

end Site

namespace FieldCode

variable {site : Site} {owner : MessageId} {m : Schema.Message} {f : Schema.Field}
  {code : FieldCode}

/-- **Where the code of a field looks for it**: under the name of its oneof when it is a single
value in one, and else under its own. -/
theorem Of.ident_eq (h : Of site owner m f code) :
    (code.ident = Naming.fieldIdent f.name ∧
      (f.map.isSome = true ∨ f.isRepeated = true ∨ f.oneof = none)) ∨
    ∃ k oneof, f.oneof = some k ∧ m.oneofs[k]? = some oneof ∧ f.isRepeated = false ∧
      code.ident = Naming.fieldIdent oneof.name := by
  cases h with
  | map hsome => exact .inl ⟨ident_ofMap .., .inl (hsome ▸ rfl)⟩
  | packed _ hrepeated => exact .inl ⟨ident_ofList .., .inr (.inl hrepeated)⟩
  | «repeated» _ hrepeated => exact .inl ⟨ident_ofList .., .inr (.inl hrepeated)⟩
  | scalar _ _ honeof => exact .inl ⟨ident_ofScalar .., .inr (.inr honeof)⟩
  | message _ _ honeof => exact .inl ⟨ident_ofMessage .., .inr (.inr honeof)⟩
  | boxedMessage _ _ honeof => exact .inl ⟨ident_ofMessage .., .inr (.inr honeof)⟩
  | member _ hsingular honeof hdecl =>
    exact .inr ⟨_, _, honeof, hdecl, hsingular, ident_ofMember ..⟩
  | boxedMember _ hsingular honeof hdecl =>
    exact .inr ⟨_, _, honeof, hdecl, hsingular, ident_ofMember ..⟩

/-- **What the code of a field touches is declared**, unless the field is a list in a oneof and
nothing else has its name. -/
theorem Of.touched_iff (h : Of site owner m f code) (hlists : m.ListsMembers) (hf : f ∈ m.fields)
    (hmap : f.map.isSome = true → f.isRepeated = true) :
    (f.isRepeated = true → f.oneof.isSome = true →
      Naming.fieldIdent f.name ∈ site.declaredIdents owner m) ↔
    code.ident ∈ site.declaredIdents owner m := by
  rcases h.ident_eq with ⟨hident, hkind⟩ | ⟨k, oneof, honeof, hdecl, hsingular, hident⟩
  · rw [hident]
    refine ⟨fun hlist => ?_, fun hmem _ _ => hmem⟩
    cases honeof : f.oneof with
    | none => exact (Site.mem_declaredIdents hlists).2 (.inl ⟨f, hf, honeof, rfl⟩)
    | some k =>
      rw [honeof] at hkind hlist
      rcases hkind with hsome | hrepeated | hnone
      · exact hlist (hmap hsome) rfl
      · exact hlist hrepeated rfl
      · exact absurd hnone nofun
  · rw [hident, hsingular]
    exact iff_of_true nofun
      ((Site.mem_declaredIdents hlists).2 (.inr ⟨f, hf, k, oneof, honeof, hdecl, rfl⟩))

end FieldCode

namespace Site

/-- **What the methods touch is declared, lists in oneofs apart.**  For a message that is no entry
of a map, in whatever schema files resolve to, a struct is written with its fields, and methods with
the code of all of them.  The struct declares all that the methods touch exactly when it happens to
declare the names of the lists in oneofs. -/
theorem touched_declared_iff {files : List FileDescriptor} {s : Schema}
    (h : resolve files = .ok s) (config : Config) (file : FileId) (modules : List String)
    {id : MessageId} {m : Schema.Message} (hm : s.messages[id]? = some m)
    (hentry : m.isMapEntry = false) :
    ∃ codes, List.Forall₂ (FieldCode.Of ⟨s, config, file, modules⟩ id m) m.byNumber codes ∧
      structOf (Naming.typeIdent m.name) (declared ⟨s, config, file, modules⟩ id m) ∈
        messageItems ⟨s, config, file, modules⟩ id ∧
      methodsOf config.runtimePath (Naming.typeIdent m.name) codes ∈
        messageItems ⟨s, config, file, modules⟩ id ∧
      ((∀ code ∈ codes, code.ident ∈ declaredIdents ⟨s, config, file, modules⟩ id m) ↔
        ∀ f ∈ m.fields, f.isRepeated = true → f.oneof.isSome = true →
          Naming.fieldIdent f.name ∈ declaredIdents ⟨s, config, file, modules⟩ id m) := by
  obtain ⟨order, bound, -, -, hbound⟩ := exists_resolvesTo h
  have hfields := (hbound.coherentMessage hm).fields
  have hlists := hbound.listsMembers hm
  obtain ⟨codes, hcodes, hmethods⟩ :=
    exists_methodsItem_eq ⟨s, config, file, modules⟩ id hlists
  have htouched : (∀ f ∈ m.byNumber, f.isRepeated = true → f.oneof.isSome = true →
        Naming.fieldIdent f.name ∈ declaredIdents ⟨s, config, file, modules⟩ id m) ↔
      ∀ code ∈ codes, code.ident ∈ declaredIdents ⟨s, config, file, modules⟩ id m := by
    refine forall_mem_iff_of_forall₂ ((List.forall₂_and_left (p := (· ∈ m.fields)) _ _).2
      ⟨fun f hf => List.mem_mergeSort.1 hf, hcodes⟩) fun f code hof => ?_
    refine hof.2.touched_iff hlists hof.1 fun hsome => ?_
    obtain ⟨map, hmap⟩ := Option.isSome_iff_exists.1 hsome
    exact ((hfields f hof.1).map map hmap).isRepeated
  refine ⟨codes, hcodes, ?_, ?_, ?_⟩
  · rw [← structItem_eq]
    exact structItem_mem_messageItems hm hentry
  · rw [← hmethods]
    exact methodsItem_mem_messageItems hm hentry
  · rw [← htouched]
    simp only [Schema.Message.byNumber, List.mem_mergeSort]

/-- The first message of `ledger` keeps its lists out of its oneof, so all that is touched is
declared. -/
theorem touched_declared_iff_ledger : ∃ s m codes, resolve [ledger] = .ok s ∧
    s.messages[0]? = some m ∧ m.isMapEntry = false ∧
    m.fields.map (fun f => (f.isRepeated, f.oneof)) =
      [(true, none), (true, none), (false, none), (false, some 0), (false, some 0), (true, none),
        (false, none), (false, none)] ∧
    List.Forall₂ (FieldCode.Of ⟨s, Config.standard, 0, []⟩ 0 m) m.byNumber codes ∧
    ∀ code ∈ codes, code.ident ∈ declaredIdents ⟨s, Config.standard, 0, []⟩ 0 m := by
  have horder : importOrder [ledger] = .ok [ledger] := by cbv
  obtain ⟨s, hresolve, hlook⟩ := exists_resolve_of_map_eq_ok
    (g := fun s => s.messages[0]?.map fun m =>
      (m.isMapEntry, m.fields.map fun f => (f.isRepeated, f.oneof)))
    (a := some (false, [(true, none), (true, none), (false, none), (false, some 0),
      (false, some 0), (true, none), (false, none), (false, none)])) horder (by decide +kernel)
  obtain ⟨m, hm, hpair⟩ := Option.map_eq_some_iff.1 hlook
  obtain ⟨hentry, hkinds⟩ := Prod.mk.inj hpair
  obtain ⟨codes, hcodes, -, -, htouched⟩ :=
    touched_declared_iff hresolve Config.standard 0 [] hm hentry
  refine ⟨s, m, codes, hresolve, hm, hentry, hkinds, hcodes, htouched.2 ?_⟩
  intro f hf hrepeated honeof
  have hkind : (f.isRepeated, f.oneof) ∈ m.fields.map fun f => (f.isRepeated, f.oneof) :=
    List.mem_map_of_mem hf
  rw [hkinds, hrepeated] at hkind
  have hnone : f.oneof = none := by simpa using hkind
  rw [hnone] at honeof
  exact absurd honeof Bool.false_ne_true

/-- A file with a message whose one field is a list in a oneof. -/
def choices : FileDescriptor where
  name := "choices.proto"
  package := ""
  imports := []
  messages := [⟨"M", [⟨"a", 1, 3, 5, "", none, some 0, "a", false⟩], [], [], none, [⟨"o"⟩]⟩]
  enums := []
  dialect := "proto3"

/-- The message in `choices`. -/
def choice : Schema.Message where
  name := "M"
  fullName := "M"
  file := 0
  parent := none
  fields := [⟨"a", 1, .scalar .int32, true, true, none, some 0⟩]
  oneofs := [⟨"o", [0]⟩]
  contents := ⟨[], []⟩
  isMapEntry := false

/-- **A list in a oneof is touched and not declared**: the struct has just the oneof, and the
methods look for the list under its own name. -/
theorem touched_not_declared : ∃ s codes, resolve [choices] = .ok s ∧
    s.messages[0]? = some choice ∧
    List.Forall₂ (FieldCode.Of ⟨s, Config.standard, 0, []⟩ 0 choice) choice.byNumber codes ∧
    structOf "M" (declared ⟨s, Config.standard, 0, []⟩ 0 choice) ∈
      messageItems ⟨s, Config.standard, 0, []⟩ 0 ∧
    methodsOf "::tagwire" "M" codes ∈ messageItems ⟨s, Config.standard, 0, []⟩ 0 ∧
    declaredIdents ⟨s, Config.standard, 0, []⟩ 0 choice = ["o"] ∧
    codes.map (·.ident) = ["a"] := by
  have horder : importOrder [choices] = .ok [choices] := by cbv
  obtain ⟨s, hresolve, hlook⟩ := exists_resolve_of_map_eq_ok
    (g := fun s => (s.messages[0]?, declaredIdents ⟨s, Config.standard, 0, []⟩ 0 choice))
    (a := (some choice, ["o"])) horder (by decide +kernel)
  obtain ⟨hm, hdeclared⟩ := Prod.mk.inj hlook
  have hname : Naming.typeIdent choice.name = "M" := by decide +kernel
  have hfield : Naming.fieldIdent "a" = "a" := by decide +kernel
  let site : Site := ⟨s, Config.standard, 0, []⟩
  have hstruct := structItem_eq site 0 choice
  obtain ⟨order, bound, -, -, hbound⟩ := exists_resolvesTo hresolve
  obtain ⟨codes, hcodes, hmethods⟩ := exists_methodsItem_eq site 0 (hbound.listsMembers hm)
  rw [hname] at hstruct hmethods
  refine ⟨s, codes, hresolve, hm, hcodes, ?_, ?_, hdeclared, ?_⟩
  · exact hstruct ▸ structItem_mem_messageItems hm rfl
  · exact hmethods ▸ methodsItem_mem_messageItems hm rfl
  · rw [Message.byNumber, choice, List.mergeSort_singleton] at hcodes
    obtain ⟨code, rest, hcode, hrest, rfl⟩ := List.forall₂_cons_left_iff.1 hcodes
    obtain rfl := List.forall₂_nil_left_iff.1 hrest
    rcases hcode.ident_eq with ⟨hident, -⟩ | ⟨-, -, -, -, hsingular, -⟩
    · rw [List.map_cons, hident, List.map_nil, hfield]
    · exact absurd hsingular.symm Bool.false_ne_true

end Site

end Protowire
