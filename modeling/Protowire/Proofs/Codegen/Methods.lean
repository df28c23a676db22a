import Protowire.Proofs.Codegen.Renumber

/-!
# Proofs/Codegen/Methods — the generated methods agree field by field

A message is written by one method, measured by another and read by a third.  `FieldCode` is what
the three hold for one field, **side by side and as it is printed**: `FieldCode.Of` has a case for
every kind of field, and in each of them what measures differs from what writes by the name of the
function, by adding up and by having no buffer (`FieldCode.ofMap`, `FieldCode.ofList`,
`FieldCode.ofSingle`).  The methods go over all fields in the same order, from the smallest number
to the largest (`Site.PassesAgree`).
-/

namespace Protowire

open Schema

/-- What the methods of a message hold for one field: the name it has in the struct, what writes it,
what measures it, and the arm that reads it. -/
structure FieldCode where
  ident : String
  write : List Code
  measure : List Code
  arm : List Code

namespace FieldCode

/-! ## The code of a field as it is printed -/

/-- The code of a map, with the modules of its keys and of its values. -/
def ofMap (runtime : String) (number : Nat) (key value ident : String) : FieldCode where
  ident
  write :=
    [.line s!"{runtime}::encoding::map::encode(",
      .nest
        [.line s!"{key}::encode,", .line s!"{key}::encoded_len,", .line s!"{value}::encode,",
          .line s!"{value}::encoded_len,", .line s!"{number},", .line s!"&self.{ident},",
          .line "buf,"],
      .line ");"]
  measure :=
    [.line s!"len += {runtime}::encoding::map::encoded_len(",
      .nest
        [.line s!"{key}::encoded_len,", .line s!"{value}::encoded_len,", .line s!"{number},",
          .line s!"&self.{ident},"],
      .line ");"]
  arm :=
    [.line s!"{number} => {runtime}::encoding::map::merge(",
      .nest
        [.line s!"{key}::merge,", .line s!"{value}::merge,", .line "wire_type,",
          .line s!"&mut self.{ident},", .line "reader,", .line "ctx,"],
      .line "),"]

/-- The code of a list, which is packed or repeated. -/
def ofList (number : Nat) (module form ident : String) : FieldCode where
  ident
  write := [.line s!"{module}::encode_{form}({number}, &self.{ident}, buf);"]
  measure := [.line s!"len += {module}::encoded_len_{form}({number}, &self.{ident});"]
  arm :=
    [.line s!"{number} => {module}::merge_repeated(wire_type, &mut self.{ident}, reader, ctx),"]

/-- The code of a single value, which there is under a condition. -/
def ofSingle (number : Nat) (module ident guard value : String) (arm : List Code) : FieldCode where
  ident
  write :=
    [.line s!"if {guard} \x7b", .nest [.line s!"{module}::encode({number}, {value}, buf);"],
      .line "\x7d"]
  measure :=
    [.line s!"if {guard} \x7b", .nest [.line s!"len += {module}::encoded_len({number}, {value});"],
      .line "\x7d"]
  arm

/-- The code of a scalar or an enum value outside oneofs, which is written unless it is zero. -/
def ofScalar (number : Nat) (module ident nonzero : String) : FieldCode :=
  ofSingle number module ident nonzero s!"&self.{ident}"
    [.line s!"{number} => {module}::merge(wire_type, &mut self.{ident}, reader, ctx),"]

/-- The code of a message outside oneofs: `read` and `written` are what stands in front of the
option it is in and for the value in it. -/
def ofMessage (number : Nat) (module ident read written : String) : FieldCode :=
  ofSingle number module ident s!"let ::core::option::Option::Some(value) = &self.{ident}" written
    [.line s!"{number} => {module}::merge(",
      .nest
        [.line "wire_type,",
          .line s!"{read}self.{ident}.get_or_insert_with(::core::default::Default::default),",
          .line "reader,", .line "ctx,"],
      .line "),"]

/-- The code of a member of a oneof, whose value is of a type and wrapped as a variant: `read` and
`written` are the value when it is read and when it is written. -/
def ofMember (number : Nat) (module ident variant type read written : String) : FieldCode :=
  ofSingle number module ident
    s!"let ::core::option::Option::Some({variant}(value)) = &self.{ident}" written
    [.line s!"{number} => \x7b",
      .nest
        [.line s!"let mut value: {type} = ::core::default::Default::default();",
          .line s!"{module}::merge(wire_type, {read}, reader, ctx)?;",
          .line s!"self.{ident} = ::core::option::Option::Some({variant}(value));",
          .line "::core::result::Result::Ok(())"],
      .line "\x7d"]

@[simp] theorem ident_ofMap (runtime : String) (number : Nat) (key value ident : String) :
    (ofMap runtime number key value ident).ident = ident := rfl

@[simp] theorem ident_ofList (number : Nat) (module form ident : String) :
    (ofList number module form ident).ident = ident := rfl

@[simp] theorem ident_ofScalar (number : Nat) (module ident nonzero : String) :
    (ofScalar number module ident nonzero).ident = ident := rfl

@[simp] theorem ident_ofMessage (number : Nat) (module ident read written : String) :
    (ofMessage number module ident read written).ident = ident := rfl

@[simp] theorem ident_ofMember (number : Nat) (module ident variant type read written : String) :
    (ofMember number module ident variant type read written).ident = ident := rfl

/-- **The code of a field of a message**, case by case: what a field is decides how it is written,
measured and read. -/
inductive Of (site : Site) (owner : MessageId) (m : Schema.Message) (f : Schema.Field) :
    FieldCode → Prop where
  | map {entry : MapEntry} (hmap : f.map = some entry) :
      Of site owner m f (ofMap site.config.runtimePath f.number
        (site.encodingModule (.scalar entry.key)) (site.encodingModule entry.value)
        (Naming.fieldIdent f.name))
  | packed (hmap : f.map = none) (hrepeated : f.isRepeated = true) (hpacked : f.isPacked = true) :
      Of site owner m f
        (ofList f.number (site.encodingModule f.type) "packed" (Naming.fieldIdent f.name))
  | repeated (hmap : f.map = none) (hrepeated : f.isRepeated = true)
      (hpacked : f.isPacked = false) :
      Of site owner m f
        (ofList f.number (site.encodingModule f.type) "repeated" (Naming.fieldIdent f.name))
  | scalar (hmap : f.map = none) (hsingular : f.isRepeated = false) (honeof : f.oneof = none)
      (hplain : ∀ id, f.type ≠ .message id) :
      Of site owner m f (ofScalar f.number (site.encodingModule f.type) (Naming.fieldIdent f.name)
        (Site.isNonzero f.type ("self." ++ Naming.fieldIdent f.name)))
  | message {id : MessageId} (hmap : f.map = none) (hsingular : f.isRepeated = false)
      (honeof : f.oneof = none) (htype : f.type = .message id)
      (hboxed : site.isBoxed owner f = false) :
      Of site owner m f
        (ofMessage f.number (site.encodingModule f.type) (Naming.fieldIdent f.name) "" "value")
  | boxedMessage {id : MessageId} (hmap : f.map = none) (hsingular : f.isRepeated = false)
      (honeof : f.oneof = none) (htype : f.type = .message id)
      (hboxed : site.isBoxed owner f = true) :
      Of site owner m f (ofMessage f.number (site.encodingModule f.type)
        (Naming.fieldIdent f.name) "&mut **" "&**value")
  | member {k : Nat} {oneof : Oneof} (hmap : f.map = none) (hsingular : f.isRepeated = false)
      (honeof : f.oneof = some k) (hdecl : m.oneofs[k]? = some oneof)
      (hboxed : site.isBoxed owner f = false) :
      Of site owner m f (ofMember f.number (site.encodingModule f.type)
        (Naming.fieldIdent oneof.name) s!"{Site.oneofPath m oneof.name}::{m.variantName k f}"
        (site.valueType f.type) "&mut value" "value")
  | boxedMember {k : Nat} {oneof : Oneof} (hmap : f.map = none) (hsingular : f.isRepeated = false)
      (honeof : f.oneof = some k) (hdecl : m.oneofs[k]? = some oneof)
      (hboxed : site.isBoxed owner f = true) :
      Of site owner m f (ofMember f.number (site.encodingModule f.type)
        (Naming.fieldIdent oneof.name) s!"{Site.oneofPath m oneof.name}::{m.variantName k f}"
        s!"::std::boxed::Box<{site.valueType f.type}>" "&mut *value" "&**value")

/-! ## What the generator prints for a field -/

/-- The code is what the generator prints for a plan. -/
structure Prints (site : Site) (plan : FieldPlan) (code : FieldCode) : Prop where
  write : plan.write site .write = code.write
  measure : plan.write site .measure = code.measure
  arm : plan.arm site = code.arm

section Prints

variable (site : Site) (number : Nat) (module ident : String)

theorem prints_map (key value : String) :
    Prints site (.map number key value ("self." ++ ident))
      (ofMap site.config.runtimePath number key value ident) := by
  constructor <;>
    simp [FieldPlan.write, FieldPlan.arm, FieldPlan.mapFunctions, ofMap, Code.arguments,
      Pass.function, Pass.opening, Pass.buffer, Site.runtime, toString, ← String.toList_inj]

theorem prints_list (isPacked : Bool) :
    Prints site (.list number module isPacked ("self." ++ ident))
      (ofList number module (if isPacked then "packed" else "repeated") ident) := by
  cases isPacked <;> constructor <;>
    simp [FieldPlan.write, FieldPlan.arm, ofList, Pass.call, Pass.function, Pass.opening,
      Pass.buffer, toString, ← String.toList_inj]

/-- A single value is written and measured alike, however it is read. -/
theorem prints_single {guard value : String} {store : Store} {arm : List Code}
    (harm : (FieldPlan.single number module guard value store).arm site = arm) :
    Prints site (.single number module guard value store)
      (ofSingle number module ident guard value arm) := by
  refine ⟨?_, ?_, harm⟩ <;>
    simp [FieldPlan.write, ofSingle, Code.braces, Pass.call, Pass.function, Pass.opening,
      Pass.buffer, toString, ← String.toList_inj]

theorem prints_scalar (nonzero : String) :
    Prints site (.single number module nonzero ("&" ++ ("self." ++ ident))
        (.direct ("self." ++ ident)))
      (ofScalar number module ident nonzero) := by
  have hvalue : "&" ++ ("self." ++ ident) = s!"&self.{ident}" := by
    simp [toString, ← String.toList_inj]
  rw [hvalue]
  refine prints_single site number module ident ?_
  simp [FieldPlan.arm, toString, ← String.toList_inj]

theorem prints_message (read written : String) :
    Prints site (.single number module (Site.isSome "value" ("self." ++ ident)) written
        (.inserted (read ++ ("self." ++ ident ++
          ".get_or_insert_with(::core::default::Default::default)"))))
      (ofMessage number module ident read written) := by
  have hguard : Site.isSome "value" ("self." ++ ident) =
      s!"let ::core::option::Option::Some(value) = &self.{ident}" := by
    unfold Site.isSome
    exact String.toList_inj.1 (by simp [toString])
  rw [hguard]
  refine prints_single site number module ident ?_
  simp [FieldPlan.arm, Code.arguments, toString, ← String.toList_inj]

theorem prints_member (variant type read written : String) :
    Prints site (.single number module (Site.isSome (variant ++ "(value)") ("self." ++ ident))
        written (.wrapped type read ("self." ++ ident) variant))
      (ofMember number module ident variant type read written) := by
  have hguard : Site.isSome (variant ++ "(value)") ("self." ++ ident) =
      s!"let ::core::option::Option::Some({variant}(value)) = &self.{ident}" := by
    unfold Site.isSome
    exact String.toList_inj.1 (by simp [toString])
  rw [hguard]
  refine prints_single site number module ident ?_
  simp [FieldPlan.arm, Code.braces, toString, ← String.toList_inj]

end Prints

section Plan

variable {site : Site} {owner : MessageId} {m : Schema.Message} {f : Schema.Field}

theorem exists_of_planMember (hmap : f.map = none) (hsingular : f.isRepeated = false) {k : Nat}
    (honeof : f.oneof = some k) (hlt : k < m.oneofs.length) :
    ∃ code, Of site owner m f code ∧ Prints site (site.planMember owner m k f) code := by
  have hdecl : m.oneofs[k]? = some m.oneofs[k] := List.getElem?_eq_getElem hlt
  rw [Site.planMember, hdecl, Option.elim_some, Site.boxedType]
  cases hboxed : site.isBoxed owner f with
  | false => exact ⟨_, .member hmap hsingular honeof hdecl hboxed, prints_member ..⟩
  | true => exact ⟨_, .boxedMember hmap hsingular honeof hdecl hboxed, prints_member ..⟩

theorem exists_of_planSingle (hmap : f.map = none) (hsingular : f.isRepeated = false)
    (honeof : f.oneof = none) :
    ∃ code, Of site owner m f code ∧ Prints site (site.planSingle owner f) code := by
  cases htype : f.type with
  | message id =>
    cases hboxed : site.isBoxed owner f with
    | false =>
      refine ⟨_, .message hmap hsingular honeof htype hboxed, ?_⟩
      have := prints_message site f.number (site.encodingModule f.type)
        (Naming.fieldIdent f.name) "" "value"
      simpa [Site.planSingle, htype, hboxed, Site.place] using this
    | true =>
      refine ⟨_, .boxedMessage hmap hsingular honeof htype hboxed, ?_⟩
      have := prints_message site f.number (site.encodingModule f.type)
        (Naming.fieldIdent f.name) "&mut **" "&**value"
      simpa [Site.planSingle, htype, hboxed, Site.place] using this
  | scalar kind =>
    refine ⟨_, .scalar hmap hsingular honeof (by simp [htype]), ?_⟩
    simp only [Site.planSingle, htype]
    exact prints_scalar ..
  | enumeration id =>
    refine ⟨_, .scalar hmap hsingular honeof (by simp [htype]), ?_⟩
    simp only [Site.planSingle, htype]
    exact prints_scalar ..

/-- **Every field has its code**, and that is what the generator prints for it. -/
theorem exists_of_plan (hlists : m.ListsMembers) (hf : f ∈ m.fields) :
    ∃ code, Of site owner m f code ∧ Prints site (site.plan owner m f) code := by
  rw [Site.plan]
  split
  · rename_i hmap
    exact ⟨_, .map hmap, prints_map ..⟩
  · rename_i hmap hrepeated
    cases hpacked : f.isPacked with
    | true => exact ⟨_, .packed hmap hrepeated hpacked, prints_list _ _ _ _ true⟩
    | false => exact ⟨_, .repeated hmap hrepeated hpacked, prints_list _ _ _ _ false⟩
  · rename_i k hmap hsingular hk
    exact exists_of_planMember hmap hsingular hk (hlists.oneof_lt hf hk)
  · rename_i hmap hsingular hnone
    exact exists_of_planSingle hmap hsingular hnone

end Plan

end FieldCode

/-! ## The methods around the fields -/

/-- The method that writes the fields with this code. -/
def encodeRaw (runtime : String) (codes : List FieldCode) : List Code :=
  if codes.isEmpty then
    [.line s!"fn encode_raw<B: {runtime}::bytes::BufMut>(&self, _buf: &mut B) \x7b\x7d"]
  else
    [.line s!"fn encode_raw<B: {runtime}::bytes::BufMut>(&self, buf: &mut B) \x7b",
      .nest (codes.flatMap (·.write)), .line "\x7d"]

/-- The method that measures the fields with this code. -/
def encodedLen (codes : List FieldCode) : List Code :=
  [.line "fn encoded_len(&self) -> usize \x7b",
    .nest (if codes.isEmpty then [.line "0"]
      else [.line "let mut len = 0;"] ++ codes.flatMap (·.measure) ++ [.line "len"]),
    .line "\x7d"]

/-- The method that reads the fields with this code, and skips all others. -/
def mergeField (runtime : String) (codes : List FieldCode) : List Code :=
  [.line "fn merge_field(",
    .nest
      [.line "&mut self,", .line "number: u32,", .line s!"wire_type: {runtime}::WireType,",
        .line s!"reader: &mut {runtime}::WireReader<'_>,",
        .line ((if codes.isEmpty then "_ctx" else "ctx") ++ s!": {runtime}::DecodeContext,")],
    .line s!") -> {runtime}::Result<()> \x7b",
    .nest
      [.line "match number \x7b",
        .nest (codes.flatMap (·.arm) ++
          [.line s!"_ => {runtime}::wire::skip_field(number, wire_type, reader),"]),
        .line "\x7d"],
    .line "\x7d"]

/-- The methods of the message of a name, whose fields have this code. -/
def methodsOf (runtime ident : String) (codes : List FieldCode) : List Code :=
  Code.braces s!"impl {runtime}::Message for {ident}"
    (Code.items [encodeRaw runtime codes, mergeField runtime codes, encodedLen codes])

namespace Site

section Methods

variable {site : Site} {plans : List FieldPlan} {codes : List FieldCode}

theorem isEmpty_eq (h : List.Forall₂ (FieldCode.Prints site) plans codes) :
    plans.isEmpty = codes.isEmpty := by
  cases h <;> rfl

/-- **The method that writes a message** is the code of its fields in one row. -/
theorem writeMethod_eq (h : List.Forall₂ (FieldCode.Prints site) plans codes) :
    site.writeMethod plans = encodeRaw site.config.runtimePath codes := by
  have hcodes : plans.flatMap (·.write site .write) = codes.flatMap (·.write) :=
    congrArg List.flatten (map_eq_of_forall₂ h fun _ _ hprints => hprints.write)
  rw [writeMethod, encodeRaw, hcodes, isEmpty_eq h]
  refine if_congr Iff.rfl ?_ ?_ <;>
    simp [Code.braces, runtime, toString, ← String.toList_inj]

theorem measureMethod_eq (h : List.Forall₂ (FieldCode.Prints site) plans codes) :
    site.measureMethod plans = encodedLen codes := by
  have hcodes : plans.flatMap (·.write site .measure) = codes.flatMap (·.measure) :=
    congrArg List.flatten (map_eq_of_forall₂ h fun _ _ hprints => hprints.measure)
  rw [measureMethod, encodedLen, hcodes, isEmpty_eq h]
  rfl

theorem readMethod_eq (h : List.Forall₂ (FieldCode.Prints site) plans codes) :
    site.readMethod plans = mergeField site.config.runtimePath codes := by
  have hcodes : plans.flatMap (·.arm site) = codes.flatMap (·.arm) :=
    congrArg List.flatten (map_eq_of_forall₂ h fun _ _ hprints => hprints.arm)
  rw [readMethod, mergeField, hcodes, isEmpty_eq h]
  simp [Code.braces, runtime, toString, ← String.toList_inj]

end Methods

/-- **The methods of a message are the code of its fields**, by number. -/
theorem exists_methodsItem_eq (site : Site) (id : MessageId) {m : Schema.Message}
    (hlists : m.ListsMembers) :
    ∃ codes, List.Forall₂ (FieldCode.Of site id m) m.byNumber codes ∧
      site.methodsItem id m =
        methodsOf site.config.runtimePath (Naming.typeIdent m.name) codes := by
  obtain ⟨codes, hcodes⟩ := (exists_forall₂_iff
    (R := fun f code => FieldCode.Of site id m f code ∧
      FieldCode.Prints site (site.plan id m f) code)).2 fun f hf =>
        FieldCode.exists_of_plan hlists (List.mem_mergeSort.1 hf)
  have hprints : List.Forall₂ (FieldCode.Prints site) (site.plans id m) codes :=
    List.forall₂_map_left_iff.2 (hcodes.imp fun _ _ h => h.2)
  have hopening : "impl " ++ site.runtime "Message" ++ " for " ++ Naming.typeIdent m.name =
      s!"impl {site.config.runtimePath}::Message for {Naming.typeIdent m.name}" :=
    String.toList_inj.1 (by simp [runtime, toString])
  refine ⟨codes, hcodes.imp fun _ _ h => h.1, ?_⟩
  rw [methodsItem, writeMethod_eq hprints, readMethod_eq hprints, measureMethod_eq hprints]
  exact congrArg (Code.braces · _) hopening

/-- **The three methods of a message agree**: its fields, each once and from the smallest number to
the largest, have their code, and each of the methods is what that code holds for it, in one row. -/
structure PassesAgree (site : Site) (id : MessageId) (m : Schema.Message)
    (fields : List Schema.Field) (codes : List FieldCode) : Prop where
  each_once : fields.Perm m.fields
  ascending : fields.Pairwise (·.number < ·.number)
  agree : List.Forall₂ (FieldCode.Of site id m) fields codes
  written : site.methodsItem id m ∈ site.messageItems id
  methods : site.methodsItem id m =
    methodsOf site.config.runtimePath (Naming.typeIdent m.name) codes

/-- Fields of different numbers are sorted strictly. -/
theorem byNumber_ascending {m : Schema.Message} (hnumbers : (m.fields.map (·.number)).Nodup) :
    m.byNumber.Pairwise (·.number < ·.number) := by
  have hsorted : m.byNumber.Pairwise fun a b => (a.number ≤ b.number : Bool) := by
    refine List.pairwise_mergeSort (fun a b c hab hbc => ?_) (fun a b => ?_) _
    · simp only [decide_eq_true_eq] at hab hbc ⊢
      omega
    · simp only [Bool.or_eq_true, decide_eq_true_eq]
      omega
  have hdistinct : m.byNumber.Pairwise (·.number ≠ ·.number) :=
    List.pairwise_map.1 (((List.mergeSort_perm m.fields _).map _).nodup_iff.2 hnumbers)
  refine (hsorted.and hdistinct).imp fun {a b} h => ?_
  exact Nat.lt_of_le_of_ne (of_decide_eq_true h.1) h.2

/-- **The generated methods agree field by field**, for every message that is no entry of a map, in
whatever schema files resolve to and wherever the code stands. -/
theorem passes_agree {files : List FileDescriptor} {s : Schema} (h : resolve files = .ok s)
    (config : Config) (file : FileId) (modules : List String) {id : MessageId}
    {m : Schema.Message} (hm : s.messages[id]? = some m) (hentry : m.isMapEntry = false) :
    ∃ fields codes, PassesAgree ⟨s, config, file, modules⟩ id m fields codes := by
  obtain ⟨order, bound, -, -, hbound⟩ := exists_resolvesTo h
  obtain ⟨codes, hcodes, hmethods⟩ :=
    exists_methodsItem_eq ⟨s, config, file, modules⟩ id (hbound.listsMembers hm)
  exact ⟨m.byNumber, codes, List.mergeSort_perm m.fields _,
    byNumber_ascending (hbound.coherentMessage hm).numbers, hcodes,
    methodsItem_mem_messageItems hm hentry, hmethods⟩

/-- A file of two messages, of which the first has a field of every kind, not by number. -/
def ledger : FileDescriptor where
  name := "ledger.proto"
  package := ""
  imports := []
  messages :=
    [⟨"Ledger",
      [⟨"tags", 9, 3, 9, "", none, none, "tags", false⟩,
        ⟨"pages", 7, 3, 11, "PagesEntry", none, none, "pages", false⟩,
        ⟨"parent", 5, 1, 11, "Ledger", none, none, "parent", false⟩,
        ⟨"copy", 4, 1, 11, "Ledger", none, some 0, "copy", false⟩,
        ⟨"note", 2, 1, 9, "", none, some 0, "note", false⟩,
        ⟨"marks", 3, 3, 5, "", none, none, "marks", false⟩,
        ⟨"closed", 1, 1, 8, "", none, none, "closed", false⟩,
        ⟨"clip", 8, 1, 11, "Clip", none, none, "clip", false⟩],
      [⟨"PagesEntry", [⟨"key", 1, 1, 5, "", none, none, "key", false⟩,
        ⟨"value", 2, 1, 11, "Ledger", none, none, "value", false⟩], [], [], some ⟨some true⟩, []⟩],
      [], none, [⟨"source"⟩]⟩,
      ⟨"Clip", [], [], [], none, []⟩]
  enums := []
  dialect := "proto3"

/-- The methods of the first message go over its fields by number. -/
theorem passes_agree_ledger : ∃ s m fields codes, resolve [ledger] = .ok s ∧
    s.messages[0]? = some m ∧ m.isMapEntry = false ∧
    PassesAgree ⟨s, Config.standard, 0, []⟩ 0 m fields codes ∧
    fields.map (·.number) = [1, 2, 3, 4, 5, 7, 8, 9] := by
  have horder : importOrder [ledger] = .ok [ledger] := by cbv
  obtain ⟨s, hresolve, hlook⟩ := exists_resolve_of_map_eq_ok
    (g := fun s => s.messages[0]?.map fun m => (m.isMapEntry, m.fields.map (·.number)))
    (a := some (false, [9, 7, 5, 4, 2, 3, 1, 8])) horder (by decide +kernel)
  obtain ⟨m, hm, hpair⟩ := Option.map_eq_some_iff.1 hlook
  obtain ⟨hentry, hnumbers⟩ := Prod.mk.inj hpair
  obtain ⟨fields, codes, h⟩ := passes_agree hresolve Config.standard 0 [] hm hentry
  refine ⟨s, m, fields, codes, hresolve, hm, hentry, h, ?_⟩
  have hperm : (fields.map (·.number)).Perm [1, 2, 3, 4, 5, 7, 8, 9] :=
    ((h.each_once.map _).trans (.of_eq hnumbers)).trans (by decide)
  refine hperm.eq_of_pairwise (fun a b _ _ hab hba => ?_) (List.pairwise_map.2 h.ascending)
    (by decide)
  exact absurd (Nat.lt_trans hab hba) (Nat.lt_irrefl a)

end Site

end Protowire
