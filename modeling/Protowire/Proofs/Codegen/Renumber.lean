import Protowire.Codegen.FileCode
import Protowire.Proofs.Schema.Renumber

/-!
# Proofs/Codegen/Renumber — code shows names, never numbers

Two schemas that agree on what is visible from a file have **the same code** for it
(`CodeFile.ofFile_renumber`).  Code is written by following numbers to names, so each step of the
generator is compared with the same step under the other numbers: what it reads is visible, and so
is what it follows next.
-/

namespace Protowire

open Schema

/-! ## Fields

Renumbering a field keeps its name, its number and its oneof, and these alone decide how fields
are sorted and what the variants of a oneof are called. -/

section Fields

variable (r : Renumbering)

theorem nameMembers_renumber (used : List String) (fs : List Field) :
    nameMembers used (fs.map (·.renumber r)) =
      (nameMembers used fs).map fun v => (v.1.renumber r, v.2) := by
  induction fs generalizing used with
  | nil => rfl
  | cons f fs ih =>
    rw [List.map_cons, nameMembers, nameMembers, List.map_cons, ih]
    rfl

theorem map_fst_nameMembers (used : List String) (fs : List Field) :
    (nameMembers used fs).map (·.1) = fs := by
  induction fs generalizing used with
  | nil => rfl
  | cons f fs ih => exact congrArg (f :: ·) (ih _)

namespace Schema.Message

variable (m : Schema.Message) (oneof : Nat)

theorem byNumber_renumber : (m.renumber r).byNumber = m.byNumber.map (·.renumber r) := by
  rw [byNumber, byNumber]
  refine (List.map_mergeSort fun a _ b _ => ?_).symm
  rfl

theorem memberFields_renumber :
    (m.renumber r).memberFields oneof = (m.memberFields oneof).map (·.renumber r) := by
  rw [memberFields, memberFields, List.map_filterMap]
  exact List.filterMap_congr fun i _ => List.getElem?_map ..

theorem oneofVariants_renumber :
    (m.renumber r).oneofVariants oneof =
      (m.oneofVariants oneof).map fun v => (v.1.renumber r, v.2) := by
  rw [oneofVariants, memberFields_renumber, nameMembers_renumber, oneofVariants]

omit r in
variable {m oneof} in
theorem mem_fields_of_mem_oneofVariants {v : Field × String} (hv : v ∈ m.oneofVariants oneof) :
    v.1 ∈ m.fields := by
  have hmem : v.1 ∈ m.memberFields oneof :=
    map_fst_nameMembers [] (m.memberFields oneof) ▸ List.mem_map_of_mem hv
  obtain ⟨i, -, hi⟩ := List.mem_filterMap.1 hmem
  exact List.mem_of_getElem? hi

theorem variantName_renumber (f : Field) :
    (m.renumber r).variantName oneof (f.renumber r) = m.variantName oneof f := by
  rw [variantName, variantName, oneofVariants_renumber, List.find?_map, Option.elim_map]
  rfl

theorem usedOneofs_renumber : (m.renumber r).usedOneofs = m.usedOneofs := rfl

end Schema.Message

end Fields

namespace Site

/-- The same place in code, where the schema has other numbers. -/
def renumber (site : Site) (t : Schema) (r : Renumbering) : Site :=
  { site with schema := t, file := r.file site.file }

@[simp] theorem schema_renumber (site : Site) (t : Schema) (r : Renumbering) :
    (site.renumber t r).schema = t := rfl

section Renumber

variable {site : Site} {t : Schema} {r : Renumbering} {visible : FileId → Prop}

/-! ## Paths -/

theorem modulesOf_renumber (h : Agrees site.schema t r visible) {parent : Option MessageId}
    (hparent : ∀ p, parent = some p → KnownMessage site.schema visible p) :
    (site.renumber t r).modulesOf (parent.map r.message) = site.modulesOf parent := by
  obtain ⟨heq, hknown⟩ := h.ancestors hparent
  rw [modulesOf, modulesOf, schema_renumber, heq, List.filterMap_map]
  refine List.filterMap_congr fun j hj => ?_
  obtain ⟨m, hm, hvisible⟩ := hknown j hj
  rw [Function.comp_apply, hm, h.message hm hvisible]
  rfl

theorem fileName_renumber (h : Agrees site.schema t r visible) {i : FileId} (hi : visible i) :
    (site.renumber t r).fileName (r.file i) = site.fileName i := by
  have hname (file : Option File) :
      file.elim "" (·.source.name) = (file.map (·.source)).elim "" (·.name) :=
    (Option.elim_map ..).symm
  rw [fileName, fileName, schema_renumber, hname, hname, h.source i hi]

variable (h : Agrees site.schema t r visible) (hfile : visible site.file)

include h hfile

/-- **The way to a type is the same**, as the modules on it have the same names. -/
theorem typePath_renumber {i : FileId} (hi : visible i) {parent : Option MessageId}
    (hparent : ∀ p, parent = some p → KnownMessage site.schema visible p) (name : String) :
    (site.renumber t r).typePath (r.file i) (parent.map r.message) name =
      site.typePath i parent name := by
  have hsame : r.file i = (site.renumber t r).file ↔ i = site.file :=
    ⟨h.file_injective i site.file hi hfile, fun heq => heq ▸ rfl⟩
  rw [typePath, typePath, modulesOf_renumber h hparent, fileName_renumber h hi]
  by_cases heq : i = site.file
  · rw [if_pos heq, if_pos (hsame.2 heq)]
    rfl
  · rw [if_neg heq, if_neg (mt hsame.1 heq)]
    rfl

theorem messagePath_renumber {id : MessageId} (hid : KnownMessage site.schema visible id) :
    (site.renumber t r).messagePath (r.message id) = site.messagePath id := by
  obtain ⟨m, hm, hvisible⟩ := hid
  rw [messagePath, messagePath, schema_renumber, hm, h.message hm hvisible]
  have hparent : ∀ p, m.parent = some p → KnownMessage site.schema visible p :=
    fun p hp => (h.parent hm hvisible hp).1
  exact congrArg ("::".intercalate ·) (typePath_renumber h hfile hvisible hparent m.name)

theorem enumPath_renumber {id : EnumId} (hid : KnownEnum site.schema visible id) :
    (site.renumber t r).enumPath (r.enumeration id) = site.enumPath id := by
  obtain ⟨e, he, hvisible⟩ := hid
  rw [enumPath, enumPath, schema_renumber, he, h.enumeration he hvisible]
  exact congrArg ("::".intercalate ·)
    (typePath_renumber h hfile hvisible (fun p hp => h.enumParent he hvisible hp) e.name)

/-! ## Types -/

theorem valueType_renumber {type : FieldType} (htype : type.Known site.schema visible) :
    (site.renumber t r).valueType (type.renumber r) = site.valueType type := by
  cases htype with
  | scalar => rfl
  | message hid => exact messagePath_renumber h hfile hid
  | enumeration => rfl

omit h hfile in
theorem encodingModule_renumber (type : FieldType) :
    (site.renumber t r).encodingModule (type.renumber r) = site.encodingModule type := by
  cases type <;> rfl

omit hfile in
/-- **A field is boxed in both or in neither**, as the same messages are recursive. -/
theorem isBoxed_renumber {owner : MessageId} (howner : KnownMessage site.schema visible owner)
    {f : Field} (htype : f.type.Known site.schema visible) :
    (site.renumber t r).isBoxed (r.message owner) (f.renumber r) = site.isBoxed owner f := by
  obtain ⟨name, number, type, isRepeated, isPacked, map, oneof⟩ := f
  cases htype with
  | scalar => rfl
  | enumeration => rfl
  | message hid =>
    cases isRepeated with
    | true => rfl
    | false => exact h.isRecursive howner hid

theorem boxedType_renumber {owner : MessageId} (howner : KnownMessage site.schema visible owner)
    {f : Field} (htype : f.type.Known site.schema visible) :
    (site.renumber t r).boxedType (r.message owner) (f.renumber r) = site.boxedType owner f := by
  rw [boxedType, boxedType, isBoxed_renumber h howner htype]
  have hvalue : (site.renumber t r).valueType (f.renumber r).type = site.valueType f.type :=
    valueType_renumber h hfile htype
  rw [hvalue]

/-- **The type of a field of a struct is the same.** -/
theorem fieldType_renumber {owner : MessageId} (howner : KnownMessage site.schema visible owner)
    {f : Field} (htype : f.type.Known site.schema visible)
    (hmap : ∀ map, f.map = some map → map.value.Known site.schema visible) :
    (site.renumber t r).fieldType (r.message owner) (f.renumber r) = site.fieldType owner f := by
  have hboxed := boxedType_renumber h hfile howner htype
  have hvalue := valueType_renumber h hfile htype
  obtain ⟨name, number, type, isRepeated, isPacked, map, oneof⟩ := f
  cases map with
  | some map =>
    have hmapped := valueType_renumber h hfile (hmap map rfl)
    simp only [fieldType, Field.renumber, Option.map_some, MapEntry.renumber, hmapped]
    rfl
  | none =>
    cases isRepeated with
    | true => exact congrArg (fun value => "::std::vec::Vec<" ++ value ++ ">") hvalue
    | false =>
      cases type with
      | scalar => rfl
      | enumeration => rfl
      | message => exact congrArg (fun boxed => "::core::option::Option<" ++ boxed ++ ">") hboxed

/-! ## Methods -/

theorem planMember_renumber {owner : MessageId} (howner : KnownMessage site.schema visible owner)
    (m : Schema.Message) (oneof : Nat) {f : Field} (htype : f.type.Known site.schema visible) :
    (site.renumber t r).planMember (r.message owner) (m.renumber r) oneof (f.renumber r) =
      site.planMember owner m oneof f := by
  simp only [planMember, isBoxed_renumber h howner htype, boxedType_renumber h hfile howner htype,
    Message.variantName_renumber, Field.renumber_type, encodingModule_renumber]
  rfl

omit hfile in
theorem planSingle_renumber {owner : MessageId} (howner : KnownMessage site.schema visible owner)
    {f : Field} (htype : f.type.Known site.schema visible) :
    (site.renumber t r).planSingle (r.message owner) (f.renumber r) = site.planSingle owner f := by
  have hboxed := isBoxed_renumber h howner htype
  obtain ⟨name, number, type, isRepeated, isPacked, map, oneof⟩ := f
  simp only [planSingle, hboxed]
  cases htype <;> rfl

/-- **A field is treated the same way** by the generated methods. -/
theorem plan_renumber {owner : MessageId} (howner : KnownMessage site.schema visible owner)
    (m : Schema.Message) {f : Field} (htype : f.type.Known site.schema visible) :
    (site.renumber t r).plan (r.message owner) (m.renumber r) (f.renumber r) =
      site.plan owner m f := by
  have hmember (oneof : Nat) := planMember_renumber h hfile howner m oneof htype
  have hsingle := planSingle_renumber h howner htype
  obtain ⟨name, number, type, isRepeated, isPacked, map, oneof⟩ := f
  cases map with
  | some map =>
    simp only [plan, Field.renumber_map, Option.map_some, MapEntry.renumber_value,
      encodingModule_renumber]
    rfl
  | none =>
    cases isRepeated with
    | true =>
      simp only [plan, Field.renumber_map, Option.map_none, Field.renumber_isRepeated,
        Field.renumber_type, encodingModule_renumber]
      rfl
    | false =>
      cases oneof with
      | some oneof => exact hmember oneof
      | none => exact hsingle

/-! ## Enums -/

theorem accessor_renumber (f : Field) {id : EnumId} (hid : KnownEnum site.schema visible id) :
    (site.renumber t r).accessor (f.renumber r) (r.enumeration id) = site.accessor f id := by
  have hpath := enumPath_renumber h hfile hid
  have hident : ((site.renumber t r).schema.enums[r.enumeration id]?).elim "" (·.ident) =
      (site.schema.enums[id]?).elim "" (·.ident) := by
    obtain ⟨e, he, hvisible⟩ := hid
    rw [schema_renumber, he, h.enumeration he hvisible]
    rfl
  simp only [accessor, hpath, hident]
  rfl

omit hfile in
theorem enumItems_renumber {ids : List EnumId}
    (hids : ∀ id ∈ ids, KnownEnum site.schema visible id) :
    (site.renumber t r).enumItems (ids.map r.enumeration) = site.enumItems ids := by
  rw [enumItems, enumItems, List.flatMap_map]
  refine List.flatMap_congr fun id hid => ?_
  obtain ⟨e, he, hvisible⟩ := hids id hid
  rw [schema_renumber, he, h.enumeration he hvisible]
  rfl

/-! ## Messages -/

section Message

variable {id : MessageId} {m : Schema.Message} (hm : site.schema.messages[id]? = some m)
  (hvisible : visible m.file)

include hm hvisible

theorem plans_renumber :
    (site.renumber t r).plans (r.message id) (m.renumber r) = site.plans id m := by
  rw [plans, plans, Message.byNumber_renumber, List.map_map]
  refine List.map_congr_left fun f hf => ?_
  have htype := h.type id m hm hvisible f (List.mem_mergeSort.1 hf)
  exact plan_renumber h hfile ⟨m, hm, hvisible⟩ m htype

theorem methodsItem_renumber :
    (site.renumber t r).methodsItem (r.message id) (m.renumber r) = site.methodsItem id m := by
  have hwrite (pass : Pass) (plan : FieldPlan) :
      plan.write (site.renumber t r) pass = plan.write site pass := by cases plan <;> rfl
  have harm (plan : FieldPlan) : plan.arm (site.renumber t r) = plan.arm site := by
    cases plan with
    | map => rfl
    | list => rfl
    | single _ _ _ _ store => cases store <;> rfl
  rw [methodsItem, methodsItem, plans_renumber h hfile hm hvisible]
  simp only [writeMethod, readMethod, measureMethod, hwrite, harm]
  rfl

theorem structItem_renumber :
    (site.renumber t r).structItem (r.message id) (m.renumber r) = site.structItem id m := by
  have hfields :
      ((m.renumber r).fields.filter (·.oneof.isNone)).map (fun f => Code.line
        s!"pub {Naming.fieldIdent f.name}: {(site.renumber t r).fieldType (r.message id) f},") =
      (m.fields.filter (·.oneof.isNone)).map fun f => Code.line
        s!"pub {Naming.fieldIdent f.name}: {site.fieldType id f}," := by
    rw [Message.renumber_fields, List.filter_map, List.map_map]
    refine List.map_congr_left fun f hf => ?_
    have hf' := (List.mem_filter.1 hf).1
    have htype := h.type id m hm hvisible f hf'
    have hmap := h.mapType hm hvisible hf'
    rw [Function.comp_apply, fieldType_renumber h hfile ⟨m, hm, hvisible⟩ htype hmap]
    rfl
  rw [structItem, structItem, hfields, Message.usedOneofs_renumber]
  rfl

theorem accessors_renumber :
    (site.renumber t r).accessors (m.renumber r) = site.accessors m := by
  rw [accessors, accessors, Message.renumber_fields, List.filterMap_map]
  refine List.filterMap_congr fun f hf => ?_
  have htype := h.type id m hm hvisible f hf
  have haccessor (id : EnumId) (hid : KnownEnum site.schema visible id) :=
    accessor_renumber h hfile f hid
  obtain ⟨name, number, type, isRepeated, isPacked, map, oneof⟩ := f
  cases htype with
  | scalar => rfl
  | message => rfl
  | enumeration hid => cases isRepeated with
    | true => rfl
    | false => cases oneof with
      | some => rfl
      | none => exact congrArg some (haccessor _ hid)

theorem oneofItem_renumber (oneof : String × Nat) :
    (site.renumber t r).oneofItem (r.message id) (m.renumber r) oneof =
      site.oneofItem id m oneof := by
  rw [oneofItem, oneofItem, Message.oneofVariants_renumber, List.map_map]
  refine congrArg (fun lines => _ :: Code.braces _ lines) (List.map_congr_left fun v hv => ?_)
  have htype := h.type id m hm hvisible v.1 (Message.mem_fields_of_mem_oneofVariants hv)
  exact congrArg (fun type => Code.line s!"{v.2}({type}),")
    (boxedType_renumber h hfile ⟨m, hm, hvisible⟩ htype)

end Message

end Renumber

/-! ## The items of a message

What stands in the module of a message has code for one module further down, and the schema is the
same there. -/

/-- The items in the module of a message. -/
def innerItems (site : Site) (id : MessageId) (m : Schema.Message) : List (List Code) :=
  let inner := site.enter (Naming.moduleIdent m.name)
  (site.schema.messagesInside id).flatMap inner.messageItems ++
    inner.enumItems (site.schema.enumsInside id) ++ m.usedOneofs.map (inner.oneofItem id m)

theorem messageItems_of_eq_none {site : Site} {id : MessageId}
    (hm : site.schema.messages[id]? = none) : site.messageItems id = [] := by
  rw [messageItems, hm]

theorem messageItems_of_isMapEntry {site : Site} {id : MessageId} {m : Schema.Message}
    (hm : site.schema.messages[id]? = some m) (hentry : m.isMapEntry = true) :
    site.messageItems id = [] := by
  rw [messageItems, hm]
  exact if_pos hentry

theorem flatMap_attach {α : Type} (ids : List MessageId) (items : MessageId → List α) :
    (ids.attach.flatMap fun id => items id.1) = ids.flatMap items := by
  rw [← List.flatMap_map, List.attach_map_subtype_val]

theorem messageItems_eq {site : Site} {id : MessageId} {m : Schema.Message}
    (hm : site.schema.messages[id]? = some m) (hentry : m.isMapEntry = false) :
    site.messageItems id =
      [site.structItem id m] ++ (site.accessorItem? m).toList ++ [site.methodsItem id m] ++
        (moduleItem? m (site.innerItems id m)).toList := by
  rw [messageItems, hm, innerItems]
  simp only [hentry, Bool.false_eq_true, if_false]
  rw [flatMap_attach]

/-- A message that is no entry has a struct. -/
theorem structItem_mem_messageItems {site : Site} {id : MessageId} {m : Schema.Message}
    (hm : site.schema.messages[id]? = some m) (hentry : m.isMapEntry = false) :
    site.structItem id m ∈ site.messageItems id := by
  rw [messageItems_eq hm hentry]
  simp

/-- A message that is no entry has methods. -/
theorem methodsItem_mem_messageItems {site : Site} {id : MessageId} {m : Schema.Message}
    (hm : site.schema.messages[id]? = some m) (hentry : m.isMapEntry = false) :
    site.methodsItem id m ∈ site.messageItems id := by
  rw [messageItems_eq hm hentry]
  simp

section Renumber

variable {site : Site} {t : Schema} {r : Renumbering} {visible : FileId → Prop}

/-- The items in the module of a message are the same when those of the messages in it are. -/
theorem innerItems_renumber (h : Agrees site.schema t r visible) (hfile : visible site.file)
    {id : MessageId} {m : Schema.Message} (hm : site.schema.messages[id]? = some m)
    (hvisible : visible m.file)
    (hnested : ∀ child ∈ site.schema.messagesInside id,
      ((site.enter (Naming.moduleIdent m.name)).renumber t r).messageItems (r.message child) =
        (site.enter (Naming.moduleIdent m.name)).messageItems child) :
    (site.renumber t r).innerItems (r.message id) (m.renumber r) = site.innerItems id m := by
  have hid : KnownMessage site.schema visible id := ⟨m, hm, hvisible⟩
  let inner := site.enter (Naming.moduleIdent m.name)
  have hinner : Agrees inner.schema t r visible := h
  have hmessages : (t.messagesInside (r.message id)).flatMap (inner.renumber t r).messageItems =
      (site.schema.messagesInside id).flatMap inner.messageItems := by
    rw [h.messagesInside hid, List.flatMap_map]
    exact List.flatMap_congr hnested
  have henums : (inner.renumber t r).enumItems (t.enumsInside (r.message id)) =
      inner.enumItems (site.schema.enumsInside id) := by
    rw [h.enumsInside hid]
    exact enumItems_renumber hinner fun _ hj => h.nestedEnum_known hid hj
  have honeofs :
      (m.renumber r).usedOneofs.map ((inner.renumber t r).oneofItem (r.message id) (m.renumber r)) =
        m.usedOneofs.map (inner.oneofItem id m) := by
    rw [Message.usedOneofs_renumber]
    exact List.map_congr_left fun oneof _ => oneofItem_renumber hinner hfile hm hvisible oneof
  exact congrArg₂ (· ++ ·) (congrArg₂ (· ++ ·) hmessages henums) honeofs

/-- **The items of a message are the same**, and so are those of all messages nested in it. -/
theorem messageItems_renumber (h : Agrees site.schema t r visible) (hfile : visible site.file)
    {id : MessageId} (hid : KnownMessage site.schema visible id) :
    (site.renumber t r).messageItems (r.message id) = site.messageItems id := by
  induction hrest : site.schema.messages.length - id using Nat.strongRecOn generalizing site id with
  | ind rest ih =>
    obtain ⟨m, hm, hvisible⟩ := hid
    have hm' : (site.renumber t r).schema.messages[r.message id]? = some (m.renumber r) :=
      h.message hm hvisible
    cases hentry : m.isMapEntry with
    | true => rw [messageItems_of_isMapEntry hm hentry, messageItems_of_isMapEntry hm' hentry]
    | false =>
      have hinner : (site.renumber t r).innerItems (r.message id) (m.renumber r) =
          site.innerItems id m :=
        innerItems_renumber h hfile hm hvisible fun child hchild => by
          have hlt := lt_of_mem_messagesInside hchild
          have hinner : Agrees (site.enter (Naming.moduleIdent m.name)).schema t r visible := h
          exact ih (site.schema.messages.length - child) (by omega) hinner hfile
            (h.nestedMessage_known ⟨m, hm, hvisible⟩ hchild) rfl
      rw [messageItems_eq hm hentry, messageItems_eq hm' hentry, hinner,
        structItem_renumber h hfile hm hvisible, methodsItem_renumber h hfile hm hvisible,
        accessorItem?, accessors_renumber h hfile hm hvisible]
      rfl

end Renumber

end Site

/-! ## The file -/

namespace CodeFile

section Renumber

variable {s t : Schema} {r : Renumbering} {visible : FileId → Prop} {i : FileId}

/-- The items of a file are the same. -/
theorem fileItems_renumber (h : Agrees s t r visible) (hi : visible i) (config : Config) :
    fileItems ⟨t, config, r.file i, []⟩ = fileItems ⟨s, config, i, []⟩ := by
  let site : Site := ⟨s, config, i, []⟩
  have hsite : Agrees site.schema t r visible := h
  have hmessages : (t.topMessages (r.file i)).flatMap (site.renumber t r).messageItems =
      (s.topMessages i).flatMap site.messageItems := by
    rw [h.topMessages hi, List.flatMap_map]
    refine List.flatMap_congr fun id hid => ?_
    obtain ⟨m, hm, rfl, -⟩ := h.coherent.mem_topMessages.1 hid
    exact Site.messageItems_renumber hsite hi ⟨m, hm, hi⟩
  have henums : (site.renumber t r).enumItems (t.topEnums (r.file i)) =
      site.enumItems (s.topEnums i) := by
    rw [h.topEnums hi]
    refine Site.enumItems_renumber hsite fun id hid => ?_
    obtain ⟨e, he, rfl, -⟩ := h.coherent.mem_topEnums.1 hid
    exact ⟨e, he, hi⟩
  exact congrArg₂ (· ++ ·) hmessages henums

/-- **A file has the same code in both schemas**: name and content. -/
theorem ofFile_renumber (h : Agrees s t r visible) (hi : visible i) (config : Config)
    {f f' : File} (hsource : f'.source = f.source) :
    ofFile t config (r.file i) f' = ofFile s config i f := by
  have hheader : header config f' = header config f := by
    rw [header, header, File.digest, File.digest, hsource]
  rw [ofFile, ofFile, fileCode, fileCode, fileItems_renumber h hi, hheader, hsource]

end Renumber

end CodeFile

end Protowire
