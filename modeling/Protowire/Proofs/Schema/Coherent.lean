import Protowire.Proofs.Schema.Valid

/-!
# Proofs/Schema/Coherent — a schema that resolved hangs together

Everything in a schema refers to everything else by number.  `Coherent` says that the numbers fit:
files import smaller numbers, messages and enums stand once where their parents say and are named
after them, fields hold what there is, and a field is a map exactly when its message is an entry,
which then is one in all its parts.

A message of the schema is one that was declared, bound and had its maps attached
(`ResolvesTo.exists_declared`); each part of the invariant is read off one of the three, and the
last step changes none of the others.
-/

namespace Protowire.Schema

/-- The numbers in a type are those of messages and enums that there are. -/
inductive FieldType.InRange (s : Schema) : FieldType → Prop where
  | scalar (kind : Scalar) : InRange s (.scalar kind)
  | message {id : MessageId} (h : id < s.messages.length) : InRange s (.message id)
  | enumeration {id : EnumId} (h : id < s.enums.length) : InRange s (.enumeration id)

/-- The type is a message that is marked as the entry of a map. -/
def FieldType.IsMapEntry (s : Schema) (type : FieldType) : Prop :=
  ∃ id m, type = .message id ∧ s.messages[id]? = some m ∧ m.isMapEntry = true

/-- A map field: it is repeated and not packed, its message is an entry, and it maps what the fields
of the entry hold.  The values are no entries themselves. -/
structure CoherentMap (s : Schema) (f : Field) (map : MapEntry) : Prop where
  type : f.type = .message map.entry
  isRepeated : f.isRepeated = true
  isPacked : f.isPacked = false
  entry : ∃ entry key value, s.messages[map.entry]? = some entry ∧
    IsEntry entry key value map.key ∧ map.value = value.type
  valueInRange : map.value.InRange s
  value : ¬ map.value.IsMapEntry s

/-- A field whose number may be used, whose type is there, and which is packed only where that can
be and a map exactly where its type is an entry. -/
structure CoherentField (s : Schema) (f : Field) : Prop where
  number : 1 ≤ f.number ∧ f.number ≤ 536870911 ∧ ¬ (19000 ≤ f.number ∧ f.number ≤ 19999)
  type : f.type.InRange s
  packed : f.isPacked = true → f.isRepeated = true ∧ f.type.isPackable = true
  isMap : f.map.isSome = true ↔ f.type.IsMapEntry s
  map : ∀ map, f.map = some map → CoherentMap s f map

/-- What has a file, a parent and a full name: it is in a file that there is, and named after its
parent, which is in the same file, or else after the package. -/
structure CoherentName (s : Schema) (file : FileId) (parent : Option MessageId)
    (name fullName : String) : Prop where
  file_lt : file < s.files.length
  top : parent = none → ∀ f, s.files[file]? = some f → fullName = qualify f.source.package name
  nested : ∀ p, parent = some p → ∃ m, s.messages[p]? = some m ∧ m.file = file ∧
    fullName = qualify m.fullName name

/-- The message of a number: it comes after its parent, once in the list of what is nested there, or
else once at the top of its file, and in no other such list. -/
structure CoherentMessage (s : Schema) (id : MessageId) (m : Message) : Prop
    extends CoherentName s m.file m.parent m.name m.fullName where
  parent_lt : ∀ p, m.parent = some p → p < id
  count_nested : ∀ p, (s.nestedMessages p).count id = if m.parent = some p then 1 else 0
  count_top : ∀ f, (s.topMessages f).count id = if m.file = f ∧ m.parent = none then 1 else 0
  nestedMessages_lt : ∀ j ∈ s.nestedMessages id, j < s.messages.length
  nestedEnums_lt : ∀ j ∈ s.nestedEnums id, j < s.enums.length
  numbers : (m.fields.map (·.number)).Nodup
  fields : ∀ f ∈ m.fields, CoherentField s f

/-- The enum of a number: it comes once in the list of what is nested in its parent, or else once at
the top of its file, and in no other such list. -/
structure CoherentEnum (s : Schema) (id : EnumId) (e : Enum) : Prop
    extends CoherentName s e.file e.parent e.name e.fullName where
  count_nested : ∀ p, (s.nestedEnums p).count id = if e.parent = some p then 1 else 0
  count_top : ∀ f, (s.topEnums f).count id = if e.file = f ∧ e.parent = none then 1 else 0

/-- The file of a number: it imports smaller ones, and lists messages and enums that there are. -/
structure CoherentFile (s : Schema) (id : FileId) (f : File) : Prop where
  imports_lt : ∀ j ∈ f.imports, j < id
  topMessages_lt : ∀ j ∈ s.topMessages id, j < s.messages.length
  topEnums_lt : ∀ j ∈ s.topEnums id, j < s.enums.length

/-- **The numbers and names in a schema fit.** -/
structure Coherent (s : Schema) : Prop where
  files : ∀ id f, s.files[id]? = some f → CoherentFile s id f
  messages : ∀ id m, s.messages[id]? = some m → CoherentMessage s id m
  enums : ∀ id e, s.enums[id]? = some e → CoherentEnum s id e
  fullNames : (s.messages.map (·.fullName) ++ s.enums.map (·.fullName)).Nodup

/-! ## Messages of a schema -/

namespace ResolvesTo

variable {files : List FileDescriptor} {bound : List Message} {s : Schema}

/-- **A message of a schema was declared and bound, and had its maps attached.** -/
theorem exists_declared (h : ResolvesTo files bound s) {id : MessageId} {m : Message}
    (hm : s.messages[id]? = some m) :
    ∃ d b, (messagesOf (declarations files))[id]? = some d ∧ bound[id]? = some b ∧
      BoundMessage (Symbols.ofFiles files) d b ∧ AttachedMessage bound b m := by
  obtain ⟨b, hb, hattached⟩ := forall₂_getElem?_right h.attached hm
  obtain ⟨d, hd, hbound⟩ := forall₂_getElem?_right h.binds hb
  exact ⟨d, b, hd, hb, hbound, hattached⟩

/-- What is declared is a message of the schema. -/
theorem exists_message (h : ResolvesTo files bound s) {id : MessageId}
    {d : Declared MessageDescriptor} (hd : (messagesOf (declarations files))[id]? = some d) :
    ∃ b m, bound[id]? = some b ∧ s.messages[id]? = some m ∧
      BoundMessage (Symbols.ofFiles files) d b ∧ AttachedMessage bound b m := by
  obtain ⟨b, hb, hbound⟩ := forall₂_getElem?_left h.binds hd
  obtain ⟨m, hm, hattached⟩ := forall₂_getElem?_left h.attached hb
  exact ⟨b, m, hb, hm, hbound, hattached⟩

theorem length_messages (h : ResolvesTo files bound s) :
    (messagesOf (declarations files)).length = s.messages.length :=
  h.binds.length_eq.trans h.attached.length_eq

/-- The file of a number is a file of that number. -/
theorem getElem?_files (h : ResolvesTo files bound s) {id : FileId} {f : File} :
    s.files[id]? = some f ↔
      ∃ g, files[id]? = some g ∧ f = ⟨g, importIds files g, contentsOf files (.file id)⟩ := by
  rw [h.files_eq, List.getElem?_zipWith, fileContents_eq, List.getElem?_map]
  cases hg : files[id]? with
  | none => simp
  | some g =>
    rw [List.getElem?_range (List.getElem?_eq_some_iff.1 hg).1]
    simp [eq_comm]

theorem length_files (h : ResolvesTo files bound s) : s.files.length = files.length := by
  rw [h.files_eq, List.length_zipWith, fileContents_eq, List.length_map, List.length_range,
    Nat.min_self]

/-- The files of the schema are those that were resolved. -/
theorem map_source_files (h : ResolvesTo files bound s) : s.files.map (·.source) = files := by
  refine List.ext_getElem? fun id => ?_
  rw [List.getElem?_map]
  cases hf : s.files[id]? with
  | none =>
    rw [List.getElem?_eq_none_iff, h.length_files] at hf
    exact (List.getElem?_eq_none hf).symm
  | some f =>
    obtain ⟨g, hg, rfl⟩ := h.getElem?_files.1 hf
    exact hg.symm

/-- What is bound lists what is nested in it. -/
theorem contents_of_getElem?_bound (h : ResolvesTo files bound s) {id : MessageId} {b : Message}
    (hb : bound[id]? = some b) : b.contents = contentsOf files (.message id) := by
  have hcontents := congrArg (·[id]?) (h.contents.trans messageContents_eq)
  have hlt : id < (messagesOf (declarations files)).length := by
    rw [h.binds.length_eq]
    exact (List.getElem?_eq_some_iff.1 hb).1
  simp only [List.getElem?_map, hb, List.getElem?_range hlt, Option.map_some] at hcontents
  exact Option.some.inj hcontents

/-- **The lists of a place have the numbers of what stands there.** -/
theorem contents_eq (h : ResolvesTo files bound s) (place : Place) :
    s.contents place = contentsOf files place := by
  cases place with
  | file id =>
    rw [Schema.contents]
    cases hf : s.files[id]? with
    | none =>
      rw [List.getElem?_eq_none_iff, h.length_files] at hf
      exact (contentsOf_eq_nil (lacks_declarations_file hf)).symm
    | some f =>
      obtain ⟨g, -, rfl⟩ := h.getElem?_files.1 hf
      rfl
  | message id =>
    rw [Schema.contents]
    cases hm : s.messages[id]? with
    | none =>
      rw [List.getElem?_eq_none_iff, ← h.length_messages] at hm
      exact (contentsOf_eq_nil (lacks_declarations_message hm)).symm
    | some m =>
      obtain ⟨b, hb, hattached⟩ := forall₂_getElem?_right h.attached hm
      have hcontents : m.contents = b.contents := by rw [hattached.eq]
      exact hcontents.trans (h.contents_of_getElem?_bound hb)

/-- A message is listed once, in the place it stands in. -/
theorem count_messages (h : ResolvesTo files bound s) {id : MessageId}
    {d : Declared MessageDescriptor} (hd : (messagesOf (declarations files))[id]? = some d)
    (place : Place) :
    (s.contents place).messages.count id = if d.place = place then 1 else 0 := by
  rw [h.contents_eq]
  refine (count_findIdxs hd).trans (if_congr ?_ rfl rfl)
  exact beq_iff_eq

/-- An enum is listed once, in the place it stands in. -/
theorem count_enums (h : ResolvesTo files bound s) {id : EnumId} {d : Declared EnumDescriptor}
    (hd : (enumsOf (declarations files))[id]? = some d) (place : Place) :
    (s.contents place).enums.count id = if d.place = place then 1 else 0 := by
  rw [h.contents_eq]
  refine (count_findIdxs hd).trans (if_congr ?_ rfl rfl)
  exact beq_iff_eq

/-- Only messages that there are are listed. -/
theorem lt_of_mem_messages (h : ResolvesTo files bound s) {place : Place} {id : MessageId}
    (hid : id ∈ (s.contents place).messages) : id < s.messages.length := by
  rw [h.contents_eq] at hid
  rw [← h.length_messages]
  exact List.lt_add_of_mem_findIdxs id hid

/-- Only enums that there are are listed. -/
theorem lt_of_mem_enums (h : ResolvesTo files bound s) {place : Place} {id : EnumId}
    (hid : id ∈ (s.contents place).enums) : id < s.enums.length := by
  rw [h.contents_eq] at hid
  rw [h.enums_eq, List.length_map]
  exact List.lt_add_of_mem_findIdxs id hid

theorem nodup_fullNames (h : ResolvesTo files bound s) :
    (files.flatMap FileDescriptor.allNames).Nodup :=
  (checkDeclarations_eq_ok_iff.1 h.check).2

/-! ## Names and parents -/

/-- **What is declared is named after where it stands.** -/
theorem coherentName (h : ResolvesTo files bound s) {α : Type} {d : Declared α} {k : Nat}
    (hd : Stands files k d) : CoherentName s d.file d.parent d.name d.fullName := by
  cases hd with
  | @top f hf hparent hscope =>
    refine ⟨?_, fun _ g hg => ?_, fun p hp => absurd (hparent.symm.trans hp) nofun⟩
    · rw [h.length_files]
      exact (List.getElem?_eq_some_iff.1 hf).1
    · obtain ⟨f', hf', rfl⟩ := h.getElem?_files.1 hg
      obtain rfl := Option.some.inj (hf.symm.trans hf')
      rw [Declared.fullName, hscope]
  | @nested p q hp hq hfile hparent hscope =>
    obtain ⟨b, m, -, hm, hbound, hattached⟩ := h.exists_message hq
    refine ⟨?_, fun hnone => absurd (hparent.symm.trans hnone) nofun, fun p' hp' => ?_⟩
    · obtain ⟨-, f, hf, -⟩ := mem_allMessages (List.mem_of_getElem? hq)
      rw [h.length_files, ← hfile]
      exact (List.getElem?_eq_some_iff.1 hf).1
    · obtain rfl := Option.some.inj (hparent.symm.trans hp')
      refine ⟨m, hm, ?_, ?_⟩
      · rw [hattached.eq]
        exact hbound.file.trans hfile
      · rw [hattached.eq, Declared.fullName, hscope]
        exact congrArg (qualify · d.name) hbound.fullName.symm

/-- All full names in a schema are those of the files. -/
theorem fullNames_nodup (h : ResolvesTo files bound s) :
    (s.messages.map (·.fullName) ++ s.enums.map (·.fullName)).Nodup := by
  have hbound : bound.map (·.fullName) = (messagesOf (declarations files)).map Declared.fullName :=
    (map_eq_of_forall₂ h.binds fun _ _ hb => hb.fullName.symm).symm
  have hattached : s.messages.map (·.fullName) = bound.map (·.fullName) :=
    (map_eq_of_forall₂ h.attached fun b m hm => by rw [hm.eq]).symm
  rw [hattached, hbound, h.enums_eq, List.map_map]
  exact Symbols.distinct_ofFiles h.nodup_fullNames

/-! ## Fields -/

/-- A type that holds something is in range. -/
theorem inRange (h : ResolvesTo files bound s) {type : FieldType} {held : Held}
    (hmeans : type.Means (Symbols.ofFiles files) held) : type.InRange s := by
  cases hmeans with
  | scalar kind => exact .scalar kind
  | message hd =>
    refine .message ?_
    rw [← h.length_messages]
    exact (List.getElem?_eq_some_iff.1 hd).1
  | enumeration hd =>
    refine .enumeration ?_
    rw [h.enums_eq, List.length_map]
    exact (List.getElem?_eq_some_iff.1 hd).1

/-- Messages that are entries were so before maps were attached. -/
theorem isMapEntry_iff (h : ResolvesTo files bound s) {type : FieldType} :
    type.IsMapEntry s ↔ ∃ id b, type = .message id ∧ bound[id]? = some b ∧ b.isMapEntry = true := by
  constructor
  · rintro ⟨id, m, htype, hm, his⟩
    obtain ⟨-, b, -, hb, -, hattached⟩ := h.exists_declared hm
    rw [hattached.eq] at his
    exact ⟨id, b, htype, hb, his⟩
  · rintro ⟨id, b, htype, hb, his⟩
    obtain ⟨m, hm, hattached⟩ := forall₂_getElem?_left h.attached hb
    exact ⟨id, m, htype, hm, by rw [hattached.eq]; exact his⟩

end ResolvesTo

theorem Attached.number_eq {messages : List Message} {f f' : Field} (h : Attached messages f f') :
    f'.number = f.number := by
  cases h <;> rfl

/-- A singular field has no map attached. -/
theorem Attached.eq_of_singular {messages : List Message} {f f' : Field}
    (h : Attached messages f f') (hsingular : f.isRepeated = false) : f' = f := by
  cases h with
  | plain _ => rfl
  | map _ _ _ hrepeated _ => exact absurd (hrepeated.symm.trans hsingular) nofun

/-- A singular field is not of the type of an entry. -/
theorem Attached.not_isMapEntry_of_singular {messages : List Message} {f f' : Field}
    (h : Attached messages f f') (hsingular : f.isRepeated = false) {id : MessageId} {m : Message}
    (htype : f.type = .message id) (hm : messages[id]? = some m) : m.isMapEntry = false := by
  cases h with
  | plain hplain => exact hplain id m htype hm
  | map _ _ _ hrepeated _ => exact absurd (hrepeated.symm.trans hsingular) nofun

/-- An entry is still one when maps are attached: both its fields are singular. -/
theorem IsEntry.attached {messages : List Message} {m m' : Message} {key value : Field}
    {kind : Scalar} (h : IsEntry m key value kind) (hattached : AttachedMessage messages m m') :
    IsEntry m' key value kind := by
  have hmem : ∀ f ∈ m.fields, f.isRepeated = false → f ∈ m'.fields := fun f hf hsingular => by
    obtain ⟨i, hi⟩ := List.mem_iff_getElem?.1 hf
    obtain ⟨f', hf', hattachedField⟩ := forall₂_getElem?_left hattached.fields hi
    obtain rfl := hattachedField.eq_of_singular hsingular
    exact List.mem_of_getElem? hf'
  exact { h with
    length_eq := hattached.fields.length_eq.symm.trans h.length_eq
    key_mem := hmem key h.key_mem h.key_singular
    value_mem := hmem value h.value_mem h.value_singular }

theorem Attached.oneof_eq {messages : List Message} {f f' : Field} (h : Attached messages f f') :
    f'.oneof = f.oneof := by
  cases h <;> rfl

/-- Maps that are attached leave the oneofs as they are. -/
theorem AttachedMessage.listsMembers {messages : List Message} {b m : Message}
    (h : AttachedMessage messages b m) (hlists : b.ListsMembers) : m.ListsMembers := by
  intro k
  have honeofs : b.fields.map (·.oneof) = m.fields.map (·.oneof) :=
    map_eq_of_forall₂ h.fields fun _ _ hf => hf.oneof_eq.symm
  have hmembers : m.members k = b.members k := by rw [h.eq]; rfl
  have hsame := congrArg (List.findIdxs (· == some k) ·) honeofs
  simp only [List.findIdxs_map] at hsame
  exact hmembers.trans ((hlists k).trans hsame)

namespace ResolvesTo

variable {files : List FileDescriptor} {bound : List Message} {s : Schema}

/-- **A message of the schema lists the members of its oneofs.** -/
theorem listsMembers (h : ResolvesTo files bound s) {id : MessageId} {m : Message}
    (hm : s.messages[id]? = some m) : m.ListsMembers := by
  obtain ⟨d, b, -, -, hbound, hattached⟩ := h.exists_declared hm
  exact hattached.listsMembers hbound.listsMembers

/-- **A map that was attached fits its field**, and its values are no entries. -/
theorem coherentMap (h : ResolvesTo files bound s) {d : Declared MessageDescriptor}
    {fd : FieldDescriptor} {f : Field} (hfield : Bound (Symbols.ofFiles files) d fd f)
    {target : MessageId} {b : Message} {map : MapEntry} (htype : f.type = .message target)
    (hb : bound[target]? = some b) (hrepeated : f.isRepeated = true)
    (hmap : b.mapEntry target = .ok map) : CoherentMap s { f with map := some map } map := by
  obtain ⟨m, hm, hattached⟩ := forall₂_getElem?_left h.attached hb
  obtain ⟨d', -, hboundEntry⟩ := forall₂_getElem?_right h.binds hb
  obtain ⟨key, value, kind, hentry, rfl⟩ := (mapEntry_eq_ok_iff hboundEntry.distinct).1 hmap
  obtain ⟨i, hi⟩ := List.mem_iff_getElem?.1 hentry.value_mem
  obtain ⟨valueFd, -, hboundValue⟩ := forall₂_getElem?_right hboundEntry.fields hi
  obtain ⟨value', -, hattachedValue⟩ := forall₂_getElem?_left hattached.fields hi
  obtain ⟨held, hmeans⟩ := hboundValue.type.exists_means h.nodup_fullNames
  refine ⟨htype, hrepeated, ?_, ⟨m, key, value, hm, hentry.attached hattached, rfl⟩,
    h.inRange hmeans, fun his => ?_⟩
  · have hpacked := hfield.isPacked
    rw [htype] at hpacked
    simpa [FieldType.isPackable] using hpacked
  · obtain ⟨id, b', htype', hb', his⟩ := h.isMapEntry_iff.1 his
    have hnot := hattachedValue.not_isMapEntry_of_singular hentry.value_singular htype' hb'
    exact absurd (his.symm.trans hnot) nofun

/-- **A field that was bound and had its map attached is coherent.** -/
theorem coherentField (h : ResolvesTo files bound s) {d : Declared MessageDescriptor}
    {fd : FieldDescriptor} {f f' : Field} (hfield : Bound (Symbols.ofFiles files) d fd f)
    (hattached : Attached bound f f') : CoherentField s f' := by
  have hnumber := FieldNumber.isValid_iff.1 hfield.isValid
  obtain ⟨held, hmeans⟩ := hfield.type.exists_means h.nodup_fullNames
  have hpacked : f.isPacked = true → f.isRepeated = true ∧ f.type.isPackable = true := fun hp => by
    rw [hfield.isPacked, Bool.and_eq_true, Bool.and_eq_true] at hp
    exact hp.1
  cases hattached with
  | plain hplain =>
    have hnone : ∀ map, f.map ≠ some map := fun map hmap =>
      absurd (hfield.map.symm.trans hmap) nofun
    refine ⟨hnumber, h.inRange hmeans, hpacked, ?_, fun map hmap => absurd hmap (hnone map)⟩
    rw [h.isMapEntry_iff, hfield.map]
    refine iff_of_false Bool.false_ne_true ?_
    rintro ⟨id, b, htype, hb, his⟩
    exact absurd (his.symm.trans (hplain id b htype hb)) nofun
  | map htype hb his hrepeated hmap =>
    refine ⟨hnumber, h.inRange hmeans, hpacked, ?_, fun map' hmap' => ?_⟩
    · rw [h.isMapEntry_iff]
      exact iff_of_true rfl ⟨_, _, htype, hb, his⟩
    · obtain rfl := Option.some.inj hmap'
      exact h.coherentMap hfield htype hb hrepeated hmap

/-! ## Messages, enums and files -/

/-- **A message of the schema is coherent.** -/
theorem coherentMessage (h : ResolvesTo files bound s) {id : MessageId} {m : Message}
    (hm : s.messages[id]? = some m) : CoherentMessage s id m := by
  obtain ⟨d, b, hd, -, hbound, hattached⟩ := h.exists_declared hm
  have hstands := stands_of_getElem?_messagesOf hd
  have hname : CoherentName s m.file m.parent m.name m.fullName := by
    rw [hattached.eq]
    have := h.coherentName hstands
    rwa [← hbound.file, ← hbound.parent, ← hbound.name, ← hbound.fullName] at this
  have hparent : ∀ p, m.parent = some p → p < id := fun p hp => by
    rw [hattached.eq] at hp
    have hp : d.parent = some p := hbound.parent.symm.trans hp
    cases hstands with
    | top _ hparent _ => exact absurd (hparent.symm.trans hp) nofun
    | nested hlt _ _ hparent _ =>
      obtain rfl := Option.some.inj (hparent.symm.trans hp)
      exact hlt
  have hplace : d.place = .of m.file m.parent := by
    rw [hattached.eq, Declared.place, ← hbound.file, ← hbound.parent]
  refine ⟨hname, hparent, fun p => ?_, fun f => ?_, fun j hj => h.lt_of_mem_messages hj,
    fun j hj => h.lt_of_mem_enums hj, ?_, fun f' hf' => ?_⟩
  · rw [nestedMessages, h.count_messages hd, hplace]
    exact if_congr Place.of_eq_message_iff rfl rfl
  · rw [topMessages, h.count_messages hd, hplace]
    exact if_congr Place.of_eq_file_iff rfl rfl
  · rw [← map_eq_of_forall₂ hattached.fields fun _ _ hf => hf.number_eq.symm]
    exact hbound.distinct
  · obtain ⟨i, hi⟩ := List.mem_iff_getElem?.1 hf'
    obtain ⟨f, hf, hattachedField⟩ := forall₂_getElem?_right hattached.fields hi
    obtain ⟨fd, -, hboundField⟩ := forall₂_getElem?_right hbound.fields hf
    exact h.coherentField hboundField hattachedField

/-- **An enum of the schema is coherent.** -/
theorem coherentEnum (h : ResolvesTo files bound s) {id : EnumId} {e : Enum}
    (he : s.enums[id]? = some e) : CoherentEnum s id e := by
  have henum := he
  rw [h.enums_eq, List.getElem?_map, Option.map_eq_some_iff] at henum
  obtain ⟨d, hd, rfl⟩ := henum
  refine ⟨h.coherentName (stands_of_mem_enumsOf (List.mem_of_getElem? hd)), fun p => ?_,
    fun f => ?_⟩
  · rw [nestedEnums, h.count_enums hd]
    exact if_congr Place.of_eq_message_iff rfl rfl
  · rw [topEnums, h.count_enums hd]
    exact if_congr Place.of_eq_file_iff rfl rfl

/-- **A file of the schema is coherent.** -/
theorem coherentFile (h : ResolvesTo files bound s) (hsorted : ImportSorted files) {id : FileId}
    {f : File} (hf : s.files[id]? = some f) : CoherentFile s id f := by
  obtain ⟨g, hg, rfl⟩ := h.getElem?_files.1 hf
  exact ⟨fun j hj => hsorted.lt_of_mem_importIds hg hj,
    fun j hj => h.lt_of_mem_messages hj, fun j hj => h.lt_of_mem_enums hj⟩

/-- What files resolve to is coherent. -/
theorem coherent (h : ResolvesTo files bound s) (hsorted : ImportSorted files) : Coherent s where
  files := fun _ _ hf => h.coherentFile hsorted hf
  messages := fun _ _ hm => h.coherentMessage hm
  enums := fun _ _ he => h.coherentEnum he
  fullNames := h.fullNames_nodup

end ResolvesTo

/-- **A schema that resolves is coherent.** -/
theorem coherent_of_resolve {files : List FileDescriptor} {s : Schema}
    (h : resolve files = .ok s) : Coherent s := by
  obtain ⟨order, horder, hs⟩ := bind_eq_ok_iff.1 h
  obtain ⟨-, hsorted⟩ := importOrder_eq_ok horder
  obtain ⟨bound, hbound⟩ := resolveOrdered_eq_ok_iff.1 hs
  exact hbound.coherent hsorted

/-- A file with a message that has a map of strings and a singular field, the entry of the map, and
an enum. -/
def atlas : FileDescriptor where
  name := "atlas.proto"
  package := "geo"
  imports := []
  messages := [⟨"Atlas",
    [⟨"pages", 3, 3, 11, ".geo.Atlas.PagesEntry", none, none, "pages", false⟩,
      ⟨"scale", 1, 1, 14, "Scale", none, none, "scale", false⟩],
    [⟨"PagesEntry", [⟨"key", 1, 1, 5, "", none, none, "key", false⟩,
      ⟨"value", 2, 1, 9, "", none, none, "value", false⟩], [], [], some ⟨some true⟩, []⟩],
    [⟨"Scale", [⟨"UNKNOWN", 0⟩]⟩], none, []⟩]
  enums := []
  dialect := "proto3"

/-- The outer message of `atlas`: the field that is repeated is a map, and the entry stands in the
message. -/
def atlasMessage : Message where
  name := "Atlas"
  fullName := "geo.Atlas"
  file := 0
  parent := none
  fields := [⟨"pages", 3, .message 1, true, false, some ⟨1, .int32, .scalar .string⟩, none⟩,
    ⟨"scale", 1, .enumeration 0, false, false, none, none⟩]
  oneofs := []
  contents := ⟨[1], [0]⟩
  isMapEntry := false

/-- The entry of the map of `atlas`. -/
def pagesEntry : Message where
  name := "PagesEntry"
  fullName := "geo.Atlas.PagesEntry"
  file := 0
  parent := some 0
  fields := [⟨"key", 1, .scalar .int32, false, false, none, none⟩,
    ⟨"value", 2, .scalar .string, false, false, none, none⟩]
  oneofs := []
  contents := ⟨[], []⟩
  isMapEntry := true

theorem coherent_of_resolve_atlas : ∃ s, resolve [atlas] = .ok s ∧
    s.files.map (·.contents) = [⟨[0], []⟩] ∧ s.messages = [atlasMessage, pagesEntry] ∧
    s.enums = [⟨"Scale", "geo.Atlas.Scale", 0, some 0, [⟨"UNKNOWN", 0⟩]⟩] ∧ Coherent s := by
  have horder : importOrder [atlas] = .ok [atlas] := by cbv
  obtain ⟨s, hresolve, hlook⟩ := exists_resolve_of_map_eq_ok
    (g := fun s => (s.files.map (·.contents), s.messages, s.enums))
    (a := ([⟨[0], []⟩], [atlasMessage, pagesEntry],
      [⟨"Scale", "geo.Atlas.Scale", 0, some 0, [⟨"UNKNOWN", 0⟩]⟩])) horder (by decide +kernel)
  obtain ⟨hfiles, hlook⟩ := Prod.mk.inj hlook
  obtain ⟨hmessages, henums⟩ := Prod.mk.inj hlook
  exact ⟨s, hresolve, hfiles, hmessages, henums, coherent_of_resolve hresolve⟩

end Protowire.Schema
