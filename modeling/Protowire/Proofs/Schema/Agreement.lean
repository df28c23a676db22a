import Protowire.Proofs.Schema.Shared

/-!
# Proofs/Schema/Agreement — files that are shared resolve to the same

When two lists share files, what becomes of a message there is the same in both under other
numbers: its fields are bound to the same types (`Shares.boundMessage`), and the same maps are
attached to them (`Shares.attachedMessage`).  Both passes have one result for each message, so the
two schemas agree (`Shares.agrees`).
-/

namespace Protowire.Schema

/-! ## Entries -/

section Entry

variable {m : Message} (r : Renumbering)

/-- A message is an entry under any numbers. -/
theorem IsEntry.renumber {key value : Field} {kind : Scalar} (h : IsEntry m key value kind) :
    IsEntry (m.renumber r) (key.renumber r) (value.renumber r) kind where
  length_eq := (List.length_map ..).trans h.length_eq
  key_mem := List.mem_map_of_mem h.key_mem
  value_mem := List.mem_map_of_mem h.value_mem
  key_number := h.key_number
  value_number := h.value_number
  key_singular := h.key_singular
  value_singular := h.value_singular
  key_type := by rw [Field.renumber_type, h.key_type]; rfl
  isMapKey := h.isMapKey

/-- Renumbering keeps the numbers of fields. -/
theorem map_number_renumber : (m.renumber r).fields.map (·.number) = m.fields.map (·.number) := by
  rw [Message.renumber_fields, List.map_map]
  rfl

/-- **An entry says the same of its map under any numbers.** -/
theorem mapEntry_renumber (hdistinct : (m.fields.map (·.number)).Nodup) {entry : MessageId}
    {map : MapEntry} (hmap : m.mapEntry entry = .ok map) :
    (m.renumber r).mapEntry (r.message entry) = .ok (map.renumber r) := by
  obtain ⟨key, value, kind, his, rfl⟩ := (mapEntry_eq_ok_iff hdistinct).1 hmap
  have hdistinct' : ((m.renumber r).fields.map (·.number)).Nodup := by
    rwa [map_number_renumber]
  exact (mapEntry_eq_ok_iff hdistinct').2 ⟨_, _, kind, his.renumber r, rfl⟩

end Entry

/-- A type is a message only if it was one. -/
theorem FieldType.exists_of_renumber_eq_message {r : Renumbering} {type : FieldType}
    {id : MessageId} (h : type.renumber r = .message id) :
    ∃ target, type = .message target ∧ id = r.message target := by
  cases type with
  | scalar kind => cases h
  | enumeration id => cases h
  | message target => exact ⟨target, rfl, (FieldType.message.inj h).symm⟩

theorem FieldType.isPackable_renumber (r : Renumbering) (type : FieldType) :
    (type.renumber r).isPackable = type.isPackable := by
  cases type <;> rfl

/-! ## Passes with one result -/

/-- A message is bound in one way, but for what it lists. -/
theorem BoundMessage.unique {t : Symbols} {d : Declared MessageDescriptor} {m m' : Message}
    (h : BoundMessage t d m) (h' : BoundMessage t d m') (hcontents : m.contents = m'.contents) :
    m = m' :=
  Except.ok.inj ((bindMessage_eq_ok_iff.2 ⟨h, hcontents⟩).symm.trans
    (bindMessage_eq_ok_iff.2 ⟨h', rfl⟩))

/-- Maps are attached in one way. -/
theorem AttachedMessage.unique {messages : List Message} {b m m' : Message}
    (h : AttachedMessage messages b m) (h' : AttachedMessage messages b m') : m = m' :=
  Except.ok.inj ((attachMaps_eq_ok_iff.2 h).symm.trans (attachMaps_eq_ok_iff.2 h'))

namespace ResolvesTo

variable {files : List FileDescriptor} {bound : List Message} {s : Schema} {id : MessageId}

/-- A message is in the file that declares it. -/
theorem exists_declared_file (h : ResolvesTo files bound s) {m : Message}
    (hm : s.messages[id]? = some m) :
    ∃ d, (messagesOf (declarations files))[id]? = some d ∧ m.file = d.file := by
  obtain ⟨d, b, hd, -, hbound, hattached⟩ := h.exists_declared hm
  rw [hattached.eq]
  exact ⟨d, hd, hbound.file⟩

/-- A message is in the file that declares it. -/
theorem exists_message_file (h : ResolvesTo files bound s) {d : Declared MessageDescriptor}
    (hd : (messagesOf (declarations files))[id]? = some d) :
    ∃ m, s.messages[id]? = some m ∧ m.file = d.file := by
  obtain ⟨b, m, -, hm, hbound, hattached⟩ := h.exists_message hd
  refine ⟨m, hm, ?_⟩
  rw [hattached.eq]
  exact hbound.file

end ResolvesTo

namespace Shares

variable {files others : List FileDescriptor} {visible : FileId → Prop}

/-! ## Binding -/

section Binding

variable (h : Shares files others visible) (hnames : (files.flatMap FileDescriptor.allNames).Nodup)
  (hnames' : (others.flatMap FileDescriptor.allNames).Nodup) {i : FileId}
  {d : Declared MessageDescriptor}

include h hnames hnames'

/-- A field in a visible file holds the same in both lists. -/
theorem holdsType (hi : visible i) {scope : String} {fd : FieldDescriptor} {type : FieldType}
    (hholds : HoldsType (Symbols.ofFiles files) i scope fd type) :
    HoldsType (Symbols.ofFiles others) (fileIn files others i) scope fd
      (type.renumber (renumbering files others)) := by
  have hlookup := h.lookup?_eq hnames hnames' hi scope fd.typeName
  cases hholds with
  | scalar hscalar => exact .scalar hscalar
  | message hcode hfound =>
    rw [hfound] at hlookup
    exact .message hcode hlookup
  | enumeration hcode hfound =>
    rw [hfound] at hlookup
    exact .enumeration hcode hlookup

/-- A field of a visible message is bound to the same in both lists. -/
theorem bound (hvisible : visible d.file) {fd : FieldDescriptor} {f : Field}
    (hbound : Bound (Symbols.ofFiles files) d fd f) :
    Bound (Symbols.ofFiles others) (d.renumber (renumbering files others)) fd
      (f.renumber (renumbering files others)) where
  name := hbound.name
  number := hbound.number
  isValid := hbound.isValid
  label := hbound.label
  type := h.holdsType hnames hnames' hvisible hbound.type
  packs := by
    rw [Field.renumber_type, FieldType.isPackable_renumber]
    exact hbound.packs
  isPacked := by
    rw [Field.renumber_type, FieldType.isPackable_renumber]
    exact hbound.isPacked
  map := by
    rw [Field.renumber_map, hbound.map]
    rfl
  oneof := hbound.oneof

/-- **A visible message is bound to the same in both lists.** -/
theorem boundMessage (hvisible : visible d.file) {b : Message}
    (hbound : BoundMessage (Symbols.ofFiles files) d b) :
    BoundMessage (Symbols.ofFiles others) (d.renumber (renumbering files others))
      (b.renumber (renumbering files others)) where
  name := hbound.name
  fullName := hbound.fullName
  file := by
    rw [Message.renumber_file, hbound.file]
    rfl
  parent := by
    rw [Message.renumber_parent, hbound.parent]
    rfl
  fields := List.forall₂_map_right_iff.2 <|
    hbound.fields.imp fun {_ _} hf => h.bound hnames hnames' hvisible hf
  distinct := by
    rw [map_number_renumber]
    exact hbound.distinct
  oneofs := by
    have hslots : (b.renumber (renumbering files others)).fields.map (·.oneof) =
        b.fields.map (·.oneof) := by
      rw [Message.renumber_fields, List.map_map]
      rfl
    rw [hslots]
    exact hbound.oneofs
  isMapEntry := hbound.isMapEntry

end Binding

/-! ## The two schemas -/

section Resolved

variable {bound bound' : List Message} {s t : Schema} (h : Shares files others visible)
  (hs : ResolvesTo files bound s) (ht : ResolvesTo others bound' t) {id : MessageId}
  {m b : Message} {d : Declared MessageDescriptor}

include h hs

/-- The type of a field in a visible file is known. -/
theorem known_of_holdsType {i : FileId} (hi : visible i) {scope : String} {fd : FieldDescriptor}
    {type : FieldType} (hholds : HoldsType (Symbols.ofFiles files) i scope fd type) :
    type.Known s visible := by
  cases hholds with
  | scalar _ => exact .scalar _
  | message _ hfound =>
    cases h.known_of_lookup? hs.nodup_fullNames hi hfound with
    | message hd hvisible =>
      obtain ⟨m, hm, hfile⟩ := hs.exists_message_file hd
      exact .message ⟨m, hm, hfile ▸ hvisible⟩
  | enumeration _ hfound =>
    cases h.known_of_lookup? hs.nodup_fullNames hi hfound with
    | @enumeration _ d hd hvisible =>
      refine .enumeration ⟨enumOf d, ?_, hvisible⟩
      rw [hs.enums_eq, List.getElem?_map, hd, Option.map_some]

include ht

/-- **What is bound in visible files is bound among the others too.** -/
theorem getElem?_bound (hb : bound[id]? = some b) (hvisible : visible b.file) :
    bound'[(renumbering files others).message id]?
      = some (b.renumber (renumbering files others)) := by
  obtain ⟨d, hd, hbound⟩ := forall₂_getElem?_right hs.binds hb
  rw [hbound.file] at hvisible
  obtain ⟨b', hb', hbound'⟩ :=
    forall₂_getElem?_left ht.binds (h.carried_messages.getElem? id d hd hvisible)
  have hsame := h.boundMessage hs.nodup_fullNames ht.nodup_fullNames hvisible hbound
  have hcontents : b'.contents = (b.renumber (renumbering files others)).contents := by
    rw [ht.contents_of_getElem?_bound hb', Message.renumber_contents,
      hs.contents_of_getElem?_bound hb]
    exact h.contentsOf_eq (.message hd) hvisible
  rw [hb', hbound'.unique hsame hcontents]

/-- A field in a visible file has the same map attached among the others. -/
theorem attached (hvisible : visible d.file) {fd : FieldDescriptor} {f f' : Field}
    (hbound : Bound (Symbols.ofFiles files) d fd f) (hattached : Attached bound f f') :
    Attached bound' (f.renumber (renumbering files others))
      (f'.renumber (renumbering files others)) := by
  have hknown := h.known_of_holdsType hs hvisible hbound.type
  have htarget : ∀ target, f.type = .message target → ∃ entry, bound[target]? = some entry ∧
      visible entry.file := fun target htype => by
    rw [htype] at hknown
    cases hknown with
    | message htarget =>
      obtain ⟨m, hm, hvisible⟩ := htarget
      obtain ⟨-, b, -, hb, -, hattached⟩ := hs.exists_declared hm
      rw [hattached.eq] at hvisible
      exact ⟨b, hb, hvisible⟩
  cases hattached with
  | plain hplain =>
    refine .plain fun target' entry' htype' hentry' => ?_
    obtain ⟨target, htype, rfl⟩ := FieldType.exists_of_renumber_eq_message htype'
    obtain ⟨entry, hentry, hentryVisible⟩ := htarget target htype
    rw [h.getElem?_bound hs ht hentry hentryVisible] at hentry'
    obtain rfl := Option.some.inj hentry'
    exact hplain target entry htype hentry
  | @map target entry map htype hentry his hrepeated hmap =>
    obtain ⟨entry', hentry', hentryVisible⟩ := htarget target htype
    obtain rfl := Option.some.inj (hentry.symm.trans hentry')
    obtain ⟨d', -, hboundEntry⟩ := forall₂_getElem?_right hs.binds hentry
    have htype' : (f.renumber (renumbering files others)).type =
        .message ((renumbering files others).message target) := by
      rw [Field.renumber_type, htype]
      rfl
    exact .map htype' (h.getElem?_bound hs ht hentry hentryVisible) his hrepeated
      (mapEntry_renumber _ hboundEntry.distinct hmap)

/-- **A message in a visible file has the same maps attached among the others.** -/
theorem attachedMessage (hvisible : visible d.file)
    (hbound : BoundMessage (Symbols.ofFiles files) d b) (hattached : AttachedMessage bound b m) :
    AttachedMessage bound' (b.renumber (renumbering files others))
      (m.renumber (renumbering files others)) := by
  have hfields : ∀ f ∈ b.fields, ∃ fd, Bound (Symbols.ofFiles files) d fd f := fun f hf => by
    obtain ⟨i, hi⟩ := List.mem_iff_getElem?.1 hf
    obtain ⟨fd, -, hfd⟩ := forall₂_getElem?_right hbound.fields hi
    exact ⟨fd, hfd⟩
  refine ⟨?_, ?_⟩
  · rw [hattached.eq]
    rfl
  · rw [Message.renumber_fields, Message.renumber_fields, List.forall₂_map_left_iff,
      List.forall₂_map_right_iff]
    refine ((List.forall₂_and_left _ _).2 ⟨hfields, hattached.fields⟩).imp ?_
    rintro f f' ⟨⟨fd, hfd⟩, hf⟩
    exact h.attached hs ht hvisible hfd hf

/-- **The messages of visible files are the same in both schemas.** -/
theorem carried_schemaMessages :
    Carried s.messages t.messages Message.file visible (renumbering files others).file
      (renumbering files others).message (Message.renumber (renumbering files others)) where
  getElem? id m hm hvisible := by
    obtain ⟨d, b, hd, hb, hbound, hattached⟩ := hs.exists_declared hm
    have hfile : m.file = b.file := by rw [hattached.eq]
    have hb' := h.getElem?_bound hs ht hb (hfile ▸ hvisible)
    obtain ⟨m', hm', hattached'⟩ := forall₂_getElem?_left ht.attached hb'
    have hsame := h.attachedMessage hs ht (hbound.file ▸ hfile ▸ hvisible) hbound hattached
    rw [hm', hattached'.unique hsame]
  exists_of j m i hm hi hfile := by
    obtain ⟨d, hd, hfile'⟩ := ht.exists_declared_file hm
    obtain ⟨id, d', hd', hfile, rfl⟩ := h.carried_messages.exists_of j d i hd hi (hfile' ▸ hfile)
    obtain ⟨m', hm', hsame⟩ := hs.exists_message_file hd'
    exact ⟨id, m', hm', hsame.trans hfile, rfl⟩
  lt i j m n hm hn hvisible hfile hlt := by
    obtain ⟨d, hd, hmFile⟩ := hs.exists_declared_file hm
    obtain ⟨e, he, hnFile⟩ := hs.exists_declared_file hn
    rw [hmFile] at hvisible hfile
    exact h.carried_messages.lt i j d e hd he hvisible (hfile.trans hnFile) hlt

/-- The enums of visible files are the same in both schemas. -/
theorem carried_schemaEnums :
    Carried s.enums t.enums Enum.file visible (renumbering files others).file
      (renumbering files others).enumeration (Enum.renumber (renumbering files others)) := by
  rw [hs.enums_eq, ht.enums_eq]
  exact h.carried_enums.map enumOf (fun _ => rfl) fun _ => rfl

/-- **Files that are shared resolve to the same.** -/
theorem agrees : Agrees s t (renumbering files others) visible where
  source i hi := by
    obtain ⟨f, -, hf⟩ := h.exists_mem i hi
    have hf' : others[(renumbering files others).file i]? = some f := h.getElem?_fileIn hi hf
    rw [hs.getElem?_files.2 ⟨f, hf, rfl⟩, ht.getElem?_files.2 ⟨f, hf', rfl⟩]
    rfl
  top i hi := by
    rw [hs.contents_eq, ht.contents_eq]
    exact h.contentsOf_eq (.file i) hi
  file_injective _ _ hi hj := h.fileIn_injective hi hj
  messages := h.carried_schemaMessages hs ht
  enums := h.carried_schemaEnums hs ht
  type id m hm hvisible f hf := by
    obtain ⟨d, b, -, -, hbound, hattached⟩ := hs.exists_declared hm
    obtain ⟨i, hi⟩ := List.mem_iff_getElem?.1 hf
    obtain ⟨f₀, hf₀, hfield⟩ := forall₂_getElem?_right hattached.fields hi
    obtain ⟨fd, -, hfd⟩ := forall₂_getElem?_right hbound.fields hf₀
    rw [hattached.eq] at hvisible
    have hknown := h.known_of_holdsType hs (hbound.file ▸ hvisible) hfd.type
    cases hfield <;> exact hknown
  coherent := hs.coherent h.sorted
  coherent' := ht.coherent h.sorted'

end Resolved

end Shares

end Protowire.Schema
