import Protowire.Proofs.Schema.Binding

/-!
# Proofs/Schema/Valid — the sets of files that are schemas

`Valid` says what a set of files has to be like, in terms of the descriptors alone: names, imports,
dialects, and for every field its number, label, type, packing, oneof and map entry.  It does not
depend on the order of the files (`Valid.perm`).

Each check of the resolver is one part of it, so files resolve exactly when they are valid
(`exists_resolveOrdered_iff`).
-/

namespace Protowire.Schema

/-- What a field may hold. -/
inductive Held where
  | scalar (kind : Scalar)
  | message (m : MessageDescriptor)
  | enumeration (e : EnumDescriptor)

/-- May a list of values share one delimited payload? -/
def Held.isPackable : Held → Bool
  | scalar kind => kind.isPackable
  | message _ => false
  | enumeration _ => true

/-- What a field in a scope of `f` holds: the scalar kind it gives, or what its type name binds
to. -/
inductive Holds (files : List FileDescriptor) (f : FileDescriptor) (scope : String)
    (fd : FieldDescriptor) : Held → Prop where
  | scalar {kind : Scalar} (h : fd.scalar? = some kind) : Holds files f scope fd (.scalar kind)
  | message {m : MessageDescriptor} (hcode : fd.MayHoldMessage)
      (h : Binds files f scope fd.typeName (.message m)) : Holds files f scope fd (.message m)
  | enumeration {e : EnumDescriptor} (hcode : fd.MayHoldEnum)
      (h : Binds files f scope fd.typeName (.enumeration e)) :
      Holds files f scope fd (.enumeration e)

/-- A message that may be the entry of a map: it has exactly the fields 1 and 2, both singular, and
the first is of a kind that keys may have. -/
structure ValidEntry (m : MessageDescriptor) : Prop where
  length_eq : m.fields.length = 2
  key : ∃ key ∈ m.fields, key.number.toInt = 1 ∧ key.label.toInt ≠ 3 ∧
    ∃ kind, key.scalar? = some kind ∧ kind.isMapKey = true
  value : ∃ value ∈ m.fields, value.number.toInt = 2 ∧ value.label.toInt ≠ 3

/-- A field that nothing is wrong with by itself and in its message. -/
structure ValidAlone (files : List FileDescriptor) (f : FileDescriptor) (fullName : String)
    (m : MessageDescriptor) (fd : FieldDescriptor) : Prop where
  number : 1 ≤ fd.number.toInt ∧ fd.number.toInt ≤ 536870911 ∧
    ¬ (19000 ≤ fd.number.toInt ∧ fd.number.toInt ≤ 19999)
  label : fd.label.toInt = 0 ∨ fd.label.toInt = 1 ∨ fd.label.toInt = 3
  type : ∃ held, Holds files f fullName fd held
  packed : fd.packed? = some true →
    fd.label.toInt = 3 ∧ ∃ held, Holds files f fullName fd held ∧ held.isPackable = true
  oneof : ∀ index, fd.oneofIndex = some index → fd.tracksPresence = false →
    (0 ≤ index.toInt ∧ index.toInt < m.oneofs.length) ∧
      ∀ g ∈ m.fields, g.tracksPresence = true → g.oneofIndex ≠ some index

/-- A field that nothing is wrong with, nor with the entry it holds if it holds one. -/
structure ValidField (files : List FileDescriptor) (f : FileDescriptor) (fullName : String)
    (m : MessageDescriptor) (fd : FieldDescriptor) : Prop
    extends ValidAlone files f fullName m fd where
  entry : ∀ entry, Holds files f fullName fd (.message entry) → entry.isMapEntry = true →
    fd.label.toInt = 3 ∧ ValidEntry entry

/-- A message of a full name whose fields are valid and have different numbers. -/
structure ValidMessage (files : List FileDescriptor) (f : FileDescriptor) (fullName : String)
    (m : MessageDescriptor) : Prop where
  numbers : (m.fields.map (·.number)).Nodup
  fields : ∀ fd ∈ m.fields, ValidField files f fullName m fd

/-- **Files that are a schema together**, in whatever order. -/
structure Valid (files : List FileDescriptor) : Prop where
  fileNames : (files.map (·.name)).Nodup
  supplied : ∀ f ∈ files, ∀ name ∈ f.imports, name ∈ files.map (·.name)
  acyclic : ∀ name, ¬ Relation.TransGen (Imports files) name name
  dialect : ∀ f ∈ files, f.dialect = "proto3"
  enums : ∀ f ∈ files, ∀ e ∈ f.allEnums, e.2.values ≠ []
  fullNames : (files.flatMap FileDescriptor.allNames).Nodup
  messages : ∀ f ∈ files, ∀ m ∈ f.allMessages, ValidMessage files f m.1 m.2

/-! ## The order of the files -/

section Order

variable {files order : List FileDescriptor}

theorem sees_congr (h : ∀ f, f ∈ files ↔ f ∈ order) : Sees files = Sees order := by
  funext f g
  rw [Sees, Sees, imports_congr h]

theorem denotes_congr (h : ∀ f, f ∈ files ↔ f ∈ order) : Denotes files = Denotes order := by
  have hmono : ∀ {files order : List FileDescriptor}, (∀ f, f ∈ files ↔ f ∈ order) →
      ∀ f name x, Denotes files f name x → Denotes order f name x := by
    rintro files order h f name x (⟨hg, hfg, hm⟩ | ⟨hg, hfg, he⟩)
    · exact .message ((h _).1 hg) (sees_congr h ▸ hfg) hm
    · exact .enumeration ((h _).1 hg) (sees_congr h ▸ hfg) he
  funext f name x
  exact propext ⟨hmono h f name x, hmono (fun f => (h f).symm) f name x⟩

theorem binds_congr (h : ∀ f, f ∈ files ↔ f ∈ order) : Binds files = Binds order := by
  funext f scope typeName meaning
  rw [Binds, Binds, denotes_congr h]

theorem holds_congr (h : ∀ f, f ∈ files ↔ f ∈ order) : Holds files = Holds order := by
  have hmono : ∀ {files order : List FileDescriptor}, Binds files = Binds order →
      ∀ f scope fd held, Holds files f scope fd held → Holds order f scope fd held := by
    rintro files order hbinds f scope fd held (hkind | ⟨hcode, hm⟩ | ⟨hcode, he⟩)
    · exact .scalar hkind
    · exact .message hcode (hbinds ▸ hm)
    · exact .enumeration hcode (hbinds ▸ he)
  have hbinds := binds_congr h
  funext f scope fd held
  exact propext ⟨hmono hbinds f scope fd held, hmono hbinds.symm f scope fd held⟩

theorem ValidMessage.congr (h : ∀ f, f ∈ files ↔ f ∈ order) {f : FileDescriptor}
    {fullName : String} {m : MessageDescriptor} (hm : ValidMessage files f fullName m) :
    ValidMessage order f fullName m := by
  have hholds := holds_congr h
  refine ⟨hm.numbers, fun fd hfd => ?_⟩
  obtain ⟨⟨hnumber, hlabel, htype, hpacked, honeof⟩, hentry⟩ := hm.fields fd hfd
  rw [hholds] at htype hpacked hentry
  exact ⟨⟨hnumber, hlabel, htype, hpacked, honeof⟩, hentry⟩

/-- **Whether files are valid does not depend on their order.** -/
theorem Valid.perm (h : files.Perm order) (hvalid : Valid files) : Valid order where
  fileNames := (h.map _).nodup_iff.1 hvalid.fileNames
  supplied f hf name hname :=
    (h.map _).mem_iff.1 (hvalid.supplied f (h.mem_iff.2 hf) name hname)
  acyclic name := imports_congr (fun _ => h.mem_iff) ▸ hvalid.acyclic name
  dialect f hf := hvalid.dialect f (h.mem_iff.2 hf)
  enums f hf := hvalid.enums f (h.mem_iff.2 hf)
  fullNames := (h.flatMap_right _).nodup_iff.1 hvalid.fullNames
  messages f hf m hm := (hvalid.messages f (h.mem_iff.2 hf) m hm).congr fun _ => h.mem_iff

end Order

/-! ## Fields -/

/-- What a type by number holds. -/
inductive FieldType.Means (t : Symbols) : FieldType → Held → Prop where
  | scalar (kind : Scalar) : Means t (.scalar kind) (.scalar kind)
  | message {id : MessageId} {d : Declared MessageDescriptor} (hd : t.messages[id]? = some d) :
      Means t (.message id) (.message d.body)
  | enumeration {id : EnumId} {d : Declared EnumDescriptor} (hd : t.enums[id]? = some d) :
      Means t (.enumeration id) (.enumeration d.body)

/-- What a type holds may be packed when the type may. -/
theorem FieldType.Means.isPackable_eq {t : Symbols} {type : FieldType} {held : Held}
    (h : type.Means t held) : type.isPackable = held.isPackable := by
  cases h <;> rfl

/-- A field has one type. -/
theorem HoldsType.unique {t : Symbols} {file : FileId} {scope : String} {fd : FieldDescriptor}
    {type type' : FieldType} (h : HoldsType t file scope fd type)
    (h' : HoldsType t file scope fd type') : type = type' :=
  Except.ok.inj ((bindType_eq_ok_iff.2 h).symm.trans (bindType_eq_ok_iff.2 h'))

section Files

variable {files : List FileDescriptor} {f : FileDescriptor} {i : FileId}

/-- **The type of a field is a number for what it holds.** -/
theorem exists_holdsType_iff (hsorted : ImportSorted files)
    (hnames : (files.flatMap FileDescriptor.allNames).Nodup) (hf : files[i]? = some f)
    {scope : String} {fd : FieldDescriptor} {held : Held} :
    (∃ type, HoldsType (Symbols.ofFiles files) i scope fd type ∧
      type.Means (Symbols.ofFiles files) held) ↔ Holds files f scope fd held := by
  constructor
  · rintro ⟨type, htype, hmeans⟩
    cases hmeans with
    | scalar kind =>
      cases htype with
      | scalar h => exact .scalar h
    | message hd =>
      cases htype with
      | message hcode h =>
        exact .message hcode
          ((Symbols.exists_lookup?_iff hsorted hnames hf).1 ⟨_, h, .message hd⟩)
    | enumeration hd =>
      cases htype with
      | enumeration hcode h =>
        exact .enumeration hcode
          ((Symbols.exists_lookup?_iff hsorted hnames hf).1 ⟨_, h, .enumeration hd⟩)
  · intro h
    cases h with
    | scalar h => exact ⟨_, .scalar h, .scalar _⟩
    | message hcode h =>
      obtain ⟨x, hx, hmeans⟩ := (Symbols.exists_lookup?_iff hsorted hnames hf).2 h
      cases hmeans with
      | message hd => exact ⟨_, .message hcode hx, .message hd⟩
    | enumeration hcode h =>
      obtain ⟨x, hx, hmeans⟩ := (Symbols.exists_lookup?_iff hsorted hnames hf).2 h
      cases hmeans with
      | enumeration hd => exact ⟨_, .enumeration hcode hx, .enumeration hd⟩

/-- A type that is bound holds something. -/
theorem HoldsType.exists_means (hnames : (files.flatMap FileDescriptor.allNames).Nodup)
    {scope : String} {fd : FieldDescriptor} {type : FieldType}
    (h : HoldsType (Symbols.ofFiles files) i scope fd type) :
    ∃ held, type.Means (Symbols.ofFiles files) held := by
  have hnamed : ∀ {x}, (Symbols.ofFiles files).lookup? i scope fd.typeName = some x →
      ∃ meaning, (Symbols.ofFiles files).Means x meaning := fun hx => by
    obtain ⟨name, -, hname⟩ := List.exists_of_findSome?_eq_some hx
    exact ((Symbols.named?_eq_some_iff (Symbols.distinct_ofFiles hnames)).1 hname).exists_means
  cases h with
  | scalar h => exact ⟨_, .scalar _⟩
  | message hcode h =>
    obtain ⟨_, hmeans⟩ := hnamed h
    cases hmeans with
    | message hd => exact ⟨_, .message hd⟩
  | enumeration hcode h =>
    obtain ⟨_, hmeans⟩ := hnamed h
    cases hmeans with
    | enumeration hd => exact ⟨_, .enumeration hd⟩

/-- A label that stands for a field as it is bound is that of a repeated field when it is. -/
theorem Bound.label_iff {t : Symbols} {d : Declared MessageDescriptor} {fd : FieldDescriptor}
    {field : Field} (h : Bound t d fd field) :
    fd.label.toInt = 3 ↔ field.isRepeated = true := by
  have hlabel := h.label
  split at hlabel
  · rename_i hrepeated
    exact iff_of_true hlabel hrepeated
  · rename_i hrepeated
    refine iff_of_false ?_ hrepeated
    omega

/-- **A field is bound exactly when nothing is wrong with it by itself.** -/
theorem exists_bound_iff (hsorted : ImportSorted files)
    (hnames : (files.flatMap FileDescriptor.allNames).Nodup) {d : Declared MessageDescriptor}
    (hf : files[d.file]? = some f) {fd : FieldDescriptor} :
    (∃ field, Bound (Symbols.ofFiles files) d fd field) ↔
      ValidAlone files f d.fullName d.body fd := by
  constructor
  · rintro ⟨field, h⟩
    have hvalid := FieldNumber.isValid_iff.1 h.isValid
    have hnumber := h.number
    obtain ⟨held, hmeans⟩ := h.type.exists_means hnames
    have hholds := (exists_holdsType_iff hsorted hnames hf).1 ⟨_, h.type, hmeans⟩
    refine ⟨by omega, ?_, ⟨held, hholds⟩, fun hpacked => ?_, fun index hindex htracks => ?_⟩
    · have hlabel := h.label
      split at hlabel <;> omega
    · obtain ⟨hrepeated, hpackable⟩ := h.packs hpacked
      exact ⟨h.label_iff.2 hrepeated, held, hholds, hmeans.isPackable_eq ▸ hpackable⟩
    · exact exists_oneofSlot?_iff.1
        ((exists_bindOneof_iff d.fullName).1 ⟨_, h.oneof⟩ index hindex htracks)
  · intro h
    obtain ⟨held, hheld⟩ := h.type
    obtain ⟨type, htype, hmeans⟩ := (exists_holdsType_iff hsorted hnames hf).2 hheld
    obtain ⟨oneof, honeof⟩ := (exists_bindOneof_iff d.fullName).2
      fun index hindex htracks => exists_oneofSlot?_iff.2 (h.oneof index hindex htracks)
    have hnumber := h.number
    have hnat : fd.number.toInt = (fd.number.toInt.toNat : Int) := by omega
    have hvalid : FieldNumber.isValid fd.number.toInt.toNat = true :=
      FieldNumber.isValid_iff.2 (by omega)
    refine ⟨{ name := fd.name, number := fd.number.toInt.toNat, type
              isRepeated := decide (fd.label.toInt = 3)
              isPacked := (decide (fd.label.toInt = 3) && type.isPackable) && fd.packed?.getD true
              map := none, oneof }, rfl, hnat, hvalid, ?_, htype,
      fun hpacked => ?_, rfl, rfl, honeof⟩
    · have hlabel := h.label
      split
      · rename_i hrepeated
        exact of_decide_eq_true hrepeated
      · rename_i hrepeated
        have := mt decide_eq_true hrepeated
        omega
    · obtain ⟨hlabel, held', hheld', hpackable⟩ := h.packed hpacked
      obtain ⟨type', htype', hmeans'⟩ := (exists_holdsType_iff hsorted hnames hf).2 hheld'
      obtain rfl := htype.unique htype'
      exact ⟨decide_eq_true hlabel, hmeans'.isPackable_eq ▸ hpackable⟩

/-- The numbers of fields differ when those of their descriptors do. -/
theorem nodup_numbers_iff {t : Symbols} {d : Declared MessageDescriptor}
    {fds : List FieldDescriptor} {fields : List Field} (h : List.Forall₂ (Bound t d) fds fields) :
    (fields.map (·.number)).Nodup ↔ (fds.map (·.number)).Nodup := by
  have heq : (fields.map (·.number)).map (fun n : Nat => (n : Int))
      = (fds.map (·.number)).map Int32.toInt := by
    rw [List.map_map, List.map_map]
    exact (map_eq_of_forall₂ h fun _ _ hbound => hbound.number).symm
  rw [← List.nodup_map_iff fun _ _ => Int.ofNat_inj.1, heq,
    List.nodup_map_iff fun _ _ => Int32.toInt_inj.1]

/-- **A message is bound exactly when its fields are** and their numbers are different. -/
theorem exists_boundMessage_iff (hsorted : ImportSorted files)
    (hnames : (files.flatMap FileDescriptor.allNames).Nodup) {d : Declared MessageDescriptor}
    (contents : Contents) (hf : files[d.file]? = some f) :
    (∃ m, BoundMessage (Symbols.ofFiles files) d m ∧ m.contents = contents) ↔
      (d.body.fields.map (·.number)).Nodup ∧
        ∀ fd ∈ d.body.fields, ValidAlone files f d.fullName d.body fd := by
  simp only [← exists_bound_iff hsorted hnames hf, ← exists_forall₂_iff]
  constructor
  · rintro ⟨m, h, -⟩
    exact ⟨(nodup_numbers_iff h.fields).1 h.distinct, m.fields, h.fields⟩
  · rintro ⟨hdistinct, fields, hfields⟩
    exact ⟨⟨d.name, d.fullName, d.file, d.parent, fields,
        fillOneofs d.body.oneofNames (fields.map (·.oneof)), contents, d.body.isMapEntry⟩,
      ⟨rfl, rfl, rfl, rfl, hfields, (nodup_numbers_iff hfields).2 hdistinct, rfl, rfl⟩, rfl⟩

end Files

/-! ## Map entries -/

section Entries

/-- **A bound message is an entry exactly when its descriptor is one.** -/
theorem exists_mapEntry_iff {t : Symbols} {d : Declared MessageDescriptor} {m : Message}
    (h : BoundMessage t d m) {target : MessageId} :
    (∃ map, m.mapEntry target = .ok map) ↔ ValidEntry d.body := by
  simp only [mapEntry_eq_ok_iff h.distinct]
  constructor
  · rintro ⟨map, key, value, kind, hentry, -⟩
    obtain ⟨i, hi⟩ := List.mem_iff_getElem?.1 hentry.key_mem
    obtain ⟨j, hj⟩ := List.mem_iff_getElem?.1 hentry.value_mem
    obtain ⟨keyFd, hkeyFd, hkey⟩ := forall₂_getElem?_right h.fields hi
    obtain ⟨valueFd, hvalueFd, hvalue⟩ := forall₂_getElem?_right h.fields hj
    have hkeyType := hkey.type
    rw [hentry.key_type] at hkeyType
    refine ⟨h.fields.length_eq.trans hentry.length_eq,
      ⟨keyFd, List.mem_of_getElem? hkeyFd, ?_, ?_, kind, ?_, hentry.isMapKey⟩,
      valueFd, List.mem_of_getElem? hvalueFd, ?_, ?_⟩
    · rw [hkey.number, hentry.key_number]
      rfl
    · rw [ne_eq, hkey.label_iff, hentry.key_singular]
      exact Bool.false_ne_true
    · cases hkeyType with
      | scalar hkind => exact hkind
    · rw [hvalue.number, hentry.value_number]
      rfl
    · rw [ne_eq, hvalue.label_iff, hentry.value_singular]
      exact Bool.false_ne_true
  · rintro ⟨hlength, ⟨keyFd, hkeyFd, hkeyNumber, hkeyLabel, kind, hkind, hmapKey⟩,
      valueFd, hvalueFd, hvalueNumber, hvalueLabel⟩
    obtain ⟨i, hi⟩ := List.mem_iff_getElem?.1 hkeyFd
    obtain ⟨j, hj⟩ := List.mem_iff_getElem?.1 hvalueFd
    obtain ⟨key, hkeyMem, hkey⟩ := forall₂_getElem?_left h.fields hi
    obtain ⟨value, hvalueMem, hvalue⟩ := forall₂_getElem?_left h.fields hj
    refine ⟨_, key, value, kind, ⟨h.fields.length_eq.symm.trans hlength,
      List.mem_of_getElem? hkeyMem, List.mem_of_getElem? hvalueMem, ?_, ?_, ?_, ?_,
      hkey.type.unique (.scalar hkind), hmapKey⟩, rfl⟩
    · have := hkey.number
      omega
    · have := hvalue.number
      omega
    · exact Bool.eq_false_iff.2 (mt hkey.label_iff.2 hkeyLabel)
    · exact Bool.eq_false_iff.2 (mt hvalue.label_iff.2 hvalueLabel)

/-- A field has its map attached exactly when it is repeated and its message is an entry, if that is
marked as one. -/
theorem exists_attached_iff {messages : List Message} {field : Field} :
    (∃ field', Attached messages field field') ↔
      ∀ target entry, field.type = .message target → messages[target]? = some entry →
        entry.isMapEntry = true →
        field.isRepeated = true ∧ ∃ map, entry.mapEntry target = .ok map := by
  constructor
  · rintro ⟨field', h⟩ target entry htype hentry hisMapEntry
    cases h with
    | plain hplain =>
      rw [hplain target entry htype hentry] at hisMapEntry
      exact absurd hisMapEntry Bool.false_ne_true
    | map htype' hentry' _ hrepeated hmap =>
      obtain rfl := FieldType.message.inj (htype.symm.trans htype')
      obtain rfl := Option.some.inj (hentry.symm.trans hentry')
      exact ⟨hrepeated, _, hmap⟩
  · intro h
    by_cases hmap : ∃ target entry, field.type = .message target ∧
        messages[target]? = some entry ∧ entry.isMapEntry = true
    · obtain ⟨target, entry, htype, hentry, hisMapEntry⟩ := hmap
      obtain ⟨hrepeated, map, hmap⟩ := h target entry htype hentry hisMapEntry
      exact ⟨_, .map htype hentry hisMapEntry hrepeated hmap⟩
    · refine ⟨field, .plain fun target entry htype hentry => Bool.eq_false_iff.2 fun his => ?_⟩
      exact hmap ⟨target, entry, htype, hentry, his⟩

variable {files : List FileDescriptor} {f : FileDescriptor}

/-- **A bound field has its map attached exactly when its descriptor allows it.** -/
theorem Bound.exists_attached_iff (hsorted : ImportSorted files)
    (hnames : (files.flatMap FileDescriptor.allNames).Nodup) {bound : List Message}
    (hbound : List.Forall₂ (BoundMessage (Symbols.ofFiles files)) (messagesOf (declarations files))
      bound)
    {d : Declared MessageDescriptor} (hf : files[d.file]? = some f) {fd : FieldDescriptor}
    {field : Field} (h : Bound (Symbols.ofFiles files) d fd field) :
    (∃ field', Attached bound field field') ↔
      ∀ entry, Holds files f d.fullName fd (.message entry) → entry.isMapEntry = true →
        fd.label.toInt = 3 ∧ ValidEntry entry := by
  rw [Schema.exists_attached_iff]
  constructor
  · intro hall entry hholds hisMapEntry
    obtain ⟨type, htype, hmeans⟩ := (exists_holdsType_iff hsorted hnames hf).2 hholds
    obtain rfl := h.type.unique htype
    generalize htype' : field.type = type at hmeans
    cases hmeans with
    | @message target d' hd' =>
      obtain ⟨m, hm, hboundMessage⟩ := forall₂_getElem?_left hbound hd'
      obtain ⟨hrepeated, hmap⟩ := hall target m htype' hm
        (hboundMessage.isMapEntry.trans hisMapEntry)
      exact ⟨h.label_iff.2 hrepeated, (exists_mapEntry_iff hboundMessage).1 hmap⟩
  · intro hall target m htype hm hisMapEntry
    obtain ⟨d', hd', hboundMessage⟩ := forall₂_getElem?_right hbound hm
    have hholds : Holds files f d.fullName fd (.message d'.body) :=
      (exists_holdsType_iff hsorted hnames hf).1 ⟨_, h.type, htype ▸ .message hd'⟩
    obtain ⟨hlabel, hentry⟩ := hall d'.body hholds
      (hboundMessage.isMapEntry.symm.trans hisMapEntry)
    exact ⟨h.label_iff.1 hlabel, (exists_mapEntry_iff hboundMessage).2 hentry⟩

end Entries

/-! ## Files -/

section Files

variable {files : List FileDescriptor}

/-- What is valid of all messages that are declared is valid of all messages of all files. -/
theorem forall_messagesOf_iff {P : FileDescriptor → String → MessageDescriptor → Prop} :
    (∀ d ∈ messagesOf (declarations files), ∀ f, files[d.file]? = some f →
      P f d.fullName d.body) ↔ ∀ f ∈ files, ∀ m ∈ f.allMessages, P f m.1 m.2 := by
  constructor
  · intro h f hf m hm
    obtain ⟨n, hn⟩ := List.mem_iff_getElem?.1 hf
    obtain ⟨d, hd, rfl, rfl⟩ := exists_mem_messagesOf hn hm
    exact h d hd f hn
  · intro h d hd f hf
    obtain ⟨-, g, hg, hm⟩ := mem_allMessages hd
    obtain rfl := Option.some.inj (hf.symm.trans hg)
    exact h f (List.mem_of_getElem? hf) _ hm

/-- **Files that come after what they import resolve** exactly when what they declare has no fault
and all their messages are valid. -/
theorem exists_resolveOrdered_iff (hsorted : ImportSorted files) :
    (∃ s, resolveOrdered files = .ok s) ↔
      (∀ f ∈ files, f.dialect = understoodDialect ∧ ∀ e ∈ f.allEnums, e.2.values ≠ []) ∧
        (files.flatMap FileDescriptor.allNames).Nodup ∧
        ∀ f ∈ files, ∀ m ∈ f.allMessages, ValidMessage files f m.1 m.2 := by
  simp only [resolveOrdered_eq_ok_iff]
  constructor
  · rintro ⟨s, bound, h⟩
    obtain ⟨hfiles, hnames⟩ := checkDeclarations_eq_ok_iff.1 h.check
    refine ⟨hfiles, hnames, forall_messagesOf_iff.1 fun d hd f hf => ?_⟩
    obtain ⟨id, hid⟩ := List.mem_iff_getElem?.1 hd
    obtain ⟨m, hm, hbound⟩ := forall₂_getElem?_left h.binds hid
    obtain ⟨m', -, hattached⟩ := forall₂_getElem?_left h.attached hm
    obtain ⟨hnumbers, halone⟩ := (exists_boundMessage_iff hsorted hnames _ hf).1
      ⟨m, hbound, rfl⟩
    refine ⟨hnumbers, fun fd hfd => ⟨halone fd hfd, ?_⟩⟩
    obtain ⟨k, hk⟩ := List.mem_iff_getElem?.1 hfd
    obtain ⟨field, hfield, hboundField⟩ := forall₂_getElem?_left hbound.fields hk
    obtain ⟨field', -, hattachedField⟩ := forall₂_getElem?_left hattached.fields hfield
    exact (hboundField.exists_attached_iff hsorted hnames h.binds hf).1 ⟨field', hattachedField⟩
  · rintro ⟨hfiles, hnames, hmessages⟩
    have hvalid := forall_messagesOf_iff.2 hmessages
    have hbinds : ∀ d ∈ (messagesOf (declarations files)).zip (messageContents files),
        ∃ m, BoundMessage (Symbols.ofFiles files) d.1 m ∧ m.contents = d.2 := fun d hmem => by
      have hd := (List.of_mem_zip hmem).1
      obtain ⟨-, f, hf, -⟩ := mem_allMessages hd
      have hmessage := hvalid d.1 hd f hf
      exact (exists_boundMessage_iff hsorted hnames d.2 hf).2
        ⟨hmessage.numbers, fun fd hfd => (hmessage.fields fd hfd).toValidAlone⟩
    obtain ⟨bound, hpairs⟩ := exists_forall₂_iff.2 hbinds
    obtain ⟨hbound, hcontents⟩ := (forall₂_zip_iff length_messageContents).1 hpairs
    obtain ⟨messages, hattached⟩ := (exists_forall₂_iff (R := AttachedMessage bound)).2
        fun m hm => by
      obtain ⟨id, hid⟩ := List.mem_iff_getElem?.1 hm
      obtain ⟨d, hd, hboundMessage⟩ := forall₂_getElem?_right hbound hid
      obtain ⟨-, f, hf, -⟩ := mem_allMessages (List.mem_of_getElem? hd)
      obtain ⟨fields, hfields⟩ := exists_forall₂_iff.2 fun field hfield => by
        obtain ⟨k, hk⟩ := List.mem_iff_getElem?.1 hfield
        obtain ⟨fd, hfd, hboundField⟩ := forall₂_getElem?_right hboundMessage.fields hk
        exact (hboundField.exists_attached_iff hsorted hnames hbound hf).2
          ((hvalid d (List.mem_of_getElem? hd) f hf).fields fd (List.mem_of_getElem? hfd)).entry
      exact ⟨{ m with fields }, rfl, hfields⟩
    exact ⟨⟨_, messages, _⟩, bound, checkDeclarations_eq_ok_iff.2 ⟨hfiles, hnames⟩, hbound,
      hcontents, hattached, rfl, rfl⟩

/-- **Files resolve exactly when they are valid.** -/
theorem exists_resolve_iff_valid : (∃ s, resolve files = .ok s) ↔ Valid files := by
  constructor
  · rintro ⟨s, h⟩
    obtain ⟨order, horder, hs⟩ := bind_eq_ok_iff.1 h
    obtain ⟨hperm, hsorted⟩ := importOrder_eq_ok horder
    obtain ⟨hnames, hsupplied, hacyclic⟩ := importOrder_isOk_iff.1 ⟨order, horder⟩
    obtain ⟨hfiles, hfullNames, hmessages⟩ := (exists_resolveOrdered_iff hsorted).1 ⟨s, hs⟩
    have hmem : ∀ f ∈ files, f ∈ order := fun f hf => hperm.mem_iff.2 hf
    exact
      { fileNames := hnames
        supplied := hsupplied
        acyclic := hacyclic
        dialect := fun f hf => (hfiles f (hmem f hf)).1
        enums := fun f hf => (hfiles f (hmem f hf)).2
        fullNames := (hperm.flatMap_right _).nodup_iff.1 hfullNames
        messages := fun f hf m hm =>
          (hmessages f (hmem f hf) m hm).congr fun _ => hperm.mem_iff }
  · intro h
    obtain ⟨order, horder⟩ := importOrder_isOk_iff.2 ⟨h.fileNames, h.supplied, h.acyclic⟩
    obtain ⟨hperm, hsorted⟩ := importOrder_eq_ok horder
    have hvalid := h.perm hperm.symm
    obtain ⟨s, hs⟩ := (exists_resolveOrdered_iff hsorted).2
      ⟨fun f hf => ⟨hvalid.dialect f hf, hvalid.enums f hf⟩, hvalid.fullNames, hvalid.messages⟩
    exact ⟨s, bind_eq_ok_iff.2 ⟨order, horder, hs⟩⟩

end Files

end Protowire.Schema
