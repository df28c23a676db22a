import Protowire.Proofs.Codegen.StructFields

/-!
# Proofs/Codegen/NamedTypes — the types that code names are written out, those inside entries apart

The code of a message names types: those of its fields, of the values of its maps, of the members of
its oneofs, and the enums its accessors return (`Schema.Message.Names`).  What is written out stands
in the modules of the messages around it (`Site.standsIn_messageItems`, `Site.standsIn_enumCode`):
the way to it goes **down one message after the other**, and none of these may be the entry of a
map, as an entry has no code and nothing inside it has any.

Names are looked up with no regard to where they lead.  What stands inside an entry may be named
from anywhere, and the entry itself is named by a map field in a oneof.  These are the only types
that are named and not written out (`Schema.Message.Names.not_writtenOut_iff`), and they do occur.
-/

namespace Protowire

open Schema

/-! ## What is written out -/

namespace Schema

/-- The entry of a map is among the messages around what is declared in `parent`. -/
def InEntry (s : Schema) (parent : Option MessageId) : Prop :=
  ∃ id ∈ s.ancestors parent, ∃ m, s.messages[id]? = some m ∧ m.isMapEntry = true

namespace Symbol

variable (s : Schema)

/-- The message a symbol is declared in. -/
def parent : Symbol → Option MessageId
  | message id => (s.messages[id]?).bind (·.parent)
  | enumeration id => (s.enums[id]?).bind (·.parent)

/-- The symbol is the entry of a map. -/
def IsEntry : Symbol → Prop
  | message id => ∃ m, s.messages[id]? = some m ∧ m.isMapEntry = true
  | enumeration _ => False

/-- The symbol is declared inside the entry of a map. -/
def InEntry (symbol : Symbol) : Prop :=
  s.InEntry (symbol.parent s)

/-- The symbol is written out: it is no entry of a map, and not inside one. -/
def WrittenOut (symbol : Symbol) : Prop :=
  ¬ symbol.IsEntry s ∧ ¬ symbol.InEntry s

end Symbol

/-- The code of a message names a type: that of a field, of the values of a map, of a member of a
oneof, or the enum that an accessor returns. -/
inductive Message.Names (m : Message) : Symbol → Prop where
  | field {f : Field} {id : MessageId} (hf : f ∈ m.fields) (honeof : f.oneof = none)
      (hmap : f.map = none) (htype : f.type = .message id) : Names m (.message id)
  | mapValue {f : Field} {map : MapEntry} {id : MessageId} (hf : f ∈ m.fields)
      (honeof : f.oneof = none) (hmap : f.map = some map) (hvalue : map.value = .message id) :
      Names m (.message id)
  | member {f : Field} {k : Nat} {id : MessageId} (hf : f ∈ m.fields) (honeof : f.oneof = some k)
      (htype : f.type = .message id) : Names m (.message id)
  | accessor {f : Field} {id : EnumId} (hf : f ∈ m.fields) (honeof : f.oneof = none)
      (hsingular : f.isRepeated = false) (htype : f.type = .enumeration id) :
      Names m (.enumeration id)

/-- The symbol is the entry of a map field of the message, and the field is in a oneof. -/
def Message.HoldsMapInOneof (m : Message) (symbol : Symbol) : Prop :=
  ∃ f ∈ m.fields, f.map.isSome = true ∧ f.oneof.isSome = true ∧
    ∃ id, f.type = .message id ∧ symbol = .message id

theorem isMapEntry_message_iff {s : Schema} {id : MessageId} :
    (FieldType.message id).IsMapEntry s ↔ (Symbol.message id).IsEntry s := by
  refine ⟨?_, fun ⟨m, hm, hentry⟩ => ⟨id, m, rfl, hm, hentry⟩⟩
  rintro ⟨id', m, hid, hm, hentry⟩
  obtain rfl := FieldType.message.inj hid
  exact ⟨m, hm, hentry⟩

/-- **Of the named types only those of map fields in oneofs are entries**: elsewhere a field whose
type is an entry shows what it maps to, which is none. -/
theorem Message.Names.isEntry_iff {s : Schema} {m : Message} {symbol : Symbol}
    (hfields : ∀ f ∈ m.fields, CoherentField s f) (hnames : m.Names symbol) :
    symbol.IsEntry s ↔ m.HoldsMapInOneof symbol := by
  constructor
  · intro hentry
    cases hnames with
    | field hf _ hmap htype =>
      have hsome := (hfields _ hf).isMap.2 (htype ▸ isMapEntry_message_iff.2 hentry)
      exact absurd (hmap ▸ hsome) nofun
    | mapValue hf _ hmap hvalue =>
      have hnot := ((hfields _ hf).map _ hmap).value
      exact absurd (hvalue ▸ isMapEntry_message_iff.2 hentry) hnot
    | member hf honeof htype =>
      have hsome := (hfields _ hf).isMap.2 (htype ▸ isMapEntry_message_iff.2 hentry)
      exact ⟨_, hf, hsome, honeof ▸ rfl, _, htype, rfl⟩
    | accessor => exact hentry.elim
  · rintro ⟨f, hf, hmap, -, id, htype, rfl⟩
    exact isMapEntry_message_iff.1 (htype ▸ (hfields f hf).isMap.1 hmap)

/-- **A named type that is not written out** is inside an entry, or it is the entry of a map field
in a oneof. -/
theorem Message.Names.not_writtenOut_iff {s : Schema} {m : Message} {symbol : Symbol}
    (hfields : ∀ f ∈ m.fields, CoherentField s f) (hnames : m.Names symbol) :
    ¬ symbol.WrittenOut s ↔ symbol.InEntry s ∨ m.HoldsMapInOneof symbol := by
  rw [Symbol.WrittenOut, not_and_or, not_not, not_not, hnames.isEntry_iff hfields, or_comm]

section Ancestors

variable {s : Schema} {p : MessageId} {m : Message}

/-- Around what is declared in a message are the message and what is around it. -/
theorem ancestors_some (h : Coherent s) (hm : s.messages[p]? = some m) :
    s.ancestors (some p) = s.ancestors m.parent ++ [p] := by
  cases hparent : m.parent with
  | none => rw [ancestors, Option.elim_some, enclosing_of_parent_eq_none hm hparent]; rfl
  | some q =>
    rw [ancestors, Option.elim_some,
      enclosing_of_parent_eq_some hm hparent ((h.messages p m hm).parent_lt q hparent),
      List.reverse_cons]
    rfl

theorem not_inEntry_none : ¬ s.InEntry none := by
  rintro ⟨id, hid, -⟩
  exact absurd hid List.not_mem_nil

/-- What is declared in a message is inside an entry when the message is one or is inside one. -/
theorem inEntry_some_iff (h : Coherent s) (hm : s.messages[p]? = some m) :
    s.InEntry (some p) ↔ m.isMapEntry = true ∨ s.InEntry m.parent := by
  rw [InEntry, ancestors_some h hm]
  simp only [List.mem_append, List.mem_singleton, or_and_right, exists_or, InEntry]
  rw [or_comm]
  refine or_congr_left ⟨?_, fun hentry => ⟨p, rfl, m, hm, hentry⟩⟩
  rintro ⟨id, rfl, m', hm', hentry⟩
  exact Option.some.inj (hm.symm.trans hm') ▸ hentry

end Ancestors

end Schema

/-! ## Where it stands -/

/-- An item stands among items, in modules one inside the other. -/
inductive StandsIn : List (List Code) → List String → List Code → Prop where
  | here {items : List (List Code)} {item : List Code} (h : item ∈ items) : StandsIn items [] item
  | inside {items inner : List (List Code)} {comment module : String} {modules : List String}
      {item : List Code}
      (h : .line comment :: Code.braces ("pub mod " ++ module) (Code.items inner) ∈ items)
      (hinner : StandsIn inner modules item) : StandsIn items (module :: modules) item

/-- An item of the innermost module stands one module further down. -/
theorem StandsIn.snoc {items inner : List (List Code)} {comment module : String}
    {modules : List String} {item : List Code}
    (h : StandsIn items modules
      (.line comment :: Code.braces ("pub mod " ++ module) (Code.items inner)))
    (hitem : item ∈ inner) : StandsIn items (modules ++ [module]) item := by
  generalize hmodule : Code.line comment :: Code.braces ("pub mod " ++ module) (Code.items inner) =
    moduleItem at h
  induction h with
  | here hmem =>
    subst hmodule
    exact .inside hmem (.here hitem)
  | inside hmem _ ih => exact .inside hmem (ih hmodule)

namespace Site

/-- Where what is declared in `parent` stands in its file. -/
def placeOf (s : Schema) (config : Config) (file : FileId) (parent : Option MessageId) : Site :=
  ⟨s, config, file, modulesOf ⟨s, config, file, []⟩ parent⟩

section Stands

variable {s : Schema} {config : Config}

/-- What is declared in a message stands in the module of the message. -/
theorem placeOf_some (h : Coherent s) (file : FileId) {p : MessageId} {m : Schema.Message}
    (hm : s.messages[p]? = some m) :
    placeOf s config file (some p) =
      (placeOf s config file m.parent).enter (Naming.moduleIdent m.name) := by
  have hmodules : modulesOf ⟨s, config, file, []⟩ (some p) =
      modulesOf ⟨s, config, file, []⟩ m.parent ++ [Naming.moduleIdent m.name] := by
    rw [modulesOf, ancestors_some h hm, List.filterMap_append]
    simp [modulesOf, hm]
  rw [placeOf, hmodules]
  rfl

/-- What is inside a message is in its module. -/
theorem exists_moduleItem {site : Site} {id : MessageId} {m : Schema.Message}
    (hm : site.schema.messages[id]? = some m) (hentry : m.isMapEntry = false) {item : List Code}
    (hitem : item ∈ site.innerItems id m) :
    ∃ comment, .line comment :: Code.braces ("pub mod " ++ Naming.moduleIdent m.name)
      (Code.items (site.innerItems id m)) ∈ site.messageItems id := by
  rw [messageItems_eq hm hentry, moduleItem?, if_neg]
  · exact ⟨_, List.mem_append_right _ (List.mem_singleton_self _)⟩
  · rw [List.isEmpty_iff]
    exact List.ne_nil_of_mem hitem

/-- The items inside a message stand in its module when its own items stand where it is declared. -/
theorem standsIn_innerItems (h : Coherent s) {items : List (List Code)} {file : FileId}
    {p : MessageId} {m : Schema.Message} (hm : s.messages[p]? = some m)
    (hentry : m.isMapEntry = false)
    (hstands : ∀ item ∈ (placeOf s config file m.parent).messageItems p,
      StandsIn items (placeOf s config file m.parent).modules item)
    {item : List Code} (hitem : item ∈ (placeOf s config file m.parent).innerItems p m) :
    StandsIn items (placeOf s config file (some p)).modules item := by
  rw [placeOf_some h file hm]
  obtain ⟨comment, hmodule⟩ := exists_moduleItem hm hentry hitem
  exact (hstands _ hmodule).snoc hitem

/-- **The items of a message stand in the modules of the messages around it**, if none of these is
the entry of a map. -/
theorem standsIn_messageItems (h : Coherent s) {id : MessageId} {m : Schema.Message}
    (hm : s.messages[id]? = some m) (hout : ¬ s.InEntry m.parent) {item : List Code}
    (hitem : item ∈ (placeOf s config m.file m.parent).messageItems id) :
    StandsIn (CodeFile.fileItems ⟨s, config, m.file, []⟩) (placeOf s config m.file m.parent).modules
      item := by
  induction id using Nat.strongRecOn generalizing m item with
  | ind id ih =>
    cases hparent : m.parent with
    | none =>
      rw [hparent] at hitem
      refine .here (List.mem_append_left _ (List.mem_flatMap.2 ⟨id, ?_, hitem⟩))
      exact h.mem_topMessages.2 ⟨m, hm, rfl, hparent⟩
    | some p =>
      have hlt : p < id := (h.messages id m hm).parent_lt p hparent
      obtain ⟨q, hq, hfile, -⟩ := (h.messages id m hm).nested p hparent
      rw [hparent, inEntry_some_iff h hq, not_or] at hout
      rw [hparent, placeOf_some h m.file hq] at hitem
      rw [← hfile] at hitem ⊢
      refine standsIn_innerItems h hq (Bool.eq_false_iff.2 hout.1)
        (fun item hitem => ih p hlt hq hout.2 hitem) ?_
      refine List.mem_append_left _ (List.mem_append_left _ (List.mem_flatMap.2 ⟨id, ?_, hitem⟩))
      exact h.mem_messagesInside.2 ⟨m, hm, hparent⟩

/-- **The items of an enum stand in the modules of the messages around it**, if none of these is the
entry of a map. -/
theorem standsIn_enumCode (h : Coherent s) {id : EnumId} {e : Schema.Enum}
    (he : s.enums[id]? = some e) (hout : ¬ s.InEntry e.parent) {item : List Code}
    (hitem : item ∈ e.code) :
    StandsIn (CodeFile.fileItems ⟨s, config, e.file, []⟩) (placeOf s config e.file e.parent).modules
      item := by
  have henum (site : Site) (hsite : site.schema = s) {ids : List EnumId} (hid : id ∈ ids) :
      item ∈ site.enumItems ids := by
    subst hsite
    exact List.mem_flatMap.2 ⟨id, hid, by rw [he]; exact hitem⟩
  cases hparent : e.parent with
  | none =>
    refine .here (List.mem_append_right _ (henum _ rfl ?_))
    exact h.mem_topEnums.2 ⟨e, he, rfl, hparent⟩
  | some p =>
    obtain ⟨q, hq, hfile, -⟩ := (h.enums id e he).nested p hparent
    rw [hparent, inEntry_some_iff h hq, not_or] at hout
    rw [← hfile]
    refine standsIn_innerItems h hq (Bool.eq_false_iff.2 hout.1)
      (fun item hitem => standsIn_messageItems h hq hout.2 hitem) ?_
    refine List.mem_append_left _ (List.mem_append_right _ (henum _ rfl ?_))
    exact h.mem_enumsInside.2 ⟨e, he, hparent⟩

end Stands

end Site

/-! ## Where it is named -/

namespace Code

/-- A line of code has a text in it. -/
inductive Shows (text : String) : List Code → Prop where
  | line {code : List Code} {whole : String} (h : .line whole ∈ code)
      (hpart : text.toList <:+: whole.toList) : Shows text code
  | nest {code body : List Code} (h : .nest body ∈ code) (hbody : Shows text body) :
      Shows text code

variable {text : String}

theorem Shows.mono {code code' : List Code} (h : Shows text code) (hsub : code ⊆ code') :
    Shows text code' := by
  cases h with
  | line h hpart => exact .line (hsub h) hpart
  | nest h hbody => exact .nest (hsub h) hbody

theorem Shows.braces {body : List Code} (opening : String) (h : Shows text body) :
    Shows text (Code.braces opening body) :=
  .nest (by simp [Code.braces]) h

theorem subset_items {parts : List (List Code)} {part : List Code} (h : part ∈ parts) :
    part ⊆ Code.items parts := by
  induction parts with
  | nil => exact absurd h List.not_mem_nil
  | cons first parts ih =>
    cases parts with
    | nil =>
      obtain rfl := List.mem_singleton.1 h
      rw [items, List.intercalate_singleton]
      exact List.Subset.refl part
    | cons second parts =>
      rw [items, List.intercalate_cons_cons]
      rcases List.mem_cons.1 h with rfl | h
      · exact fun c hc => List.mem_append_left _ (List.mem_append_left _ hc)
      · exact fun c hc => List.mem_append_right _ (ih h hc)

theorem Shows.items {parts : List (List Code)} {part : List Code} (h : Shows text part)
    (hpart : part ∈ parts) : Shows text (Code.items parts) :=
  h.mono (subset_items hpart)

end Code

namespace Site

section Shown

variable {site : Site} {owner : MessageId} {m : Schema.Message} {f : Schema.Field} {id : MessageId}

theorem infix_boxedType (htype : f.type = .message id) :
    (site.messagePath id).toList <:+: (site.boxedType owner f).toList := by
  rw [boxedType, htype, valueType]
  split
  · simp only [String.toList_append]
    exact List.infix_append ..
  · exact List.infix_refl _

theorem infix_fieldType (hmap : f.map = none) (htype : f.type = .message id) :
    (site.messagePath id).toList <:+: (site.fieldType owner f).toList := by
  rw [fieldType, hmap]
  simp only [htype]
  split
  · simp only [valueType, String.toList_append]
    exact List.infix_append ..
  · simp only [String.toList_append]
    exact (infix_boxedType htype).trans (List.infix_append ..)

theorem infix_mapType {map : MapEntry} (hmap : f.map = some map)
    (hvalue : map.value = .message id) :
    (site.messagePath id).toList <:+: (site.fieldType owner f).toList := by
  rw [fieldType, hmap]
  simp only [hvalue, valueType, toString, String.toList_append]
  exact List.infix_append ..

/-- The struct shows the type of a field outside oneofs. -/
theorem shows_structItem {text : String} (hf : f ∈ m.fields) (honeof : f.oneof = none)
    (htype : text.toList <:+: (site.fieldType owner f).toList) :
    Code.Shows text (site.structItem owner m) := by
  have hline : Code.Shows text
      [.line s!"pub {Naming.fieldIdent f.name}: {site.fieldType owner f},"] := by
    refine .line List.mem_cons_self ?_
    simp only [toString, String.toList_append]
    exact htype.trans (List.infix_append ..)
  rw [structItem]
  refine (Code.Shows.braces _ (hline.mono ?_)).mono (List.subset_cons_self _ _)
  refine List.cons_subset.2 ⟨List.mem_append_left _ (List.mem_map.2 ⟨f, ?_, rfl⟩), ?_⟩
  · exact List.mem_filter.2 ⟨hf, honeof ▸ rfl⟩
  · exact List.nil_subset _

/-- The enum of a oneof shows the types of its members. -/
theorem shows_oneofItem (hlists : m.ListsMembers) {k : Nat} (name : String) (hf : f ∈ m.fields)
    (honeof : f.oneof = some k) (htype : f.type = .message id) :
    Code.Shows (site.messagePath id) (site.oneofItem owner m (name, k)) := by
  have hmember : f ∈ (m.oneofVariants k).map (·.1) := by
    rw [Message.oneofVariants, map_fst_nameMembers]
    exact hlists.mem_memberFields.2 ⟨hf, honeof⟩
  obtain ⟨variant, hvariant, rfl⟩ := List.mem_map.1 hmember
  have hline : Code.Shows (site.messagePath id)
      [Code.line s!"{variant.2}({site.boxedType owner variant.1}),"] := by
    refine .line List.mem_cons_self ?_
    simp only [toString, String.toList_append]
    exact (infix_boxedType htype).trans (List.infix_append ..)
  rw [oneofItem]
  refine (Code.Shows.braces _ (hline.mono ?_)).mono (List.subset_cons_self _ _)
  exact List.cons_subset.2 ⟨List.mem_map.2 ⟨variant, hvariant, rfl⟩, List.nil_subset _⟩

/-- An accessor shows the enum it returns. -/
theorem shows_accessor (eid : EnumId) : Code.Shows (site.enumPath eid) (site.accessor f eid) := by
  rw [accessor]
  refine (Code.Shows.braces _ (.line List.mem_cons_self ?_)).mono (List.subset_cons_self _ _)
  simp only [toString, String.toList_append, List.append_assoc]
  exact (List.prefix_append _ _).isInfix

/-- The path to a symbol. -/
def path (site : Site) : Symbol → String
  | .message id => site.messagePath id
  | .enumeration id => site.enumPath id

/-- **What the code of a message names is shown there**, by its path from the message or from inside
its module. -/
theorem exists_shows (hm : site.schema.messages[owner]? = some m) (hentry : m.isMapEntry = false)
    (hlists : m.ListsMembers) {symbol : Symbol} (hnames : m.Names symbol) :
    ∃ here, (here = site ∨ here = site.enter (Naming.moduleIdent m.name)) ∧
      ∃ item ∈ site.messageItems owner, Code.Shows (here.path symbol) item := by
  have hstruct := structItem_mem_messageItems hm hentry
  cases hnames with
  | field hf honeof hmap htype =>
    exact ⟨site, .inl rfl, _, hstruct, shows_structItem hf honeof (infix_fieldType hmap htype)⟩
  | mapValue hf honeof hmap hvalue =>
    exact ⟨site, .inl rfl, _, hstruct, shows_structItem hf honeof (infix_mapType hmap hvalue)⟩
  | @member f k id hf honeof htype =>
    let inner := site.enter (Naming.moduleIdent m.name)
    obtain ⟨oneof, hdecl⟩ : ∃ oneof, m.oneofs[k]? = some oneof :=
      ⟨_, List.getElem?_eq_getElem (hlists.oneof_lt hf honeof)⟩
    have hused := hlists.mem_usedOneofs.2 ⟨oneof, hdecl, rfl, f, hf, honeof⟩
    have hitem : inner.oneofItem owner m (oneof.name, k) ∈ site.innerItems owner m :=
      List.mem_append_right _ (List.mem_map_of_mem hused)
    obtain ⟨comment, hmodule⟩ := exists_moduleItem hm hentry hitem
    have hshows : Code.Shows (inner.messagePath id) (Code.items (site.innerItems owner m)) :=
      (shows_oneofItem hlists oneof.name hf honeof htype).items hitem
    exact ⟨inner, .inr rfl, _, hmodule, (hshows.braces _).mono (List.subset_cons_self _ _)⟩
  | @accessor f eid hf honeof hsingular htype =>
    have hitem : site.accessor f eid ∈ site.accessors m :=
      List.mem_filterMap.2 ⟨f, hf, by rw [htype, hsingular, honeof]⟩
    have haccessors : Code.braces ("impl " ++ Naming.typeIdent m.name)
        (Code.items (site.accessors m)) ∈ site.messageItems owner := by
      rw [messageItems_eq hm hentry, accessorItem?, if_neg]
      · simp
      · rw [List.isEmpty_iff]
        exact List.ne_nil_of_mem hitem
    exact ⟨site, .inl rfl, _, haccessors, ((shows_accessor eid).items hitem).braces _⟩

end Shown

end Site

/-! ## Named and written out -/

/-- The type of a symbol stands in its file, in the modules of the messages around it. -/
inductive Schema.Symbol.Stands (s : Schema) (config : Config) : Symbol → Prop where
  | message {id : MessageId} {m : Schema.Message} (hm : s.messages[id]? = some m)
      (h : StandsIn (CodeFile.fileItems ⟨s, config, m.file, []⟩)
        (Site.placeOf s config m.file m.parent).modules
        ((Site.placeOf s config m.file m.parent).structItem id m)) : Stands s config (.message id)
  | enumeration {id : EnumId} {e : Schema.Enum} (he : s.enums[id]? = some e)
      (h : StandsIn (CodeFile.fileItems ⟨s, config, e.file, []⟩)
        (Site.placeOf s config e.file e.parent).modules e.typeItem) :
      Stands s config (.enumeration id)

/-- **What becomes of a type that the code of a message names.**  Its path is shown in the items of
the message.  The type stands in its file if it is written out, and it is not written out just when
it is inside the entry of a map or is the entry of a map field in a oneof. -/
structure NamedType (s : Schema) (config : Config) (id : MessageId) (m : Schema.Message)
    (symbol : Symbol) : Prop where
  shown : ∃ here, (here = Site.placeOf s config m.file m.parent ∨
      here = (Site.placeOf s config m.file m.parent).enter (Naming.moduleIdent m.name)) ∧
    ∃ item ∈ (Site.placeOf s config m.file m.parent).messageItems id,
      Code.Shows (here.path symbol) item
  stands : symbol.WrittenOut s → symbol.Stands s config
  missing : ¬ symbol.WrittenOut s ↔ symbol.InEntry s ∨ m.HoldsMapInOneof symbol

namespace Schema

section Symbol

variable {s : Schema} {id : MessageId} {m : Message} {eid : EnumId} {e : Enum}

theorem writtenOut_message_iff (hm : s.messages[id]? = some m) :
    (Symbol.message id).WrittenOut s ↔ m.isMapEntry = false ∧ ¬ s.InEntry m.parent := by
  have hentry : (Symbol.message id).IsEntry s ↔ m.isMapEntry = true :=
    ⟨fun ⟨m', hm', h⟩ => Option.some.inj (hm.symm.trans hm') ▸ h, fun h => ⟨m, hm, h⟩⟩
  rw [Symbol.WrittenOut, hentry, Symbol.InEntry, Symbol.parent, hm, Option.bind_some,
    Bool.not_eq_true]

theorem writtenOut_enumeration_iff (he : s.enums[eid]? = some e) :
    (Symbol.enumeration eid).WrittenOut s ↔ ¬ s.InEntry e.parent := by
  rw [Symbol.WrittenOut, Symbol.InEntry, Symbol.parent, he, Option.bind_some]
  exact and_iff_right not_false

/-- A message that is written out stands in its file. -/
theorem stands_message (hcoherent : Coherent s) (hrange : (FieldType.message id).InRange s)
    (config : Config) (hout : (Symbol.message id).WrittenOut s) :
    (Symbol.message id).Stands s config := by
  cases hrange with
  | message hlt =>
    have hm := List.getElem?_eq_getElem hlt
    obtain ⟨hentry, hclear⟩ := (writtenOut_message_iff hm).1 hout
    refine .message hm (Site.standsIn_messageItems hcoherent hm hclear ?_)
    exact Site.structItem_mem_messageItems hm hentry

/-- An enum that is written out stands in its file. -/
theorem stands_enumeration (hcoherent : Coherent s) (hrange : (FieldType.enumeration eid).InRange s)
    (config : Config) (hout : (Symbol.enumeration eid).WrittenOut s) :
    (Symbol.enumeration eid).Stands s config := by
  cases hrange with
  | enumeration hlt =>
    have he := List.getElem?_eq_getElem hlt
    have hclear := (writtenOut_enumeration_iff he).1 hout
    exact .enumeration he (Site.standsIn_enumCode hcoherent he hclear List.mem_cons_self)

/-- **A named type that is written out stands in its file.** -/
theorem Message.Names.stands (hcoherent : Coherent s) (hfields : ∀ f ∈ m.fields, CoherentField s f)
    {symbol : Symbol} (hnames : m.Names symbol) (config : Config) (hout : symbol.WrittenOut s) :
    symbol.Stands s config := by
  cases hnames with
  | field hf _ _ htype => exact stands_message hcoherent (htype ▸ (hfields _ hf).type) config hout
  | mapValue hf _ hmap hvalue =>
    exact stands_message hcoherent (hvalue ▸ ((hfields _ hf).map _ hmap).valueInRange) config hout
  | member hf _ htype => exact stands_message hcoherent (htype ▸ (hfields _ hf).type) config hout
  | accessor hf _ _ htype =>
    exact stands_enumeration hcoherent (htype ▸ (hfields _ hf).type) config hout

end Symbol

end Schema

/-- **Types that code names are written out, those inside entries apart.**  In what files resolve
to, whatever the code of a message that is written out names by a path is written out too, in its
file and in the modules of the messages around it, unless it is declared inside the entry of a map
or is the entry of a map field in a oneof; and those are not. -/
theorem named_written_out_iff {files : List FileDescriptor} {s : Schema} (h : resolve files = .ok s)
    (config : Config) {id : MessageId} {m : Schema.Message} (hm : s.messages[id]? = some m)
    (hout : (Symbol.message id).WrittenOut s) {symbol : Symbol} (hnames : m.Names symbol) :
    NamedType s config id m symbol := by
  obtain ⟨order, bound, -, hsorted, hbound⟩ := exists_resolvesTo h
  have hcoherent : Coherent s := hbound.coherent hsorted
  have hfields := (hbound.coherentMessage hm).fields
  have hentry : m.isMapEntry = false := ((writtenOut_message_iff hm).1 hout).1
  exact
    { shown := Site.exists_shows hm hentry (hbound.listsMembers hm) hnames
      stands := hnames.stands hcoherent hfields config
      missing := hnames.not_writtenOut_iff hfields }

/-- The enum of a field of `atlas` is declared inside its message and is written out. -/
theorem named_written_out_iff_atlas : ∃ s m e, resolve [atlas] = .ok s ∧
    s.messages[0]? = some m ∧ (Symbol.message 0).WrittenOut s ∧ s.enums[0]? = some e ∧
    e.parent = some 0 ∧ m.Names (.enumeration 0) ∧ (Symbol.enumeration 0).WrittenOut s ∧
    NamedType s Config.standard 0 m (.enumeration 0) := by
  have horder : importOrder [atlas] = .ok [atlas] := by cbv
  obtain ⟨s, hresolve, hlook⟩ := exists_resolve_of_map_eq_ok
    (g := fun s => (s.messages[0]?, s.enums[0]?.map (·.parent)))
    (a := (some ⟨"Atlas", "geo.Atlas", 0, none,
      [⟨"pages", 3, .message 1, true, false, some ⟨1, .int32, .scalar .string⟩, none⟩,
        ⟨"scale", 1, .enumeration 0, false, false, none, none⟩], [], ⟨[1], [0]⟩, false⟩,
      some (some 0)))
    horder (by decide +kernel)
  obtain ⟨hm, henum⟩ := Prod.mk.inj hlook
  obtain ⟨e, he, hparent⟩ := Option.map_eq_some_iff.1 henum
  obtain ⟨order, bound, -, hsorted, hbound⟩ := exists_resolvesTo hresolve
  have hcoherent : Coherent s := hbound.coherent hsorted
  have hout : (Symbol.message 0).WrittenOut s :=
    (writtenOut_message_iff hm).2 ⟨rfl, not_inEntry_none⟩
  have henumOut : (Symbol.enumeration 0).WrittenOut s := by
    rw [writtenOut_enumeration_iff he, hparent, inEntry_some_iff hcoherent hm, not_or]
    exact ⟨Bool.false_ne_true, not_inEntry_none⟩
  have hnames (m : Schema.Message)
      (hf : ⟨"scale", 1, .enumeration 0, false, false, none, none⟩ ∈ m.fields) :
      m.Names (.enumeration 0) := .accessor hf rfl rfl rfl
  refine ⟨s, _, e, hresolve, hm, hout, he, hparent, ?_, henumOut, ?_⟩
  · exact hnames _ (by simp)
  · exact named_written_out_iff hresolve Config.standard hm hout (hnames _ (by simp))

/-- A file with a message that has a map and a field whose message is declared inside the entry of
the map. -/
def shelves : FileDescriptor where
  name := "shelves.proto"
  package := ""
  imports := []
  messages := [⟨"Shelf",
    [⟨"books", 1, 3, 11, "Shelf.BooksEntry", none, none, "books", false⟩,
      ⟨"first", 2, 1, 11, "Shelf.BooksEntry.Book", none, none, "first", false⟩],
    [⟨"BooksEntry", [⟨"key", 1, 1, 5, "", none, none, "key", false⟩,
      ⟨"value", 2, 1, 5, "", none, none, "value", false⟩], [⟨"Book", [], [], [], none, []⟩], [],
      some ⟨some true⟩, []⟩], [], none, []⟩]
  enums := []
  dialect := "proto3"

/-- The outer message of `shelves`. -/
def shelf : Schema.Message where
  name := "Shelf"
  fullName := "Shelf"
  file := 0
  parent := none
  fields := [⟨"books", 1, .message 1, true, false, some ⟨1, .int32, .scalar .int32⟩, none⟩,
    ⟨"first", 2, .message 2, false, false, none, none⟩]
  oneofs := []
  contents := ⟨[1], []⟩
  isMapEntry := false

/-- The messages of `shelves`: the outer one, the entry of its map, and the message inside that. -/
def shelvesMessages : List Schema.Message :=
  [shelf,
    ⟨"BooksEntry", "Shelf.BooksEntry", 0, some 0,
      [⟨"key", 1, .scalar .int32, false, false, none, none⟩,
        ⟨"value", 2, .scalar .int32, false, false, none, none⟩], [], ⟨[2], []⟩, true⟩,
    ⟨"Book", "Shelf.BooksEntry.Book", 0, some 1, [], [], ⟨[], []⟩, false⟩]

/-- **A message inside the entry of a map is named and not written out**: its path leads through two
modules, and the file has none. -/
theorem named_not_written_out : ∃ s, resolve [shelves] = .ok s ∧ s.messages[0]? = some shelf ∧
    (Symbol.message 0).WrittenOut s ∧ shelf.Names (.message 2) ∧
    ¬ (Symbol.message 2).WrittenOut s ∧
    Site.messagePath ⟨s, Config.standard, 0, []⟩ 2 = "shelf::books_entry::Book" ∧
    CodeFile.fileItems ⟨s, Config.standard, 0, []⟩ =
      [Site.structItem ⟨s, Config.standard, 0, []⟩ 0 shelf,
        Site.methodsItem ⟨s, Config.standard, 0, []⟩ 0 shelf] := by
  have horder : importOrder [shelves] = .ok [shelves] := by cbv
  obtain ⟨s, hresolve, hlook⟩ := exists_resolve_of_map_eq_ok
    (g := fun s => (s.messages, s.enums, s.contents (.file 0),
      Site.messagePath ⟨s, Config.standard, 0, []⟩ 2))
    (a := (shelvesMessages, [], ⟨[0], []⟩, "shelf::books_entry::Book")) horder (by decide +kernel)
  obtain ⟨hmessages, hlook⟩ := Prod.mk.inj hlook
  obtain ⟨henums, hlook⟩ := Prod.mk.inj hlook
  obtain ⟨htop, hpath⟩ := Prod.mk.inj hlook
  obtain ⟨order, bound, -, hsorted, hbound⟩ := exists_resolvesTo hresolve
  have hcoherent : Coherent s := hbound.coherent hsorted
  obtain ⟨files, messages, enums⟩ := s
  obtain rfl : messages = shelvesMessages := hmessages
  obtain rfl : enums = [] := henums
  have hshelf : shelvesMessages[0]? = some shelf := rfl
  have hentry : shelvesMessages[1]? = some _ := rfl
  have hbook : shelvesMessages[2]? = some _ := rfl
  refine ⟨_, hresolve, hshelf, ?_, ?_, ?_, hpath, ?_⟩
  · exact (writtenOut_message_iff hshelf).2 ⟨rfl, not_inEntry_none⟩
  · exact .field (List.mem_cons_of_mem _ List.mem_cons_self) rfl rfl rfl
  · rw [writtenOut_message_iff hbook, not_and_not_right]
    exact fun _ => (inEntry_some_iff hcoherent hentry).2 (.inl rfl)
  · let site : Site := ⟨⟨files, shelvesMessages, []⟩, Config.standard, 0, []⟩
    have hnested : (site.schema.messagesInside 0).flatMap
        (site.enter (Naming.moduleIdent "Shelf")).messageItems = [] :=
      (List.append_nil _).trans (Site.messageItems_of_isMapEntry hentry rfl)
    have hinner : site.innerItems 0 shelf = [] :=
      congrArg (· ++ [] ++ []) hnested
    have hfile : CodeFile.fileItems site = site.messageItems 0 := by
      rw [CodeFile.fileItems, topMessages, topEnums, htop]
      exact (List.append_nil _).trans (List.append_nil _)
    rw [hfile, Site.messageItems_eq hshelf rfl, hinner]
    rfl

end Protowire
