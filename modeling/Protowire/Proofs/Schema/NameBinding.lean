import Protowire.Proofs.Schema.Coherent
import Protowire.Proofs.Schema.Unresolved

/-!
# Proofs/Schema/NameBinding — a type name means the innermost thing that is seen

A type name stands in the scope of its message and in the scopes around that one (`Surrounds`).
Which full name it stands for depends only on which full names are seen (`StandsFor`): with a dot in
front it is that name, and otherwise the one in the longest scope in which anything is seen.  The
row of `candidates` lists the scopes by falling length, so the first hit is that one
(`standsFor_iff`).

In a schema every field refers to what its type name stands for, and a type name is only reported as
unresolved when it stands for nothing, or for a message where an enum is asked for or the other way
round (`ResolvesTo.boundByName`, `unfitName_of_bindType`).  What is declared out of sight has no
part in either.
-/

namespace Protowire.Schema

/-- The scopes a full name stands in: the name itself, what is in front of one of its dots, and the
root. -/
inductive Surrounds (scope : String) : String → Prop where
  | self : Surrounds scope scope
  | before {outer inner : String} (h : scope = outer ++ "." ++ inner) : Surrounds scope outer
  | root : Surrounds scope ""

/-- The full name a type name stands for in a scope, when some full names are seen. -/
inductive StandsFor (seen : String → Prop) (scope typeName : String) : String → Prop where
  | absolute {name : String} (hdot : typeName = "." ++ name) (hseen : seen name) :
      StandsFor seen scope typeName name
  | relative {outer : String} (hdot : ∀ name, typeName ≠ "." ++ name)
      (houter : Surrounds scope outer) (hseen : seen (qualify outer typeName))
      (hfirst : ∀ inner, Surrounds scope inner → outer.length < inner.length →
        ¬ seen (qualify inner typeName)) :
      StandsFor seen scope typeName (qualify outer typeName)

/-- A full name denotes something that the file sees. -/
def Visible (files : List FileDescriptor) (f : FileDescriptor) (fullName : String) : Prop :=
  ∃ meaning, Denotes files f fullName meaning

/-- The type of a field that holds what a symbol is. -/
def Symbol.type : Symbol → FieldType
  | message id => .message id
  | enumeration id => .enumeration id

/-- A type refers to a message or an enum of the schema, by its full name and the file it is
declared in. -/
inductive FieldType.Refers (s : Schema) : FieldType → String → FileDescriptor → Prop where
  | message {id : MessageId} {m : Message} {g : File} (hm : s.messages[id]? = some m)
      (hg : s.files[m.file]? = some g) : Refers s (.message id) m.fullName g.source
  | enumeration {id : EnumId} {e : Enum} {g : File} (he : s.enums[id]? = some e)
      (hg : s.files[e.file]? = some g) : Refers s (.enumeration id) e.fullName g.source

/-- A field of a message of `f` holds the scalar kind its descriptor gives, or refers to what its
type name stands for, in a file that `f` sees. -/
inductive BoundByName (files : List FileDescriptor) (s : Schema) (f : FileDescriptor)
    (scope : String) (fd : FieldDescriptor) : FieldType → Prop where
  | scalar {kind : Scalar} (h : fd.scalar? = some kind) :
      BoundByName files s f scope fd (.scalar kind)
  | named {type : FieldType} {name : String} {g : FileDescriptor} (hrefers : type.Refers s name g)
      (hg : g ∈ files) (hsees : Sees files f g)
      (hstands : StandsFor (Visible files f) scope fd.typeName name) :
      BoundByName files s f scope fd type

/-- The message of a schema and its descriptor, which is declared in `f`: they have the same fields,
bound by what is seen. -/
structure FieldsBoundByName (files : List FileDescriptor) (s : Schema) (m : Message)
    (f : FileDescriptor) (d : MessageDescriptor) : Prop where
  mem : f ∈ files
  file : ∃ g, s.files[m.file]? = some g ∧ g.source = f
  declared : (m.fullName, d) ∈ f.allMessages
  fields : List.Forall₂ (fun fd field => field.name = fd.name ∧
    BoundByName files s f m.fullName fd field.type) d.fields m.fields

/-- A type name for which nothing is seen that fits the type: nothing at all, or an enum where a
message is asked for, or a message where an enum is. -/
def UnfitName (files : List FileDescriptor) (f : FileDescriptor) (scope : String)
    (fd : FieldDescriptor) : Prop :=
  ∀ name, StandsFor (Visible files f) scope fd.typeName name →
    (fd.typeCode.toInt = 11 ∧ ∃ e, Denotes files f name (.enumeration e)) ∨
      (fd.typeCode.toInt = 14 ∧ ∃ m, Denotes files f name (.message m))

/-! ## Scopes by length -/

section Scopes

variable {scope outer typeName : String}

theorem mem_cuts {l x : List Char} : x ∈ cuts l ↔ x = l ∨ ∃ rest, l = x ++ '.' :: rest := by
  induction l generalizing x with
  | nil => simp [cuts]
  | cons c l ih =>
    have hinner : x ∈ (cuts l).map (c :: ·) ↔ ∃ y, (y = l ∨ ∃ rest, l = y ++ '.' :: rest) ∧
        c :: y = x := by
      simp only [List.mem_map, ih]
    have hcons : (x = c :: l ∨ ∃ rest, c :: l = x ++ '.' :: rest) ↔
        (c = '.' ∧ x = []) ∨ ∃ y, (y = l ∨ ∃ rest, l = y ++ '.' :: rest) ∧ c :: y = x := by
      cases x with
      | nil => simp
      | cons d x => simp; tauto
    rw [hcons, cuts]
    split
    · rename_i hdot
      rw [List.mem_cons, hinner, and_iff_right hdot]
    · rename_i hdot
      rw [hinner, or_iff_right fun h => hdot h.1]

/-- What is in front of the dots of a name gets longer. -/
theorem pairwise_cuts (l : List Char) : (cuts l).Pairwise fun x y => x.length < y.length := by
  induction l with
  | nil => exact List.pairwise_singleton _ _
  | cons c l ih =>
    have hinner : ((cuts l).map (c :: ·)).Pairwise fun x y => x.length < y.length :=
      List.pairwise_map.2 (ih.imp fun h => Nat.succ_lt_succ h)
    rw [cuts]
    split
    · refine List.pairwise_cons.2 ⟨fun y hy => ?_, hinner⟩
      obtain ⟨z, -, rfl⟩ := List.mem_map.1 hy
      exact Nat.succ_pos _
    · exact hinner

theorem mem_scopes : outer ∈ scopes scope ↔ Surrounds scope outer := by
  have hcut : outer.toList ∈ cuts scope.toList ↔
      outer = scope ∨ ∃ inner, scope = outer ++ "." ++ inner := by
    rw [mem_cuts, String.toList_inj]
    refine or_congr_right ⟨?_, ?_⟩
    · rintro ⟨rest, h⟩
      refine ⟨String.ofList rest, String.toList_inj.1 ?_⟩
      simp [h]
    · rintro ⟨inner, rfl⟩
      exact ⟨inner.toList, by simp⟩
  have hmem : outer ∈ scopes scope ↔ outer.toList ∈ cuts scope.toList ∨ outer = "" := by
    simp only [scopes, List.mem_map, List.mem_append, List.mem_reverse, List.mem_singleton]
    constructor
    · rintro ⟨x, hx, rfl⟩
      rcases hx with hx | rfl
      · exact .inl (by rwa [String.toList_ofList])
      · exact .inr rfl
    · rintro (h | rfl)
      · exact ⟨outer.toList, .inl h, String.ofList_toList⟩
      · exact ⟨[], .inr rfl, rfl⟩
  rw [hmem, hcut]
  constructor
  · rintro ((rfl | ⟨inner, h⟩) | rfl)
    · exact .self
    · exact .before h
    · exact .root
  · rintro (_ | h | _)
    · exact .inl (.inl rfl)
    · exact .inl (.inr ⟨_, h⟩)
    · exact .inr rfl

/-- **Scopes are tried by falling length.** -/
theorem pairwise_scopes (scope : String) :
    (scopes scope).Pairwise fun inner outer => outer.length ≤ inner.length := by
  refine List.pairwise_map.2 (List.pairwise_append.2 ⟨?_, List.pairwise_singleton _ _, ?_⟩)
  · exact List.pairwise_reverse.2 ((pairwise_cuts _).imp fun h => by simpa using h.le)
  · rintro x - y hy
    obtain rfl := List.mem_singleton.1 hy
    exact Nat.zero_le _

/-- A scope is an initial part of the name. -/
theorem Surrounds.isPrefix (h : Surrounds scope outer) : outer.toList <+: scope.toList := by
  cases h with
  | self => exact List.prefix_refl _
  | @before _ inner h => exact ⟨('.' :: inner.toList), by rw [h]; simp⟩
  | root => exact List.nil_prefix

/-- A name has one scope of a length. -/
theorem Surrounds.eq_of_length_eq {inner : String} (h : Surrounds scope outer)
    (h' : Surrounds scope inner) (hlength : outer.length = inner.length) : outer = inner := by
  rw [← String.length_toList, ← String.length_toList] at hlength
  exact String.toList_inj.1
    ((List.prefix_of_prefix_length_le h.isPrefix h'.isPrefix hlength.le).eq_of_length hlength)

end Scopes

/-! ## Type names -/

section Names

variable {seen : String → Prop} {scope typeName name : String}

theorem candidates_absolute (scope name : String) : candidates scope ("." ++ name) = [name] := by
  simp [candidates]

theorem candidates_relative (hdot : ∀ name, typeName ≠ "." ++ name) :
    candidates scope typeName = (scopes scope).map (qualify · typeName) := by
  rw [candidates]
  split
  · rename_i rest h
    refine absurd (String.toList_inj.1 ?_) (hdot (String.ofList rest))
    simp [h]
  · rfl

/-- **A type name stands for the first candidate that is seen.** -/
theorem standsFor_iff : StandsFor seen scope typeName name ↔
    ∃ before after, candidates scope typeName = before ++ name :: after ∧ seen name ∧
      ∀ other ∈ before, ¬ seen other := by
  constructor
  · rintro (⟨rfl, hseen⟩ | ⟨hdot, houter, hseen, hfirst⟩)
    · exact ⟨[], [], candidates_absolute scope name, hseen, fun _ h => absurd h List.not_mem_nil⟩
    · rename_i outer
      obtain ⟨before, after, hsplit, hnew⟩ := List.eq_append_cons_of_mem (mem_scopes.2 houter)
      have hsorted := pairwise_scopes scope
      rw [hsplit, List.pairwise_append] at hsorted
      refine ⟨before.map (qualify · typeName), after.map (qualify · typeName), ?_, hseen, ?_⟩
      · rw [candidates_relative hdot, hsplit, List.map_append, List.map_cons]
      · intro other hother
        obtain ⟨inner, hinner, rfl⟩ := List.mem_map.1 hother
        have hsurrounds : Surrounds scope inner :=
          mem_scopes.1 (hsplit ▸ List.mem_append_left _ hinner)
        have hle : outer.length ≤ inner.length := hsorted.2.2 inner hinner outer List.mem_cons_self
        refine hfirst inner hsurrounds (lt_of_le_of_ne hle fun heq => hnew ?_)
        rwa [houter.eq_of_length_eq hsurrounds heq]
  · rintro ⟨before, after, hsplit, hseen, hbefore⟩
    by_cases hdot : ∃ name, typeName = "." ++ name
    · obtain ⟨other, rfl⟩ := hdot
      rw [candidates_absolute] at hsplit
      have hmem : name ∈ [other] := hsplit ▸ List.mem_append_right before List.mem_cons_self
      obtain rfl := List.mem_singleton.1 hmem
      exact .absolute rfl hseen
    · rw [not_exists] at hdot
      rw [candidates_relative hdot, List.map_eq_append_iff] at hsplit
      obtain ⟨inside, rest, hscopes, rfl, hrest⟩ := hsplit
      obtain ⟨outer, outside, rfl, rfl, rfl⟩ := List.map_eq_cons_iff.1 hrest
      have hsorted := pairwise_scopes scope
      rw [hscopes, List.pairwise_append, List.pairwise_cons] at hsorted
      refine .relative hdot (mem_scopes.1 ?_) hseen fun inner hinner hlength => ?_
      · exact hscopes ▸ List.mem_append_right inside List.mem_cons_self
      · -- A longer scope cannot come behind this one.
        refine hbefore _ (List.mem_map_of_mem ?_)
        have hmem := mem_scopes.2 hinner
        rw [hscopes, List.mem_append, List.mem_cons] at hmem
        rcases hmem with hmem | rfl | hmem
        · exact hmem
        · exact absurd hlength (Nat.lt_irrefl _)
        · exact absurd hlength (hsorted.2.1.1 inner hmem).not_gt

/-- **What is found by the candidates is found under the name the type name stands for.** -/
theorem findSome?_candidates_eq_some_iff {α : Type} {g : String → Option α}
    (hseen : ∀ name, g name = none ↔ ¬ seen name) {x : α} :
    (candidates scope typeName).findSome? g = some x ↔
      ∃ name, StandsFor seen scope typeName name ∧ g name = some x := by
  simp only [List.findSome?_eq_some_iff, standsFor_iff, hseen]
  constructor
  · rintro ⟨before, name, after, hsplit, hname, hbefore⟩
    have hseenName : seen name := by
      by_contra hnot
      exact absurd ((hseen name).2 hnot ▸ hname) nofun
    exact ⟨name, ⟨before, after, hsplit, hseenName, hbefore⟩, hname⟩
  · rintro ⟨name, ⟨before, after, hsplit, -, hbefore⟩, hname⟩
    exact ⟨before, name, after, hsplit, hname, hbefore⟩

end Names

/-! ## What is seen -/

section Seen

variable {files : List FileDescriptor} {f : FileDescriptor} {i : FileId}

/-- **A type name is looked up as what it stands for**, and found when it stands for anything. -/
theorem Symbols.lookup?_eq_some_iff (h : ImportSorted files)
    (hnames : (files.flatMap FileDescriptor.allNames).Nodup) (hf : files[i]? = some f)
    {scope typeName : String} {x : Symbol} :
    (Symbols.ofFiles files).lookup? i scope typeName = some x ↔
      ∃ name, StandsFor (Visible files f) scope typeName name ∧
        (Symbols.ofFiles files).named? i name = some x :=
  findSome?_candidates_eq_some_iff fun name => by
    rw [Symbols.named?_eq_none_iff h hnames hf, Visible, not_exists]

/-- What a type name stands for is found. -/
theorem StandsFor.exists_lookup? (h : ImportSorted files)
    (hnames : (files.flatMap FileDescriptor.allNames).Nodup) (hf : files[i]? = some f)
    {scope typeName name : String} (hstands : StandsFor (Visible files f) scope typeName name) :
    ∃ x, (Symbols.ofFiles files).lookup? i scope typeName = some x ∧
      (Symbols.ofFiles files).named? i name = some x := by
  obtain ⟨before, after, -, ⟨meaning, hmeaning⟩, -⟩ := standsFor_iff.1 hstands
  obtain ⟨x, hx, -⟩ := (Symbols.exists_named?_iff h hnames hf).2 hmeaning
  exact ⟨x, (Symbols.lookup?_eq_some_iff h hnames hf).2 ⟨name, hstands, hx⟩, hx⟩

end Seen

/-! ## Fields that are bound -/

section Bound

variable {files : List FileDescriptor} {bound : List Message} {s : Schema}

/-- **A symbol of a full name is a message or an enum of the schema**, in a file that is seen. -/
theorem ResolvesTo.exists_refers (h : ResolvesTo files bound s) (hsorted : ImportSorted files)
    {f : FileDescriptor} {i : FileId} (hf : files[i]? = some f) {name : String} {x : Symbol}
    (hnamed : (Symbols.ofFiles files).Named i name x) :
    ∃ g ∈ files, Sees files f g ∧ x.type.Refers s name g := by
  cases hnamed with
  | message hd hname hsees =>
    obtain ⟨-, g, hg, -⟩ := mem_allMessages (List.mem_of_getElem? hd)
    obtain ⟨b, m, -, hm, hbound, hattached⟩ := h.exists_message hd
    obtain ⟨hfile, hfullName⟩ : m.file = b.file ∧ m.fullName = b.fullName := by
      rw [hattached.eq]
      exact ⟨rfl, rfl⟩
    rw [hbound.file] at hfile
    rw [hbound.fullName, hname] at hfullName
    refine ⟨g, List.mem_of_getElem? hg, (Symbols.sees_iff hsorted hf hg).1 hsees, ?_⟩
    exact hfullName ▸ .message hm (h.getElem?_files.2 ⟨g, hfile ▸ hg, rfl⟩)
  | enumeration hd hname hsees =>
    obtain ⟨-, g, hg, -⟩ := mem_allEnums (List.mem_of_getElem? hd)
    have he := congrArg (Option.map enumOf) hd
    refine ⟨g, List.mem_of_getElem? hg, (Symbols.sees_iff hsorted hf hg).1 hsees, ?_⟩
    rw [Symbols.ofFiles] at he
    refine hname ▸ .enumeration (e := enumOf _) ?_ (h.getElem?_files.2 ⟨g, hg, rfl⟩)
    rw [h.enums_eq, List.getElem?_map]
    exact he

/-- **A field holds what its descriptor says or its type name stands for.** -/
theorem ResolvesTo.boundByName (h : ResolvesTo files bound s) (hsorted : ImportSorted files)
    {f : FileDescriptor} {i : FileId} (hf : files[i]? = some f) {scope : String}
    {fd : FieldDescriptor} {type : FieldType}
    (htype : HoldsType (Symbols.ofFiles files) i scope fd type) :
    BoundByName files s f scope fd type := by
  have hnamed : ∀ x, (Symbols.ofFiles files).lookup? i scope fd.typeName = some x →
      BoundByName files s f scope fd x.type := fun x hx => by
    obtain ⟨name, hstands, hname⟩ := (Symbols.lookup?_eq_some_iff hsorted h.nodup_fullNames hf).1 hx
    obtain ⟨g, hg, hsees, hrefers⟩ := h.exists_refers hsorted hf
      ((Symbols.named?_eq_some_iff (Symbols.distinct_ofFiles h.nodup_fullNames)).1 hname)
    exact .named hrefers hg hsees hstands
  cases htype with
  | scalar hkind => exact .scalar hkind
  | message hcode hlookup => exact hnamed _ hlookup
  | enumeration hcode hlookup => exact hnamed _ hlookup

theorem Attached.name_type_eq {messages : List Message} {f f' : Field}
    (h : Attached messages f f') : f'.name = f.name ∧ f'.type = f.type := by
  cases h <;> exact ⟨rfl, rfl⟩

/-- **The fields of a message are bound by name**: attaching maps changes no type. -/
theorem ResolvesTo.exists_fieldsBoundByName (h : ResolvesTo files bound s)
    (hsorted : ImportSorted files) {id : MessageId} {m : Message}
    (hm : s.messages[id]? = some m) : ∃ f d, FieldsBoundByName files s m f d := by
  obtain ⟨d, b, hd, -, hbound, hattached⟩ := h.exists_declared hm
  obtain ⟨-, f, hf, hmem⟩ := mem_allMessages (List.mem_of_getElem? hd)
  obtain ⟨hfile, hfullName⟩ : m.file = b.file ∧ m.fullName = b.fullName := by
    rw [hattached.eq]
    exact ⟨rfl, rfl⟩
  rw [hbound.file] at hfile
  rw [hbound.fullName] at hfullName
  refine ⟨f, d.body, List.mem_of_getElem? hf, ⟨_, h.getElem?_files.2 ⟨f, hfile ▸ hf, rfl⟩, rfl⟩,
    hfullName ▸ hmem, forall₂_trans hbound.fields hattached.fields ?_⟩
  intro fd field field' hfield hfield'
  obtain ⟨hname, htype⟩ := hfield'.name_type_eq
  rw [hname, htype, hfullName]
  exact ⟨hfield.name, h.boundByName hsorted hf hfield.type⟩

end Bound

/-! ## Type names that are refused -/

/-- **A type that is refused for its name has one for which nothing fits.** -/
theorem unfitName_of_bindType {files : List FileDescriptor} (hsorted : ImportSorted files)
    (hnames : (files.flatMap FileDescriptor.allNames).Nodup) {f : FileDescriptor} {i : FileId}
    (hf : files[i]? = some f) {scope field typeName : String} {fd : FieldDescriptor}
    (h : bindType (Symbols.ofFiles files) i scope fd
      = .error (.unresolvedType field typeName)) : UnfitName files f scope fd := by
  intro name hstands
  obtain ⟨x, hlookup, hname⟩ := hstands.exists_lookup? hsorted hnames hf
  obtain ⟨meaning, hmeans⟩ :=
    ((Symbols.named?_eq_some_iff (Symbols.distinct_ofFiles hnames)).1 hname).exists_means
  have hdenotes := (Symbols.exists_named?_iff hsorted hnames hf).1 ⟨x, hname, hmeans⟩
  rcases (bindType_eq_unresolved h).2.2 x hlookup with ⟨hcode, id, rfl⟩ | ⟨hcode, id, rfl⟩
  · cases hmeans with
    | enumeration hd => exact .inl ⟨hcode, _, hdenotes⟩
  · cases hmeans with
    | message hd => exact .inr ⟨hcode, _, hdenotes⟩

/-! ## Files in any order -/

section Order

variable {files order : List FileDescriptor} (h : ∀ f, f ∈ files ↔ f ∈ order)

include h

theorem visible_congr : Visible files = Visible order := by
  funext f name
  rw [Visible, Visible, denotes_congr h]

theorem FieldsBoundByName.congr {s : Schema} {m : Message} {f : FileDescriptor}
    {d : MessageDescriptor} (hm : FieldsBoundByName files s m f d) :
    FieldsBoundByName order s m f d := by
  refine ⟨(h f).1 hm.mem, hm.file, hm.declared, hm.fields.imp ?_⟩
  rintro fd field ⟨hname, hbound⟩
  refine ⟨hname, ?_⟩
  generalize field.type = type at hbound
  cases hbound with
  | scalar hkind => exact .scalar hkind
  | named hrefers hg hsees hstands =>
    exact .named hrefers ((h _).1 hg) (sees_congr h ▸ hsees) (visible_congr h ▸ hstands)

theorem UnfitName.congr {f : FileDescriptor} {scope : String} {fd : FieldDescriptor}
    (hunfit : UnfitName files f scope fd) : UnfitName order f scope fd := by
  rwa [UnfitName, ← visible_congr h, ← denotes_congr h]

end Order

/-- **A type name means the innermost thing that is seen.**  In a schema every field refers to what
its type name stands for in the scope of its message, among what is declared in its own file and in
those that one leads to by imports.  Files are refused for a type name only where nothing that is
seen fits it; what is declared out of sight is neither referred to nor ever the cause. -/
theorem names_bind_innermost_seen (files : List FileDescriptor) :
    (∀ s, resolve files = .ok s → ∀ (id : MessageId) (m : Message), s.messages[id]? = some m →
      ∃ f d, FieldsBoundByName files s m f d) ∧
    ∀ field typeName, resolve files = .error (.unresolvedType field typeName) →
      ∃ f ∈ files, ∃ d ∈ f.allMessages, ∃ fd ∈ d.2.fields,
        field = qualify d.1 fd.name ∧ typeName = fd.typeName ∧ UnfitName files f d.1 fd := by
  refine ⟨fun s h id m hm => ?_, fun field typeName h => ?_⟩
  · obtain ⟨order, bound, hperm, hsorted, hbound⟩ := exists_resolvesTo h
    obtain ⟨f, d, hfields⟩ := hbound.exists_fieldsBoundByName hsorted hm
    exact ⟨f, d, hfields.congr fun _ => hperm.mem_iff⟩
  · rcases bind_eq_error_iff.1 h with h | ⟨order, horder, h⟩
    · exact absurd h (importOrder_ne_unresolved files)
    obtain ⟨hperm, hsorted⟩ := importOrder_eq_ok horder
    obtain ⟨hcheck, d, hd, fd, hfd, htype⟩ := exists_of_resolveOrdered_eq_unresolved h
    obtain ⟨-, f, hf, hmem⟩ := mem_allMessages hd
    obtain ⟨hfield, htypeName, -⟩ := bindType_eq_unresolved htype
    have hunfit := unfitName_of_bindType hsorted (checkDeclarations_eq_ok_iff.1 hcheck).2 hf htype
    exact ⟨f, hperm.mem_iff.1 (List.mem_of_getElem? hf), _, hmem, fd, hfd, hfield, htypeName,
      hunfit.congr fun _ => hperm.mem_iff⟩

/-- A file with a message `p.M` in which a field has the type name `X`. -/
def fileReferring (imports : List String) : FileDescriptor where
  name := "m.proto"
  package := "p"
  imports := imports
  messages := [⟨"M", [⟨"x", 1, 1, 11, "X", none, none, "x", false⟩], [], [], none, []⟩]
  enums := []
  dialect := "proto3"

/-- A file that declares a message `X` in a package. -/
def fileDeclaring (name package : String) : FileDescriptor where
  name := name
  package := package
  imports := []
  messages := [⟨"X", [], [], [], none, []⟩]
  enums := []
  dialect := "proto3"

/-- In the scope `p.M` the name `X` would be `p.M.X`, if that were seen.  It is not, so it is `p.X`,
the message of number 1, where that is imported, and is unresolved where nothing is. -/
theorem names_bind_past_what_is_hidden :
    (∃ s, resolve [fileDeclaring "hidden.proto" "p.M", fileReferring ["seen.proto"],
        fileDeclaring "seen.proto" "p"] = .ok s ∧
      s.messages.map (fun m => (m.fullName, m.fields.map (·.type)))
        = [("p.M.X", []), ("p.X", []), ("p.M", [.message 1])] ∧
      ∀ (id : MessageId) (m : Message), s.messages[id]? = some m →
        ∃ f d, FieldsBoundByName [fileDeclaring "hidden.proto" "p.M",
          fileReferring ["seen.proto"], fileDeclaring "seen.proto" "p"] s m f d) ∧
    resolve [fileDeclaring "hidden.proto" "p.M", fileReferring []]
        = .error (.unresolvedType "p.M.x" "X") ∧
      ∃ f ∈ [fileDeclaring "hidden.proto" "p.M", fileReferring []], ∃ d ∈ f.allMessages,
        ∃ fd ∈ d.2.fields, "p.M.x" = qualify d.1 fd.name ∧ "X" = fd.typeName ∧
          UnfitName [fileDeclaring "hidden.proto" "p.M", fileReferring []] f d.1 fd := by
  refine ⟨?_, ?_⟩
  · have horder : importOrder [fileDeclaring "hidden.proto" "p.M", fileReferring ["seen.proto"],
          fileDeclaring "seen.proto" "p"]
        = .ok [fileDeclaring "hidden.proto" "p.M", fileDeclaring "seen.proto" "p",
          fileReferring ["seen.proto"]] := by cbv
    obtain ⟨s, hresolve, hmessages⟩ := exists_resolve_of_map_eq_ok
      (g := fun s => s.messages.map fun m => (m.fullName, m.fields.map (·.type)))
      (a := [("p.M.X", []), ("p.X", []), ("p.M", [.message 1])]) horder (by decide +kernel)
    exact ⟨s, hresolve, hmessages, (names_bind_innermost_seen _).1 s hresolve⟩
  · have horder : importOrder [fileDeclaring "hidden.proto" "p.M", fileReferring []]
        = .ok [fileDeclaring "hidden.proto" "p.M", fileReferring []] := by cbv
    have hresolve : resolve [fileDeclaring "hidden.proto" "p.M", fileReferring []]
        = .error (.unresolvedType "p.M.x" "X") :=
      resolve_eq_error_of_map (g := fun _ => ()) horder (by decide +kernel)
    exact ⟨hresolve, (names_bind_innermost_seen _).2 _ _ hresolve⟩

end Protowire.Schema
