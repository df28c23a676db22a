import Protowire.Proofs.Schema.Contents
import Protowire.Proofs.Schema.Scope
import Protowire.Proofs.Steps
import Protowire.Schema.Resolve

/-!
# Proofs/Schema/Binding — what it takes for fields and messages to be bound

Binding goes through many checks; here each of them is turned into a statement about the field that
comes out of it.  A field is `Bound` to its descriptor, a message is bound when all its fields are
and their numbers differ (`BoundMessage`); its oneofs then list the fields that name them
(`BoundMessage.listsMembers`).  A field whose type is a map entry has that entry attached
(`Attached`).  Each step succeeds with exactly those results, and so does the whole pass
(`resolveOrdered_eq_ok_iff`).
-/

namespace Protowire

/-! ## One field -/

namespace FieldNumber

/-- The numbers a schema may use. -/
theorem isValid_iff {n : Nat} :
    isValid n = true ↔ 1 ≤ n ∧ n ≤ 536870911 ∧ ¬ (19000 ≤ n ∧ n ≤ 19999) := by
  simp only [isValid, Bool.and_eq_true, decide_eq_true_eq, Bool.not_eq_true',
    Bool.and_eq_false_iff, decide_eq_false_iff_not]
  unfold FieldNumber.max
  omega

end FieldNumber

/-- The number of a label. -/
def FieldLabel.code : FieldLabel → Int
  | optional => 1
  | required => 2
  | repeated => 3

theorem FieldLabel.ofCode?_eq_some_iff {code : Int32} {l : FieldLabel} :
    ofCode? code = some l ↔ code.toInt = l.code := by
  constructor
  · intro h
    unfold ofCode? at h
    split at h <;> cases h <;> assumption
  · intro h
    unfold ofCode?
    cases l <;> rw [h] <;> rfl

/-- The number of a type. -/
def FieldKind.code : FieldKind → Int
  | double => 1
  | float => 2
  | int64 => 3
  | uint64 => 4
  | int32 => 5
  | fixed64 => 6
  | fixed32 => 7
  | bool => 8
  | string => 9
  | group => 10
  | message => 11
  | bytes => 12
  | uint32 => 13
  | enumeration => 14
  | sfixed32 => 15
  | sfixed64 => 16
  | sint32 => 17
  | sint64 => 18

theorem FieldKind.ofCode?_eq_some_iff {code : Int32} {kind : FieldKind} :
    ofCode? code = some kind ↔ code.toInt = kind.code := by
  constructor
  · intro h
    unfold ofCode? at h
    split at h <;> cases h <;> assumption
  · intro h
    unfold ofCode?
    cases kind <;> rw [h] <;> rfl

namespace FieldDescriptor

/-- The scalar kind a field has by its type. -/
def scalar? (f : FieldDescriptor) : Option Scalar :=
  (FieldKind.ofCode? f.typeCode).bind FieldKind.scalar?

/-- A field holds scalars by its type for fifteen of the codes. -/
theorem isSome_scalar?_iff (f : FieldDescriptor) : f.scalar?.isSome = true ↔
    f.typeCode.toInt ∈ ([1, 2, 3, 4, 5, 6, 7, 8, 9, 12, 13, 15, 16, 17, 18] : List Int) := by
  constructor
  · intro h
    obtain ⟨s, hs⟩ := Option.isSome_iff_exists.1 h
    obtain ⟨kind, hkind, hscalar⟩ := Option.bind_eq_some_iff.1 hs
    rw [FieldKind.ofCode?_eq_some_iff.1 hkind]
    cases kind <;> first | decide | cases hscalar
  · intro h
    rw [scalar?, FieldKind.ofCode?]
    simp only [List.mem_cons, List.not_mem_nil, or_false] at h
    rcases h with h | h | h | h | h | h | h | h | h | h | h | h | h | h | h <;> rw [h] <;> rfl

/-- May the field hold a message?  A type that is not given may be one. -/
def MayHoldMessage (f : FieldDescriptor) : Prop :=
  f.typeCode.toInt = 11 ∨ f.typeCode.toInt = 0 ∧ f.typeName ≠ ""

/-- May the field hold values of an enum?  A type that is not given may be one. -/
def MayHoldEnum (f : FieldDescriptor) : Prop :=
  f.typeCode.toInt = 14 ∨ f.typeCode.toInt = 0 ∧ f.typeName ≠ ""

end FieldDescriptor

namespace Schema

/-- A type that is given, or a name that stands for one. -/
inductive HoldsType (t : Symbols) (file : FileId) (scope : String) (f : FieldDescriptor) :
    FieldType → Prop where
  | scalar {kind : Scalar} (h : f.scalar? = some kind) : HoldsType t file scope f (.scalar kind)
  | message {id : MessageId} (hcode : f.MayHoldMessage)
      (h : t.lookup? file scope f.typeName = some (.message id)) :
      HoldsType t file scope f (.message id)
  | enumeration {id : EnumId} (hcode : f.MayHoldEnum)
      (h : t.lookup? file scope f.typeName = some (.enumeration id)) :
      HoldsType t file scope f (.enumeration id)

section Field

variable {t : Symbols} {file : FileId} {scope field : String} {fd : FieldDescriptor}

theorem bindNumber_eq_ok_iff {number : Int32} {n : Nat} :
    bindNumber field number = .ok n ↔ number.toInt = n ∧ FieldNumber.isValid n = true := by
  rw [bindNumber]
  split
  · rename_i h
    rw [Except.ok.injEq]
    constructor
    · rintro rfl
      exact ⟨(Int.toNat_of_nonneg (Int.le_of_lt h.1)).symm, h.2⟩
    · rintro ⟨hn, -⟩
      rw [hn, Int.toNat_natCast]
  · rename_i h
    refine ⟨nofun, ?_⟩
    rintro ⟨hn, hvalid⟩
    refine absurd ⟨?_, ?_⟩ h
    · rw [hn]
      exact Int.natCast_pos.2 (FieldNumber.isValid_iff.1 hvalid).1
    · rwa [hn, Int.toNat_natCast]

/-- A label stands for many values or for a single one. -/
theorem bindLabel_eq_ok_iff {label : Int32} {isRepeated : Bool} :
    bindLabel field label = .ok isRepeated ↔
      if isRepeated then label.toInt = 3 else label.toInt = 0 ∨ label.toInt = 1 := by
  rw [bindLabel]
  split
  · rename_i hzero
    subst hzero
    cases isRepeated <;> decide
  · rename_i hzero
    have hne : label.toInt ≠ 0 := fun h => hzero (Int32.toInt_inj.1 h)
    split
    · rename_i hlabel
      rw [FieldLabel.ofCode?_eq_some_iff.1 hlabel]
      cases isRepeated <;> simp [FieldLabel.code]
    · rename_i hlabel
      rw [FieldLabel.ofCode?_eq_some_iff.1 hlabel]
      cases isRepeated <;> simp [FieldLabel.code]
    · rename_i hoptional hrepeated
      refine ⟨nofun, fun h => ?_⟩
      split at h
      · exact absurd (FieldLabel.ofCode?_eq_some_iff.2 h) hrepeated
      · rcases h with h | h
        · exact absurd h hne
        · exact absurd (FieldLabel.ofCode?_eq_some_iff.2 h) hoptional

/-- **The type of a field** is the scalar kind it gives, or what its type name stands for. -/
theorem bindType_eq_ok_iff {type : FieldType} :
    bindType t file scope fd = .ok type ↔ HoldsType t file scope fd type := by
  constructor
  · intro h
    rw [bindType] at h
    split at h
    · rename_i hkind
      have hcode : fd.typeCode.toInt = 11 := FieldKind.ofCode?_eq_some_iff.1 hkind
      split at h
      · rename_i hlookup
        obtain rfl := Except.ok.inj h
        exact .message (.inl hcode) hlookup
      · exact absurd h nofun
    · rename_i hkind
      have hcode : fd.typeCode.toInt = 14 := FieldKind.ofCode?_eq_some_iff.1 hkind
      split at h
      · rename_i hlookup
        obtain rfl := Except.ok.inj h
        exact .enumeration (.inl hcode) hlookup
      · exact absurd h nofun
    · rename_i kind _ _ hkind
      cases hscalar : kind.scalar? with
      | none =>
        rw [hscalar] at h
        exact absurd h nofun
      | some s =>
        rw [hscalar] at h
        obtain rfl := Except.ok.inj h
        exact .scalar (by rw [FieldDescriptor.scalar?, hkind]; exact hscalar)
    · split at h
      · rename_i hunset
        have hcode : fd.typeCode.toInt = 0 ∧ fd.typeName ≠ "" := ⟨by rw [hunset.1]; rfl, hunset.2⟩
        split at h
        · rename_i hlookup
          obtain rfl := Except.ok.inj h
          exact .message (.inr hcode) hlookup
        · rename_i hlookup
          obtain rfl := Except.ok.inj h
          exact .enumeration (.inr hcode) hlookup
        · exact absurd h nofun
      · exact absurd h nofun
  · intro h
    have hunset : FieldKind.ofCode? 0 = none := rfl
    cases h with
    | scalar h =>
      obtain ⟨kind, hkind, hscalar⟩ := Option.bind_eq_some_iff.1 h
      cases kind <;> cases hscalar <;> simp [bindType, hkind, FieldKind.scalar?]
    | message hcode hlookup =>
      rcases hcode with hcode | ⟨hcode, hname⟩
      · have hkind : FieldKind.ofCode? fd.typeCode = some .message :=
          FieldKind.ofCode?_eq_some_iff.2 hcode
        simp [bindType, hkind, hlookup]
      · have hzero : fd.typeCode = 0 := Int32.toInt_inj.1 hcode
        simp [bindType, hzero, hunset, hname, hlookup]
    | enumeration hcode hlookup =>
      rcases hcode with hcode | ⟨hcode, hname⟩
      · have hkind : FieldKind.ofCode? fd.typeCode = some .enumeration :=
          FieldKind.ofCode?_eq_some_iff.2 hcode
        simp [bindType, hkind, hlookup]
      · have hzero : fd.typeCode = 0 := Int32.toInt_inj.1 hcode
        simp [bindType, hzero, hunset, hname, hlookup]

end Field

/-- **A field is bound to its descriptor**: all its parts are what the descriptor says, and nothing
is wrong with any of them. -/
structure Bound (t : Symbols) (d : Declared MessageDescriptor) (fd : FieldDescriptor) (f : Field) :
    Prop where
  name : f.name = fd.name
  number : fd.number.toInt = f.number
  isValid : FieldNumber.isValid f.number = true
  label : if f.isRepeated then fd.label.toInt = 3 else fd.label.toInt = 0 ∨ fd.label.toInt = 1
  type : HoldsType t d.file d.fullName fd f.type
  packs : fd.packed? = some true → f.isRepeated = true ∧ f.type.isPackable = true
  isPacked : f.isPacked = ((f.isRepeated && f.type.isPackable) && fd.packed?.getD true)
  map : f.map = none
  oneof : bindOneof d.body d.fullName fd = .ok f.oneof

section Message

variable {t : Symbols} {d : Declared MessageDescriptor}

/-- A field is bound by itself and then put into its oneof. -/
theorem bound_iff {fd : FieldDescriptor} {f : Field} : Bound t d fd f ↔
    bindField t d.file d.fullName fd = .ok { f with oneof := none } ∧
      bindOneof d.body d.fullName fd = .ok f.oneof := by
  have hpacks : ∀ b : Bool, ¬ (fd.packed? = some true ∧ b = false) ↔
      (fd.packed? = some true → b = true) := fun b => by
    rw [not_and, Bool.not_eq_false]
  rw [bindField]
  simp only [bind_eq_ok_iff, refuse_eq_ok_iff, bindNumber_eq_ok_iff, bindLabel_eq_ok_iff,
    bindType_eq_ok_iff, hpacks, Bool.and_eq_true]
  constructor
  · intro h
    refine ⟨⟨f.number, ⟨h.number, h.isValid⟩, f.isRepeated, h.label, f.type, h.type, h.packs, ?_⟩,
      h.oneof⟩
    rw [← h.name, ← h.isPacked, ← h.map]
    rfl
  · rintro ⟨⟨number, ⟨hnumber, hvalid⟩, isRepeated, hlabel, type, htype, hpacks, hf⟩, honeof⟩
    obtain ⟨hname, rfl, rfl, rfl, hpacked, hmap, -⟩ := Field.mk.inj (Except.ok.inj hf)
    exact ⟨hname.symm, hnumber, hvalid, hlabel, htype, hpacks, hpacked.symm, hmap.symm, honeof⟩

/-- A field by itself is in no oneof. -/
theorem oneof_of_bindField {file : FileId} {scope : String} {fd : FieldDescriptor} {f : Field}
    (h : bindField t file scope fd = .ok f) : f.oneof = none := by
  obtain ⟨number, -, h⟩ := bind_eq_ok_iff.1 h
  obtain ⟨isRepeated, -, h⟩ := bind_eq_ok_iff.1 h
  obtain ⟨type, -, h⟩ := bind_eq_ok_iff.1 h
  obtain ⟨-, h⟩ := refuse_eq_ok_iff.1 h
  rw [← Except.ok.inj h]

/-- A field goes before the others when it is bound and its number is not taken. -/
theorem bindFields_cons_eq_ok_iff {seen : List Nat} {fd : FieldDescriptor}
    {fds : List FieldDescriptor} {fs : List Field} :
    bindFields t d seen (fd :: fds) = .ok fs ↔ ∃ f rest, Bound t d fd f ∧ f.number ∉ seen ∧
      bindFields t d (f.number :: seen) fds = .ok rest ∧ fs = f :: rest := by
  rw [bindFields, bind_eq_ok_iff]
  constructor
  · rintro ⟨f, hf, h⟩
    obtain ⟨hseen, h⟩ := refuse_eq_ok_iff.1 h
    obtain ⟨oneof, honeof, h⟩ := bind_eq_ok_iff.1 h
    obtain ⟨rest, hrest, h⟩ := bind_eq_ok_iff.1 h
    have hoff : bindField t d.file d.fullName fd = .ok { f with oneof := none } := by
      rw [← oneof_of_bindField hf]
      exact hf
    refine ⟨{ f with oneof }, rest, bound_iff.2 ⟨hoff, honeof⟩, ?_, hrest, ?_⟩
    · exact fun hmem => hseen (List.contains_iff_mem.2 hmem)
    · exact (Except.ok.inj h).symm
  · rintro ⟨f, rest, hbound, hseen, hrest, rfl⟩
    obtain ⟨hf, honeof⟩ := bound_iff.1 hbound
    refine ⟨_, hf, refuse_eq_ok_iff.2 ⟨fun hmem => hseen (List.contains_iff_mem.1 hmem), ?_⟩⟩
    exact bind_eq_ok_iff.2 ⟨_, honeof, bind_eq_ok_iff.2 ⟨rest, hrest, rfl⟩⟩

/-- **Fields are bound one by one**, and their numbers are different and not taken. -/
theorem bindFields_eq_ok_iff {seen : List Nat} {fds : List FieldDescriptor} {fs : List Field} :
    bindFields t d seen fds = .ok fs ↔ List.Forall₂ (Bound t d) fds fs ∧
      (fs.map (·.number)).Nodup ∧ ∀ f ∈ fs, f.number ∉ seen := by
  induction fds generalizing seen fs with
  | nil =>
    rw [bindFields, List.forall₂_nil_left_iff]
    constructor
    · intro h
      obtain rfl := Except.ok.inj h
      exact ⟨rfl, List.nodup_nil, fun f hf => absurd hf List.not_mem_nil⟩
    · rintro ⟨rfl, -⟩
      rfl
  | cons fd fds ih =>
    rw [bindFields_cons_eq_ok_iff]
    constructor
    · rintro ⟨f, rest, hbound, hseen, hrest, rfl⟩
      obtain ⟨hrest, hnodup, hnew⟩ := ih.1 hrest
      refine ⟨.cons hbound hrest, List.nodup_cons.2 ⟨fun hmem => ?_, hnodup⟩,
        List.forall_mem_cons.2 ⟨hseen, fun g hg hmem => hnew g hg (List.mem_cons_of_mem _ hmem)⟩⟩
      obtain ⟨g, hg, hsame⟩ := List.mem_map.1 hmem
      exact hnew g hg (hsame ▸ List.mem_cons_self)
    · rintro ⟨hbound, hnodup, hnew⟩
      obtain ⟨f, rest, hf, hrest, rfl⟩ := List.forall₂_cons_left_iff.1 hbound
      obtain ⟨hfirst, hnodup⟩ := List.nodup_cons.1 hnodup
      obtain ⟨hseen, hnew⟩ := List.forall_mem_cons.1 hnew
      refine ⟨f, rest, hf, hseen, ih.2 ⟨hrest, hnodup, fun g hg hmem => ?_⟩, rfl⟩
      rcases List.mem_cons.1 hmem with hsame | hmem
      · exact hfirst (List.mem_map.2 ⟨g, hg, hsame⟩)
      · exact hnew g hg hmem

/-- **A message is bound**: its fields are, one by one, and their numbers are different. -/
structure BoundMessage (t : Symbols) (d : Declared MessageDescriptor) (m : Message) : Prop where
  name : m.name = d.name
  fullName : m.fullName = d.fullName
  file : m.file = d.file
  parent : m.parent = d.parent
  fields : List.Forall₂ (Bound t d) d.body.fields m.fields
  distinct : (m.fields.map (·.number)).Nodup
  oneofs : m.oneofs = fillOneofs d.body.oneofNames (m.fields.map (·.oneof))
  isMapEntry : m.isMapEntry = d.body.isMapEntry

theorem bindMessage_eq_ok_iff {m : Message} {contents : Contents} :
    bindMessage t d contents = .ok m ↔ BoundMessage t d m ∧ m.contents = contents := by
  rw [bindMessage, bind_eq_ok_iff]
  simp only [bindFields_eq_ok_iff]
  constructor
  · rintro ⟨fields, ⟨hfields, hdistinct, -⟩, h⟩
    obtain rfl := Except.ok.inj h
    exact ⟨⟨rfl, rfl, rfl, rfl, hfields, hdistinct, rfl, rfl⟩, rfl⟩
  · rintro ⟨h, rfl⟩
    refine ⟨m.fields, ⟨h.fields, h.distinct, fun _ _ => List.not_mem_nil⟩, ?_⟩
    rw [← h.name, ← h.fullName, ← h.file, ← h.parent, ← h.oneofs, ← h.isMapEntry]
    rfl

end Message

/-! ## Oneofs -/

section Oneof

variable {m : MessageDescriptor} {index : Int32}

theorem mem_keptOneofs {i : Nat} : i ∈ m.keptOneofs ↔ i < m.oneofs.length ∧
    ∀ f ∈ m.fields, f.tracksPresence = true → ∀ k, f.oneofIndex = some k → k.toInt ≠ i := by
  simp only [MessageDescriptor.keptOneofs, MessageDescriptor.presenceOneofs, List.mem_filter,
    List.mem_range, Bool.not_eq_true', List.any_eq_false, List.mem_filterMap, beq_iff_eq]
  refine and_congr_right fun _ => ⟨fun h f hf htracks k hk => h k ⟨f, ⟨hf, htracks⟩, hk⟩, ?_⟩
  rintro h k ⟨f, ⟨hf, htracks⟩, hk⟩
  exact h f hf htracks k hk

/-- A oneof has a slot when it is declared and does more than track presence. -/
theorem exists_oneofSlot?_iff : (∃ slot, m.oneofSlot? index = some slot) ↔
    (0 ≤ index.toInt ∧ index.toInt < m.oneofs.length) ∧
      ∀ f ∈ m.fields, f.tracksPresence = true → f.oneofIndex ≠ some index := by
  rw [← Option.isSome_iff_exists, MessageDescriptor.oneofSlot?, List.findIdx?_isSome,
    List.any_eq_true]
  simp only [mem_keptOneofs, beq_iff_eq]
  constructor
  · rintro ⟨i, ⟨hi, hkept⟩, hindex⟩
    exact ⟨by omega, fun f hf htracks hf' => hkept f hf htracks index hf' hindex⟩
  · rintro ⟨hrange, hkept⟩
    refine ⟨index.toInt.toNat, ⟨by omega, fun f hf htracks k hk hsame => ?_⟩, by omega⟩
    have : k = index := Int32.toInt_inj.1 (by omega)
    exact hkept f hf htracks (this ▸ hk)

/-- All oneofs that do more than track presence have names. -/
theorem length_oneofNames : m.oneofNames.length = m.keptOneofs.length := by
  rw [MessageDescriptor.oneofNames, List.filterMap_length_eq_length]
  intro i hi
  rw [Option.isSome_map, List.getElem?_eq_getElem (mem_keptOneofs.1 hi).1]
  rfl

/-- A slot is the position of a name. -/
theorem lt_of_oneofSlot? {slot : Nat} (h : m.oneofSlot? index = some slot) :
    slot < m.oneofNames.length := by
  rw [length_oneofNames]
  exact (List.findIdx?_eq_some_iff_findIdx_eq.1 h).1

/-- A field has its oneof when that has a slot. -/
theorem exists_bindOneof_iff (scope : String) {f : FieldDescriptor} :
    (∃ oneof, bindOneof m scope f = .ok oneof) ↔
      ∀ index, f.oneofIndex = some index → f.tracksPresence = false →
        ∃ slot, m.oneofSlot? index = some slot := by
  rw [bindOneof]
  cases hindex : f.oneofIndex with
  | none => exact ⟨fun _ => nofun, fun _ => ⟨none, rfl⟩⟩
  | some index =>
    cases htracks : f.tracksPresence with
    | true => exact ⟨fun _ _ _ => nofun, fun _ => ⟨none, rfl⟩⟩
    | false =>
      cases hslot : m.oneofSlot? index with
      | none =>
        refine ⟨fun h => ?_, fun h => ?_⟩
        · obtain ⟨oneof, honeof⟩ := h
          simp [hslot] at honeof
        obtain ⟨slot, hslot'⟩ := h index rfl rfl
        exact absurd (hslot.symm.trans hslot') nofun
      | some slot =>
        refine ⟨fun _ index' hindex' _ => ?_, fun _ => ⟨some slot, by simp [hslot]⟩⟩
        obtain rfl := Option.some.inj hindex'
        exact ⟨slot, hslot⟩

/-- A field is in a oneof that is kept. -/
theorem Bound.oneof_lt {t : Symbols} {d : Declared MessageDescriptor} {fd : FieldDescriptor}
    {f : Field} (h : Bound t d fd f) {k : Nat} (hk : f.oneof = some k) :
    k < d.body.oneofNames.length := by
  have honeof := h.oneof
  rw [hk, bindOneof] at honeof
  split at honeof
  · rename_i index _ _
    cases hslot : d.body.oneofSlot? index with
    | none => simp [hslot] at honeof
    | some slot =>
      rw [hslot] at honeof
      obtain rfl := Option.some.inj (Except.ok.inj honeof)
      exact lt_of_oneofSlot? hslot
  · exact absurd (Except.ok.inj honeof) nofun

/-- A oneof that is joined has one member more, and no other has. -/
theorem getElem?_joinOneof (oneofs : List Oneof) (slot : Option Nat) (position k : Nat) :
    (joinOneof oneofs slot position)[k]? = (oneofs[k]?).map fun o =>
      { o with fields := o.fields ++ if slot = some k then [position] else [] } := by
  cases slot with
  | none => simp [joinOneof]
  | some j =>
    rw [joinOneof, Option.elim_some, List.getElem?_modify]
    by_cases hj : j = k <;> simp [hj]

/-- **A oneof has the positions of the fields with its slot.** -/
theorem getElem?_fillOneofs (names : List String) (slots : List (Option Nat)) (k : Nat) :
    (fillOneofs names slots)[k]? =
      (names[k]?).map fun name => ⟨name, slots.findIdxs (· == some k)⟩ := by
  have hfold : ∀ (oneofs : List Oneof) (start : Nat),
      ((slots.zipIdx start).foldl (fun oneofs slot => joinOneof oneofs slot.1 slot.2) oneofs)[k]? =
        (oneofs[k]?).map fun o =>
          { o with fields := o.fields ++ slots.findIdxs (· == some k) start } := by
    induction slots with
    | nil => simp
    | cons slot slots ih =>
      intro oneofs start
      rw [List.zipIdx_cons, List.foldl_cons, ih, getElem?_joinOneof, Option.map_map,
        List.findIdxs_cons]
      congr 1
      funext o
      by_cases hslot : slot = some k <;> simp [hslot]
  rw [fillOneofs, hfold, List.getElem?_map, Option.map_map]
  rfl

/-- **The oneofs of a message list the fields that name them**, and fields name no others. -/
def Message.ListsMembers (m : Message) : Prop :=
  ∀ k, m.members k = m.fields.findIdxs (·.oneof == some k)

/-- The oneof of a field is one of its message. -/
theorem Message.ListsMembers.oneof_lt {m : Message} (h : m.ListsMembers) {f : Field}
    (hf : f ∈ m.fields) {k : Nat} (hk : f.oneof = some k) : k < m.oneofs.length := by
  rcases Nat.lt_or_ge k m.oneofs.length with hlt | hle
  · exact hlt
  · have hnone := h k
    rw [Message.members, List.getElem?_eq_none hle, Option.elim_none, eq_comm,
      List.findIdxs_eq_nil_iff] at hnone
    exact absurd hk (beq_eq_false_iff_ne.1 (hnone f hf))

/-- **A bound message lists the members of its oneofs.** -/
theorem BoundMessage.listsMembers {t : Symbols} {d : Declared MessageDescriptor} {m : Message}
    (h : BoundMessage t d m) : m.ListsMembers := by
  intro k
  rw [Message.members, h.oneofs, getElem?_fillOneofs, List.findIdxs_map]
  cases hname : d.body.oneofNames[k]? with
  | some name => rfl
  | none =>
    refine (List.findIdxs_eq_nil_iff.2 fun f hf => beq_eq_false_iff_ne.2 fun hk => ?_).symm
    obtain ⟨i, hi⟩ := List.mem_iff_getElem?.1 hf
    obtain ⟨fd, -, hbound⟩ := forall₂_getElem?_right h.fields hi
    exact absurd (hbound.oneof_lt hk) (Nat.not_lt.2 (List.getElem?_eq_none_iff.1 hname))

end Oneof

/-! ## Maps -/

/-- A field of different number than others is found by it. -/
theorem find?_number_eq_some_iff {fields : List Field} (hdistinct : (fields.map (·.number)).Nodup)
    {n : Nat} {f : Field} :
    fields.find? (·.number == n) = some f ↔ f ∈ fields ∧ f.number = n := by
  constructor
  · intro h
    exact ⟨List.mem_of_find?_eq_some h, by simpa using List.find?_some h⟩
  · rintro ⟨hf, rfl⟩
    cases hfind : fields.find? (·.number == f.number) with
    | none => simpa using List.find?_eq_none.1 hfind f hf
    | some g =>
      have hnumber : g.number = f.number := by simpa using List.find?_some hfind
      rw [List.inj_on_of_nodup_map hdistinct (List.mem_of_find?_eq_some hfind) hf hnumber]

/-- **A message is an entry**: it has two fields, singular ones with the numbers 1 and 2, and the
first is of a kind that keys may have. -/
structure IsEntry (m : Message) (key value : Field) (kind : Scalar) : Prop where
  length_eq : m.fields.length = 2
  key_mem : key ∈ m.fields
  value_mem : value ∈ m.fields
  key_number : key.number = 1
  value_number : value.number = 2
  key_singular : key.isRepeated = false
  value_singular : value.isRepeated = false
  key_type : key.type = .scalar kind
  isMapKey : kind.isMapKey = true

theorem mapEntry_eq_ok_iff {m : Message} (hdistinct : (m.fields.map (·.number)).Nodup)
    {entry : MessageId} {map : MapEntry} : m.mapEntry entry = .ok map ↔
      ∃ key value kind, IsEntry m key value kind ∧ map = ⟨entry, kind, value.type⟩ := by
  constructor
  · intro h
    rw [Message.mapEntry] at h
    split at h
    · exact absurd h nofun
    · rename_i hlength
      split at h
      · exact absurd h nofun
      · exact absurd h nofun
      · rename_i key value hkey hvalue
        obtain ⟨hkeyMem, hkeyNumber⟩ := (find?_number_eq_some_iff hdistinct).1 hkey
        obtain ⟨hvalueMem, hvalueNumber⟩ := (find?_number_eq_some_iff hdistinct).1 hvalue
        split at h
        · exact absurd h nofun
        · rename_i hsingular
          obtain ⟨hkeySingular, hvalueSingular⟩ : key.isRepeated = false ∧
              value.isRepeated = false := by simpa using hsingular
          split at h
          · rename_i kind htype
            split at h
            · rename_i hmapKey
              exact ⟨key, value, kind, ⟨not_not.1 hlength, hkeyMem, hvalueMem, hkeyNumber,
                hvalueNumber, hkeySingular, hvalueSingular, htype, hmapKey⟩,
                (Except.ok.inj h).symm⟩
            · exact absurd h nofun
          · exact absurd h nofun
  · rintro ⟨key, value, kind, h, rfl⟩
    have hkey := (find?_number_eq_some_iff hdistinct).2 ⟨h.key_mem, h.key_number⟩
    have hvalue := (find?_number_eq_some_iff hdistinct).2 ⟨h.value_mem, h.value_number⟩
    simp [Message.mapEntry, h.length_eq, hkey, hvalue, h.key_singular, h.value_singular,
      h.key_type, h.isMapKey]

/-- A field whose type is no entry stays as it is, and one whose type is an entry gets it. -/
inductive Attached (messages : List Message) (f : Field) : Field → Prop where
  | plain (h : ∀ target entry, f.type = .message target → messages[target]? = some entry →
      entry.isMapEntry = false) : Attached messages f f
  | map {target : MessageId} {entry : Message} {map : MapEntry} (htype : f.type = .message target)
      (hentry : messages[target]? = some entry) (hisMapEntry : entry.isMapEntry = true)
      (hrepeated : f.isRepeated = true) (hmap : entry.mapEntry target = .ok map) :
      Attached messages f { f with map := some map }

theorem attachMap_eq_ok_iff {messages : List Message} {owner : String} {f f' : Field} :
    attachMap messages owner f = .ok f' ↔ Attached messages f f' := by
  constructor
  · intro h
    rw [attachMap] at h
    split at h
    · rename_i target htype
      split at h
      · rename_i entry hentry
        split at h
        · rename_i hnot
          obtain rfl := Except.ok.inj h
          refine .plain fun target' entry' htype' hentry' => ?_
          obtain rfl := FieldType.message.inj (htype.symm.trans htype')
          obtain rfl := Option.some.inj (hentry.symm.trans hentry')
          simpa using hnot
        · split at h
          · exact absurd h nofun
          · rename_i his hrepeated
            cases hmap : entry.mapEntry target with
            | error fault =>
              rw [hmap] at h
              exact absurd h nofun
            | ok map =>
              rw [hmap] at h
              obtain rfl := Except.ok.inj h
              exact .map htype hentry (by simpa using his) (by simpa using hrepeated) hmap
      · rename_i hnone
        obtain rfl := Except.ok.inj h
        refine .plain fun target' entry' htype' hentry' => ?_
        obtain rfl := FieldType.message.inj (htype.symm.trans htype')
        exact absurd (hnone.symm.trans hentry') nofun
    · rename_i hother
      obtain rfl := Except.ok.inj h
      exact .plain fun target entry htype _ => absurd htype (hother target)
  · intro h
    cases h with
    | plain hplain =>
      rw [attachMap]
      split
      · rename_i target htype
        split
        · rename_i entry hentry
          rw [hplain target entry htype hentry]
          rfl
        · rfl
      · rfl
    | map htype hentry his hrepeated hmap =>
      simp [attachMap, htype, hentry, his, hrepeated, hmap, Except.mapError, Except.map]

/-- A message with its maps attached. -/
structure AttachedMessage (messages : List Message) (m m' : Message) : Prop where
  eq : m' = { m with fields := m'.fields }
  fields : List.Forall₂ (Attached messages) m.fields m'.fields

theorem attachMaps_eq_ok_iff {messages : List Message} {m m' : Message} :
    attachMaps messages m = .ok m' ↔ AttachedMessage messages m m' := by
  rw [attachMaps, bind_eq_ok_iff]
  simp only [mapM_eq_ok_iff, attachMap_eq_ok_iff]
  constructor
  · rintro ⟨fields, hfields, h⟩
    obtain rfl := Except.ok.inj h
    exact ⟨rfl, hfields⟩
  · intro h
    exact ⟨m'.fields, h.fields, congrArg Except.ok h.eq.symm⟩

/-! ## The whole pass -/

/-- **The schema of files that come after what they import**: what they declare has no fault, and
every message is bound and has its maps attached. -/
structure ResolvesTo (files : List FileDescriptor) (bound : List Message) (s : Schema) : Prop where
  check : checkDeclarations (declarations files) = .ok ()
  binds : List.Forall₂ (BoundMessage (Symbols.ofFiles files)) (messagesOf (declarations files))
    bound
  contents : bound.map (·.contents) = messageContents files
  attached : List.Forall₂ (AttachedMessage bound) bound s.messages
  files_eq : s.files = files.zipWith (fun f contents => ⟨f, importIds files f, contents⟩)
    (fileContents files)
  enums_eq : s.enums = (enumsOf (declarations files)).map enumOf

/-- There are as many lists of contents as messages. -/
theorem length_messageContents {files : List FileDescriptor} :
    (messagesOf (declarations files)).length = (messageContents files).length := by
  rw [messageContents_eq, List.length_map, List.length_range]

theorem resolveOrdered_eq_ok_iff {files : List FileDescriptor} {s : Schema} :
    resolveOrdered files = .ok s ↔ ∃ bound, ResolvesTo files bound s := by
  rw [resolveOrdered, bind_eq_ok_iff]
  simp only [bind_eq_ok_iff, mapM_eq_ok_iff, bindMessage_eq_ok_iff, attachMaps_eq_ok_iff]
  constructor
  · rintro ⟨_, hcheck, bound, hbound, messages, hattached, h⟩
    obtain rfl := Except.ok.inj h
    obtain ⟨hbinds, hcontents⟩ := (forall₂_zip_iff length_messageContents).1 hbound
    exact ⟨bound, hcheck, hbinds, hcontents, hattached, rfl, rfl⟩
  · rintro ⟨bound, h⟩
    have henums : s.enums = (Symbols.ofFiles files).enums.map enumOf := h.enums_eq
    refine ⟨(), h.check, bound, (forall₂_zip_iff length_messageContents).2 ⟨h.binds, h.contents⟩,
      s.messages, h.attached, ?_⟩
    rw [← h.files_eq, ← henums]
    rfl

/-- What files resolve to is what they do in an order in which imports come first. -/
theorem exists_resolvesTo {files : List FileDescriptor} {s : Schema} (h : resolve files = .ok s) :
    ∃ order bound, order.Perm files ∧ ImportSorted order ∧ ResolvesTo order bound s := by
  obtain ⟨order, horder, hs⟩ := bind_eq_ok_iff.1 h
  obtain ⟨hperm, hsorted⟩ := importOrder_eq_ok horder
  obtain ⟨bound, hbound⟩ := resolveOrdered_eq_ok_iff.1 hs
  exact ⟨order, bound, hperm, hsorted, hbound⟩

/-- Files resolve to what they do in their order, whatever is looked at of that. -/
theorem exists_resolve_of_map_eq_ok {files order : List FileDescriptor} {α : Type}
    {g : Schema → α} {a : α} (horder : importOrder files = .ok order)
    (hresult : (resolveOrdered order).map g = .ok a) :
    ∃ s, resolve files = .ok s ∧ g s = a := by
  cases hs : resolveOrdered order with
  | error fault =>
    rw [hs] at hresult
    cases hresult
  | ok s =>
    rw [hs] at hresult
    exact ⟨s, bind_eq_ok_iff.2 ⟨order, horder, hs⟩, Except.ok.inj hresult⟩

/-- Files are refused for what they are in their order. -/
theorem resolve_eq_error_of_map {files order : List FileDescriptor} {α : Type} {g : Schema → α}
    {fault : SchemaError} (horder : importOrder files = .ok order)
    (hresult : (resolveOrdered order).map g = .error fault) : resolve files = .error fault := by
  refine bind_eq_error_iff.2 (.inr ⟨order, horder, ?_⟩)
  cases hs : resolveOrdered order with
  | error other =>
    rw [hs] at hresult
    exact congrArg Except.error (Except.error.inj hresult)
  | ok s =>
    rw [hs] at hresult
    cases hresult

/-- Files resolve when they do in their order. -/
theorem exists_resolve_of_isOk {files order : List FileDescriptor}
    (horder : importOrder files = .ok order) (hok : (resolveOrdered order).isOk = true) :
    ∃ s, resolve files = .ok s := by
  cases hs : resolveOrdered order with
  | error fault =>
    rw [hs] at hok
    exact absurd hok Bool.false_ne_true
  | ok s => exact ⟨s, bind_eq_ok_iff.2 ⟨order, horder, hs⟩⟩

end Schema

end Protowire
