import Mathlib.Data.Nat.Count
import Protowire.Proofs.Schema.NameBinding
import Protowire.Proofs.Schema.Renumber

/-!
# Proofs/Schema/Oneofs — oneofs that only track presence leave no gap

Three rows of numbers meet in a message: its descriptor declares oneofs, the message has the ones
that do more than track presence (`MessageDescriptor.Keeps`), and its fields have positions.
**A declared oneof gets the number of those kept before it** (`oneofSlot?_eq_some_iff`), so the
oneofs of the message follow on one another, each with the name it was declared under and the
fields that were declared in it (`KeepsOneofs`).
-/

namespace Protowire

/-! ## Positions that are kept -/

section Positions

variable {α : Type}

/-- What stands at the positions with a property, in order. -/
theorem filterMap_filter_range (l : List α) (p : Nat → Bool) :
    ((List.range l.length).filter p).filterMap (l[·]?) =
      (l.zipIdx.filter fun a => p a.2).map (·.1) := by
  have hrange : List.range l.length = l.zipIdx.map (·.2) := by
    rw [List.zipIdx_map_snd, List.range_eq_range']
  rw [hrange, List.filter_map, List.filterMap_map, ← List.filterMap_eq_map]
  refine List.filterMap_congr fun a ha => ?_
  exact List.mem_zipIdx_iff_getElem?.1 (List.mem_filter.1 ha).1

/-- **A number with a property is as far along the numbers that have it** as there are such numbers
below it. -/
theorem getElem?_filter_range {p : Nat → Prop} [DecidablePred p] {n i : Nat} (hi : i < n)
    (hp : p i) : ((List.range n).filter fun k => decide (p k))[Nat.count p i]? = some i := by
  induction n with
  | zero => exact absurd hi (Nat.not_lt_zero i)
  | succ n ih =>
    rw [List.range_succ, List.filter_append]
    rcases Nat.lt_succ_iff_lt_or_eq.1 hi with hlt | rfl
    · rw [List.getElem?_append_left (List.getElem?_eq_some_iff.1 (ih hlt)).1, ih hlt]
    · have hcount : Nat.count p i = ((List.range i).filter fun k => decide (p k)).length := by
        rw [Nat.count, List.countP_eq_length_filter]
      rw [hcount, List.getElem?_append_right le_rfl, Nat.sub_self]
      simp [hp]

end Positions

namespace MessageDescriptor

/-- A oneof is declared at the position, and no field has it to track its presence. -/
def Keeps (d : MessageDescriptor) (i : Nat) : Prop :=
  i < d.oneofs.length ∧
    ∀ f ∈ d.fields, f.tracksPresence = true → ∀ index, f.oneofIndex = some index → index.toInt ≠ i

instance (d : MessageDescriptor) : DecidablePred d.Keeps := fun _ =>
  decidable_of_iff _ Schema.mem_keptOneofs

/-- A field is in the oneof of a number: it tracks no presence, and it gives a declared oneof before
which so many are kept. -/
def InSlot (d : MessageDescriptor) (f : FieldDescriptor) (slot : Nat) : Prop :=
  f.tracksPresence = false ∧
    ∃ i : Nat, f.oneofIndex.map Int32.toInt = some (i : Int) ∧ slot = Nat.count d.Keeps i

variable {d : MessageDescriptor}

theorem keptOneofs_eq : d.keptOneofs = (List.range d.oneofs.length).filter fun i => d.Keeps i := by
  have hkept : d.keptOneofs.Pairwise (· < ·) := List.pairwise_lt_range.filter _
  refine hkept.eq_of_mem_iff (List.pairwise_lt_range.filter _) fun i => ?_
  rw [List.mem_filter, List.mem_range, decide_eq_true_iff]
  exact Schema.mem_keptOneofs.trans (and_iff_right_of_imp And.left).symm

/-- **The names of the oneofs that are kept**, in the order they are declared. -/
theorem oneofNames_eq :
    d.oneofNames = (d.oneofs.zipIdx.filter fun o => d.Keeps o.2).map (·.1.name) := by
  have hname : d.oneofNames =
      (d.keptOneofs.filterMap (d.oneofs[·]?)).map (·.name) := by
    rw [List.map_filterMap]
    rfl
  rw [hname, keptOneofs_eq, filterMap_filter_range, List.map_map]
  rfl

theorem getElem?_keptOneofs {i : Nat} (hi : d.Keeps i) :
    d.keptOneofs[Nat.count d.Keeps i]? = some i := by
  rw [keptOneofs_eq]
  exact getElem?_filter_range hi.1 hi

/-- **A oneof that is kept has the number of those kept before it.** -/
theorem oneofSlot?_eq_some_iff {index : Int32} {slot : Nat} : d.oneofSlot? index = some slot ↔
    ∃ i : Nat, index.toInt = i ∧ d.Keeps i ∧ slot = Nat.count d.Keeps i := by
  have hnodup : (d.keptOneofs.map fun i : Nat => (i : Int)).Nodup :=
    (List.nodup_range.filter _).map fun _ _ => Int.ofNat_inj.1
  rw [oneofSlot?, Schema.findIdx?_eq_some_iff_of_nodup hnodup fun i hi => (eq_of_beq hi).symm]
  simp only [beq_iff_eq]
  constructor
  · rintro ⟨i, hi, hindex⟩
    have hkept : d.Keeps i := Schema.mem_keptOneofs.1 (List.mem_of_getElem? hi)
    refine ⟨i, hindex, hkept, ?_⟩
    exact (List.getElem?_inj (List.getElem?_eq_some_iff.1 hi).1 (List.nodup_range.filter _)).1
      (hi.trans (getElem?_keptOneofs hkept).symm)
  · rintro ⟨i, hindex, hkept, rfl⟩
    exact ⟨i, getElem?_keptOneofs hkept, hindex⟩

/-- The oneof of that number has the name it is declared under. -/
theorem getElem?_oneofNames {i : Nat} (hi : d.Keeps i) :
    d.oneofNames[Nat.count d.Keeps i]? = (d.oneofs[i]?).map (·.name) := by
  have hsome : d.oneofNames.map some = d.keptOneofs.map fun i => (d.oneofs[i]?).map (·.name) := by
    rw [oneofNames, List.map_filterMap_some_eq_filter_map_isSome, List.filter_eq_self]
    intro name hname
    obtain ⟨k, hk, rfl⟩ := List.mem_map.1 hname
    rw [Option.isSome_map, List.getElem?_eq_getElem (Schema.mem_keptOneofs.1 hk).1]
    rfl
  have hget := congrArg (·[Nat.count d.Keeps i]?) hsome
  simp only [List.getElem?_map, getElem?_keptOneofs hi, Option.map_some] at hget
  rw [List.getElem?_eq_getElem hi.1, Option.map_some] at hget ⊢
  simpa using hget

end MessageDescriptor

namespace Schema

/-! ## Fields in oneofs -/

/-- A field is in no other oneof than the one its descriptor gives. -/
structure FieldKeepsOneof (d : MessageDescriptor) (fd : FieldDescriptor) (f : Field) : Prop where
  name : f.name = fd.name
  slot : ∀ k, f.oneof = some k ↔ d.InSlot fd k
  untracked : fd.tracksPresence = true → f.oneof = none

/-- **A message has the oneofs its descriptor keeps**, in the order they are declared and under
their names; its fields are in the ones they are declared in, and each oneof lists the positions of
its fields. -/
structure KeepsOneofs (d : MessageDescriptor) (m : Message) : Prop where
  oneofs : m.oneofs.map (·.name) = (d.oneofs.zipIdx.filter fun o => d.Keeps o.2).map (·.1.name)
  fields : List.Forall₂ (FieldKeepsOneof d) d.fields m.fields
  declared : ∀ fd ∈ d.fields, fd.tracksPresence = false → ∀ i : Nat,
    fd.oneofIndex.map Int32.toInt = some (i : Int) →
      ∃ o kept, d.oneofs[i]? = some o ∧ m.oneofs[Nat.count d.Keeps i]? = some kept ∧
        kept.name = o.name
  members : ∀ k i, i ∈ m.members k ↔ ∃ fd, d.fields[i]? = some fd ∧ d.InSlot fd k
  ascending : ∀ k, (m.members k).Pairwise (· < ·)

section Fields

variable {d : MessageDescriptor} {scope : String} {fd : FieldDescriptor}

/-- A field that is accepted gives a oneof that is kept, if it gives one and tracks no presence. -/
theorem keeps_of_bindOneof {oneof : Option Nat} (h : bindOneof d scope fd = .ok oneof)
    (htracks : fd.tracksPresence = false) {i : Nat}
    (hi : fd.oneofIndex.map Int32.toInt = some (i : Int)) : d.Keeps i := by
  obtain ⟨index, hindex, htoInt⟩ := Option.map_eq_some_iff.1 hi
  obtain ⟨slot, hslot⟩ := (exists_bindOneof_iff scope).1 ⟨oneof, h⟩ index hindex htracks
  obtain ⟨j, hj, hkept, -⟩ := MessageDescriptor.oneofSlot?_eq_some_iff.1 hslot
  obtain rfl : i = j := by omega
  exact hkept

/-- **The oneof of a field is the one it gives**, unless that only tracks presence. -/
theorem bindOneof_eq_some_iff {oneof : Option Nat} (h : bindOneof d scope fd = .ok oneof)
    {k : Nat} : oneof = some k ↔ d.InSlot fd k := by
  rw [bindOneof] at h
  split at h
  · rename_i index hindex htracks
    cases hslot : d.oneofSlot? index with
    | none => simp [hslot] at h
    | some slot =>
      rw [hslot] at h
      obtain rfl := Except.ok.inj h
      obtain ⟨i, hi, -, rfl⟩ := MessageDescriptor.oneofSlot?_eq_some_iff.1 hslot
      rw [MessageDescriptor.InSlot, htracks, hindex, Option.map_some, hi, Option.some_inj]
      simp only [true_and, Option.some.injEq, Int.natCast_inj, exists_eq_left', eq_comm]
  · rename_i hother
    obtain rfl := Except.ok.inj h
    refine ⟨fun hsome => absurd hsome.symm (Option.some_ne_none k), ?_⟩
    rintro ⟨htracks, i, hi, -⟩
    obtain ⟨index, hindex, -⟩ := Option.map_eq_some_iff.1 hi
    exact absurd htracks (hother index hindex)

end Fields

section Message

variable {t : Symbols} {d : Declared MessageDescriptor} {bound : List Message} {b m : Message}

/-- The oneofs of a message that is bound have the names of those that are kept. -/
theorem BoundMessage.map_name_oneofs (h : BoundMessage t d b) :
    b.oneofs.map (·.name) = d.body.oneofNames := by
  refine List.ext_getElem? fun k => ?_
  rw [h.oneofs, List.getElem?_map, getElem?_fillOneofs, Option.map_map]
  exact Option.map_id'

/-- A oneof lists the positions of the fields in it. -/
theorem Message.ListsMembers.mem_members (h : m.ListsMembers) {k i : Nat} :
    i ∈ m.members k ↔ ∃ f, m.fields[i]? = some f ∧ f.oneof = some k := by
  rw [h k, mem_findIdxs_iff]
  simp only [beq_iff_eq]

/-- **A message that is bound has the oneofs its descriptor keeps**, and still so when maps are
attached. -/
theorem BoundMessage.keepsOneofs (h : BoundMessage t d b) (hattached : AttachedMessage bound b m) :
    KeepsOneofs d.body m := by
  have hfields : List.Forall₂ (FieldKeepsOneof d.body) d.body.fields m.fields := by
    refine forall₂_trans h.fields hattached.fields fun fd f f' hf hf' => ?_
    obtain ⟨hname, -⟩ := hf'.name_type_eq
    have hslot (k : Nat) : f'.oneof = some k ↔ d.body.InSlot fd k := by
      rw [hf'.oneof_eq]
      exact bindOneof_eq_some_iff hf.oneof
    refine ⟨hname.trans hf.name, hslot, fun htracks => Option.eq_none_iff_forall_ne_some.2 ?_⟩
    exact fun k hk => absurd (((hslot k).1 hk).1.symm.trans htracks) Bool.false_ne_true
  have honeofs : m.oneofs.map (·.name) = d.body.oneofNames := by
    rw [hattached.eq]
    exact h.map_name_oneofs
  have hlists : m.ListsMembers := hattached.listsMembers h.listsMembers
  refine ⟨honeofs.trans MessageDescriptor.oneofNames_eq, hfields, fun fd hfd htracks i hi => ?_,
    fun k i => ?_, fun k => ?_⟩
  · obtain ⟨j, hj⟩ := List.mem_iff_getElem?.1 hfd
    obtain ⟨f, -, hf⟩ := forall₂_getElem?_left h.fields hj
    have hkept := keeps_of_bindOneof hf.oneof htracks hi
    have hname := MessageDescriptor.getElem?_oneofNames hkept
    rw [← honeofs, List.getElem?_map, List.getElem?_eq_getElem hkept.1, Option.map_some,
      Option.map_eq_some_iff] at hname
    obtain ⟨kept, hget, hname⟩ := hname
    exact ⟨_, kept, List.getElem?_eq_getElem hkept.1, hget, hname⟩
  · rw [hlists.mem_members]
    constructor
    · rintro ⟨f, hf, hk⟩
      obtain ⟨fd, hfd, hkeeps⟩ := forall₂_getElem?_right hfields hf
      exact ⟨fd, hfd, (hkeeps.slot k).1 hk⟩
    · rintro ⟨fd, hfd, hin⟩
      obtain ⟨f, hf, hkeeps⟩ := forall₂_getElem?_left hfields hfd
      exact ⟨f, hf, (hkeeps.slot k).2 hin⟩
  · rw [hlists k]
    exact List.pairwise_findIdxs

end Message

/-- **Oneofs keep their fields when those that only track presence go.**  Every message of a schema
is declared in one of the files and has the oneofs that are kept there, in order, with the fields
that are declared in them; and so has every message that the files declare. -/
theorem oneofs_keep_their_fields {files : List FileDescriptor} {s : Schema}
    (h : resolve files = .ok s) :
    (∀ m ∈ s.messages, ∃ f ∈ files, ∃ d ∈ f.allMessages,
      d.1 = m.fullName ∧ KeepsOneofs d.2 m) ∧
    ∀ f ∈ files, ∀ d ∈ f.allMessages, ∃ m ∈ s.messages,
      m.fullName = d.1 ∧ KeepsOneofs d.2 m := by
  obtain ⟨order, bound, hperm, -, hbound⟩ := exists_resolvesTo h
  have hfullName {t : Symbols} {d : Declared MessageDescriptor} {b m : Message}
      (hb : BoundMessage t d b) (hm : AttachedMessage bound b m) : m.fullName = d.fullName := by
    rw [hm.eq]
    exact hb.fullName
  constructor
  · intro m hm
    obtain ⟨id, hid⟩ := List.mem_iff_getElem?.1 hm
    obtain ⟨d, b, hd, -, hb, hattached⟩ := hbound.exists_declared hid
    obtain ⟨-, f, hf, hmem⟩ := mem_allMessages (List.mem_of_getElem? hd)
    exact ⟨f, hperm.mem_iff.1 (List.mem_of_getElem? hf), _, hmem, (hfullName hb hattached).symm,
      hb.keepsOneofs hattached⟩
  · intro f hf d hd
    obtain ⟨n, hn⟩ := List.mem_iff_getElem?.1 (hperm.mem_iff.2 hf)
    obtain ⟨declared, hdeclared, -, rfl⟩ := exists_mem_messagesOf hn hd
    obtain ⟨id, hid⟩ := List.mem_iff_getElem?.1 hdeclared
    obtain ⟨b, m, -, hm, hb, hattached⟩ := hbound.exists_message hid
    exact ⟨m, List.mem_of_getElem? hm, hfullName hb hattached, hb.keepsOneofs hattached⟩

/-- A file with a message of four oneofs, of which the first and the third only track presence. -/
def ballot : FileDescriptor where
  name := "ballot.proto"
  package := ""
  imports := []
  messages := [⟨"Ballot",
    [⟨"weight", 1, 1, 5, "", none, some 0, "weight", true⟩,
      ⟨"name", 2, 1, 9, "", none, some 1, "name", false⟩,
      ⟨"proxy", 3, 1, 5, "", none, some 2, "proxy", true⟩,
      ⟨"yes", 4, 1, 8, "", none, some 3, "yes", false⟩,
      ⟨"note", 5, 1, 9, "", none, none, "note", false⟩,
      ⟨"id", 6, 1, 5, "", none, some 1, "id", false⟩], [], [], none,
    [⟨"_weight"⟩, ⟨"voter"⟩, ⟨"_proxy"⟩, ⟨"choice"⟩]⟩]
  enums := []
  dialect := "proto3"

/-- The message in `ballot`: the second and the fourth oneof have become the first two. -/
def ballotMessage : Message where
  name := "Ballot"
  fullName := "Ballot"
  file := 0
  parent := none
  fields := [⟨"weight", 1, .scalar .int32, false, false, none, none⟩,
    ⟨"name", 2, .scalar .string, false, false, none, some 0⟩,
    ⟨"proxy", 3, .scalar .int32, false, false, none, none⟩,
    ⟨"yes", 4, .scalar .bool, false, false, none, some 1⟩,
    ⟨"note", 5, .scalar .string, false, false, none, none⟩,
    ⟨"id", 6, .scalar .int32, false, false, none, some 0⟩]
  oneofs := [⟨"voter", [1, 5]⟩, ⟨"choice", [3]⟩]
  contents := ⟨[], []⟩
  isMapEntry := false

theorem oneofs_keep_their_fields_ballot : ∃ s, resolve [ballot] = .ok s ∧
    s.messages = [ballotMessage] ∧ ballotMessage.members 0 = [1, 5] ∧
    ballotMessage.members 1 = [3] ∧
    ∃ f ∈ [ballot], ∃ d ∈ f.allMessages,
      d.1 = ballotMessage.fullName ∧ KeepsOneofs d.2 ballotMessage := by
  have horder : importOrder [ballot] = .ok [ballot] := by cbv
  obtain ⟨s, hresolve, hmessages⟩ := exists_resolve_of_map_eq_ok (g := (·.messages))
    (a := [ballotMessage]) horder (by decide +kernel)
  refine ⟨s, hresolve, hmessages, rfl, rfl, ?_⟩
  exact (oneofs_keep_their_fields hresolve).1 _ (hmessages ▸ List.mem_singleton_self _)

end Schema

end Protowire
