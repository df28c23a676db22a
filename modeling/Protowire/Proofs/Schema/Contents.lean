import Mathlib.Data.List.Basic
import Protowire.Proofs.Schema.Declaration
import Protowire.Schema.Contents

/-!
# Proofs/Schema/Contents — the lists of what stands in a place hold what stands there

Everything that is declared stands in a place, a file or a message (`Declared.place`).  The lists of
a place are made by counting along the descriptors, without a look at places; here they are shown to
be **the numbers of what stands there** (`standingAt`), in order.

The argument goes along the row.  What is inside one message of it stands in that message or in
messages behind it and in front of the next one (`place?_of_mem_declareMessages`), so of the parts
of a row just one has anything in a given place, and the lists of a place are those of that part
(`nestedContentsAll_eq`).  The same holds of the files one after the other (`contentsFrom_eq`).
-/

namespace Protowire

namespace MessageDescriptor

theorem count_eq (m : MessageDescriptor) : m.count = countAll m.messages + 1 := by
  cases m
  rfl

end MessageDescriptor

namespace Schema

/-! ## The numbers of what has a property -/

section Numbers

variable {α : Type} {l : List α} {p : α → Bool}

theorem findIdxs_eq_range' {start : Nat} (h : ∀ a ∈ l, p a = true) :
    l.findIdxs p start = List.range' start l.length := by
  induction l generalizing start with
  | nil => rfl
  | cons a l ih =>
    rw [List.forall_mem_cons] at h
    rw [List.findIdxs_cons, if_pos h.1, ih h.2, List.length_cons, List.range'_succ]

theorem mem_findIdxs_iff {i : Nat} : i ∈ l.findIdxs p ↔ ∃ a, l[i]? = some a ∧ p a = true := by
  rw [List.mem_findIdxs_iff_exists_getElem_pos]
  constructor
  · rintro ⟨hi, hp⟩
    exact ⟨l[i], List.getElem?_eq_getElem hi, hp⟩
  · rintro ⟨a, ha, hp⟩
    obtain ⟨hi, rfl⟩ := List.getElem?_eq_some_iff.1 ha
    exact ⟨hi, hp⟩

theorem count_findIdxs {i : Nat} {a : α} (ha : l[i]? = some a) :
    (l.findIdxs p).count i = if p a = true then 1 else 0 := by
  obtain ⟨hi, rfl⟩ := List.getElem?_eq_some_iff.1 ha
  rw [List.nodup_findIdxs.count]
  exact if_congr (List.mem_findIdxs_iff_pos_getElem hi) rfl rfl

/-- What stands at those numbers is what has the property, in order. -/
theorem filterMap_findIdxs (l : List α) (p : α → Bool) :
    (l.findIdxs p).filterMap (l[·]?) = l.filter p := by
  induction l with
  | nil => rfl
  | cons a l ih =>
    have hrest : (l.findIdxs p 1).filterMap ((a :: l)[·]?) = l.filter p := by
      rw [List.findIdxs_start, List.filterMap_map, ← ih]
      rfl
    rw [List.findIdxs_cons, List.filter_cons]
    split
    · rw [List.filterMap_cons_some List.getElem?_cons_zero, hrest]
    · exact hrest

end Numbers

/-! ## Places -/

/-- The place of what has a file and may have a message around it. -/
def Place.of (file : FileId) (parent : Option MessageId) : Place :=
  parent.elim (.file file) .message

theorem Place.of_eq_message_iff {file : FileId} {parent : Option MessageId} {p : MessageId} :
    of file parent = .message p ↔ parent = some p := by
  cases parent with
  | none => exact iff_of_false nofun nofun
  | some q => exact Place.message.injEq q p ▸ Option.some_inj.symm

theorem Place.of_eq_file_iff {file : FileId} {parent : Option MessageId} {i : FileId} :
    of file parent = .file i ↔ file = i ∧ parent = none := by
  cases parent with
  | none => simp [of]
  | some q => exact iff_of_false nofun nofun

/-- The place something stands in. -/
def Declared.place {α : Type} (d : Declared α) : Place :=
  .of d.file d.parent

/-- The place a message or an enum stands in. -/
def Declaration.place? : Declaration → Option Place
  | file _ => none
  | message d => some d.place
  | enumeration d => some d.place

theorem Declaration.place?_of_message? {x : Declaration} {d : Declared MessageDescriptor}
    (h : x.message? = some d) : x.place? = some d.place := by
  cases x with
  | message d' => exact congrArg (some ·.place) (Option.some.inj h)
  | file _ | enumeration _ => cases h

theorem Declaration.place?_of_enumeration? {x : Declaration} {d : Declared EnumDescriptor}
    (h : x.enumeration? = some d) : x.place? = some d.place := by
  cases x with
  | enumeration d' => exact congrArg (some ·.place) (Option.some.inj h)
  | file _ | message _ => cases h

/-- The numbers of the messages and enums that stand in a place, in a row whose first message has
the number `id` and whose first enum the number `enum`. -/
def standingAt (ds : List Declaration) (id : MessageId) (enum : EnumId) (place : Place) :
    Contents :=
  ⟨(messagesOf ds).findIdxs (·.place == place) id, (enumsOf ds).findIdxs (·.place == place) enum⟩

/-- Nothing in the row stands in the place. -/
def Lacks (ds : List Declaration) (place : Place) : Prop :=
  ∀ d ∈ ds, d.place? ≠ some place

/-! ## Parts of a row -/

section Parts

variable {ds ds' : List Declaration} {id enum : Nat} {place : Place}

theorem messagesOf_append : messagesOf (ds ++ ds') = messagesOf ds ++ messagesOf ds' :=
  List.filterMap_append ..

theorem enumsOf_append : enumsOf (ds ++ ds') = enumsOf ds ++ enumsOf ds' :=
  List.filterMap_append ..

/-- What a row does not have in a place, nothing that is picked out of it has there. -/
theorem Lacks.findIdxs_filterMap (h : Lacks ds place) {α : Type}
    {pick : Declaration → Option (Declared α)} {start : Nat}
    (hpick : ∀ {x d}, pick x = some d → x.place? = some d.place) :
    (ds.filterMap pick).findIdxs (·.place == place) start = [] := by
  refine List.findIdxs_eq_nil_iff.2 fun d hd => beq_eq_false_iff_ne.2 fun hplace => ?_
  obtain ⟨x, hx, hd⟩ := List.mem_filterMap.1 hd
  exact h x hx ((hpick hd).trans (congrArg some hplace))

theorem Lacks.findIdxs_messagesOf (h : Lacks ds place) :
    (messagesOf ds).findIdxs (·.place == place) id = [] :=
  h.findIdxs_filterMap Declaration.place?_of_message?

theorem Lacks.findIdxs_enumsOf (h : Lacks ds place) :
    (enumsOf ds).findIdxs (·.place == place) enum = [] :=
  h.findIdxs_filterMap Declaration.place?_of_enumeration?

/-- What stands in a place stands in the part of the row behind one that has nothing there. -/
theorem Lacks.standingAt_append (h : Lacks ds place) : standingAt (ds ++ ds') id enum place =
    standingAt ds' (id + (messagesOf ds).length) (enum + (enumsOf ds).length) place := by
  rw [standingAt, messagesOf_append, enumsOf_append, List.findIdxs_append, List.findIdxs_append,
    h.findIdxs_messagesOf, h.findIdxs_enumsOf, List.nil_append, List.nil_append, standingAt]

/-- What stands in a place stands in the part of the row in front of one that has nothing there. -/
theorem Lacks.standingAt_append_right (h : Lacks ds' place) :
    standingAt (ds ++ ds') id enum place = standingAt ds id enum place := by
  rw [standingAt, messagesOf_append, enumsOf_append, List.findIdxs_append, List.findIdxs_append,
    h.findIdxs_messagesOf, h.findIdxs_enumsOf, List.append_nil, List.append_nil, standingAt]

end Parts

/-! ## Inside a file -/

section Row

variable {file : FileId} {parent : Option Nat} {scope : String} {id enum : Nat} {place : Place}

theorem length_enumsOf_declareMessages (ms : List MessageDescriptor) :
    (enumsOf (declareMessages file parent scope id ms)).length
      = MessageDescriptor.enumCountAll ms := by
  induction ms using MessageDescriptor.forestInduction generalizing parent scope id with
  | nil => rfl
  | cons m ms hinner hrest =>
    rw [enumsOf_declareMessages_cons, List.length_append, List.length_append, List.length_map,
      hinner, hrest]
    cases m
    rfl

theorem place?_of_mem_declareEnums {enums : List EnumDescriptor} {x : Declaration}
    (hx : x ∈ declareEnums file parent scope enums) : x.place? = some (.of file parent) := by
  obtain ⟨e, -, rfl⟩ := List.mem_map.1 hx
  rfl

/-- **What is in a row stands where the row stands, or in a message of it.** -/
theorem place?_of_mem_declareMessages {ms : List MessageDescriptor} {x : Declaration}
    (hx : x ∈ declareMessages file parent scope id ms) :
    (x.place? = some (.of file parent) ∧ x.enumeration? = none) ∨
      ∃ p : Nat, x.place? = some (.message p) ∧ id ≤ p ∧
        p < id + MessageDescriptor.countAll ms := by
  induction ms using MessageDescriptor.forestInduction generalizing parent scope id with
  | nil => exact absurd hx List.not_mem_nil
  | cons m ms hinner hrest =>
    have hcount := MessageDescriptor.count_eq m
    rw [MessageDescriptor.countAll_cons]
    rw [declareMessages_cons, List.mem_append, List.mem_cons, List.mem_append] at hx
    rcases hx with (rfl | hx | hx) | hx
    · exact .inl ⟨rfl, rfl⟩
    · rcases hinner hx with ⟨hplace, -⟩ | ⟨p, hplace, hle, hlt⟩
      · exact .inr ⟨id, hplace, by omega, by omega⟩
      · exact .inr ⟨p, hplace, by omega, by omega⟩
    · exact .inr ⟨id, place?_of_mem_declareEnums hx, by omega, by omega⟩
    · rcases hrest hx with hout | ⟨p, hplace, hle, hlt⟩
      · exact .inl hout
      · exact .inr ⟨p, hplace, by omega, by omega⟩

/-- A row has nothing in a place that is neither where it stands nor one of its messages. -/
theorem lacks_declareMessages {ms : List MessageDescriptor} (hplace : place ≠ .of file parent)
    (hmessage : ∀ p : Nat, place = .message p → p < id ∨ id + MessageDescriptor.countAll ms ≤ p) :
    Lacks (declareMessages file parent scope id ms) place := by
  intro x hx heq
  rcases place?_of_mem_declareMessages hx with ⟨hx, -⟩ | ⟨p, hx, hle, hlt⟩
  · exact hplace (Option.some.inj (heq.symm.trans hx))
  · have := hmessage p (Option.some.inj (heq.symm.trans hx))
    omega

theorem lacks_declareEnums {enums : List EnumDescriptor} (hplace : place ≠ .of file parent) :
    Lacks (declareEnums file parent scope enums) place :=
  fun _ hx heq => hplace (Option.some.inj (heq.symm.trans (place?_of_mem_declareEnums hx)))

/-- A row stands in none of its messages. -/
theorem ne_message_of_fresh (hfresh : ∀ p, parent = some p → p < id) {p : Nat} (hp : id ≤ p) :
    Place.of file parent ≠ .message p := fun heq =>
  Nat.not_lt.2 hp (hfresh p (Place.of_eq_message_iff.1 heq))

/-- The messages where a row stands are found by counting. -/
theorem findIdxs_messagesOf_declareMessages (hfresh : ∀ p, parent = some p → p < id)
    (ms : List MessageDescriptor) :
    (messagesOf (declareMessages file parent scope id ms)).findIdxs
      (·.place == .of file parent) id = messageIds id ms := by
  induction ms generalizing id with
  | nil => rfl
  | cons m ms ih =>
    have hinner : Lacks (declareMessages file (some id) (qualify scope m.name) (id + 1) m.messages)
        (.of file parent) :=
      lacks_declareMessages (ne_message_of_fresh hfresh (Nat.le_refl id)) fun p hp =>
        .inl (Nat.lt_succ_of_lt (hfresh p (Place.of_eq_message_iff.1 hp)))
    have hhead : ((⟨file, parent, scope, m.name, m⟩ : Declared MessageDescriptor).place
        == Place.of file parent) = true := beq_self_eq_true _
    rw [messagesOf_declareMessages_cons, ← List.cons_append, List.findIdxs_append,
      List.findIdxs_cons, if_pos hhead, hinner.findIdxs_messagesOf, ← add_count_eq m, messageIds,
      ih fun p hp => Nat.lt_of_lt_of_le (hfresh p hp) (Nat.le_add_right _ _)]
    rfl

/-- **What stands where a row stands**, with the enums behind the row, is found by counting. -/
theorem standingAt_declareMessages (hfresh : ∀ p, parent = some p → p < id)
    (ms : List MessageDescriptor) (enums : List EnumDescriptor) :
    standingAt (declareMessages file parent scope id ms ++ declareEnums file parent scope enums)
      id enum (.of file parent) = contentsAt id enum ms enums := by
  have hinside : (enumsOf (declareMessages file parent scope id ms)).findIdxs
      (·.place == .of file parent) enum = [] := by
    refine List.findIdxs_eq_nil_iff.2 fun d hd => beq_eq_false_iff_ne.2 fun heq => ?_
    obtain ⟨x, hx, henum⟩ := List.mem_filterMap.1 hd
    rcases place?_of_mem_declareMessages hx with ⟨-, hnone⟩ | ⟨p, hplace, hle, -⟩
    · exact absurd (hnone.symm.trans henum) nofun
    · rw [Declaration.place?_of_enumeration? henum, heq] at hplace
      exact ne_message_of_fresh hfresh hle (Option.some.inj hplace)
  have hall : ∀ d ∈ enums.map fun e => (⟨file, parent, scope, e.name, e⟩ : Declared EnumDescriptor),
      (d.place == .of file parent) = true := by
    refine List.forall_mem_map.2 fun e _ => ?_
    exact beq_self_eq_true (Place.of file parent)
  rw [standingAt, contentsAt, messagesOf_append, messagesOf_declareEnums, List.append_nil,
    findIdxs_messagesOf_declareMessages hfresh, enumsOf_append, enumsOf_declareEnums,
    List.findIdxs_append, hinside, length_enumsOf_declareMessages, findIdxs_eq_range' hall,
    List.length_map, List.nil_append]

variable {m : MessageDescriptor} {ms : List MessageDescriptor} {p : Nat}

/-- What stands in the first message of a row, or in one inside it, is inside it. -/
theorem standingAt_cons_inside (hfresh : ∀ p, parent = some p → p < id) (hle : id ≤ p)
    (hlt : p < id + m.count) :
    standingAt (declareMessages file parent scope id (m :: ms)) id enum (.message p) =
      standingAt (declareMessages file (some id) (qualify scope m.name) (id + 1) m.messages ++
        declareEnums file (some id) (qualify scope m.name) m.enums) (id + 1) enum (.message p) := by
  have hfirst : Lacks [.message ⟨file, parent, scope, m.name, m⟩] (.message p) :=
    List.forall_mem_singleton.2 fun heq =>
      ne_message_of_fresh hfresh hle (Option.some.inj heq)
  have hrest : Lacks (declareMessages file parent scope (id + m.count) ms) (.message p) :=
    lacks_declareMessages (ne_message_of_fresh hfresh hle).symm fun q hq => by
      obtain rfl : p = q := Place.message.inj hq
      exact .inl hlt
  rw [declareMessages_cons, hrest.standingAt_append_right, ← List.singleton_append,
    hfirst.standingAt_append]
  rfl

/-- What stands in a message behind the first of a row and those inside it is behind them. -/
theorem standingAt_cons_behind (hfresh : ∀ p, parent = some p → p < id) (hle : id + m.count ≤ p) :
    standingAt (declareMessages file parent scope id (m :: ms)) id enum (.message p) =
      standingAt (declareMessages file parent scope (id + m.count) ms) (id + m.count)
        (enum + m.enumCount) (.message p) := by
  have hsplit : declareMessages file parent scope id (m :: ms) =
      declareMessages file parent scope id [m] ++
        declareMessages file parent scope (id + m.count) ms := by
    simp only [declareMessages, List.append_nil]
  have hfirst : Lacks (declareMessages file parent scope id [m]) (.message p) :=
    lacks_declareMessages (ne_message_of_fresh hfresh (Nat.le_of_add_right_le hle)).symm
      fun q hq => by
        obtain rfl : p = q := Place.message.inj hq
        exact .inr hle
  rw [hsplit, hfirst.standingAt_append, length_messagesOf_declareMessages,
    length_enumsOf_declareMessages]
  rfl

/-- **What stands in each message of a row** is found by counting. -/
theorem nestedContentsAll_eq (file : FileId) (parent : Option Nat) (scope : String)
    (hfresh : ∀ p, parent = some p → p < id) (ms : List MessageDescriptor) :
    nestedContentsAll id enum ms =
      (List.range' id (MessageDescriptor.countAll ms)).map fun p =>
        standingAt (declareMessages file parent scope id ms) id enum (.message p) := by
  induction ms using MessageDescriptor.forestInduction generalizing parent scope id enum with
  | nil => rfl
  | cons m ms hinner hrest =>
    have hcount := MessageDescriptor.count_eq m
    have hsplit : nestedContentsAll id enum (m :: ms) =
        contentsAt (id + 1) enum m.messages m.enums ::
          (nestedContentsAll (id + 1) enum m.messages ++
            nestedContentsAll (id + m.count) (enum + m.enumCount) ms) := by
      cases m
      rfl
    have hrange : List.range' id (MessageDescriptor.countAll (m :: ms)) =
        id :: (List.range' (id + 1) (MessageDescriptor.countAll m.messages) ++
          List.range' (id + m.count) (MessageDescriptor.countAll ms)) := by
      have hbehind : id + m.count = id + 1 + MessageDescriptor.countAll m.messages := by omega
      rw [MessageDescriptor.countAll_cons, Nat.add_right_comm, List.range'_succ, hbehind,
        List.range'_append_1]
    have hself : ∀ p, some id = some p → p < id + 1 := fun p hp =>
      Option.some.inj hp ▸ Nat.lt_succ_self _
    have hbehind : ∀ p, parent = some p → p < id + m.count := fun p hp =>
      Nat.lt_of_lt_of_le (hfresh p hp) (Nat.le_add_right _ _)
    have hfirst : standingAt (declareMessages file (some id) (qualify scope m.name) (id + 1)
        m.messages ++ declareEnums file (some id) (qualify scope m.name) m.enums) (id + 1) enum
        (.message id) = contentsAt (id + 1) enum m.messages m.enums :=
      standingAt_declareMessages hself m.messages m.enums
    rw [hsplit, hrange, List.map_cons, List.map_append, hinner _ _ hself, hrest _ _ hbehind]
    congr 1
    · rw [standingAt_cons_inside hfresh (Nat.le_refl id) (by omega)]
      exact hfirst.symm
    congr 1
    · refine List.map_congr_left fun p hp => ?_
      rw [List.mem_range'_1] at hp
      rw [standingAt_cons_inside hfresh (by omega) (by omega), Lacks.standingAt_append_right]
      refine lacks_declareEnums fun heq => ?_
      obtain rfl : p = id := Place.message.inj heq
      omega
    · refine List.map_congr_left fun p hp => ?_
      rw [List.mem_range'_1] at hp
      exact (standingAt_cons_behind hfresh hp.1).symm

end Row

/-! ## From file to file -/

section Files

variable {file id enum : Nat} {f : FileDescriptor} {fs : List FileDescriptor}

/-- How many messages the files declare. -/
def messageCount : List FileDescriptor → Nat
  | [] => 0
  | f :: fs => MessageDescriptor.countAll f.messages + messageCount fs

theorem length_messagesOf_declareFiles :
    (messagesOf (declareFiles file id fs)).length = messageCount fs := by
  induction fs generalizing file id with
  | nil => rfl
  | cons f fs ih =>
    rw [declareFiles, ← List.singleton_append, messagesOf_append, messagesOf_append,
      messagesOf_append, messagesOf_declareEnums, List.append_nil, List.length_append,
      List.length_append, length_messagesOf_declareMessages, ih, messageCount]
    exact Nat.zero_add _

/-- **What files declare stands in one of them or in one of their messages.** -/
theorem place?_of_mem_declareFiles {x : Declaration} {place : Place}
    (hx : x ∈ declareFiles file id fs) (hplace : x.place? = some place) :
    (∃ n : Nat, place = .file n ∧ file ≤ n ∧ n < file + fs.length) ∨
      ∃ p : Nat, place = .message p ∧ id ≤ p ∧ p < id + messageCount fs := by
  induction fs generalizing file id with
  | nil => exact absurd hx List.not_mem_nil
  | cons f fs ih =>
    rw [messageCount, List.length_cons]
    rw [declareFiles, List.mem_cons, List.mem_append, List.mem_append] at hx
    rcases hx with rfl | (hx | hx) | hx
    · cases hplace
    · rcases place?_of_mem_declareMessages hx with ⟨hx, -⟩ | ⟨p, hx, hle, hlt⟩
      · exact .inl ⟨file, Option.some.inj (hplace.symm.trans hx), by omega, by omega⟩
      · exact .inr ⟨p, Option.some.inj (hplace.symm.trans hx), by omega, by omega⟩
    · have hx := place?_of_mem_declareEnums hx
      exact .inl ⟨file, Option.some.inj (hplace.symm.trans hx), by omega, by omega⟩
    · rcases ih hx with ⟨n, hplace, hle, hlt⟩ | ⟨p, hplace, hle, hlt⟩
      · exact .inl ⟨n, hplace, by omega, by omega⟩
      · exact .inr ⟨p, hplace, by omega, by omega⟩

theorem lacks_declareFiles_file {n : Nat} (h : n < file ∨ file + fs.length ≤ n) :
    Lacks (declareFiles file id fs) (.file n) := by
  intro x hx hplace
  rcases place?_of_mem_declareFiles hx hplace with ⟨m, heq, hle, hlt⟩ | ⟨p, heq, -⟩
  · obtain rfl : n = m := Place.file.inj heq
    omega
  · cases heq

theorem lacks_declareFiles_message {p : Nat} (h : p < id ∨ id + messageCount fs ≤ p) :
    Lacks (declareFiles file id fs) (.message p) := by
  intro x hx hplace
  rcases place?_of_mem_declareFiles hx hplace with ⟨m, heq, -⟩ | ⟨q, heq, hle, hlt⟩
  · cases heq
  · obtain rfl : p = q := Place.message.inj heq
    omega

theorem declareFiles_cons_eq_append :
    declareFiles file id (f :: fs) = declareFiles file id [f] ++
      declareFiles (file + 1) (id + MessageDescriptor.countAll f.messages) fs := by
  simp only [declareFiles, List.append_nil, List.cons_append, List.append_assoc]

theorem standingAt_declareFiles_singleton {place : Place} :
    standingAt (declareFiles file id [f]) id enum place =
      standingAt (declareMessages file none f.package id f.messages ++
        declareEnums file none f.package f.enums) id enum place := by
  rw [declareFiles, declareFiles, List.append_nil]
  rfl

/-- What stands behind the first file stands in the row of the others. -/
theorem standingAt_declareFiles_behind {place : Place}
    (h : Lacks (declareFiles file id [f]) place) :
    standingAt (declareFiles file id (f :: fs)) id enum place =
      standingAt (declareFiles (file + 1) (id + MessageDescriptor.countAll f.messages) fs)
        (id + MessageDescriptor.countAll f.messages)
        (enum + MessageDescriptor.enumCountAll f.messages + f.enums.length) place := by
  have henums : (enumsOf (declareFiles file id [f])).length
      = MessageDescriptor.enumCountAll f.messages + f.enums.length := by
    rw [declareFiles, declareFiles, List.append_nil, ← List.singleton_append, enumsOf_append,
      enumsOf_append, enumsOf_declareEnums, List.length_append, List.length_append,
      length_enumsOf_declareMessages, List.length_map]
    exact Nat.zero_add _
  rw [declareFiles_cons_eq_append, h.standingAt_append, length_messagesOf_declareFiles, henums,
    Nat.add_assoc enum]
  rfl

/-- **What stands at the top of each file and in each message** is found by counting. -/
theorem contentsFrom_eq (file : FileId) (fs : List FileDescriptor) : contentsFrom id enum fs =
    ((List.range' file fs.length).map fun n =>
        standingAt (declareFiles file id fs) id enum (.file n),
      (List.range' id (messageCount fs)).map fun p =>
        standingAt (declareFiles file id fs) id enum (.message p)) := by
  induction fs generalizing file id enum with
  | nil => rfl
  | cons f fs ih =>
    have hfresh : ∀ p, (none : Option Nat) = some p → p < id := nofun
    -- The first file has what stands at its top and in its messages, and nothing behind it has.
    have htop : standingAt (declareFiles file id (f :: fs)) id enum (.file file) =
        contentsAt id enum f.messages f.enums := by
      have hrest : Lacks (declareFiles (file + 1) (id + MessageDescriptor.countAll f.messages) fs)
          (.file file) := lacks_declareFiles_file (.inl (Nat.lt_succ_self file))
      rw [declareFiles_cons_eq_append, hrest.standingAt_append_right,
        standingAt_declareFiles_singleton]
      exact standingAt_declareMessages hfresh f.messages f.enums
    have hinside : ∀ p, p < id + MessageDescriptor.countAll f.messages →
        standingAt (declareFiles file id (f :: fs)) id enum (.message p) =
          standingAt (declareMessages file none f.package id f.messages) id enum (.message p) := by
      intro p hlt
      have hrest : Lacks (declareFiles (file + 1) (id + MessageDescriptor.countAll f.messages) fs)
          (.message p) := lacks_declareFiles_message (.inl hlt)
      rw [declareFiles_cons_eq_append, hrest.standingAt_append_right,
        standingAt_declareFiles_singleton, Lacks.standingAt_append_right]
      exact lacks_declareEnums nofun
    have hbehind : ∀ p, id + MessageDescriptor.countAll f.messages ≤ p →
        Lacks (declareFiles file id [f]) (.message p) := fun p hle =>
      lacks_declareFiles_message (.inr hle)
    have hafter : ∀ n, file + 1 ≤ n → Lacks (declareFiles file id [f]) (.file n) := fun n hle =>
      lacks_declareFiles_file (.inr hle)
    rw [contentsFrom, ih (file + 1), nestedContentsAll_eq file none f.package hfresh,
      messageCount, ← List.range'_append_1, List.length_cons, List.range'_succ, List.map_cons,
      List.map_append, htop]
    refine Prod.ext (congrArg (_ :: ·) ?_) (congrArg₂ (· ++ ·) ?_ ?_)
    · refine List.map_congr_left fun n hn => ?_
      exact (standingAt_declareFiles_behind (hafter n (List.mem_range'_1.1 hn).1)).symm
    · refine List.map_congr_left fun p hp => ?_
      exact (hinside p (List.mem_range'_1.1 hp).2).symm
    · refine List.map_congr_left fun p hp => ?_
      exact (standingAt_declareFiles_behind (hbehind p (List.mem_range'_1.1 hp).1)).symm

end Files

/-- The numbers of what stands in a place, among all that the files declare. -/
def contentsOf (files : List FileDescriptor) (place : Place) : Contents :=
  standingAt (declarations files) 0 0 place

variable {files : List FileDescriptor}

/-- Nothing stands in a file or a message that there is not. -/
theorem contentsOf_eq_nil {place : Place}
    (h : Lacks (declarations files) place) : contentsOf files place = ⟨[], []⟩ := by
  rw [contentsOf, standingAt, h.findIdxs_messagesOf, h.findIdxs_enumsOf]

theorem lacks_declarations_file {id : Nat} (h : files.length ≤ id) :
    Lacks (declarations files) (.file id) :=
  lacks_declareFiles_file (.inr (by rwa [Nat.zero_add]))

theorem lacks_declarations_message {id : Nat} (h : (messagesOf (declarations files)).length ≤ id) :
    Lacks (declarations files) (.message id) := by
  rw [declarations, length_messagesOf_declareFiles] at h
  exact lacks_declareFiles_message (.inr (by rwa [Nat.zero_add]))

/-- **Each file lists what stands at its top.** -/
theorem fileContents_eq :
    fileContents files = (List.range files.length).map fun n => contentsOf files (.file n) := by
  rw [fileContents, contentsFrom_eq 0, List.range_eq_range']
  rfl

/-- **Each message lists what is nested in it.** -/
theorem messageContents_eq : messageContents files =
    (List.range (messagesOf (declarations files)).length).map fun p =>
      contentsOf files (.message p) := by
  rw [messageContents, contentsFrom_eq 0, List.range_eq_range', declarations,
    length_messagesOf_declareFiles]
  rfl

end Schema

end Protowire
