import Mathlib.Data.List.Perm.Basic
import Protowire.Schema.Declaration

/-!
# Proofs/Schema/Declaration — what a file declares, and where that comes in the row

A file by itself declares messages and enums, each with a full name (`FileDescriptor.allMessages`,
`FileDescriptor.allEnums`).  The row of several files holds what each of them declares, **moved as
a whole**: `Picks.getElem?_declarations` says that what has a number in the row has one in the row
of a file by itself, and comes with that file and with its parent moved by as many messages as come
before it.

From that the parents follow: what stands in nothing has the package in front of its name, and the
message something stands in comes before it, is in the same file and has its name in front
(`Standing`).

Everything is declared without a fault exactly when dialects are understood, enums have values and
all names are different (`checkDeclarations_eq_ok_iff`).
-/

namespace Protowire

namespace MessageDescriptor

mutual

/-- The message and those inside it, each with its full name. -/
def named (scope : String) : MessageDescriptor → List (String × MessageDescriptor)
  | ⟨name, fields, messages, enums, options, oneofs⟩ =>
    (qualify scope name, ⟨name, fields, messages, enums, options, oneofs⟩) ::
      namedAll (qualify scope name) messages

/-- The messages and those inside them, each with its full name. -/
def namedAll (scope : String) : List MessageDescriptor → List (String × MessageDescriptor)
  | [] => []
  | m :: ms => named scope m ++ namedAll scope ms

end

/-- The enums that stand directly in a message of a full name, each with its full name. -/
def ownEnums (m : String × MessageDescriptor) : List (String × EnumDescriptor) :=
  m.2.enums.map fun e => (qualify m.1 e.name, e)

theorem sizeOf_messages_lt (m : MessageDescriptor) : sizeOf m.messages < sizeOf m := by
  cases m
  simp only [MessageDescriptor.mk.sizeOf_spec]
  omega

/-- What holds of no messages, and of messages when it holds of those inside the first and of the
others, holds of all messages. -/
@[elab_as_elim]
theorem forestInduction {P : List MessageDescriptor → Prop} (nil : P [])
    (cons : ∀ m ms, P m.messages → P ms → P (m :: ms)) : (ms : List MessageDescriptor) → P ms
  | [] => nil
  | m :: ms => cons m ms (forestInduction nil cons m.messages) (forestInduction nil cons ms)
termination_by ms => sizeOf ms
decreasing_by
  · have := sizeOf_messages_lt m
    simp only [List.cons.sizeOf_spec]
    omega
  · simp only [List.cons.sizeOf_spec]
    omega

theorem countAll_cons (m : MessageDescriptor) (ms : List MessageDescriptor) :
    countAll (m :: ms) = countAll m.messages + 1 + countAll ms := by
  cases m
  rfl

theorem namedAll_cons (scope : String) (m : MessageDescriptor) (ms : List MessageDescriptor) :
    namedAll scope (m :: ms)
      = (qualify scope m.name, m) :: (namedAll (qualify scope m.name) m.messages ++
          namedAll scope ms) := by
  cases m
  rfl

end MessageDescriptor

namespace FileDescriptor

/-- The messages in a file, each with its full name. -/
def allMessages (f : FileDescriptor) : List (String × MessageDescriptor) :=
  MessageDescriptor.namedAll f.package f.messages

/-- The enums in a file, each with its full name. -/
def allEnums (f : FileDescriptor) : List (String × EnumDescriptor) :=
  f.allMessages.flatMap MessageDescriptor.ownEnums ++
    f.enums.map fun e => (qualify f.package e.name, e)

/-- The full names of the messages and enums in a file. -/
def allNames (f : FileDescriptor) : List String :=
  f.allMessages.map (·.1) ++ f.allEnums.map (·.1)

end FileDescriptor

namespace Schema

/-- The messages among declarations. -/
def messagesOf (ds : List Declaration) : List (Declared MessageDescriptor) :=
  ds.filterMap Declaration.message?

/-- The enums among declarations. -/
def enumsOf (ds : List Declaration) : List (Declared EnumDescriptor) :=
  ds.filterMap Declaration.enumeration?

/-! ## One message after the other -/

section Row

theorem messagesOf_declareEnums (file : FileId) (parent : Option MessageId) (scope : String)
    (enums : List EnumDescriptor) :
    messagesOf (declareEnums file parent scope enums) = [] := by
  rw [messagesOf, declareEnums, List.filterMap_map]
  exact List.filterMap_eq_nil_iff.2 fun _ _ => rfl

theorem enumsOf_declareEnums (file : FileId) (parent : Option MessageId) (scope : String)
    (enums : List EnumDescriptor) :
    enumsOf (declareEnums file parent scope enums)
      = enums.map fun e => ⟨file, parent, scope, e.name, e⟩ := by
  rw [enumsOf, declareEnums, List.filterMap_map, ← List.filterMap_eq_map]
  rfl

variable {file : FileId} {parent : Option MessageId} {scope : String} {id : MessageId}

theorem declareMessages_cons (m : MessageDescriptor) (ms : List MessageDescriptor) :
    declareMessages file parent scope id (m :: ms)
      = .message ⟨file, parent, scope, m.name, m⟩ ::
        (declareMessages file (some id) (qualify scope m.name) (id + 1) m.messages ++
          declareEnums file (some id) (qualify scope m.name) m.enums) ++
        declareMessages file parent scope (id + m.count) ms := by
  cases m
  rfl

/-- The messages of a row: one, those inside it, and those after it. -/
theorem messagesOf_declareMessages_cons (m : MessageDescriptor) (ms : List MessageDescriptor) :
    messagesOf (declareMessages file parent scope id (m :: ms))
      = ⟨file, parent, scope, m.name, m⟩ ::
        (messagesOf (declareMessages file (some id) (qualify scope m.name) (id + 1) m.messages) ++
          messagesOf (declareMessages file parent scope (id + m.count) ms)) := by
  have henums := messagesOf_declareEnums file (some id) (qualify scope m.name) m.enums
  rw [messagesOf] at henums
  rw [declareMessages_cons, messagesOf, List.filterMap_append, List.filterMap_cons,
    List.filterMap_append, henums, List.append_nil]
  rfl

/-- The enums of a row: those inside the messages inside the first one, its own, and those after
it. -/
theorem enumsOf_declareMessages_cons (m : MessageDescriptor) (ms : List MessageDescriptor) :
    enumsOf (declareMessages file parent scope id (m :: ms))
      = enumsOf (declareMessages file (some id) (qualify scope m.name) (id + 1) m.messages) ++
        m.enums.map (fun e => ⟨file, some id, qualify scope m.name, e.name, e⟩) ++
        enumsOf (declareMessages file parent scope (id + m.count) ms) := by
  have henums := enumsOf_declareEnums file (some id) (qualify scope m.name) m.enums
  rw [enumsOf] at henums
  rw [declareMessages_cons, enumsOf, List.filterMap_append, List.filterMap_cons,
    List.filterMap_append, henums]
  rfl

end Row

section Contents

/-- As many messages are declared as are counted. -/
theorem length_messagesOf_declareMessages (file : FileId) (parent : Option MessageId)
    (scope : String) (id : MessageId) (ms : List MessageDescriptor) :
    (messagesOf (declareMessages file parent scope id ms)).length
      = MessageDescriptor.countAll ms := by
  induction ms using MessageDescriptor.forestInduction generalizing parent scope id with
  | nil => rfl
  | cons m ms hinner hrest =>
    rw [messagesOf_declareMessages_cons, List.length_cons, List.length_append, hinner, hrest,
      MessageDescriptor.countAll_cons]
    omega

/-- The messages of a row are those of the descriptors. -/
theorem map_messagesOf_declareMessages (file : FileId) (parent : Option MessageId)
    (scope : String) (id : MessageId) (ms : List MessageDescriptor) :
    (messagesOf (declareMessages file parent scope id ms)).map (fun d => (d.fullName, d.body))
      = MessageDescriptor.namedAll scope ms := by
  induction ms using MessageDescriptor.forestInduction generalizing parent scope id with
  | nil => rfl
  | cons m ms hinner hrest =>
    rw [messagesOf_declareMessages_cons, List.map_cons, List.map_append, hinner, hrest,
      MessageDescriptor.namedAll_cons]
    rfl

/-- The enums of a row are those of the descriptors. -/
theorem map_enumsOf_declareMessages (file : FileId) (parent : Option MessageId)
    (scope : String) (id : MessageId) (ms : List MessageDescriptor) :
    ((enumsOf (declareMessages file parent scope id ms)).map fun d => (d.fullName, d.body)).Perm
      ((MessageDescriptor.namedAll scope ms).flatMap MessageDescriptor.ownEnums) := by
  induction ms using MessageDescriptor.forestInduction generalizing parent scope id with
  | nil => exact .nil
  | cons m ms hinner hrest =>
    rw [enumsOf_declareMessages_cons, List.map_append, List.map_append, List.map_map,
      MessageDescriptor.namedAll_cons, List.flatMap_cons, List.flatMap_append,
      ← List.append_assoc]
    exact (List.perm_append_comm.trans ((List.Perm.refl _).append (hinner _ _ _))).append
      (hrest _ _ _)

/-- What is declared is in the file it is declared for, under the name it has. -/
theorem eq_of_mem_messagesOf {file : FileId} {parent : Option MessageId} {scope : String}
    {id : MessageId} {ms : List MessageDescriptor} {d : Declared MessageDescriptor}
    (h : d ∈ messagesOf (declareMessages file parent scope id ms)) :
    d.file = file ∧ d.name = d.body.name := by
  induction ms using MessageDescriptor.forestInduction generalizing parent scope id with
  | nil => exact absurd h List.not_mem_nil
  | cons m ms hinner hrest =>
    rw [messagesOf_declareMessages_cons, List.mem_cons, List.mem_append] at h
    rcases h with rfl | h | h
    · exact ⟨rfl, rfl⟩
    · exact hinner h
    · exact hrest h

/-- An enum is declared in the file it is declared for, under the name it has. -/
theorem eq_of_mem_enumsOf {file : FileId} {parent : Option MessageId} {scope : String}
    {id : MessageId} {ms : List MessageDescriptor} {d : Declared EnumDescriptor}
    (h : d ∈ enumsOf (declareMessages file parent scope id ms)) :
    d.file = file ∧ d.name = d.body.name := by
  induction ms using MessageDescriptor.forestInduction generalizing parent scope id with
  | nil => exact absurd h List.not_mem_nil
  | cons m ms hinner hrest =>
    rw [enumsOf_declareMessages_cons, List.mem_append, List.mem_append] at h
    rcases h with (h | h) | h
    · exact hinner h
    · obtain ⟨e, -, rfl⟩ := List.mem_map.1 h
      exact ⟨rfl, rfl⟩
    · exact hrest h

end Contents

/-! ## What things stand in -/

/-- Where something stands: where the whole row stands, or in one of the first messages of the row,
whose full name is then in front of its own. -/
inductive Standing {α : Type} (messages : List (Declared MessageDescriptor)) (id : MessageId)
    (parent : Option MessageId) (scope : String) (bound : Nat) (d : Declared α) : Prop where
  | outside (hparent : d.parent = parent) (hscope : d.scope = scope)
  | inside {p : Nat} {q : Declared MessageDescriptor} (hp : p < bound) (hq : messages[p]? = some q)
      (hparent : d.parent = some (id + p)) (hscope : d.scope = q.fullName)

namespace Standing

variable {α : Type} {messages before after : List (Declared MessageDescriptor)}
  {id id' : MessageId} {parent : Option MessageId} {scope : String} {bound bound' : Nat}
  {d : Declared α}

/-- More messages may come behind. -/
theorem append (h : Standing messages id parent scope bound d) (hbound : bound ≤ bound') :
    Standing (messages ++ after) id parent scope bound' d := by
  cases h with
  | outside hparent hscope => exact .outside hparent hscope
  | inside hp hq hparent hscope =>
    refine .inside (Nat.lt_of_lt_of_le hp hbound) ?_ hparent hscope
    rw [List.getElem?_append_left (List.getElem?_eq_some_iff.1 hq).1, hq]

/-- More messages may come in front, when the numbers begin earlier. -/
theorem prepend (h : Standing messages id' parent scope bound d) (hid : id' = id + before.length)
    (hbound : before.length + bound ≤ bound') :
    Standing (before ++ messages) id parent scope bound' d := by
  cases h with
  | outside hparent hscope => exact .outside hparent hscope
  | inside hp hq hparent hscope =>
    refine .inside (Nat.lt_of_lt_of_le (Nat.add_lt_add_left hp _) hbound) ?_ ?_ hscope
    · rw [List.getElem?_append_right (Nat.le_add_right _ _), Nat.add_sub_cancel_left, hq]
    · rw [hparent, hid, Nat.add_assoc]

/-- What stands where the messages inside `m` stand, stands in `m`. -/
theorem into {m : Declared MessageDescriptor} {inside : String}
    (h : Standing messages (id + 1) (some id) inside bound d) (hinside : inside = m.fullName) :
    Standing (m :: messages) id parent scope (bound + 1) d := by
  cases h with
  | outside hparent hscope =>
    exact .inside (Nat.succ_pos _) (p := 0) rfl hparent (hscope.trans hinside)
  | inside hp hq hparent hscope =>
    refine .inside (Nat.succ_lt_succ hp) hq ?_ hscope
    rw [hparent, Nat.add_assoc, Nat.add_comm 1]

end Standing

section Row

variable {file : FileId} {parent : Option MessageId} {scope : String} {id : MessageId}

/-- The messages behind one message have numbers behind it and those inside it. -/
theorem add_count_eq (m : MessageDescriptor) (d : Declared MessageDescriptor) : id + m.count
      = id + (d :: messagesOf (declareMessages file parent scope (id + 1) m.messages)).length := by
  rw [List.length_cons, length_messagesOf_declareMessages]
  cases m
  rfl

/-- **Every message in a row stands where the row stands, or in an earlier one.** -/
theorem standing_of_getElem?_messagesOf {ms : List MessageDescriptor} {k : Nat}
    {d : Declared MessageDescriptor}
    (h : (messagesOf (declareMessages file parent scope id ms))[k]? = some d) :
    Standing (messagesOf (declareMessages file parent scope id ms)) id parent scope k d := by
  induction ms using MessageDescriptor.forestInduction generalizing parent scope id k with
  | nil => exact absurd h nofun
  | cons m ms hinner hrest =>
    rw [messagesOf_declareMessages_cons] at h ⊢
    cases k with
    | zero =>
      obtain rfl := Option.some.inj h
      exact .outside rfl rfl
    | succ k =>
      rw [List.getElem?_cons_succ, List.getElem?_append] at h
      split at h
      · exact ((hinner h).into rfl).append (Nat.le_refl _)
      · refine (hrest h).prepend (add_count_eq m _) ?_
        rw [List.length_cons]
        omega

/-- **Every enum in a row stands where the row stands, or in a message of it.** -/
theorem standing_of_mem_enumsOf {ms : List MessageDescriptor} {d : Declared EnumDescriptor}
    (h : d ∈ enumsOf (declareMessages file parent scope id ms)) :
    Standing (messagesOf (declareMessages file parent scope id ms)) id parent scope
      (messagesOf (declareMessages file parent scope id ms)).length d := by
  induction ms using MessageDescriptor.forestInduction generalizing parent scope id with
  | nil => exact absurd h List.not_mem_nil
  | cons m ms hinner hrest =>
    rw [enumsOf_declareMessages_cons, List.mem_append, List.mem_append] at h
    rw [messagesOf_declareMessages_cons, List.length_cons, List.length_append]
    rcases h with (h | h) | h
    · exact ((hinner h).into rfl).append (Nat.succ_le_succ (Nat.le_add_right _ _))
    · obtain ⟨e, -, rfl⟩ := List.mem_map.1 h
      exact .inside (Nat.succ_pos _) (p := 0) rfl rfl rfl
    · refine (hrest h).prepend (add_count_eq m _) ?_
      rw [List.length_cons]
      omega

end Row

/-! ## Rows that are moved -/

/-- The same thing in another file, where there are more messages in front. -/
def Declared.shift {α : Type} (file : FileId) (offset : Nat) (d : Declared α) : Declared α :=
  { d with file, parent := d.parent.map (offset + ·) }

/-- The same declaration in another file, where there are more messages in front. -/
def Declaration.shift (file : FileId) (offset : Nat) : Declaration → Declaration
  | .file f => .file f
  | .message d => .message (d.shift file offset)
  | .enumeration d => .enumeration (d.shift file offset)

theorem declareEnums_shift {file file' : FileId} {parent : Option MessageId} {scope : String}
    (offset : Nat) (enums : List EnumDescriptor) :
    declareEnums file' (parent.map (offset + ·)) scope enums
      = (declareEnums file parent scope enums).map (Declaration.shift file' offset) := by
  rw [declareEnums, declareEnums, List.map_map]
  rfl

/-- **The row of messages in another place is the same row, shifted.** -/
theorem declareMessages_shift {file file' : FileId} {parent : Option MessageId} {scope : String}
    {id : MessageId} (offset : Nat) (ms : List MessageDescriptor) :
    declareMessages file' (parent.map (offset + ·)) scope (offset + id) ms
      = (declareMessages file parent scope id ms).map (Declaration.shift file' offset) := by
  induction ms using MessageDescriptor.forestInduction generalizing parent scope id with
  | nil => rfl
  | cons m ms hinner hrest =>
    have hself : some (offset + id) = (some id).map (offset + ·) := rfl
    rw [declareMessages_cons, declareMessages_cons, Nat.add_assoc, Nat.add_assoc, hself, hinner,
      declareEnums_shift offset m.enums, hrest, List.map_append, List.map_cons, List.map_append]
    rfl

end Schema

open Schema

namespace FileDescriptor

/-- What a file declares by itself. -/
def row (f : FileDescriptor) : List Declaration :=
  declareMessages 0 none f.package 0 f.messages ++ declareEnums 0 none f.package f.enums

variable {f : FileDescriptor}

theorem messagesOf_row :
    messagesOf f.row = messagesOf (declareMessages 0 none f.package 0 f.messages) := by
  have henums := messagesOf_declareEnums 0 none f.package f.enums
  rw [messagesOf] at henums ⊢
  rw [row, List.filterMap_append, henums, List.append_nil, messagesOf]

theorem enumsOf_row :
    enumsOf f.row = enumsOf (declareMessages 0 none f.package 0 f.messages) ++
      f.enums.map fun e => ⟨0, none, f.package, e.name, e⟩ := by
  have henums := enumsOf_declareEnums 0 none f.package f.enums
  rw [enumsOf] at henums ⊢
  rw [row, List.filterMap_append, henums, enumsOf]

/-- The messages in the row of a file. -/
theorem map_messagesOf_row :
    (messagesOf f.row).map (fun d => (d.fullName, d.body)) = f.allMessages := by
  rw [messagesOf_row]
  exact map_messagesOf_declareMessages ..

/-- The enums in the row of a file. -/
theorem map_enumsOf_row :
    ((enumsOf f.row).map fun d => (d.fullName, d.body)).Perm f.allEnums := by
  rw [enumsOf_row, List.map_append, List.map_map]
  exact (map_enumsOf_declareMessages ..).append_right _

end FileDescriptor

namespace Schema

/-- A file comes with what it declares, shifted to where it comes. -/
theorem declareFiles_cons (file : FileId) (id : MessageId) (f : FileDescriptor)
    (fs : List FileDescriptor) :
    declareFiles file id (f :: fs) = .file f :: (f.row.map (Declaration.shift file id) ++
      declareFiles (file + 1) (id + MessageDescriptor.countAll f.messages) fs) := by
  rw [declareFiles, FileDescriptor.row, List.map_append,
    ← declareMessages_shift id f.messages, ← declareEnums_shift id f.enums]
  rfl

/-- How declarations are told to be of one kind: files are of none, and what is shifted stays of
its kind. -/
structure Picks {α : Type} (pick : Declaration → Option (Declared α)) : Prop where
  file : ∀ f, pick (.file f) = none
  shift : ∀ d file offset, pick (d.shift file offset) = (pick d).map (·.shift file offset)

theorem picks_message? : Picks Declaration.message? :=
  ⟨fun _ => rfl, fun d _ _ => by cases d <;> rfl⟩

theorem picks_enumeration? : Picks Declaration.enumeration? :=
  ⟨fun _ => rfl, fun d _ _ => by cases d <;> rfl⟩

section Kind

variable {α : Type} {pick : Declaration → Option (Declared α)}

/-- How many declarations of a kind come before those of the file numbered `n`. -/
def countBefore (pick : Declaration → Option (Declared α)) (files : List FileDescriptor)
    (n : FileId) : Nat :=
  ((files.take n).flatMap fun f => f.row.filterMap pick).length

/-- How many messages come before those of the file numbered `n`. -/
abbrev messagesBefore (files : List FileDescriptor) (n : FileId) : Nat :=
  countBefore Declaration.message? files n

theorem countBefore_zero (files : List FileDescriptor) : countBefore pick files 0 = 0 := rfl

theorem countBefore_succ (f : FileDescriptor) (fs : List FileDescriptor) (n : FileId) :
    countBefore pick (f :: fs) (n + 1)
      = (f.row.filterMap pick).length + countBefore pick fs n := by
  rw [countBefore, List.take_succ_cons, List.flatMap_cons, List.length_append, countBefore]

/-- What is shifted behind the first file, and by what that file declares. -/
theorem Declared.shift_behind {file : FileId} {id : MessageId} (f : FileDescriptor)
    (fs : List FileDescriptor) (n : FileId) (d : Declared α) :
    d.shift (file + 1 + n) (id + (messagesOf f.row).length + messagesBefore fs n)
      = d.shift (file + (n + 1)) (id + messagesBefore (f :: fs) (n + 1)) := by
  have hbefore : messagesBefore (f :: fs) (n + 1)
      = (messagesOf f.row).length + messagesBefore fs n := countBefore_succ f fs n
  rw [hbefore, Nat.add_assoc file, Nat.add_comm 1, Nat.add_assoc id]

theorem Picks.filterMap_declareFiles_cons (h : Picks pick) (file : FileId) (id : MessageId)
    (f : FileDescriptor) (fs : List FileDescriptor) :
    (declareFiles file id (f :: fs)).filterMap pick
      = (f.row.filterMap pick).map (·.shift file id) ++
        (declareFiles (file + 1) (id + (messagesOf f.row).length) fs).filterMap pick := by
  have hlength : MessageDescriptor.countAll f.messages = (messagesOf f.row).length := by
    rw [FileDescriptor.messagesOf_row, length_messagesOf_declareMessages]
  rw [declareFiles_cons, List.filterMap_cons_none (h.file f), List.filterMap_append,
    List.filterMap_map, List.map_filterMap, hlength]
  congr 1
  exact List.filterMap_congr fun d _ => h.shift d file id

/-- **What has a number in the row has a number in one of the files**, and is shifted to where that
file comes. -/
theorem Picks.getElem?_declareFiles (h : Picks pick) {file : FileId} {id : MessageId}
    {files : List FileDescriptor} {i : Nat} {d : Declared α} :
    ((declareFiles file id files).filterMap pick)[i]? = some d ↔
      ∃ n f k d₀, files[n]? = some f ∧ (f.row.filterMap pick)[k]? = some d₀ ∧
        i = countBefore pick files n + k ∧
        d = d₀.shift (file + n) (id + messagesBefore files n) := by
  induction files generalizing file id i with
  | nil => exact ⟨nofun, nofun⟩
  | cons f fs ih =>
    -- The first file, or one of the others.
    rw [h.filterMap_declareFiles_cons]
    constructor
    · intro hget
      rw [List.getElem?_append, List.length_map] at hget
      split at hget
      · rw [List.getElem?_map, Option.map_eq_some_iff] at hget
        obtain ⟨d₀, hd₀, rfl⟩ := hget
        exact ⟨0, f, i, d₀, rfl, hd₀, (Nat.zero_add i).symm, rfl⟩
      · obtain ⟨n, g, k, d₀, hg, hd₀, hi, hd⟩ := ih.1 hget
        refine ⟨n + 1, g, k, d₀, hg, hd₀, ?_, ?_⟩
        · rw [countBefore_succ]
          omega
        · rw [hd, Declared.shift_behind]
    · rintro ⟨n, g, k, d₀, hg, hd₀, rfl, rfl⟩
      cases n with
      | zero =>
        obtain rfl := Option.some.inj hg
        rw [List.getElem?_append_left, List.getElem?_map, countBefore_zero, Nat.zero_add, hd₀]
        · rfl
        · rw [List.length_map, countBefore_zero, Nat.zero_add]
          exact (List.getElem?_eq_some_iff.1 hd₀).1
      | succ n =>
        rw [countBefore_succ, List.getElem?_append_right, List.length_map, Nat.add_assoc,
          Nat.add_sub_cancel_left]
        · exact ih.2 ⟨n, g, k, d₀, hg, hd₀, rfl, (Declared.shift_behind f fs n d₀).symm⟩
        · rw [List.length_map, Nat.add_assoc]
          exact Nat.le_add_right _ _

theorem Picks.getElem?_declarations (h : Picks pick) {files : List FileDescriptor} {i : Nat}
    {d : Declared α} : ((declarations files).filterMap pick)[i]? = some d ↔
      ∃ n f k d₀, files[n]? = some f ∧ (f.row.filterMap pick)[k]? = some d₀ ∧
        i = countBefore pick files n + k ∧ d = d₀.shift n (messagesBefore files n) := by
  have hiff := @Picks.getElem?_declareFiles α pick h 0 0 files i d
  simp only [Nat.zero_add] at hiff
  exact hiff

end Kind

/-! ## Everything the files declare -/

section Files

variable {files : List FileDescriptor} {f : FileDescriptor} {n : FileId}

/-- A message that is declared is one of its file. -/
theorem mem_allMessages {d : Declared MessageDescriptor}
    (h : d ∈ messagesOf (declarations files)) :
    d.name = d.body.name ∧ ∃ f, files[d.file]? = some f ∧ (d.fullName, d.body) ∈ f.allMessages := by
  obtain ⟨i, hi⟩ := List.mem_iff_getElem?.1 h
  obtain ⟨n, f, k, d₀, hf, hd₀, -, rfl⟩ := picks_message?.getElem?_declarations.1 hi
  have hmem : d₀ ∈ messagesOf f.row := List.mem_of_getElem? hd₀
  refine ⟨?_, f, hf, ?_⟩
  · rw [FileDescriptor.messagesOf_row] at hmem
    exact (eq_of_mem_messagesOf hmem).2
  · rw [← FileDescriptor.map_messagesOf_row]
    exact List.mem_map_of_mem (f := fun d => (d.fullName, d.body)) hmem

/-- An enum that is declared is one of its file. -/
theorem mem_allEnums {d : Declared EnumDescriptor} (h : d ∈ enumsOf (declarations files)) :
    d.name = d.body.name ∧ ∃ f, files[d.file]? = some f ∧ (d.fullName, d.body) ∈ f.allEnums := by
  obtain ⟨i, hi⟩ := List.mem_iff_getElem?.1 h
  obtain ⟨n, f, k, d₀, hf, hd₀, -, rfl⟩ := picks_enumeration?.getElem?_declarations.1 hi
  have hmem : d₀ ∈ enumsOf f.row := List.mem_of_getElem? hd₀
  refine ⟨?_, f, hf, ?_⟩
  · rw [FileDescriptor.enumsOf_row, List.mem_append] at hmem
    rcases hmem with hmem | hmem
    · exact (eq_of_mem_enumsOf hmem).2
    · obtain ⟨e, -, rfl⟩ := List.mem_map.1 hmem
      rfl
  · exact FileDescriptor.map_enumsOf_row.mem_iff.1
      (List.mem_map_of_mem (f := fun d => (d.fullName, d.body)) hmem)

/-- The messages of a file are declared. -/
theorem exists_mem_messagesOf (hf : files[n]? = some f) {m : String × MessageDescriptor}
    (hm : m ∈ f.allMessages) :
    ∃ d ∈ messagesOf (declarations files), d.file = n ∧ (d.fullName, d.body) = m := by
  rw [← FileDescriptor.map_messagesOf_row] at hm
  obtain ⟨d₀, hd₀, rfl⟩ := List.mem_map.1 hm
  obtain ⟨k, hk⟩ := List.mem_iff_getElem?.1 hd₀
  exact ⟨d₀.shift n (messagesBefore files n), List.mem_of_getElem?
    (picks_message?.getElem?_declarations.2 ⟨n, f, k, d₀, hf, hk, rfl, rfl⟩), rfl, rfl⟩

/-- The enums of a file are declared. -/
theorem exists_mem_enumsOf (hf : files[n]? = some f) {e : String × EnumDescriptor}
    (he : e ∈ f.allEnums) :
    ∃ d ∈ enumsOf (declarations files), d.file = n ∧ (d.fullName, d.body) = e := by
  obtain ⟨d₀, hd₀, rfl⟩ := List.mem_map.1 (FileDescriptor.map_enumsOf_row.mem_iff.2 he)
  obtain ⟨k, hk⟩ := List.mem_iff_getElem?.1 hd₀
  exact ⟨d₀.shift n (messagesBefore files n), List.mem_of_getElem?
    (picks_enumeration?.getElem?_declarations.2 ⟨n, f, k, d₀, hf, hk, rfl, rfl⟩), rfl, rfl⟩

/-- Where something that is declared stands: at the top of its file, or in one of the first messages
that are declared, which is in the same file. -/
inductive Stands {α : Type} (files : List FileDescriptor) (bound : Nat) (d : Declared α) : Prop
    where
  | top {f : FileDescriptor} (hf : files[d.file]? = some f) (hparent : d.parent = none)
      (hscope : d.scope = f.package)
  | nested {p : MessageId} {q : Declared MessageDescriptor} (hp : p < bound)
      (hq : (messagesOf (declarations files))[p]? = some q) (hfile : q.file = d.file)
      (hparent : d.parent = some p) (hscope : d.scope = q.fullName)

/-- What stands in the row of a file stands there among everything that is declared. -/
theorem Standing.stands {α : Type} {d : Declared α} {bound : Nat} (hf : files[n]? = some f)
    (h : Standing (messagesOf f.row) 0 none f.package bound d) :
    Stands files (messagesBefore files n + bound) (d.shift n (messagesBefore files n)) := by
  cases h with
  | outside hparent hscope =>
    refine .top hf ?_ hscope
    rw [Declared.shift, hparent]
    rfl
  | inside hp hq hparent hscope =>
    refine .nested (Nat.add_lt_add_left hp _)
      (picks_message?.getElem?_declarations.2 ⟨n, f, _, _, hf, hq, rfl, rfl⟩) rfl ?_ hscope
    rw [Declared.shift, hparent, Nat.zero_add]
    rfl

/-- **A message stands at the top of its file or in an earlier message of it.** -/
theorem stands_of_getElem?_messagesOf {i : Nat} {d : Declared MessageDescriptor}
    (h : (messagesOf (declarations files))[i]? = some d) : Stands files i d := by
  obtain ⟨n, f, k, d₀, hf, hd₀, rfl, rfl⟩ := picks_message?.getElem?_declarations.1 h
  refine Standing.stands hf ?_
  change (messagesOf f.row)[k]? = some d₀ at hd₀
  rw [FileDescriptor.messagesOf_row] at hd₀ ⊢
  exact standing_of_getElem?_messagesOf hd₀

/-- **An enum stands at the top of its file or in a message of it.** -/
theorem stands_of_mem_enumsOf {d : Declared EnumDescriptor}
    (h : d ∈ enumsOf (declarations files)) :
    Stands files (messagesOf (declarations files)).length d := by
  obtain ⟨i, hi⟩ := List.mem_iff_getElem?.1 h
  obtain ⟨n, f, k, d₀, hf, hd₀, -, rfl⟩ := picks_enumeration?.getElem?_declarations.1 hi
  have hmem : d₀ ∈ enumsOf f.row := List.mem_of_getElem? hd₀
  have hstanding : Standing (messagesOf f.row) 0 none f.package (messagesOf f.row).length d₀ := by
    rw [FileDescriptor.enumsOf_row, List.mem_append] at hmem
    rw [FileDescriptor.messagesOf_row]
    rcases hmem with hmem | hmem
    · exact standing_of_mem_enumsOf hmem
    · obtain ⟨e, -, rfl⟩ := List.mem_map.1 hmem
      exact .outside rfl rfl
  cases hstanding.stands hf with
  | top hf hparent hscope => exact .top hf hparent hscope
  | nested hp hq hfile hparent hscope =>
    exact .nested (List.getElem?_eq_some_iff.1 hq).1 hq hfile hparent hscope

/-! ## Checks -/

/-- The names in a row are those of its messages and its enums. -/
theorem filterMap_symbol?_perm (ds : List Declaration) : (ds.filterMap Declaration.symbol?).Perm
    ((messagesOf ds).map Declared.fullName ++ (enumsOf ds).map Declared.fullName) := by
  induction ds with
  | nil => exact .nil
  | cons d ds ih =>
    cases d with
    | file f => exact ih
    | message d => exact ih.cons _
    | enumeration d => exact (ih.cons _).trans List.perm_middle.symm

theorem messagesOf_declareFiles_names (file : FileId) (id : MessageId)
    (files : List FileDescriptor) :
    (messagesOf (declareFiles file id files)).map Declared.fullName
      = files.flatMap fun f => f.allMessages.map (·.1) := by
  induction files generalizing file id with
  | nil => rfl
  | cons f fs ih =>
    have hrow : ((messagesOf f.row).map (·.shift file id)).map Declared.fullName
        = f.allMessages.map (·.1) := by
      rw [← FileDescriptor.map_messagesOf_row, List.map_map, List.map_map]
      rfl
    rw [messagesOf, picks_message?.filterMap_declareFiles_cons, List.map_append,
      List.flatMap_cons, ← ih, ← hrow]
    rfl

theorem enumsOf_declareFiles_names (file : FileId) (id : MessageId)
    (files : List FileDescriptor) :
    ((enumsOf (declareFiles file id files)).map Declared.fullName).Perm
      (files.flatMap fun f => f.allEnums.map (·.1)) := by
  induction files generalizing file id with
  | nil => exact .nil
  | cons f fs ih =>
    have hrow : (((enumsOf f.row).map (·.shift file id)).map Declared.fullName).Perm
        (f.allEnums.map (·.1)) := by
      refine .trans (.of_eq ?_) (FileDescriptor.map_enumsOf_row.map _)
      rw [List.map_map, List.map_map]
      rfl
    rw [enumsOf, picks_enumeration?.filterMap_declareFiles_cons, List.map_append,
      List.flatMap_cons]
    exact hrow.append (ih _ _)

/-- The names in the row are those of all files. -/
theorem filterMap_symbol?_declarations_perm :
    ((declarations files).filterMap Declaration.symbol?).Perm
      (files.flatMap FileDescriptor.allNames) := by
  refine (filterMap_symbol?_perm _).trans ?_
  rw [declarations, messagesOf_declareFiles_names]
  exact ((enumsOf_declareFiles_names ..).append_left _).trans (List.flatMap_append_perm ..)

/-- Declarations pass when none has a fault by itself and no name is taken. -/
theorem checkFrom_eq_ok_iff {seen : List String} {ds : List Declaration} :
    checkFrom seen ds = .ok () ↔ (∀ d ∈ ds, d.fault? = none) ∧
      (ds.filterMap Declaration.symbol?).Nodup ∧
      ∀ name ∈ ds.filterMap Declaration.symbol?, name ∉ seen := by
  induction ds generalizing seen with
  | nil => simp [checkFrom]
  | cons d ds ih =>
    rw [List.forall_mem_cons]
    cases hfault : d.fault? with
    | some fault => simp [checkFrom, hfault]
    | none =>
      cases hsymbol : d.symbol? with
      | none => simp [checkFrom, hfault, hsymbol, ih]
      | some name =>
        by_cases hseen : name ∈ seen
        · simp [checkFrom, hfault, hsymbol, hseen]
        · have hcheck : checkFrom seen (d :: ds) = checkFrom (name :: seen) ds := by
            simp [checkFrom, hfault, hsymbol, hseen]
          rw [hcheck, ih, List.filterMap_cons_some hsymbol, List.nodup_cons,
            List.forall_mem_cons]
          constructor
          · rintro ⟨hfaults, hnodup, hnew⟩
            exact ⟨⟨rfl, hfaults⟩, ⟨fun hmem => hnew name hmem List.mem_cons_self, hnodup⟩,
              hseen, fun other hmem hother => hnew other hmem (List.mem_cons_of_mem _ hother)⟩
          · rintro ⟨⟨-, hfaults⟩, ⟨hname, hnodup⟩, -, hnew⟩
            refine ⟨hfaults, hnodup, fun other hmem hother => ?_⟩
            rcases List.mem_cons.1 hother with rfl | hother
            · exact hname hmem
            · exact hnew other hmem hother

/-- No file is declared inside a file. -/
theorem file_notMem_row (f g : FileDescriptor) : Declaration.file g ∉ f.row := by
  have henums : ∀ (parent : Option MessageId) (scope : String) (enums : List EnumDescriptor),
      Declaration.file g ∉ declareEnums 0 parent scope enums := fun parent scope enums hmem => by
    obtain ⟨e, -, he⟩ := List.mem_map.1 hmem
    exact Declaration.noConfusion he
  have hmessages : ∀ (parent : Option MessageId) (scope : String) (id : MessageId)
      (ms : List MessageDescriptor),
      Declaration.file g ∉ declareMessages 0 parent scope id ms := fun parent scope id ms => by
    induction ms using MessageDescriptor.forestInduction generalizing parent scope id with
    | nil => exact List.not_mem_nil
    | cons m ms hinner hrest =>
      rw [declareMessages_cons, List.mem_append, List.mem_cons, List.mem_append]
      rintro ((hmem | hmem | hmem) | hmem)
      · exact Declaration.noConfusion hmem
      · exact hinner _ _ _ hmem
      · exact henums _ _ _ hmem
      · exact hrest _ _ _ hmem
  rw [FileDescriptor.row, List.mem_append]
  exact fun hmem => hmem.elim (hmessages _ _ _ _) (henums _ _ _)

/-- What a file declares has no fault by itself when all its enums have values. -/
theorem row_fault?_eq_none_iff :
    (∀ d ∈ f.row, d.fault? = none) ↔ ∀ e ∈ f.allEnums, e.2.values ≠ [] := by
  constructor
  · intro h e he
    obtain ⟨d, hd, rfl⟩ := List.mem_map.1 (FileDescriptor.map_enumsOf_row.mem_iff.2 he)
    obtain ⟨declaration, hmem, heq⟩ := List.mem_filterMap.1 hd
    cases declaration with
    | file g => exact absurd heq nofun
    | message d' => exact absurd heq nofun
    | enumeration d' =>
      obtain rfl := Option.some.inj heq
      have hfault := h _ hmem
      simpa [Declaration.fault?] using hfault
  · intro h d hd
    cases d with
    | file g => exact absurd hd (file_notMem_row f g)
    | message d' => rfl
    | enumeration d' =>
      have hmem : d' ∈ enumsOf f.row := List.mem_filterMap.2 ⟨_, hd, rfl⟩
      have hvalues := h _ (FileDescriptor.map_enumsOf_row.mem_iff.1
        (List.mem_map_of_mem (f := fun d => (d.fullName, d.body)) hmem))
      simpa [Declaration.fault?] using hvalues

/-- Shifting changes no fault. -/
theorem Declaration.fault?_shift (d : Declaration) (file : FileId) (offset : Nat) :
    (d.shift file offset).fault? = d.fault? := by
  cases d <;> rfl

/-- Nothing has a fault by itself when dialects are understood and enums have values. -/
theorem declareFiles_fault?_eq_none_iff {file : FileId} {id : MessageId} :
    (∀ d ∈ declareFiles file id files, d.fault? = none) ↔
      ∀ f ∈ files, f.dialect = understoodDialect ∧ ∀ e ∈ f.allEnums, e.2.values ≠ [] := by
  induction files generalizing file id with
  | nil => exact ⟨nofun, nofun⟩
  | cons f fs ih =>
    have hfile : (Declaration.file f).fault? = none ↔ f.dialect = understoodDialect := by
      simp [Declaration.fault?]
    have hrow : (∀ d ∈ f.row.map (Declaration.shift file id), d.fault? = none) ↔
        ∀ d ∈ f.row, d.fault? = none := by
      simp only [List.forall_mem_map, Declaration.fault?_shift]
    rw [declareFiles_cons, List.forall_mem_cons, List.forall_mem_append, List.forall_mem_cons,
      hfile, hrow, row_fault?_eq_none_iff, ih, and_assoc]

/-- **All is declared without a fault** exactly when dialects are understood, enums have values and
no name is declared twice. -/
theorem checkDeclarations_eq_ok_iff : checkDeclarations (declarations files) = .ok () ↔
    (∀ f ∈ files, f.dialect = understoodDialect ∧ ∀ e ∈ f.allEnums, e.2.values ≠ []) ∧
      (files.flatMap FileDescriptor.allNames).Nodup := by
  rw [checkDeclarations, checkFrom_eq_ok_iff, filterMap_symbol?_declarations_perm.nodup_iff,
    declarations, declareFiles_fault?_eq_none_iff]
  exact and_congr_right fun _ => and_iff_left fun _ _ => List.not_mem_nil

end Files

end Schema

end Protowire
