import Mathlib.Data.List.Sort
import Mathlib.Tactic.Simps.Basic
import Protowire.Proofs.Schema.Coherent
import Protowire.Proofs.Schema.Embedding

/-!
# Proofs/Schema/Renumber — one part of two schemas, under different numbers

Two schemas may hold the same files among others, with other numbers for everything in them.
`Agrees s t r visible` says so for the files of `s` in `visible`: what stands in them, and all that
refers to, stands in `t` under the numbers that `r` gives, and nothing but that comes from there.

What is computed by following numbers is then the same up to `r`: what is nested in a message
(`Agrees.messagesInside`), the messages around it (`Agrees.ancestors`), and which messages can hold
which (`Agrees.isRecursive`).
-/

namespace Protowire.Schema

/-- Other numbers for files, messages and enums. -/
structure Renumbering where
  file : FileId → FileId
  message : MessageId → MessageId
  enumeration : EnumId → EnumId

variable (r : Renumbering)

def FieldType.renumber : FieldType → FieldType
  | scalar kind => .scalar kind
  | enumeration id => .enumeration (r.enumeration id)
  | message id => .message (r.message id)

@[simps]
def MapEntry.renumber (map : MapEntry) : MapEntry :=
  ⟨r.message map.entry, map.key, map.value.renumber r⟩

@[simps]
def Field.renumber (f : Field) : Field :=
  { f with type := f.type.renumber r, map := f.map.map (·.renumber r) }

@[simps]
def Contents.renumber (c : Contents) : Contents :=
  ⟨c.messages.map r.message, c.enums.map r.enumeration⟩

@[simps]
def Message.renumber (m : Message) : Message :=
  { m with
    file := r.file m.file, parent := m.parent.map r.message, fields := m.fields.map (·.renumber r)
    contents := m.contents.renumber r }

@[simps]
def Enum.renumber (e : Enum) : Enum :=
  { e with file := r.file e.file, parent := e.parent.map r.message }

variable {r}

/-! ## Rows under other numbers -/

/-- **What of a row is visible, another row holds under other numbers**, and nothing else is there
from the same files; inside a file the order stays. -/
structure Carried {α : Type} (l l' : List α) (file : α → FileId) (visible : FileId → Prop)
    (toFile : FileId → FileId) (toId : Nat → Nat) (change : α → α) : Prop where
  getElem? : ∀ i a, l[i]? = some a → visible (file a) → l'[toId i]? = some (change a)
  exists_of : ∀ j b i, l'[j]? = some b → visible i → file b = toFile i →
    ∃ k a, l[k]? = some a ∧ file a = i ∧ toId k = j
  lt : ∀ i j a b, l[i]? = some a → l[j]? = some b → visible (file a) → file a = file b → i < j →
    toId i < toId j

section Carried

variable {α : Type} {l l' : List α} {file : α → FileId} {visible : FileId → Prop}
  {toFile : FileId → FileId} {toId : Nat → Nat} {change : α → α}

/-- What is there from a visible file is what became of something in that file. -/
theorem Carried.exists_change (h : Carried l l' file visible toFile toId change) {j : Nat} {b : α}
    {i : FileId} (hb : l'[j]? = some b) (hi : visible i) (hfile : file b = toFile i) :
    ∃ k a, l[k]? = some a ∧ file a = i ∧ toId k = j ∧ b = change a := by
  obtain ⟨k, a, ha, rfl, rfl⟩ := h.exists_of j b i hb hi hfile
  exact ⟨k, a, ha, rfl, rfl, Option.some.inj (hb.symm.trans (h.getElem? k a ha hi))⟩

/-- **The numbers of what has a property in a file** are the other numbers of what has it in the
same file, in the same order. -/
theorem Carried.findIdxs (h : Carried l l' file visible toFile toId change) {i : FileId}
    (hi : visible i) {p q : α → Bool} (hp : ∀ (k : Nat) a, l[k]? = some a → p a = true → file a = i)
    (hq : ∀ (k : Nat) b, l'[k]? = some b → q b = true → file b = toFile i)
    (hpq : ∀ (k : Nat) a, l[k]? = some a → file a = i → q (change a) = p a) :
    l'.findIdxs q = (l.findIdxs p).map toId := by
  have hsorted : ((l.findIdxs p).map toId).Pairwise (· < ·) := by
    refine List.pairwise_map.2 (List.pairwise_findIdxs.imp_of_mem fun {j k} hj hk => ?_)
    obtain ⟨a, ha, hpa⟩ := mem_findIdxs_iff.1 hj
    obtain ⟨b, hb, hpb⟩ := mem_findIdxs_iff.1 hk
    have hfile := hp j a ha hpa
    exact h.lt j k a b ha hb (hfile ▸ hi) (hfile.trans (hp k b hb hpb).symm)
  refine List.pairwise_findIdxs.eq_of_mem_iff hsorted fun j => ?_
  rw [mem_findIdxs_iff, List.mem_map]
  constructor
  · rintro ⟨b, hb, hqb⟩
    obtain ⟨k, a, ha, rfl, rfl, rfl⟩ := h.exists_change hb hi (hq j b hb hqb)
    exact ⟨k, mem_findIdxs_iff.2 ⟨a, ha, (hpq k a ha rfl).symm.trans hqb⟩, rfl⟩
  · rintro ⟨k, hk, rfl⟩
    obtain ⟨a, ha, hpa⟩ := mem_findIdxs_iff.1 hk
    have hfile := hp k a ha hpa
    exact ⟨change a, h.getElem? k a ha (hfile ▸ hi), (hpq k a ha hfile).trans hpa⟩

/-- What is made of the entries of a row is carried along with them. -/
theorem Carried.map (h : Carried l l' file visible toFile toId change) {β : Type} (f : α → β)
    {file' : β → FileId} {change' : β → β} (hfile : ∀ a, file' (f a) = file a)
    (hchange : ∀ a, change' (f a) = f (change a)) :
    Carried (l.map f) (l'.map f) file' visible toFile toId change' := by
  refine ⟨fun i b hb hvisible => ?_, fun j b i hb hi hto => ?_,
    fun i j a b ha hb hvisible hsame hlt => ?_⟩
  · rw [List.getElem?_map, Option.map_eq_some_iff] at hb
    obtain ⟨a, ha, rfl⟩ := hb
    rw [hchange, List.getElem?_map, h.getElem? i a ha (hfile a ▸ hvisible), Option.map_some]
  · rw [List.getElem?_map, Option.map_eq_some_iff] at hb
    obtain ⟨a, ha, rfl⟩ := hb
    obtain ⟨k, c, hc, hci, rfl⟩ := h.exists_of j a i ha hi ((hfile a).symm.trans hto)
    exact ⟨k, f c, by rw [List.getElem?_map, hc, Option.map_some], (hfile c).trans hci, rfl⟩
  · rw [List.getElem?_map, Option.map_eq_some_iff] at ha hb
    obtain ⟨a, ha, rfl⟩ := ha
    obtain ⟨b, hb, rfl⟩ := hb
    rw [hfile] at hvisible hsame
    exact h.lt i j a b ha hb hvisible (hsame.trans (hfile b)) hlt

/-- Different things stay different. -/
theorem Carried.injective (h : Carried l l' file visible toFile toId change)
    (hfile : ∀ i j, visible i → visible j → toFile i = toFile j → i = j)
    (hchange : ∀ a, file (change a) = toFile (file a)) {i j : Nat} {a b : α}
    (ha : l[i]? = some a) (hb : l[j]? = some b) (hvisible : visible (file a))
    (hvisible' : visible (file b)) (hsame : toId i = toId j) : i = j := by
  have hchanged : change a = change b := by
    have ha' := h.getElem? i a ha hvisible
    rw [hsame] at ha'
    exact Option.some.inj (ha'.symm.trans (h.getElem? j b hb hvisible'))
  have hfiles : file a = file b := by
    refine hfile _ _ hvisible hvisible' ?_
    rw [← hchange, ← hchange, hchanged]
  rcases Nat.lt_trichotomy i j with hlt | heq | hlt
  · exact absurd hsame (Nat.ne_of_lt (h.lt i j a b ha hb hvisible hfiles hlt))
  · exact heq
  · exact absurd hsame (Nat.ne_of_gt (h.lt j i b a hb ha hvisible' hfiles.symm hlt))

end Carried

/-! ## Agreement -/

/-- A message in a file that is visible. -/
def KnownMessage (s : Schema) (visible : FileId → Prop) (id : MessageId) : Prop :=
  ∃ m, s.messages[id]? = some m ∧ visible m.file

/-- An enum in a file that is visible. -/
def KnownEnum (s : Schema) (visible : FileId → Prop) (id : EnumId) : Prop :=
  ∃ e, s.enums[id]? = some e ∧ visible e.file

/-- A type that refers only to what is in visible files. -/
inductive FieldType.Known (s : Schema) (visible : FileId → Prop) : FieldType → Prop where
  | scalar (kind : Scalar) : Known s visible (.scalar kind)
  | message {id : MessageId} (h : KnownMessage s visible id) : Known s visible (.message id)
  | enumeration {id : EnumId} (h : KnownEnum s visible id) : Known s visible (.enumeration id)

/-- **What the visible files of `s` hold, `t` holds under other numbers**, and it refers to nothing
that is not visible. -/
structure Agrees (s t : Schema) (r : Renumbering) (visible : FileId → Prop) : Prop where
  source : ∀ i, visible i → (t.files[r.file i]?).map (·.source) = (s.files[i]?).map (·.source)
  file_injective : ∀ i j, visible i → visible j → r.file i = r.file j → i = j
  top : ∀ i, visible i → t.contents (.file (r.file i)) = (s.contents (.file i)).renumber r
  messages : Carried s.messages t.messages Message.file visible r.file r.message
    (Message.renumber r)
  enums : Carried s.enums t.enums Enum.file visible r.file r.enumeration (Enum.renumber r)
  type : ∀ (id : MessageId) (m : Message), s.messages[id]? = some m → visible m.file →
    ∀ f ∈ m.fields, f.type.Known s visible
  coherent : Coherent s
  coherent' : Coherent t

/-! ## What stands in a file or in a message -/

/-- Numbers that are listed as often as something is so are those of what it is so of. -/
theorem mem_iff_of_count {α : Type} {l : List α} {ids : List Nat} {P : α → Prop} [DecidablePred P]
    (hlt : ∀ id ∈ ids, id < l.length)
    (hcount : ∀ (id : Nat) (a : α), l[id]? = some a → ids.count id = if P a then 1 else 0)
    {id : Nat} : id ∈ ids ↔ ∃ a, l[id]? = some a ∧ P a := by
  constructor
  · intro hid
    have ha := List.getElem?_eq_getElem (hlt id hid)
    refine ⟨_, ha, ?_⟩
    by_contra hnot
    have hzero := hcount id _ ha
    rw [if_neg hnot, List.count_eq_zero] at hzero
    exact hzero hid
  · rintro ⟨a, ha, hP⟩
    rw [← List.count_pos_iff, hcount id a ha, if_pos hP]
    exact Nat.one_pos

namespace Coherent

variable {s : Schema}

/-- Lists of places have numbers of messages and enums that there are. -/
theorem contents_lt (h : Coherent s) (place : Place) :
    (∀ id ∈ (s.contents place).messages, id < s.messages.length) ∧
      ∀ id ∈ (s.contents place).enums, id < s.enums.length := by
  cases place with
  | file i =>
    cases hf : s.files[i]? with
    | none => simp [contents, hf]
    | some f => exact ⟨(h.files i f hf).topMessages_lt, (h.files i f hf).topEnums_lt⟩
  | message p =>
    cases hm : s.messages[p]? with
    | none => simp [contents, hm]
    | some m =>
      exact ⟨(h.messages p m hm).nestedMessages_lt, (h.messages p m hm).nestedEnums_lt⟩

theorem mem_topMessages (h : Coherent s) {i : FileId} {id : MessageId} :
    id ∈ s.topMessages i ↔ ∃ m, s.messages[id]? = some m ∧ m.file = i ∧ m.parent = none :=
  mem_iff_of_count (h.contents_lt (.file i)).1 fun id m hm => (h.messages id m hm).count_top i

theorem mem_topEnums (h : Coherent s) {i : FileId} {id : EnumId} :
    id ∈ s.topEnums i ↔ ∃ e, s.enums[id]? = some e ∧ e.file = i ∧ e.parent = none :=
  mem_iff_of_count (h.contents_lt (.file i)).2 fun id e he => (h.enums id e he).count_top i

theorem mem_nestedMessages (h : Coherent s) {p id : MessageId} :
    id ∈ s.nestedMessages p ↔ ∃ m, s.messages[id]? = some m ∧ m.parent = some p :=
  mem_iff_of_count (h.contents_lt (.message p)).1 fun id m hm =>
    (h.messages id m hm).count_nested p

theorem mem_nestedEnums (h : Coherent s) {p : MessageId} {id : EnumId} :
    id ∈ s.nestedEnums p ↔ ∃ e, s.enums[id]? = some e ∧ e.parent = some p :=
  mem_iff_of_count (h.contents_lt (.message p)).2 fun id e he => (h.enums id e he).count_nested p

/-- **All that is nested in a message is declared after it.** -/
theorem messagesInside_eq (h : Coherent s) (p : MessageId) :
    s.messagesInside p = s.nestedMessages p := by
  refine List.filter_eq_self.2 fun id hid => decide_eq_true ?_
  obtain ⟨m, hm, hparent⟩ := h.mem_nestedMessages.1 hid
  exact ⟨(h.messages id m hm).parent_lt p hparent, (h.contents_lt (.message p)).1 id hid⟩

theorem mem_messagesInside (h : Coherent s) {p id : MessageId} :
    id ∈ s.messagesInside p ↔ ∃ m, s.messages[id]? = some m ∧ m.parent = some p := by
  rw [h.messagesInside_eq, h.mem_nestedMessages]

/-- **All enums that a message lists there are.** -/
theorem enumsInside_eq (h : Coherent s) (p : MessageId) : s.enumsInside p = s.nestedEnums p :=
  List.filter_eq_self.2 fun id hid => decide_eq_true ((h.contents_lt (.message p)).2 id hid)

theorem mem_enumsInside (h : Coherent s) {p : MessageId} {id : EnumId} :
    id ∈ s.enumsInside p ↔ ∃ e, s.enums[id]? = some e ∧ e.parent = some p := by
  rw [h.enumsInside_eq, h.mem_nestedEnums]

/-- Messages hold messages that there are. -/
theorem embedsInRange (h : Coherent s) : s.EmbedsInRange := by
  intro outer inner hinner
  obtain ⟨hm, hf, htype, -⟩ := embeds_iff.1 hinner
  have hrange := ((h.messages outer _ hm).fields _ hf).type
  rw [htype] at hrange
  cases hrange with
  | message hlt => exact hlt

end Coherent

theorem enclosing_of_parent_eq_none {s : Schema} {id : MessageId} {m : Message}
    (hm : s.messages[id]? = some m) (hparent : m.parent = none) : s.enclosing id = [id] := by
  rw [enclosing, parentBelow?, hm, Option.bind_some, hparent]

theorem enclosing_of_parent_eq_some {s : Schema} {id p : MessageId} {m : Message}
    (hm : s.messages[id]? = some m) (hparent : m.parent = some p) (hlt : p < id) :
    s.enclosing id = id :: s.enclosing p := by
  have hbelow : s.parentBelow? id = some ⟨p, hlt⟩ := by
    rw [parentBelow?, hm, Option.bind_some, hparent]
    exact dif_pos hlt
  rw [enclosing, hbelow]

namespace Agrees

variable {s t : Schema} {visible : FileId → Prop}

theorem message (h : Agrees s t r visible) {id : MessageId} {m : Message}
    (hm : s.messages[id]? = some m) (hvisible : visible m.file) :
    t.messages[r.message id]? = some (m.renumber r) :=
  h.messages.getElem? id m hm hvisible

theorem enumeration (h : Agrees s t r visible) {id : EnumId} {e : Enum}
    (he : s.enums[id]? = some e) (hvisible : visible e.file) :
    t.enums[r.enumeration id]? = some (e.renumber r) :=
  h.enums.getElem? id e he hvisible

theorem message_injective (h : Agrees s t r visible) {i j : MessageId}
    (hi : KnownMessage s visible i) (hj : KnownMessage s visible j)
    (hsame : r.message i = r.message j) : i = j := by
  obtain ⟨m, hm, hm'⟩ := hi
  obtain ⟨n, hn, hn'⟩ := hj
  exact h.messages.injective h.file_injective (fun _ => rfl) hm hn hm' hn' hsame

/-- What a known message stands in is known, and comes first under both numbers. -/
theorem parent (h : Agrees s t r visible) {id p : MessageId} {m : Message}
    (hm : s.messages[id]? = some m) (hvisible : visible m.file) (hp : m.parent = some p) :
    KnownMessage s visible p ∧ p < id ∧ r.message p < r.message id := by
  have hcoherent := h.coherent.messages id m hm
  obtain ⟨q, hq, hfile, -⟩ := hcoherent.nested p hp
  have hlt := hcoherent.parent_lt p hp
  exact ⟨⟨q, hq, hfile ▸ hvisible⟩, hlt,
    h.messages.lt p id q m hq hm (hfile ▸ hvisible) hfile hlt⟩

/-- What a known enum stands in is known. -/
theorem enumParent (h : Agrees s t r visible) {id : EnumId} {p : MessageId} {e : Enum}
    (he : s.enums[id]? = some e) (hvisible : visible e.file) (hp : e.parent = some p) :
    KnownMessage s visible p := by
  obtain ⟨q, hq, hfile, -⟩ := (h.coherent.enums id e he).nested p hp
  exact ⟨q, hq, hfile ▸ hvisible⟩

/-- The values of a map in a known message are of a known type. -/
theorem mapType (h : Agrees s t r visible) {id : MessageId} {m : Message}
    (hm : s.messages[id]? = some m) (hvisible : visible m.file) {f : Field} (hf : f ∈ m.fields)
    (map : MapEntry) (hmap : f.map = some map) : map.value.Known s visible := by
  have hcoherent := ((h.coherent.messages id m hm).fields f hf).map map hmap
  obtain ⟨entry, key, value, hentry, his, hvalue⟩ := hcoherent.entry
  have hknown := h.type id m hm hvisible f hf
  rw [hcoherent.type] at hknown
  cases hknown with
  | message htarget =>
    obtain ⟨entry', hentry', hentryVisible⟩ := htarget
    obtain rfl := Option.some.inj (hentry.symm.trans hentry')
    rw [hvalue]
    exact h.type _ entry hentry hentryVisible value his.value_mem

/-! ## Inside files and messages -/

/-- A known message lists the same. -/
theorem contents_message (h : Agrees s t r visible) {id : MessageId}
    (hid : KnownMessage s visible id) :
    t.contents (.message (r.message id)) = (s.contents (.message id)).renumber r := by
  obtain ⟨m, hm, hvisible⟩ := hid
  rw [contents, contents, hm, h.message hm hvisible]
  rfl

/-- **The same messages stand in a known message.** -/
theorem messagesInside (h : Agrees s t r visible) {id : MessageId}
    (hid : KnownMessage s visible id) :
    t.messagesInside (r.message id) = (s.messagesInside id).map r.message := by
  rw [h.coherent'.messagesInside_eq, h.coherent.messagesInside_eq]
  exact congrArg Contents.messages (h.contents_message hid)

/-- **The same enums stand in a known message.** -/
theorem enumsInside (h : Agrees s t r visible) {id : MessageId} (hid : KnownMessage s visible id) :
    t.enumsInside (r.message id) = (s.enumsInside id).map r.enumeration := by
  rw [h.coherent'.enumsInside_eq, h.coherent.enumsInside_eq]
  exact congrArg Contents.enums (h.contents_message hid)

/-- What stands in a known message is known. -/
theorem nestedMessage_known (h : Agrees s t r visible) {id j : MessageId}
    (hid : KnownMessage s visible id) (hj : j ∈ s.messagesInside id) :
    KnownMessage s visible j := by
  obtain ⟨q, hq, hvisible⟩ := hid
  obtain ⟨m, hm, hp⟩ := h.coherent.mem_messagesInside.1 hj
  obtain ⟨q', hq', hfile, -⟩ := (h.coherent.messages j m hm).nested id hp
  obtain rfl := Option.some.inj (hq.symm.trans hq')
  exact ⟨m, hm, hfile ▸ hvisible⟩

/-- What stands in a known message is known. -/
theorem nestedEnum_known (h : Agrees s t r visible) {id : MessageId} {j : EnumId}
    (hid : KnownMessage s visible id) (hj : j ∈ s.enumsInside id) : KnownEnum s visible j := by
  obtain ⟨q, hq, hvisible⟩ := hid
  obtain ⟨e, he, hp⟩ := h.coherent.mem_enumsInside.1 hj
  obtain ⟨q', hq', hfile, -⟩ := (h.coherent.enums j e he).nested id hp
  obtain rfl := Option.some.inj (hq.symm.trans hq')
  exact ⟨e, he, hfile ▸ hvisible⟩

/-- **The same messages stand at the top of a visible file.** -/
theorem topMessages (h : Agrees s t r visible) {i : FileId} (hi : visible i) :
    t.topMessages (r.file i) = (s.topMessages i).map r.message :=
  congrArg Contents.messages (h.top i hi)

/-- **The same enums stand at the top of a visible file.** -/
theorem topEnums (h : Agrees s t r visible) {i : FileId} (hi : visible i) :
    t.topEnums (r.file i) = (s.topEnums i).map r.enumeration :=
  congrArg Contents.enums (h.top i hi)

/-! ## Around a message -/

/-- The messages around a message are the same ones, and they are known. -/
theorem enclosing (h : Agrees s t r visible) {id : MessageId} (hid : KnownMessage s visible id) :
    t.enclosing (r.message id) = (s.enclosing id).map r.message ∧
      ∀ j ∈ s.enclosing id, KnownMessage s visible j := by
  induction id using Nat.strongRecOn with
  | ind id ih =>
    obtain ⟨m, hm, hvisible⟩ := hid
    have hm' := h.message hm hvisible
    cases hparent : m.parent with
    | none =>
      have hparent' : (m.renumber r).parent = none := by rw [Message.renumber, hparent]; rfl
      rw [enclosing_of_parent_eq_none hm hparent, enclosing_of_parent_eq_none hm' hparent']
      exact ⟨rfl, List.forall_mem_singleton.2 ⟨m, hm, hvisible⟩⟩
    | some p =>
      obtain ⟨hp, hlt, hlt'⟩ := h.parent hm hvisible hparent
      have hparent' : (m.renumber r).parent = some (r.message p) := by
        rw [Message.renumber, hparent]
        rfl
      obtain ⟨heq, hknown⟩ := ih p hlt hp
      rw [enclosing_of_parent_eq_some hm hparent hlt,
        enclosing_of_parent_eq_some hm' hparent' hlt', heq]
      exact ⟨rfl, List.forall_mem_cons.2 ⟨⟨m, hm, hvisible⟩, hknown⟩⟩

/-- **The messages around what is declared in a known message are the same ones.** -/
theorem ancestors (h : Agrees s t r visible) {parent : Option MessageId}
    (hparent : ∀ p, parent = some p → KnownMessage s visible p) :
    t.ancestors (parent.map r.message) = (s.ancestors parent).map r.message ∧
      ∀ j ∈ s.ancestors parent, KnownMessage s visible j := by
  cases parent with
  | none => exact ⟨rfl, fun j hj => absurd hj List.not_mem_nil⟩
  | some p =>
    obtain ⟨heq, hknown⟩ := h.enclosing (hparent p rfl)
    refine ⟨?_, fun j hj => hknown j (List.mem_reverse.1 hj)⟩
    rw [Schema.ancestors, Schema.ancestors, List.map_reverse]
    exact congrArg List.reverse heq

/-! ## Inside a message -/

theorem embeds_renumber (m : Message) : (m.renumber r).embeds = m.embeds.map r.message := by
  rw [Message.embeds, Message.embeds, Message.renumber, List.filterMap_map, List.map_filterMap]
  refine List.filterMap_congr fun f _ => ?_
  rw [Function.comp_apply, Field.renumber]
  cases f.type <;> cases f.isRepeated <;> rfl

/-- A known message holds known messages, and the same ones. -/
theorem embeds (h : Agrees s t r visible) {id : MessageId} (hid : KnownMessage s visible id) :
    t.embeds (r.message id) = (s.embeds id).map r.message ∧
      ∀ j ∈ s.embeds id, KnownMessage s visible j := by
  obtain ⟨m, hm, hvisible⟩ := hid
  rw [Schema.embeds, Schema.embeds, hm, h.message hm hvisible]
  refine ⟨embeds_renumber m, fun j hj => ?_⟩
  obtain ⟨f, hf, hj⟩ := List.mem_filterMap.1 hj
  have htype := h.type id m hm hvisible f hf
  split at hj
  · rename_i htarget _
    obtain rfl := Option.some.inj hj
    rw [htarget] at htype
    cases htype with
    | message hknown => exact hknown
  · cases hj

/-- **A known message leads to the same messages.** -/
theorem reaches_iff (h : Agrees s t r visible) {outer inner : MessageId}
    (houter : KnownMessage s visible outer) (hinner : KnownMessage s visible inner) :
    Relation.ReflTransGen t.Embeds (r.message outer) (r.message inner) ↔
      Relation.ReflTransGen s.Embeds outer inner := by
  constructor
  · intro hreaches
    have hall : ∀ j', Relation.ReflTransGen t.Embeds (r.message outer) j' →
        ∃ j, j' = r.message j ∧ KnownMessage s visible j ∧
          Relation.ReflTransGen s.Embeds outer j := by
      intro j' hj'
      induction hj' with
      | refl => exact ⟨outer, rfl, houter, .refl⟩
      | tail _ hstep ih =>
        obtain ⟨j, rfl, hknown, hj⟩ := ih
        obtain ⟨heq, hembeds⟩ := h.embeds hknown
        rw [Embeds, heq] at hstep
        obtain ⟨k, hk, rfl⟩ := List.mem_map.1 hstep
        exact ⟨k, rfl, hembeds k hk, hj.tail hk⟩
    obtain ⟨j, heq, hknown, hj⟩ := hall _ hreaches
    rwa [h.message_injective hinner hknown heq]
  · intro hreaches
    have hall : KnownMessage s visible inner ∧
        Relation.ReflTransGen t.Embeds (r.message outer) (r.message inner) := by
      clear hinner
      induction hreaches with
      | refl => exact ⟨houter, .refl⟩
      | tail _ hstep ih =>
        obtain ⟨hknown, hreach⟩ := ih
        obtain ⟨heq, hembeds⟩ := h.embeds hknown
        refine ⟨hembeds _ hstep, hreach.tail ?_⟩
        rw [Embeds, heq]
        exact List.mem_map_of_mem hstep
    exact hall.2

/-- **The same messages are recursive.** -/
theorem isRecursive (h : Agrees s t r visible) {outer inner : MessageId}
    (houter : KnownMessage s visible outer) (hinner : KnownMessage s visible inner) :
    t.isRecursive (r.message outer) (r.message inner) = s.isRecursive outer inner := by
  rw [Bool.eq_iff_iff, isRecursive_iff, isRecursive_iff, h.reaches_iff hinner houter]

end Agrees

end Protowire.Schema
