import Mathlib.Logic.Relation
import Protowire.Schema.Embedding

/-!
# Proofs/Schema/Embedding — the search for embedded messages finds all of them

What `search` finds lies inside something that was pending (`exists_of_search`).  For the converse,
a search keeps its `Frontier`: whatever a message holds that was looked into has been looked into
itself or is still pending.  A search that finds nothing leaves nothing pending, so what it looked
into is `Closed` and nothing leads out of it (`exists_closed_of_search`).  Hence `isRecursive` says
exactly which messages can hold which (`isRecursive_iff`): those that singular fields lead to
(`embeds_iff`).

The message of a field and what it leads to need not be there for that: what is not a message holds
nothing.  That the search meets no such is said apart (`EmbedsInRange.lt_of_reaches`).
-/

namespace Protowire.Schema

/-- One message holds another directly. -/
def Embeds (s : Schema) (outer inner : MessageId) : Prop :=
  inner ∈ s.embeds outer

/-- A message has a field of the type of another, one that the predicate holds of. -/
inductive HasField (s : Schema) (along : Field → Prop) (outer inner : MessageId) : Prop where
  | intro {m : Message} {f : Field} (message : s.messages[outer]? = some m) (field : f ∈ m.fields)
      (type : f.type = .message inner) (holds : along f)

/-- Predicates that agree on the fields there are lead to the same messages. -/
theorem hasField_congr {s : Schema} {along along' : Field → Prop}
    (h : ∀ m ∈ s.messages, ∀ f ∈ m.fields, (along f ↔ along' f)) :
    s.HasField along = s.HasField along' := by
  funext outer inner
  refine propext ⟨?_, ?_⟩
  · rintro ⟨hm, hf, htype, hholds⟩
    exact ⟨hm, hf, htype, (h _ (List.mem_of_getElem? hm) _ hf).1 hholds⟩
  · rintro ⟨hm, hf, htype, hholds⟩
    exact ⟨hm, hf, htype, (h _ (List.mem_of_getElem? hm) _ hf).2 hholds⟩

/-- **Messages hold what their singular fields are of.** -/
theorem embeds_iff {s : Schema} {outer inner : MessageId} :
    s.Embeds outer inner ↔ s.HasField (·.isRepeated = false) outer inner := by
  rw [Embeds, embeds]
  constructor
  · intro h
    cases hm : s.messages[outer]? with
    | none =>
      rw [hm] at h
      exact absurd h List.not_mem_nil
    | some m =>
      rw [hm] at h
      obtain ⟨f, hf, htarget⟩ := List.mem_filterMap.1 h
      split at htarget
      · rename_i htype hsingular
        exact ⟨hm, hf, Option.some.inj htarget ▸ htype, hsingular⟩
      · cases htarget
  · rintro ⟨hm, hf, htype, hsingular⟩
    rw [hm]
    refine List.mem_filterMap.2 ⟨_, hf, ?_⟩
    rw [htype, hsingular]

/-- Messages hold only messages that there are. -/
def EmbedsInRange (s : Schema) : Prop :=
  ∀ outer inner, s.Embeds outer inner → inner < s.messages.length

/-- What the messages found hold has been found. -/
def Closed (s : Schema) (found : List MessageId) : Prop :=
  ∀ outer ∈ found, ∀ inner, s.Embeds outer inner → inner ∈ found

/-- What the messages hold that have been looked into has been looked into, or is pending. -/
def Frontier (s : Schema) (seen pending : List MessageId) : Prop :=
  ∀ outer ∈ seen, ∀ inner, s.Embeds outer inner → inner ∈ seen ∨ inner ∈ pending

/-! ## Steps of the search -/

section Steps

variable {s : Schema} {seen pending found : List MessageId} {id outer inner : MessageId}

/-- Nothing has been looked into at first. -/
theorem Frontier.start (s : Schema) (pending : List MessageId) : s.Frontier [] pending :=
  fun _ h => absurd h List.not_mem_nil

/-- A message that was seen may be dropped. -/
theorem Frontier.skip (h : s.Frontier seen (id :: pending)) (hid : id ∈ seen) :
    s.Frontier seen pending := by
  intro outer houter inner hinner
  rcases h outer houter inner hinner with hseen | hpending
  · exact .inl hseen
  · rcases List.mem_cons.1 hpending with rfl | hpending
    · exact .inl hid
    · exact .inr hpending

/-- A message that is looked into leaves what it holds pending. -/
theorem Frontier.follow (h : s.Frontier seen (id :: pending)) :
    s.Frontier (id :: seen) ((s.embeds id).reverse ++ pending) := by
  intro outer houter inner hinner
  rcases List.mem_cons.1 houter with rfl | houter
  · exact .inr (List.mem_append_left _ (List.mem_reverse.2 hinner))
  · rcases h outer houter inner hinner with hseen | hpending
    · exact .inl (List.mem_cons_of_mem _ hseen)
    · rcases List.mem_cons.1 hpending with rfl | hpending
      · exact .inl List.mem_cons_self
      · exact .inr (List.mem_append_right _ hpending)

/-- When nothing is pending, what was looked into is closed. -/
theorem Frontier.closed (h : s.Frontier seen []) : s.Closed seen := by
  intro outer houter inner hinner
  exact (h outer houter inner hinner).resolve_right List.not_mem_nil

/-- Nothing leads out of what is closed. -/
theorem Closed.mem_of_reaches (h : s.Closed found) (houter : outer ∈ found)
    (hreaches : Relation.ReflTransGen s.Embeds outer inner) : inner ∈ found := by
  induction hreaches with
  | refl => exact houter
  | tail _ hstep ih => exact h _ ih _ hstep

end Steps

/-! ## The whole search -/

section Search

variable {s : Schema} {seen pending : List MessageId} {outer inner : MessageId}

/-- What is found is pending, or inside something that is. -/
theorem exists_of_search (h : s.search outer seen pending = true) :
    ∃ id ∈ pending, Relation.ReflTransGen s.Embeds id outer := by
  induction seen, pending using search.induct s outer with
  | case1 seen => rw [search] at h; exact absurd h nofun
  | case2 seen pending => exact ⟨outer, List.mem_cons_self, .refl⟩
  | case3 seen id pending hne hseen ih =>
    rw [search, if_neg hne, dif_pos hseen] at h
    obtain ⟨found, hfound, hreaches⟩ := ih h
    exact ⟨found, List.mem_cons_of_mem _ hfound, hreaches⟩
  | case4 seen id pending hne hseen _ ih =>
    rw [search, if_neg hne, dif_neg hseen] at h
    obtain ⟨found, hfound, hreaches⟩ := ih h
    rcases List.mem_append.1 hfound with hheld | hpending
    · exact ⟨id, List.mem_cons_self, .head (List.mem_reverse.1 hheld) hreaches⟩
    · exact ⟨found, List.mem_cons_of_mem _ hpending, hreaches⟩

/-- **A search that finds nothing looked into everything** that is pending or inside. -/
theorem exists_closed_of_search (hfrontier : s.Frontier seen pending) (hout : outer ∉ seen)
    (h : s.search outer seen pending = false) :
    ∃ found, s.Closed found ∧ seen ⊆ found ∧ pending ⊆ found ∧ outer ∉ found := by
  induction seen, pending using search.induct s outer with
  | case1 seen => exact ⟨seen, hfrontier.closed, fun _ h => h, nofun, hout⟩
  | case2 seen pending => rw [search, if_pos rfl] at h; exact absurd h nofun
  | case3 seen id pending hne hseen ih =>
    rw [search, if_neg hne, dif_pos hseen] at h
    have hid : id ∈ seen := List.contains_iff_mem.1 hseen
    obtain ⟨found, hclosed, hsub, hpending, hfound⟩ := ih (hfrontier.skip hid) hout h
    exact ⟨found, hclosed, hsub, List.cons_subset.2 ⟨hsub hid, hpending⟩, hfound⟩
  | case4 seen id pending hne hseen _ ih =>
    rw [search, if_neg hne, dif_neg hseen] at h
    have hout' : outer ∉ id :: seen := List.not_mem_cons_of_ne_of_not_mem (Ne.symm hne) hout
    obtain ⟨found, hclosed, hsub, hpending, hfound⟩ := ih hfrontier.follow hout' h
    obtain ⟨hid, hsub⟩ := List.cons_subset.1 hsub
    exact ⟨found, hclosed, hsub,
      List.cons_subset.2 ⟨hid, (List.append_subset.1 hpending).2⟩, hfound⟩

/-- **A message is recursive in another** exactly when that one leads back to it. -/
theorem isRecursive_iff :
    s.isRecursive outer inner = true ↔ Relation.ReflTransGen s.Embeds inner outer := by
  constructor
  · intro h
    obtain ⟨id, hid, hreaches⟩ := exists_of_search h
    rwa [List.mem_singleton.1 hid] at hreaches
  · intro hreaches
    cases hresult : s.isRecursive outer inner with
    | true => rfl
    | false =>
      obtain ⟨found, hclosed, -, hpending, hout⟩ :=
        exists_closed_of_search (.start s [inner]) List.not_mem_nil hresult
      have hinner : inner ∈ found := hpending (List.mem_singleton_self inner)
      exact absurd (hclosed.mem_of_reaches hinner hreaches) hout

/-- What a message leads to is there, as it is itself. -/
theorem EmbedsInRange.lt_of_reaches (hrange : s.EmbedsInRange) (hinner : inner < s.messages.length)
    (hreaches : Relation.ReflTransGen s.Embeds inner outer) : outer < s.messages.length := by
  cases hreaches with
  | refl => exact hinner
  | tail _ hstep => exact hrange _ _ hstep

/-- The message itself and the messages inside it, however deep. -/
def within (s : Schema) (id : MessageId) : List MessageId :=
  (List.range s.messages.length).filter fun inner => s.isRecursive inner id

/-- **What is within a message is what it leads to** by holding messages. -/
theorem mem_within_iff (hrange : s.EmbedsInRange) (houter : outer < s.messages.length) :
    inner ∈ s.within outer ↔ Relation.ReflTransGen s.Embeds outer inner := by
  rw [within, List.mem_filter, List.mem_range, isRecursive_iff]
  exact ⟨And.right, fun h => ⟨hrange.lt_of_reaches houter h, h⟩⟩

/-- **Which messages can hold which is found out exactly.**  Where fields are of messages that there
are, the search for `outer` from `inner` ends, and says yes just when a chain of singular fields, in
oneofs or not, leads from `inner` to `outer`, of no field or more.  It meets nothing but messages that
there are; and where map fields are repeated, as they are when files resolve, no field of the chain is
a map. -/
theorem isRecursive_iff_singular_fields_lead
    (hrange : ∀ m ∈ s.messages, ∀ f ∈ m.fields, ∀ target, f.type = .message target →
      target < s.messages.length)
    (hinner : inner < s.messages.length) :
    (s.isRecursive outer inner = true ↔
      Relation.ReflTransGen (s.HasField fun f => f.isRepeated = false) inner outer) ∧
    (∀ id, Relation.ReflTransGen (s.HasField fun f => f.isRepeated = false) inner id →
      id < s.messages.length) ∧
    ((∀ m ∈ s.messages, ∀ f ∈ m.fields, f.map.isSome = true → f.isRepeated = true) →
      (s.isRecursive outer inner = true ↔
        Relation.ReflTransGen (s.HasField fun f => f.isRepeated = false ∧ f.map = none)
          inner outer)) := by
  have hembeds : s.Embeds = s.HasField (·.isRepeated = false) := by
    funext a b
    exact propext embeds_iff
  have hexact : s.isRecursive outer inner = true ↔
      Relation.ReflTransGen (s.HasField (·.isRepeated = false)) inner outer :=
    hembeds ▸ isRecursive_iff
  have hembedsInRange : s.EmbedsInRange := by
    intro a b hab
    obtain ⟨hm, hf, htype, -⟩ := embeds_iff.1 hab
    exact hrange _ (List.mem_of_getElem? hm) _ hf b htype
  refine ⟨hexact, fun id hid => hembedsInRange.lt_of_reaches hinner (hembeds ▸ hid), fun hmaps => ?_⟩
  -- A map field is repeated, so a singular one is no map.
  have hplain : ∀ m ∈ s.messages, ∀ f ∈ m.fields,
      (f.isRepeated = false ↔ f.isRepeated = false ∧ f.map = none) := by
    intro m hm f hf
    refine ⟨fun hsingular => ⟨hsingular, ?_⟩, And.left⟩
    cases hmap : f.map with
    | none => rfl
    | some map =>
      have hrepeated := hmaps m hm f hf (by rw [hmap]; rfl)
      exact absurd (hsingular.symm.trans hrepeated) Bool.false_ne_true
  rw [hexact, hasField_congr hplain]

end Search

/-- Two messages that hold each other, one that holds a list of its own kind, and one that holds the
first of them in a oneof, and the third in a map. -/
def rings : Schema where
  files := []
  messages :=
    [⟨"Left", "Left", 0, none, [⟨"right", 1, .message 1, false, false, none, none⟩], [], ⟨[], []⟩,
        false⟩,
      ⟨"Right", "Right", 0, none, [⟨"left", 1, .message 0, false, false, none, none⟩], [], ⟨[], []⟩,
        false⟩,
      ⟨"Tree", "Tree", 0, none, [⟨"leaves", 1, .message 2, true, false, none, none⟩], [], ⟨[], []⟩,
        false⟩,
      ⟨"Root", "Root", 0, none, [⟨"left", 1, .message 0, false, false, none, some 0⟩,
        ⟨"trees", 2, .message 4, true, false, some ⟨4, .string, .message 2⟩, none⟩],
        [⟨"either", [0]⟩], ⟨[4], []⟩, false⟩,
      ⟨"TreesEntry", "Root.TreesEntry", 0, some 3, [⟨"key", 1, .scalar .string, false, false, none,
        none⟩, ⟨"value", 2, .message 2, false, false, none, none⟩], [], ⟨[], []⟩, true⟩]
  enums := []

/-- The message with the oneof can hold the two that hold each other, by fields that are no maps, and
is in none of them; nor does the map lead anywhere. -/
theorem isRecursive_iff_singular_fields_lead_rings :
    (List.range 5).map (fun inner => (List.range 5).filter (rings.isRecursive · inner))
      = [[0, 1], [0, 1], [2], [0, 1, 3], [2, 4]] ∧
    Relation.ReflTransGen (rings.HasField fun f => f.isRepeated = false ∧ f.map = none) 3 1 ∧
    ¬ Relation.ReflTransGen (rings.HasField fun f => f.isRepeated = false) 1 3 ∧
    ¬ Relation.ReflTransGen (rings.HasField fun f => f.isRepeated = false) 3 2 := by
  have hrange : ∀ m ∈ rings.messages, ∀ f ∈ m.fields, ∀ target, f.type = .message target →
      target < rings.messages.length := by simp +decide [rings]
  have hmaps : ∀ m ∈ rings.messages, ∀ f ∈ m.fields, f.map.isSome = true → f.isRepeated = true := by
    decide
  refine ⟨by decide +kernel, ?_, fun h => ?_, fun h => ?_⟩
  · exact ((isRecursive_iff_singular_fields_lead hrange (by decide)).2.2 hmaps).1 (by decide +kernel)
  · have := (isRecursive_iff_singular_fields_lead hrange (by decide)).1.2 h
    exact absurd this (by decide +kernel)
  · have := (isRecursive_iff_singular_fields_lead hrange (by decide)).1.2 h
    exact absurd this (by decide +kernel)

end Protowire.Schema
