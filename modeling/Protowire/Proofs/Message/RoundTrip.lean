import Protowire.Proofs.Message.Layout
import Protowire.Proofs.Message.Overlay
import Protowire.Proofs.Message.Payloads
import Protowire.Proofs.Message.Writes

/-!
# Proofs/Message/RoundTrip — a message is read back from every way to write it

The proof follows the data.  A slot takes up the fields of a content one by one and ends as that
content laid over what it held before (`Content.foldsTo_overlay`).  Its fields are no business of
the other slots, since numbers are distinct, so a record takes up the fields of all its slots
(`Record.foldsTo_overlay`).  Embedded messages are read by the decoder one level down, and an
induction on the levels (`Below.ofLevels_restores`) gives all of them.

So what was written comes to lie over a message that takes it up (`Message.merge_overlay`), and what
starts out empty becomes what was written (`Message.round_trip`).

Each embedded message and each map entry takes one level, so a message is read back when it is no
deeper than the budget (`Record.depth`).
-/

namespace Protowire

mutual

/-- How deep embedded messages and map entries are nested in a record. -/
def Record.depth : {l : Layout} → Record l → Nat
  | _, .nil => 0
  | _, .cons c rest => max c.depth rest.depth

/-- How deep embedded messages and map entries are nested in a slot. -/
def Content.depth : {slot : Slot} → Content slot → Nat
  | .field _ _ (.plain _), .plain _ => 0
  | .field _ _ (.optional _), .absent => 0
  | .field _ _ (.optional _), .present v => v.depth
  | .field _ _ (.repeated _ _), .repeated vs => vs.depth
  | .field _ _ (.map _ _), .map entries => if entries.entries.isEmpty then 0 else 1
  | .oneof _ _, .unset => 0
  | .oneof _ _, .chosen _ _ v => v.depth

/-- How deep a value is nested: an embedded message is one level below the field that holds it. -/
def Item.depth : {e : Element} → Item e → Nat
  | .scalar _, .scalar _ => 0
  | .message _, .message r => r.depth + 1

/-- How deep the deepest of the values is nested. -/
def Items.depth : {e : Element} → Items e → Nat
  | _, .nil => 0
  | _, .cons v rest => max v.depth rest.depth

end

/-! ## Lists of values -/

namespace Items

variable {e : Element} {s : Scalar}

theorem append_nil : ∀ vs : Items e, vs.append .nil = vs
  | .nil => rfl
  | .cons v rest => congrArg (Items.cons v) (append_nil rest)

/-- A value that is added to a list comes before those that are added later. -/
theorem append_singleton_append (v : Item e) (rest : Items e) :
    ∀ vs : Items e, (vs.append (ofList [v])).append rest = vs.append (.cons v rest)
  | .nil => rfl
  | .cons w vs => congrArg (Items.cons w) (append_singleton_append v rest vs)

/-- The values of a list of scalars. -/
def scalarValues (vs : Items (.scalar s)) : List s.Value := vs.toList.map Item.scalarValue

/-- A list of scalars is given by its values. -/
theorem ofList_scalarValues : ∀ vs : Items (.scalar s), ofList (vs.scalarValues.map .scalar) = vs
  | .nil => rfl
  | .cons (.scalar v) rest => congrArg (Items.cons (.scalar v)) (ofList_scalarValues rest)

/-- A list of scalars is written as the payloads of its values. -/
theorem eq_map_of_writes : ∀ {vs : Items (.scalar s)} {ps : List Payload},
    vs.Writes ps → ps = vs.scalarValues.map s.toPayload
  | .nil, _, h => h
  | .cons (.scalar v) rest, _, h => by
    obtain ⟨p, others, rfl, hrest, rfl⟩ := h
    rw [eq_map_of_writes hrest]
    rfl

end Items

/-! ## What reads back embedded messages -/

/-- **Reads back messages of fewer than so many levels**, from every way to write them. -/
structure Below.Restores (below : Below) (levels : Nat) : Prop where
  isSome : 0 < levels → below.isSome = true
  decode : ∀ {t : MessageType} {m : Message t} {fields : List WireField}, m.depth < levels →
    m.Writes fields → (WireField.encodeAll fields).length < 2 ^ 64 →
    ∃ decode, below = some decode ∧ ∀ start,
      Reader.runWindow (decode t) (Reader.window start (WireField.encodeAll fields)) = .ok m

variable {below : Below} {levels : Nat}

/-- A level that is left is allowed. -/
theorem Below.Restores.check_eq_ok (h : below.Restores levels) (hpos : 0 < levels) (offset : Nat) :
    below.check offset = .ok () := by
  rw [Below.check, if_pos (h.isSome hpos)]

/-- Nothing is promised when no level is left. -/
theorem Below.restores_zero (below : Below) : below.Restores 0 := ⟨nofun, nofun⟩

namespace Element

variable {e : Element} {v : Item e} {p : Payload}

/-- A value is accepted if it is nested no deeper than is allowed. -/
theorem accept_of_writes (h : below.Restores levels) (hw : v.Writes p) (hdepth : v.depth ≤ levels)
    (offset : Nat) : e.accept below p.wireType offset = .ok () := by
  rw [Item.wireType_of_writes hw]
  cases v with
  | scalar v => exact accept_scalar below _ offset
  | message r =>
    rw [accept, WireType.check_self]
    exact h.check_eq_ok (Nat.lt_of_lt_of_le (Nat.succ_pos r.depth) hdepth) offset

/-- **A value is read back from its payload.** -/
theorem read_of_writes (h : below.Restores levels) (hw : v.Writes p) (hdepth : v.depth ≤ levels)
    (hfits : p.Fits) (offset body : Nat) : e.read below ⟨offset, body, p⟩ = .ok v := by
  cases v with
  | @scalar s v =>
    obtain rfl : p = s.toPayload v := hw
    rw [read, Scalar.ofOccurrence_toPayload]
    rfl
  | @message t r =>
    obtain ⟨fields, hr, rfl⟩ := hw
    obtain ⟨decode, rfl, hdecode⟩ := h.decode (Nat.lt_of_succ_le hdepth) hr hfits
    exact congrArg (Except.map Item.message) (hdecode body)

/-- A value is accepted into a list as it is alone. -/
theorem acceptMany_of_writes (h : below.Restores levels) (hw : v.Writes p)
    (hdepth : v.depth ≤ levels) (offset : Nat) :
    e.acceptMany below p.wireType offset = .ok () := by
  cases v with
  | @scalar s v =>
    rw [Item.wireType_of_writes hw, acceptMany]
    split
    · rfl
    · exact s.wireType.check_self
  | message r => exact accept_of_writes h hw hdepth offset

/-- A value is read into a list as it is alone: what is packed is no single value. -/
theorem readMany_of_writes (h : below.Restores levels) (hw : v.Writes p) (hdepth : v.depth ≤ levels)
    (hfits : p.Fits) (offset body : Nat) :
    e.readMany below ⟨offset, body, p⟩ = .ok [v] := by
  -- The payload of a packable scalar is not delimited, so it is not taken for a packed list.
  have hsingle : e.readMany below ⟨offset, body, p⟩
      = (fun v => [v]) <$> e.read below ⟨offset, body, p⟩ := by
    cases v with
    | @scalar s v =>
      obtain rfl : p = s.toPayload v := hw
      cases s <;> rfl
    | message r => rfl
  rw [hsingle, read_of_writes h hw hdepth hfits]
  rfl

/-- **A packed list is read back from its payload.** -/
theorem readMany_packed (below : Below) {s : Scalar} (hpack : s.isPackable = true)
    {vs : Items (.scalar s)} {ps : List Payload} (hw : vs.Writes ps) (offset body : Nat) :
    readMany below (.scalar s) ⟨offset, body, .delimited (ps.flatMap Payload.encode)⟩
      = .ok (vs.scalarValues.map .scalar) := by
  obtain rfl := Items.eq_map_of_writes hw
  have hread := s.runWindow_readPacked hpack vs.scalarValues body
  rw [List.flatMap_map]
  simp only [readMany, if_pos hpack, Occurrence.window, hread]
  rfl

end Element

/-- A field that holds one value is read back. -/
theorem Item.merge_reads {e : Element} {v : Item e} {p : Payload} (h : below.Restores levels)
    (hw : v.Writes p) (hdepth : v.depth ≤ levels) (hfits : p.Fits) :
    Decode.Reads (Item.merge below e p.wireType) p.encode v := fun n => by
  rw [merge_eq]
  exact Reader.takeUp_readsAt hfits rfl (Element.accept_of_writes h hw hdepth n)
    fun body => Element.read_of_writes h hw hdepth hfits n body

namespace Entry

variable {k : Scalar}

/-- **A map entry is read back from its payload.** -/
theorem read_of_writes {e : Element} {v : Item e} {p : Payload} (h : below.Restores levels)
    (hw : v.Writes p) (hdepth : v.depth ≤ levels) {key : k.Value}
    (hfits : (WireField.encodeAll (fields key p)).length < 2 ^ 64) (offset place : Nat) :
    read below k e ⟨offset, place, .delimited (WireField.encodeAll (fields key p))⟩
      = .ok ⟨key, v⟩ := by
  have hfield : ∀ f ∈ fields key p, f.payload.Fits := fun f hf =>
    Payload.fits_of_size_lt (Nat.lt_of_le_of_lt (WireField.payload_size_le hf) hfits)
  exact read_fields (hfield _ List.mem_cons_self) (Item.merge_reads h hw hdepth
    (hfield _ (List.mem_cons_of_mem _ List.mem_cons_self))) offset place

/-- A map entry between two scalars is read back from its payload, with no level left. -/
theorem read_body (below : Below) {s : Scalar} {key : k.Value} {value : s.Value}
    (hfits : (body key value).length < 2 ^ 64) (offset place : Nat) :
    read below k (.scalar s) ⟨offset, place, .delimited (body key value)⟩
      = .ok ⟨key, .scalar value⟩ := by
  have hbody : WireField.encodeAll (fields key (s.toPayload value)) = body key value := by
    rw [encodeAll_fields, WireField.encode, Scalar.wireType_toPayload]
    rfl
  rw [← hbody] at hfits ⊢
  exact read_of_writes below.restores_zero (v := .scalar value) rfl (Nat.le_refl 0) hfits offset
    place

end Entry

/-! ## One slot -/

/-- Takes up a field, wherever it stands. -/
def Content.TakesUp (below : Below) {slot : Slot} (c : Content slot) (f : WireField)
    (c' : Content slot) : Prop :=
  ∀ offset, slot.accept below f.number f.payload.wireType offset = .ok () ∧
    ∀ body, c.absorb below f.number ⟨offset, body, f.payload⟩ = .ok c'

/-- A list takes up the field of a value behind the values it has. -/
theorem Content.takesUp_item (h : below.Restores levels) (name : String) (number : Nat)
    (packed : Bool) {e : Element} (before : Items e) {v : Item e} {p : Payload} (hw : v.Writes p)
    (hdepth : v.depth ≤ levels) (hfits : p.size < 2 ^ 64) :
    TakesUp below (.repeated before : Content (.field name number (.repeated e packed)))
      ⟨number, p⟩ (.repeated (before.append (Items.ofList [v]))) := by
  refine fun offset => ⟨Element.acceptMany_of_writes h hw hdepth offset, fun body => ?_⟩
  rw [absorb, Element.readMany_of_writes h hw hdepth (Payload.fits_of_size_lt hfits)]
  rfl

/-- A list takes up the fields of values one by one, if it is not packed. -/
theorem Items.foldsTo_of_writes (h : below.Restores levels) (name : String) (number : Nat)
    (packed : Bool) : ∀ {e : Element} (before vs : Items e) {ps : List Payload}, vs.Writes ps →
      vs.depth ≤ levels → (∀ p ∈ ps, p.size < 2 ^ 64) →
      FoldsTo (Content.TakesUp below)
        (.repeated before : Content (.field name number (.repeated e packed)))
        (ps.map (WireField.mk number)) (.repeated (before.append vs))
  | _, before, .nil, _, hw, _, _ => by
    obtain rfl : _ = [] := hw
    rw [Items.append_nil]
    exact .nil _
  | e, before, .cons v rest, _, hw, hdepth, hfits => by
    obtain ⟨p, others, hp, hrest, rfl⟩ := hw
    obtain ⟨hv, hvs⟩ : v.depth ≤ levels ∧ rest.depth ≤ levels := Nat.max_le.1 hdepth
    have htail := foldsTo_of_writes h name number packed (before.append (ofList [v])) rest hrest
      hvs fun p hp => hfits p (List.mem_cons_of_mem _ hp)
    rw [append_singleton_append] at htail
    exact .cons (Content.takesUp_item h name number packed before hp hv
      (hfits p List.mem_cons_self)) htail

/-- A map takes up the fields of entries one by one, in any order. -/
theorem Content.foldsTo_of_perm (name : String) (number : Nat) {k v : Scalar}
    (before : KeyMap k v.Value) {m : KeyMap k v.Value} {pairs : List (k.Value × v.Value)}
    (hperm : pairs.Perm m.entries) (hbelow : m.entries ≠ [] → below.isSome = true)
    (hfits : ∀ p ∈ pairs, (Entry.body p.1 p.2).length < 2 ^ 64) :
    FoldsTo (TakesUp below) (.map before : Content (.field name number (.map k v)))
      (pairs.map (Entry.toField number)) (.map (before.update m)) := by
  have hfold : FoldsTo (fun (m : KeyMap k v.Value) p m' =>
      TakesUp below (.map m : Content (.field name number (.map k v))) (Entry.toField number p)
        (.map m')) before pairs (before.insertAll pairs) := by
    refine .foldl fun m p hp offset => ⟨?_, fun body => ?_⟩
    · exact if_pos (hbelow (List.ne_nil_of_mem (hperm.subset hp)))
    · rw [absorb, Entry.toField, Entry.read_body none (hfits p hp)]
      rfl
  rw [← before.insertAll_of_perm hperm]
  exact (hfold.map Content.map fun _ _ _ _ h => h).map_inputs

/-- A list takes up the one field of a packed list behind the values it has. -/
theorem Content.foldsTo_of_packed (below : Below) (name : String) (number : Nat) {e : Element}
    (hpacks : e.isPackable = true) (before : Items e) {vs : Items e} {ps : List Payload}
    (hw : vs.Writes ps) :
    FoldsTo (TakesUp below) (.repeated before : Content (.field name number (.repeated e true)))
      (WireField.pack number ps) (.repeated (before.append vs)) := by
  cases e with
  | message t => exact absurd hpacks nofun
  | scalar s =>
    have hpack : s.isPackable = true := hpacks
    cases vs with
    | nil =>
      obtain rfl : ps = [] := hw
      rw [Items.append_nil]
      exact .nil _
    | cons v rest =>
      obtain ⟨p, others, hp, hrest, rfl⟩ := id hw
      refine .single fun offset => ⟨if_pos ⟨hpack, rfl⟩, fun body => ?_⟩
      rw [absorb, Element.readMany_packed below hpack hw]
      exact congrArg (fun vs => Except.ok (Content.repeated (before.append vs)))
        (Items.ofList_scalarValues _)

/-- **A slot takes up the fields of a content one by one**, and ends as that content laid over what
it held. -/
theorem Content.foldsTo_overlay (h : below.Restores levels) {slot : Slot}
    (hdistinct : slot.numbers.Nodup) (hpacks : slot.packsNumbers = true) (before : Content slot)
    {c : Content slot} {fields : List WireField} (hw : c.Writes fields) (hdepth : c.depth ≤ levels)
    (hfits : ∀ f ∈ fields, f.payload.size < 2 ^ 64) :
    FoldsTo (TakesUp below) before fields (before.overlay c) := by
  cases c with
  | @plain name number s v =>
    obtain rfl : fields = if v = s.zero then [] else [⟨number, s.toPayload v⟩] := hw
    cases before with
    | plain old =>
      rw [overlay]
      split
      -- A zero is not written, and what the slot held stays.
      · exact .nil _
      · refine .single fun offset => ⟨?_, fun body => ?_⟩
        · rw [Scalar.wireType_toPayload]
          exact s.wireType.check_self
        · rw [absorb, Scalar.ofOccurrence_toPayload]
          rfl
  | absent =>
    obtain rfl : fields = [] := hw
    exact .nil before
  | @present name number e v =>
    obtain ⟨p, hp, rfl⟩ := hw
    have hsize : p.Fits := Payload.fits_of_size_lt (hfits _ List.mem_cons_self)
    refine .single fun offset => ⟨Element.accept_of_writes h hp hdepth offset, fun body => ?_⟩
    rw [absorb, Element.read_of_writes h hp hdepth hsize]
    rfl
  | @repeated name number e packed vs =>
    obtain ⟨ps, hps, rfl⟩ := hw
    cases before with
    | repeated old =>
      cases packed with
      | false =>
        have hsizes : ∀ p ∈ ps, p.size < 2 ^ 64 := fun p hp => hfits _ (List.mem_map_of_mem hp)
        exact Items.foldsTo_of_writes h name number false old vs hps hdepth hsizes
      | true => exact Content.foldsTo_of_packed below name number hpacks old hps
  | @map name number k v m =>
    obtain ⟨pairs, hperm, rfl⟩ := hw
    cases before with
    | map old =>
      have hbodies : ∀ p ∈ pairs, (Entry.body p.1 p.2).length < 2 ^ 64 := fun p hp =>
        Nat.lt_of_le_of_lt (Nat.le_add_left _ _) (hfits _ (List.mem_map_of_mem hp))
      -- A map with pairs takes a level, so there is one left.
      have hbelow : m.entries ≠ [] → below.isSome = true := fun hne => by
        rw [depth, if_neg (fun hempty => hne (List.isEmpty_iff.1 hempty))] at hdepth
        exact h.isSome hdepth
      exact foldsTo_of_perm name number old hperm hbelow hbodies
  | unset =>
    obtain rfl : fields = [] := hw
    exact .nil before
  | @chosen name members m hm v =>
    obtain ⟨p, hp, rfl⟩ := hw
    have hsize : p.Fits := Payload.fits_of_size_lt (hfits _ List.mem_cons_self)
    have hfind := Member.find?_number hdistinct hm
    refine .single fun offset => ⟨?_, fun body => ?_⟩
    · rw [Slot.accept, hfind]
      exact Element.accept_of_writes h hp hdepth offset
    · rw [absorb, hfind]
      exact congrArg (Except.map (chosen m hm))
        (Element.read_of_writes h hp hdepth hsize offset body)

/-- An empty slot takes up the fields of a content one by one, and ends as that content. -/
theorem Content.foldsTo_of_writes (h : below.Restores levels) {slot : Slot}
    (hdistinct : slot.numbers.Nodup) (hpacks : slot.packsNumbers = true) {c : Content slot}
    {fields : List WireField} (hw : c.Writes fields) (hdepth : c.depth ≤ levels)
    (hfits : ∀ f ∈ fields, f.payload.size < 2 ^ 64) :
    FoldsTo (TakesUp below) (empty slot) fields c := by
  have hfold := foldsTo_overlay h hdistinct hpacks (empty slot) hw hdepth hfits
  rwa [empty_overlay] at hfold

/-! ## All slots -/

/-- The fields of a packed list have its number. -/
theorem WireField.number_of_mem_pack {number : Nat} {ps : List Payload} {f : WireField}
    (hf : f ∈ pack number ps) : f.number = number := by
  cases ps with
  | nil => exact absurd hf List.not_mem_nil
  | cons p ps =>
    obtain rfl := List.mem_singleton.1 hf
    rfl

/-- The fields of a slot have its numbers. -/
theorem Content.number_mem_of_writes {slot : Slot} {c : Content slot} {fields : List WireField}
    (hw : c.Writes fields) {f : WireField} (hf : f ∈ fields) : f.number ∈ slot.numbers := by
  cases c with
  | @plain name number s v =>
    obtain rfl : fields = if v = s.zero then [] else [⟨number, s.toPayload v⟩] := hw
    split at hf
    · exact absurd hf List.not_mem_nil
    · exact List.mem_map_of_mem hf
  | absent | unset =>
    obtain rfl : fields = [] := hw
    exact absurd hf List.not_mem_nil
  | present v =>
    obtain ⟨p, -, rfl⟩ := hw
    exact List.mem_map_of_mem hf
  | @repeated name number e packed vs =>
    obtain ⟨ps, -, rfl⟩ := hw
    refine List.mem_singleton.2 ?_
    split at hf
    · exact WireField.number_of_mem_pack hf
    · obtain ⟨p, -, rfl⟩ := List.mem_map.1 hf
      rfl
  | map entries =>
    obtain ⟨pairs, -, rfl⟩ := hw
    obtain ⟨p, -, rfl⟩ := List.mem_map.1 hf
    exact List.mem_singleton_self _
  | chosen m hm v =>
    obtain ⟨p, -, rfl⟩ := hw
    obtain rfl := List.mem_singleton.1 hf
    exact List.mem_map_of_mem hm

/-- The fields of a record have the numbers of its layout. -/
theorem Record.number_mem_of_writes : ∀ {l : Layout} {r : Record l} {fields : List WireField},
    r.Writes fields → ∀ f ∈ fields, f.number ∈ Layout.numbers l
  | _, .nil, _, hw, f, hf => by
    obtain rfl : _ = [] := hw
    exact absurd hf List.not_mem_nil
  | slot :: l, .cons c rest, _, hw, f, hf => by
    obtain ⟨first, others, hc, hrest, rfl⟩ := hw
    rcases List.mem_append.1 hf with hf | hf
    · exact List.mem_append_left (Layout.numbers l) (Content.number_mem_of_writes hc hf)
    · exact List.mem_append_right slot.numbers (number_mem_of_writes hrest f hf)

namespace Record

/-- Takes up a field, wherever it stands. -/
def TakesUp (below : Below) {l : Layout} (r : Record l) (f : WireField) (r' : Record l) : Prop :=
  ∀ offset, accept below f.number f.payload.wireType offset l = .ok () ∧
    ∀ body, r.absorb below f.number ⟨offset, body, f.payload⟩ = .ok r'

variable {slot : Slot} {l : Layout} {f : WireField}

/-- A field of the first slot is taken up by that slot. -/
theorem takesUp_head (hhas : slot.has f.number = true) {c c' : Content slot}
    (h : c.TakesUp below f c') (rest : Record l) :
    (cons c rest).TakesUp below f (.cons c' rest) := by
  intro offset
  obtain ⟨haccept, habsorb⟩ := h offset
  rw [accept, if_pos hhas]
  refine ⟨haccept, fun body => ?_⟩
  rw [absorb, if_pos hhas, habsorb body]
  rfl

/-- A field that is not of the first slot is taken up by the others. -/
theorem takesUp_tail (hhas : slot.has f.number = false) (c : Content slot) {rest rest' : Record l}
    (h : rest.TakesUp below f rest') : (cons c rest).TakesUp below f (.cons c rest') := by
  intro offset
  obtain ⟨haccept, habsorb⟩ := h offset
  have hnot : ¬ slot.has f.number = true := Bool.eq_false_iff.1 hhas
  rw [accept, if_neg hnot]
  refine ⟨haccept, fun body => ?_⟩
  rw [absorb, if_neg hnot, habsorb body]
  rfl

/-- **A record takes up the fields of all slots of another**, which comes to lie over it.  The
fields of one slot leave the others as they are. -/
theorem foldsTo_overlay (h : below.Restores levels) : ∀ {l : Layout} (before : Record l)
    {r : Record l} {fields : List WireField}, Layout.WellFormed l → r.Writes fields →
      r.depth ≤ levels → (∀ f ∈ fields, f.payload.size < 2 ^ 64) →
      FoldsTo (TakesUp below) before fields (before.overlay r)
  | _, .nil, .nil, _, _, hw, _, _ => by
    obtain rfl : _ = [] := hw
    exact .nil _
  | slot :: l, .cons b before, .cons c rest, _, hwf, hw, hdepth, hfits => by
    obtain ⟨first, others, hc, hrest, rfl⟩ := hw
    obtain ⟨hcdepth, hrdepth⟩ : c.depth ≤ levels ∧ rest.depth ≤ levels := Nat.max_le.1 hdepth
    have hhead : FoldsTo (Content.TakesUp below) b first (b.overlay c) :=
      Content.foldsTo_overlay h hwf.nodup_head (hwf.packs slot List.mem_cons_self) b hc hcdepth
        fun f hf => hfits f (List.mem_append_left others hf)
    have htail : FoldsTo (TakesUp below) before others (before.overlay rest) :=
      foldsTo_overlay h before hwf.tail hrest hrdepth fun f hf =>
        hfits f (List.mem_append_right first hf)
    refine (hhead.map (fun c => cons c before) fun _ _ f hf htake => ?_).append
      (htail.map (cons (b.overlay c)) fun _ _ f hf htake => ?_)
    · have hhas : slot.has f.number = true :=
        List.contains_iff_mem.2 (Content.number_mem_of_writes hc hf)
      exact takesUp_head hhas htake before
    · exact takesUp_tail (hwf.has_eq_false (number_mem_of_writes hrest f hf)) _ htake

/-- A field that a record takes up is read. -/
theorem mergeNext_reads {r r' : Record l} (hvalid : f.Valid) (h : r.TakesUp below f r') :
    Decode.Reads (r.mergeNext below) f.encode r' := by
  intro n
  obtain ⟨haccept, habsorb⟩ := h (n + (Tag.encode f.number f.payload.wireType).length)
  have hfield : Decode.ReadsAt (n + (Tag.encode f.number f.payload.wireType).length)
      (r.mergeField below f.number f.payload.wireType) f.payload.encode r' := by
    rw [mergeField_eq]
    exact Reader.takeUp_readsAt hvalid.payload_fits rfl haccept habsorb
  exact (Reader.tag_readsAt hvalid.pos hvalid.le_max f.payload.wireType).bind hfield

end Record

/-! ## All levels -/

namespace Message

variable {t : MessageType}

/-- What a message is written as has numbers that fields may have, and payloads whose length can be
written, when that of all of it can. -/
theorem valid_of_writes {m : Message t} {fields : List WireField} (hw : m.Writes fields)
    (hfits : (WireField.encodeAll fields).length < 2 ^ 64) : ∀ f ∈ fields, f.Valid := by
  intro f hf
  obtain ⟨hpos, hmax⟩ := t.layout_wellFormed.valid f.number (Record.number_mem_of_writes hw f hf)
  exact ⟨hpos, hmax, Nat.lt_of_le_of_lt (WireField.payload_size_le hf) hfits⟩

/-- A message comes to lie over the one that takes it up, when what it embeds is read back. -/
theorem runWindow_merge_overlay (h : below.Restores levels) (old : Message t) {m : Message t}
    {fields : List WireField} (hw : m.Writes fields) (hdepth : m.depth ≤ levels)
    (hfits : (WireField.encodeAll fields).length < 2 ^ 64) (start : Nat) :
    Reader.runWindow (Record.merge below old)
      (Reader.window start (WireField.encodeAll fields)) = .ok (old.overlay m) := by
  have hvalid := valid_of_writes hw hfits
  have hfold := Record.foldsTo_overlay h old t.layout_wellFormed hw hdepth
    fun f hf => (hvalid f hf).fits
  exact Reader.runWindow_untilEmpty_of_foldsTo (Record.mergeNext_consumes below)
    (hfold.map id fun _ _ f hf htake => Record.mergeNext_reads (hvalid f hf) htake) start

/-- A message is read back when what it embeds is. -/
theorem runWindow_merge_of_writes (h : below.Restores levels) {m : Message t}
    {fields : List WireField} (hw : m.Writes fields) (hdepth : m.depth ≤ levels)
    (hfits : (WireField.encodeAll fields).length < 2 ^ 64) (start : Nat) :
    Reader.runWindow (Record.merge below (empty t))
      (Reader.window start (WireField.encodeAll fields)) = .ok m := by
  have hmerge := runWindow_merge_overlay h (empty t) hw hdepth hfits start
  rwa [overlay, empty, Record.empty_overlay] at hmerge

end Message

/-- **Every level reads back what is no deeper.** -/
theorem Below.ofLevels_restores (levels : Nat) : (ofLevels levels).Restores levels := by
  induction levels with
  | zero => exact restores_zero none
  | succ levels ih =>
    refine ⟨fun _ => rfl, fun hdepth hw hfits => ⟨_, rfl, fun start => ?_⟩⟩
    exact Message.runWindow_merge_of_writes ih hw (Nat.le_of_lt_succ hdepth) hfits start

namespace Message

variable {t : MessageType}

/-- A message is read back from every way to write it, with or without its length in front. -/
theorem decode_of_writes {m : Message t} {fields : List WireField} (hw : m.Writes fields)
    (hdepth : m.depth ≤ 100) (hfits : m.size < 2 ^ 64) :
    decode t (WireField.encodeAll fields) = .ok m ∧
      ∀ tail, decodeDelimited t
        (Varint.encode (UInt64.ofNat m.size) ++ WireField.encodeAll fields ++ tail) = .ok m := by
  have hlen : (WireField.encodeAll fields).length = m.size := Record.length_of_writes hw
  rw [← hlen] at hfits ⊢
  have hmerge := runWindow_merge_of_writes (Below.ofLevels_restores 100) hw hdepth hfits
  refine ⟨hmerge 0, fun tail => ?_⟩
  obtain ⟨place, henter⟩ := Reader.enter_readsAt (n := 0) hfits
  exact Reader.runWindow_eq_ok.2 ⟨_, (henter.bind_nil (.ofExcept (hmerge place))) 0 0 tail rfl⟩

/-- A message is read back from its encoding. -/
theorem decode_encode (m : Message t) (hdepth : m.depth ≤ 100)
    (hfits : m.encode.length < 2 ^ 64) : decode t m.encode = .ok m := by
  rw [length_encode] at hfits
  obtain ⟨fields, hw, hencode⟩ := Record.exists_writes_encode m
  obtain ⟨hplain, -⟩ := decode_of_writes hw hdepth hfits
  rwa [hencode] at hplain

/-- **Round trip.**  A message nested no deeper than the budget and shorter than a length can say is
read back from its encoding, and from its encoding behind its length whatever follows; and so it is
when the pairs of its maps are written in any other order. -/
theorem round_trip (m : Message t) (hdepth : m.depth ≤ 100) (hfits : m.encode.length < 2 ^ 64) :
    decode t m.encode = .ok m ∧
    (∀ tail, decodeDelimited t (m.encodeDelimited ++ tail) = .ok m) ∧
    ∀ fields, m.Writes fields →
      decode t (WireField.encodeAll fields) = .ok m ∧
      ∀ tail, decodeDelimited t
        (Varint.encode (UInt64.ofNat m.size) ++ WireField.encodeAll fields ++ tail) = .ok m := by
  rw [length_encode] at hfits
  obtain ⟨fields, hw, hencode⟩ := Record.exists_writes_encode m
  obtain ⟨hplain, hdelimited⟩ := decode_of_writes hw hdepth hfits
  rw [hencode] at hplain hdelimited
  exact ⟨hplain, hdelimited, fun fields hfields => decode_of_writes hfields hdepth hfits⟩

/-- A message with two pairs in its map. -/
def twoPairs : Message .basicMap :=
  .cons (.map (.ofList [("b", (2 : Int32)), ("a", (3 : Int32))])) .nil

/-- Two pairs are read back from their encoding, and when the larger key comes first. -/
theorem round_trip_two_pairs :
    (twoPairs.depth ≤ 100 ∧ twoPairs.encode.length < 2 ^ 64) ∧
    twoPairs.encode = [10, 5, 10, 1, 97, 16, 3, 10, 5, 10, 1, 98, 16, 2] ∧
    decode .basicMap [10, 5, 10, 1, 97, 16, 3, 10, 5, 10, 1, 98, 16, 2] = .ok twoPairs ∧
    decode .basicMap [10, 5, 10, 1, 98, 16, 2, 10, 5, 10, 1, 97, 16, 3] = .ok twoPairs := by
  have hdepth : twoPairs.depth ≤ 100 := by decide
  have hfits : twoPairs.encode.length < 2 ^ 64 := by decide
  have hencode : twoPairs.encode = [10, 5, 10, 1, 97, 16, 3, 10, 5, 10, 1, 98, 16, 2] := by decide
  obtain ⟨hplain, -, hany⟩ := round_trip twoPairs hdepth hfits
  rw [hencode] at hplain
  -- The fields of the two entries, the larger key first.
  have hw : twoPairs.Writes ([("b", (2 : Int32)), ("a", (3 : Int32))].map
      (Entry.toField (k := .string) (v := .int32) 1)) :=
    ⟨_, [], ⟨_, .swap _ _ [], rfl⟩, rfl, (List.append_nil _).symm⟩
  exact ⟨⟨hdepth, hfits⟩, hencode, hplain, (hany _ hw).1⟩

/-! ## Onto a message that holds something -/

/-- **What is merged into a message comes to lie over it.**  Merging the encoding of a message that
is nested no deeper than the budget and shorter than a length can say, with the pairs of its maps in
any order, gives that message laid over the one that was there; and where a map is laid over
another, each key has the new value if there is one and else the old one. -/
theorem merge_overlay (old : Message t) {m : Message t} (hdepth : m.depth ≤ 100)
    (hfits : m.encode.length < 2 ^ 64) :
    old.merge m.encode = .ok (old.overlay m) ∧
    (∀ fields, m.Writes fields → old.merge (WireField.encodeAll fields) = .ok (old.overlay m)) ∧
    ∀ {k : Scalar} {β : Type} (held added : KeyMap k β) (key : k.Value),
      (held.update added).find? key = (added.find? key).or (held.find? key) := by
  rw [length_encode] at hfits
  have hmerge : ∀ fields, m.Writes fields →
      old.merge (WireField.encodeAll fields) = .ok (old.overlay m) := fun fields hw => by
    have hlen : (WireField.encodeAll fields).length = m.size := Record.length_of_writes hw
    exact runWindow_merge_overlay (Below.ofLevels_restores 100) old hw hdepth (hlen ▸ hfits) 0
  obtain ⟨fields, hw, hencode⟩ := Record.exists_writes_encode m
  have hencoded := hmerge fields hw
  rw [hencode] at hencoded
  exact ⟨hencoded, hmerge, KeyMap.find?_update⟩

/-- A request with a file, a parameter and a version that has a suffix. -/
def requestBelow : Message .generatorRequest :=
  .cons (.repeated (.ofList [.scalar "a.proto"])) (.cons (.plain "fast") (.cons
    (.present (.message (.cons (.plain (3 : Int32)) (.cons (.plain (1 : Int32))
      (.cons (.plain (0 : Int32)) (.cons (.plain "rc") .nil))))))
    (.cons (.repeated .nil) .nil)))

/-- A request with another file, no parameter and a version without suffix. -/
def requestAbove : Message .generatorRequest :=
  .cons (.repeated (.ofList [.scalar "b.proto"])) (.cons (.plain "") (.cons
    (.present (.message (.cons (.plain (4 : Int32)) (.cons (.plain (0 : Int32))
      (.cons (.plain (0 : Int32)) (.cons (.plain "") .nil))))))
    (.cons (.repeated .nil) .nil)))

/-- The files stand behind one another and the parameter stays; of the old version nothing is left,
neither the minor number nor the suffix. -/
theorem merge_overlay_requests :
    (requestAbove.depth ≤ 100 ∧ requestAbove.encode.length < 2 ^ 64) ∧
    requestBelow.merge requestAbove.encode
      = .ok (.cons (.repeated (.ofList [.scalar "a.proto", .scalar "b.proto"]))
          (.cons (.plain "fast") (.cons
            (.present (.message (.cons (.plain (4 : Int32)) (.cons (.plain (0 : Int32))
              (.cons (.plain (0 : Int32)) (.cons (.plain "") .nil))))))
            (.cons (.repeated .nil) .nil)))) := by
  have hdepth : requestAbove.depth ≤ 100 := by decide
  have hfits : requestAbove.encode.length < 2 ^ 64 := by decide
  exact ⟨⟨hdepth, hfits⟩, (merge_overlay requestBelow hdepth hfits).1⟩

end Message

end Protowire
