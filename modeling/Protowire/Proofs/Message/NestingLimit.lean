import Protowire.Proofs.Message.Nesting
import Protowire.Proofs.Wire.Faults

/-!
# Proofs/Message/NestingLimit — a message is read exactly when its nesting is within the limit

Two inductions on the levels that may be entered.  `Below.ofLevels_refuses` reads the encoding of a
message that is too deep: all goes well up to **the first nesting one level below the limit**, and
its length is where the fault is.  `Below.ofLevels_bounds` reads any bytes: what comes out is no
deeper than the limit.
-/

namespace Protowire

variable {below : Below} {levels : Nat}

/-! ## What is too deep is refused -/

/-- **Refuses messages of at least so many levels**, at their first nesting that is as deep. -/
structure Below.Refuses (below : Below) (levels : Nat) : Prop where
  isNone : levels = 0 → below = none
  decode : ∀ {t : MessageType} {m : Message t} {fields : List WireField}, 0 < levels →
    levels ≤ m.depth → m.Writes fields → (WireField.encodeAll fields).length < 2 ^ 64 →
    ∃ decode n, below = some decode ∧ Nesting.first? levels (Record.nestings m) = some n ∧ ∀ start,
      Reader.runWindow (decode t) (Reader.window start (WireField.encodeAll fields))
        = .error (.nestedTooDeep (start + n.offset))

/-- The length of a value's payload does not depend on how it is written. -/
theorem Item.length_encode_of_writes {e : Element} {v : Item e} {p : Payload} (h : v.Writes p) :
    p.encode.length = v.payload.length := by
  obtain ⟨p', h', hpayload⟩ := Item.exists_writes_payload v
  rw [← hpayload, Payload.length_encode, Payload.length_encode, Item.size_of_writes h,
    Item.size_of_writes h']

/-- The length of a slot's fields does not depend on how it is written. -/
theorem Content.length_encodeAll_of_writes {slot : Slot} {c : Content slot}
    {fields : List WireField} (h : c.Writes fields) :
    (WireField.encodeAll fields).length = c.encode.length := by
  obtain ⟨fields', h', hencode⟩ := Content.exists_writes_encode c
  rw [← hencode, Content.length_of_writes h, Content.length_of_writes h']

/-- The field of a value is a tag and the value's payload long. -/
theorem Item.length_field_of_writes {e : Element} {v : Item e} {p : Payload} (h : v.Writes p)
    (number : Nat) :
    (WireField.mk number p).encode.length
      = (Tag.encode number e.wireType).length + v.payload.length := by
  rw [Item.encode_of_writes h, List.length_append, Item.length_encode_of_writes h]

namespace Element

variable {e : Element} {v : Item e} {p : Payload}

/-- **A value that is too deep is refused**, when its field is or inside it. -/
theorem refuses_of_writes (h : below.Refuses levels) (hw : v.Writes p) (hdepth : levels < v.depth)
    (hfits : p.size < 2 ^ 64) :
    ∃ n, Nesting.first? (levels + 1) v.nestings = some n ∧ ∀ offset,
      (e.accept below p.wireType offset >>= fun _ => e.read below ⟨offset, offset + p.lead, p⟩)
        = .error (.nestedTooDeep (offset + n.offset)) := by
  cases v with
  | scalar v => exact absurd hdepth (Nat.not_lt_zero levels)
  | @message t r =>
    obtain ⟨fields, hr, rfl⟩ := hw
    have haccept : ∀ offset, accept below (.message t) .lengthDelimited offset
        = below.check offset := fun offset => by
      rw [accept, Element.wireType, WireType.check_self]
      rfl
    cases levels with
    | zero =>
      refine ⟨⟨1, 0⟩, rfl, fun offset => ?_⟩
      rw [Payload.wireType, haccept, h.isNone rfl]
      rfl
    | succ levels =>
      have hlen : (WireField.encodeAll fields).length < 2 ^ 64 :=
        Nat.lt_of_le_of_lt (Nat.le_add_left _ _) hfits
      obtain ⟨decode, n, rfl, hfirst, hdecode⟩ :=
        h.decode (Nat.succ_pos levels) (Nat.le_of_lt_succ hdepth) hr hlen
      have hlead : Payload.lead (.delimited (WireField.encodeAll fields))
          = (Varint.encode (UInt64.ofNat r.size)).length := by
        rw [Payload.lead, Record.length_of_writes hr]
      refine ⟨n.inside (Varint.encode (UInt64.ofNat r.size)).length, ?_, fun offset => ?_⟩
      -- The message itself is one level down, so the first that is as deep is inside.
      · have hinside : Nesting.first? (levels + 1 + 1) (r.nestings.map _)
            = (Nesting.first? (levels + 1) r.nestings).map _ :=
          Nesting.first?_map_inside (Varint.encode (UInt64.ofNat r.size)).length
        rw [hfirst] at hinside
        exact hinside
      · have hread := hdecode (offset + (Varint.encode (UInt64.ofNat r.size)).length)
        rw [Payload.wireType, haccept, hlead]
        have hoffset : offset + (Varint.encode (UInt64.ofNat r.size)).length + n.offset
            = offset + (n.offset + (Varint.encode (UInt64.ofNat r.size)).length) := by omega
        rw [hoffset] at hread
        exact congrArg (Except.map Item.message) hread

end Element

/-! ### One slot -/

/-- Refuses a field, wherever it stands, with a fault so far behind the start of the field. -/
def Content.Refuses (below : Below) {slot : Slot} (c : Content slot) (f : WireField) (o : Nat) :
    Prop :=
  ∃ o', o = o' + (Tag.encode f.number f.payload.wireType).length ∧ ∀ offset,
    (slot.accept below f.number f.payload.wireType offset >>= fun _ =>
        c.absorb below f.number ⟨offset, offset + f.payload.lead, f.payload⟩)
      = .error (.nestedTooDeep (offset + o'))

/-- **A field that holds a single value is refused if the value is.** -/
theorem Content.refuses_of_item {slot : Slot} {c : Content slot} (number : Nat) {e : Element}
    {v : Item e} {p : Payload} (h : below.Refuses levels) (hw : v.Writes p)
    (hdepth : levels < v.depth) (hfits : p.size < 2 ^ 64)
    (haccept : ∀ offset, slot.accept below number p.wireType offset
      = e.accept below p.wireType offset)
    (habsorb : ∀ o fault, e.read below o = .error fault → c.absorb below number o = .error fault) :
    ∃ n, Nesting.first? (levels + 1)
        (v.nestings.map (.after (Tag.encode number e.wireType).length)) = some n ∧
      c.Refuses below ⟨number, p⟩ n.offset := by
  obtain ⟨n, hfirst, hrefuses⟩ := Element.refuses_of_writes h hw hdepth hfits
  refine ⟨n.after (Tag.encode number e.wireType).length, ?_, n.offset, ?_, fun offset => ?_⟩
  · rw [Nesting.first?_map_after, hfirst]
    rfl
  · rw [Nesting.after, Item.wireType_of_writes hw]
  · have hitem := hrefuses offset
    rw [haccept]
    cases hacc : e.accept below p.wireType offset with
    | error fault =>
      rw [hacc] at hitem
      exact congrArg Except.error (Except.error.inj hitem)
    | ok u =>
      rw [hacc] at hitem
      exact habsorb _ _ hitem

/-- What is no deeper than the limit has no nesting below it. -/
theorem Item.first?_eq_none {e : Element} {v : Item e} (hdepth : v.depth ≤ levels) (bytes : Nat) :
    Nesting.first? (levels + 1) (v.nestings.map (.after bytes)) = none := by
  refine Nesting.first?_eq_none fun n hn => Nat.lt_succ_of_le ?_
  exact Nesting.depth_le_of_mem_map_after
    (fun n hn => Nat.le_trans (Item.depth_le_of_mem_nestings v n hn) hdepth) n hn

/-- A list of messages is refused at its first message that is too deep. -/
theorem Items.stopsAt_of_writes (hrestores : below.Restores levels) (h : below.Refuses levels)
    (name : String) (number : Nat) {t : MessageType} :
    ∀ (before vs : Items (.message t)) {ps : List Payload}, vs.Writes ps → levels < vs.depth →
      (∀ p ∈ ps, p.size < 2 ^ 64) →
      ∃ n, Nesting.first? (levels + 1) (vs.nestings number) = some n ∧
        StopsAt (Content.TakesUp below) (Content.Refuses below) (fun f => f.encode.length)
          (.repeated before : Content (.field name number (.repeated (.message t) false)))
          (ps.map (WireField.mk number)) n.offset
  | _, .nil, _, _, hdepth, _ => absurd hdepth (Nat.not_lt_zero levels)
  | before, .cons v rest, _, hw, hdepth, hfits => by
    obtain ⟨p, others, hp, hrest, rfl⟩ := hw
    have hsize : p.size < 2 ^ 64 := hfits p List.mem_cons_self
    rw [nestings, Nesting.first?_append]
    by_cases hv : levels < v.depth
    · have habsorb : ∀ o fault, Element.read below (.message t) o = .error fault →
          Content.absorb below number o
            (.repeated before : Content (.field name number (.repeated (.message t) false)))
            = .error fault := fun o fault hread => by
        rw [Content.absorb]
        exact congrArg (Functor.map _) (congrArg (Functor.map fun v => [v]) hread)
      obtain ⟨n, hfirst, hrefuses⟩ :=
        Content.refuses_of_item number h hp hv hsize (fun _ => rfl) habsorb
      exact ⟨n, by rw [hfirst]; rfl, .here hrefuses _⟩
    · have hle : v.depth ≤ levels := Nat.not_lt.1 hv
      have hdeep : levels < rest.depth := by
        rw [depth] at hdepth
        omega
      obtain ⟨n, hfirst, hstops⟩ := stopsAt_of_writes hrestores h name number
        (before.append (ofList [v])) rest hrest hdeep
        fun p hp => hfits p (List.mem_cons_of_mem _ hp)
      refine ⟨n.after ((Tag.encode number .lengthDelimited).length + v.payload.length), ?_, ?_⟩
      · rw [Item.first?_eq_none hle, Nesting.first?_map_after, hfirst]
        rfl
      · have hhead := Content.takesUp_item hrestores name number false before hp hle hsize
        have hlater : StopsAt (Content.TakesUp below) (Content.Refuses below)
            (fun f => f.encode.length) _ (⟨number, p⟩ :: others.map (WireField.mk number))
            ((WireField.mk number p).encode.length + n.offset) := .later hhead hstops
        rw [Item.length_field_of_writes hp, Nat.add_comm] at hlater
        exact hlater

/-- A list of scalars is not deep. -/
theorem Items.depth_scalar {s : Scalar} : ∀ vs : Items (.scalar s), vs.depth = 0
  | .nil => rfl
  | .cons (.scalar _) rest => (Nat.max_eq_right (Nat.zero_le _)).trans (depth_scalar rest)

/-- **An empty slot that reads a content that is too deep stops at its first nesting that is.** -/
theorem Content.stopsAt_of_writes (hrestores : below.Restores levels) (h : below.Refuses levels)
    {slot : Slot} (hdistinct : slot.numbers.Nodup) (hpacks : slot.packsNumbers = true)
    {c : Content slot} {fields : List WireField} (hw : c.Writes fields) (hdepth : levels < c.depth)
    (hfits : ∀ f ∈ fields, f.payload.size < 2 ^ 64) :
    ∃ n, Nesting.first? (levels + 1) c.nestings = some n ∧
      StopsAt (TakesUp below) (Refuses below) (fun f => f.encode.length) (empty slot) fields
        n.offset := by
  cases c with
  | plain v => exact absurd hdepth (Nat.not_lt_zero levels)
  | absent | unset => exact absurd hdepth (Nat.not_lt_zero levels)
  | @present name number e v =>
    obtain ⟨p, hp, rfl⟩ := hw
    obtain ⟨n, hfirst, hrefuses⟩ := refuses_of_item number
      (c := (absent : Content (.field name number (.optional e)))) h hp hdepth
      (hfits _ List.mem_cons_self) (fun _ => rfl) fun o fault hread => by rw [absorb, hread]; rfl
    exact ⟨n, hfirst, .here hrefuses []⟩
  | @repeated name number e packed vs =>
    obtain ⟨ps, hps, rfl⟩ := hw
    cases e with
    | scalar s =>
      rw [depth, Items.depth_scalar] at hdepth
      exact absurd hdepth (Nat.not_lt_zero levels)
    | message t =>
      cases packed with
      | true => exact absurd hpacks Bool.false_ne_true
      | false =>
        exact Items.stopsAt_of_writes hrestores h name number .nil vs hps hdepth
          fun p hp => hfits _ (List.mem_map_of_mem hp)
  | @map name number k v m =>
    obtain ⟨pairs, hperm, rfl⟩ := hw
    -- Entries are one level down, so they are too deep only when no level is allowed at all.
    have hne : m.entries ≠ [] := fun hempty => by
      rw [depth, hempty] at hdepth
      exact absurd hdepth (Nat.not_lt_zero levels)
    rw [depth, if_neg (fun hempty => hne (List.isEmpty_iff.1 hempty))] at hdepth
    obtain rfl : levels = 0 := by omega
    obtain ⟨p, rest, rfl⟩ := List.exists_cons_of_ne_nil fun hnil =>
      hne (List.perm_nil.1 (hnil ▸ hperm.symm))
    obtain ⟨q, others, hentries⟩ := List.exists_cons_of_ne_nil hne
    refine ⟨⟨1, (Tag.encode number .lengthDelimited).length⟩, ?_, .here ?_ _⟩
    · rw [nestings, hentries]
      rfl
    · refine ⟨0, (Nat.zero_add _).symm, fun offset => ?_⟩
      rw [h.isNone rfl]
      rfl
  | @chosen name members m hm v =>
    obtain ⟨p, hp, rfl⟩ := hw
    have hfind := Member.find?_number hdistinct hm
    obtain ⟨n, hfirst, hrefuses⟩ := refuses_of_item m.number
      (c := (unset : Content (.oneof name members))) h hp hdepth (hfits _ List.mem_cons_self)
      (fun _ => by rw [Slot.accept, hfind]) fun o fault hread => by
        rw [absorb, hfind]
        exact congrArg (Except.map (chosen m hm)) hread
    exact ⟨n, hfirst, .here hrefuses []⟩

/-! ### All slots -/

namespace Record

/-- Refuses a field, wherever it stands, with a fault so far behind the start of the field. -/
def Refuses (below : Below) {l : Layout} (r : Record l) (f : WireField) (o : Nat) : Prop :=
  ∃ o', o = o' + (Tag.encode f.number f.payload.wireType).length ∧ ∀ offset,
    (accept below f.number f.payload.wireType offset l >>= fun _ =>
        r.absorb below f.number ⟨offset, offset + f.payload.lead, f.payload⟩)
      = .error (.nestedTooDeep (offset + o'))

variable {slot : Slot} {l : Layout} {f : WireField} {o : Nat}

/-- What a check and a step refuse, they refuse also when more is made of the result. -/
theorem bind_map_eq_error {α β : Type} {fault : DecodeError} {x : Except DecodeError Unit}
    {y : Except DecodeError α} (g : α → β) (h : (x >>= fun _ => y) = .error fault) :
    (x >>= fun _ => g <$> y) = .error fault := by
  cases x with
  | error e => exact congrArg Except.error (Except.error.inj h)
  | ok u =>
    obtain rfl : y = .error fault := h
    rfl

/-- A field of the first slot is refused by that slot. -/
theorem refuses_head (hhas : slot.has f.number = true) {c : Content slot}
    (h : c.Refuses below f o) (rest : Record l) : (cons c rest).Refuses below f o := by
  obtain ⟨o', ho, hrefuses⟩ := h
  refine ⟨o', ho, fun offset => ?_⟩
  rw [accept, if_pos hhas, absorb, if_pos hhas]
  exact bind_map_eq_error _ (hrefuses offset)

/-- A field that is not of the first slot is refused by the others. -/
theorem refuses_tail (hhas : slot.has f.number = false) (c : Content slot) {rest : Record l}
    (h : rest.Refuses below f o) : (cons c rest).Refuses below f o := by
  obtain ⟨o', ho, hrefuses⟩ := h
  have hnot : ¬ slot.has f.number = true := Bool.eq_false_iff.1 hhas
  refine ⟨o', ho, fun offset => ?_⟩
  rw [accept, if_neg hnot, absorb, if_neg hnot]
  exact bind_map_eq_error _ (hrefuses offset)

/-- **An empty record that reads a record that is too deep stops at its first nesting that is.** -/
theorem stopsAt_of_writes (hrestores : below.Restores levels) (h : below.Refuses levels) :
    ∀ {l : Layout} {r : Record l} {fields : List WireField}, Layout.WellFormed l →
      r.Writes fields → levels < r.depth → (∀ f ∈ fields, f.payload.size < 2 ^ 64) →
      ∃ n, Nesting.first? (levels + 1) r.nestings = some n ∧
        StopsAt (TakesUp below) (Refuses below) (fun f => f.encode.length) (empty l) fields
          n.offset
  | _, .nil, _, _, _, hdepth, _ => absurd hdepth (Nat.not_lt_zero levels)
  | slot :: l, .cons c rest, _, hwf, hw, hdepth, hfits => by
    obtain ⟨first, others, hc, hrest, rfl⟩ := hw
    have hfirst : ∀ f ∈ first, f.payload.size < 2 ^ 64 := fun f hf =>
      hfits f (List.mem_append_left others hf)
    have hothers : ∀ f ∈ others, f.payload.size < 2 ^ 64 := fun f hf =>
      hfits f (List.mem_append_right first hf)
    have hpacks := hwf.packs slot List.mem_cons_self
    have hhas : ∀ f ∈ first, slot.has f.number = true := fun f hf =>
      List.contains_iff_mem.2 (Content.number_mem_of_writes hc hf)
    rw [nestings, Nesting.first?_append]
    by_cases hdeep : levels < c.depth
    · obtain ⟨n, hn, hstops⟩ :=
        Content.stopsAt_of_writes hrestores h hwf.nodup_head hpacks hc hdeep hfirst
      refine ⟨n, by rw [hn]; rfl, ?_⟩
      exact (hstops.map (fun c => cons c (empty l))
        (fun _ _ f hf htake => takesUp_head (hhas f hf) htake (empty l))
        fun _ _ f hf hrefuse => refuses_head (hhas f hf) hrefuse (empty l)).append_right others
    · have hle : c.depth ≤ levels := Nat.not_lt.1 hdeep
      have hrdepth : levels < rest.depth := by
        rw [depth] at hdepth
        omega
      have hnot : ∀ f ∈ others, slot.has f.number = false := fun f hf =>
        hwf.has_eq_false (number_mem_of_writes hrest f hf)
      have hhead : FoldsTo (TakesUp below) (empty (slot :: l)) first (cons c (empty l)) :=
        (Content.foldsTo_of_writes hrestores hwf.nodup_head hpacks hc hle hfirst).map
          (fun c => cons c (empty l)) fun _ _ f hf htake => takesUp_head (hhas f hf) htake (empty l)
      obtain ⟨n, hn, hstops⟩ := stopsAt_of_writes hrestores h hwf.tail hrest hrdepth hothers
      have htail : StopsAt (TakesUp below) (Refuses below) (fun f => f.encode.length)
          (cons c (empty l)) others n.offset := hstops.map (cons c)
        (fun _ _ f hf htake => takesUp_tail (hnot f hf) c htake)
        fun _ _ f hf hrefuse => refuses_tail (hnot f hf) c hrefuse
      have hnone : Nesting.first? (levels + 1) c.nestings = none :=
        Nesting.first?_eq_none fun n hn =>
          Nat.lt_succ_of_le (Nat.le_trans (Content.depth_le_of_mem_nestings c n hn) hle)
      have hwidth : (first.map fun f => f.encode.length).sum = c.encode.length := by
        rw [← Content.length_encodeAll_of_writes hc, WireField.length_encodeAll]
        exact congrArg List.sum (List.map_congr_left fun f _ => f.length_encode)
      refine ⟨n.after c.encode.length, by rw [hnone, Nesting.first?_map_after, hn]; rfl, ?_⟩
      have hall := StopsAt.append_left hhead htail
      rw [hwidth, Nat.add_comm] at hall
      exact hall

/-- A field that a record refuses is not read. -/
theorem mergeNext_failsAt {r : Record l} (hvalid : f.Valid) (h : r.Refuses below f o) (n : Nat) :
    Decode.FailsAt n (r.mergeNext below) f.encode (.nestedTooDeep (n + o)) := by
  obtain ⟨o', rfl, hrefuses⟩ := h
  have hfield : Decode.FailsAt (n + (Tag.encode f.number f.payload.wireType).length)
      (r.mergeField below f.number f.payload.wireType) f.payload.encode
      (.nestedTooDeep (n + (Tag.encode f.number f.payload.wireType).length + o')) := by
    rw [mergeField_eq]
    exact Reader.takeUp_failsAt hvalid.payload_fits (hrefuses _)
  rw [Nat.add_assoc, Nat.add_comm _ o'] at hfield
  exact .of_reads (Reader.tag_readsAt hvalid.pos hvalid.le_max f.payload.wireType) hfield

end Record

/-! ### All levels -/

/-- A message that is too deep is refused when what it embeds is. -/
theorem Message.runWindow_merge_of_too_deep {t : MessageType} (hrestores : below.Restores levels)
    (h : below.Refuses levels) {m : Message t} {fields : List WireField} (hw : m.Writes fields)
    (hdepth : levels < m.depth) (hfits : (WireField.encodeAll fields).length < 2 ^ 64) :
    ∃ n, Nesting.first? (levels + 1) (Record.nestings m) = some n ∧ ∀ start,
      Reader.runWindow (Record.merge below (empty t))
        (Reader.window start (WireField.encodeAll fields))
        = .error (.nestedTooDeep (start + n.offset)) := by
  have hvalid := Message.valid_of_writes hw hfits
  obtain ⟨n, hn, hstops⟩ := Record.stopsAt_of_writes hrestores h t.layout_wellFormed hw hdepth
    fun f hf => (hvalid f hf).fits
  refine ⟨n, hn, fun start => ?_⟩
  refine Reader.runWindow_untilEmpty_of_stopsAt (Record.mergeNext_consumes below)
    WireField.encode_ne_nil (hstops.map id ?_ ?_) start
  · exact fun _ _ f hf htake => Record.mergeNext_reads (hvalid f hf) htake
  · exact fun _ _ f hf hrefuse => Record.mergeNext_failsAt (hvalid f hf) hrefuse

/-- **Every level refuses what is deeper.** -/
theorem Below.ofLevels_refuses (levels : Nat) : (ofLevels levels).Refuses levels := by
  induction levels with
  | zero => exact ⟨fun _ => rfl, fun hpos => absurd hpos (Nat.lt_irrefl 0)⟩
  | succ levels ih =>
    refine ⟨nofun, fun _ hdepth hw hfits => ?_⟩
    obtain ⟨n, hn, hrun⟩ :=
      Message.runWindow_merge_of_too_deep (ofLevels_restores levels) ih hw hdepth hfits
    exact ⟨_, n, rfl, hn, hrun⟩

/-! ## What is read is no deeper than the limit -/

/-- **Reads messages of fewer than so many levels only**, and none where no level is allowed. -/
def Below.Bounds (below : Below) (levels : Nat) : Prop :=
  ∀ decode, below = some decode → 0 < levels ∧ ∀ (t : MessageType) {r r' : Reader} {m : Message t},
    (decode t).run r = .ok m r' → m.depth < levels

namespace Items

variable {e : Element}

/-- Values after others are as deep as the deeper of the two lists. -/
theorem depth_append : ∀ vs ws : Items e, (vs.append ws).depth = max vs.depth ws.depth
  | .nil, ws => (Nat.max_eq_right (Nat.zero_le _)).symm
  | .cons v rest, ws => by rw [append, depth, depth_append rest ws, depth, Nat.max_assoc]

/-- A list is no deeper than its values. -/
theorem depth_ofList_le {vs : List (Item e)} (h : ∀ v ∈ vs, v.depth ≤ levels) :
    (ofList vs).depth ≤ levels := by
  induction vs with
  | nil => exact Nat.zero_le levels
  | cons v vs ih =>
    exact Nat.max_le.2 ⟨h v List.mem_cons_self, ih fun w hw => h w (List.mem_cons_of_mem v hw)⟩

end Items

namespace Element

variable {e : Element} {o : Occurrence}

/-- A value that is read is within the limit. -/
theorem depth_le_of_read (h : below.Bounds levels) {v : Item e} (hread : e.read below o = .ok v) :
    v.depth ≤ levels := by
  cases v with
  | scalar v => exact Nat.zero_le levels
  | @message t r =>
    simp only [read] at hread
    split at hread
    · cases hread
    · rename_i decode bytes _
      obtain ⟨m, hm, hr⟩ := map_eq_ok hread
      obtain rfl : m = r := Item.message.inj hr
      obtain ⟨r', hrun⟩ := Reader.runWindow_eq_ok.1 hm
      exact (h decode rfl).2 t hrun
    · cases hread

/-- The values that are read into a list are within the limit. -/
theorem depth_le_of_readMany (h : below.Bounds levels) {vs : List (Item e)}
    (hread : e.readMany below o = .ok vs) : ∀ v ∈ vs, v.depth ≤ levels := by
  cases e with
  | scalar s =>
    intro v _
    cases v
    exact Nat.zero_le levels
  | message t =>
    obtain ⟨v, hv, rfl⟩ := map_eq_ok (g := fun v => [v]) hread
    intro w hw
    obtain rfl := List.mem_singleton.1 hw
    exact depth_le_of_read h hv

end Element

/-- A slot that takes up a field stays within the limit. -/
theorem Content.depth_le_of_absorb (h : below.Bounds levels) {slot : Slot} {number offset : Nat}
    {wireType : WireType} {o : Occurrence} {c c' : Content slot} (hc : c.depth ≤ levels)
    (haccept : slot.accept below number wireType offset = .ok ())
    (habsorb : c.absorb below number o = .ok c') : c'.depth ≤ levels := by
  cases c with
  | plain v =>
    obtain ⟨v', -, rfl⟩ := map_eq_ok habsorb
    exact Nat.zero_le levels
  | absent | present =>
    obtain ⟨v', hv', rfl⟩ := map_eq_ok habsorb
    exact Element.depth_le_of_read h hv'
  | repeated vs =>
    obtain ⟨new, hnew, rfl⟩ := map_eq_ok habsorb
    rw [depth, Items.depth_append]
    exact Nat.max_le.2 ⟨hc, Items.depth_ofList_le (Element.depth_le_of_readMany h hnew)⟩
  | map entries =>
    obtain ⟨entry, -, rfl⟩ := map_eq_ok habsorb
    -- An entry is accepted only where a level is left.
    have hpos : 0 < levels := by
      rw [Slot.accept, Shape.accept, Entry.accept] at haccept
      cases hcheck : WireType.lengthDelimited.check wireType with
      | error e =>
        rw [hcheck] at haccept
        cases haccept
      | ok u =>
        rw [hcheck] at haccept
        cases below with
        | none => cases haccept
        | some decode => exact (h decode rfl).1
    rw [depth]
    split
    · exact Nat.zero_le levels
    · exact hpos
  | unset | chosen =>
    rw [absorb] at habsorb
    split at habsorb
    · obtain ⟨v', hv', rfl⟩ := map_eq_ok habsorb
      exact Element.depth_le_of_read h hv'
    · obtain rfl := Except.ok.inj habsorb
      exact hc

namespace Record

/-- A record that takes up a field stays within the limit. -/
theorem depth_le_of_absorb (h : below.Bounds levels) {number offset : Nat} {wireType : WireType}
    {o : Occurrence} : ∀ {l : Layout} {r r' : Record l}, r.depth ≤ levels →
      accept below number wireType offset l = .ok () → r.absorb below number o = .ok r' →
      r'.depth ≤ levels
  | _, .nil, r', hr, _, habsorb => by
    obtain rfl : .nil = r' := Except.ok.inj habsorb
    exact hr
  | slot :: l, .cons c rest, r', hr, haccept, habsorb => by
    obtain ⟨hc, hrest⟩ : c.depth ≤ levels ∧ rest.depth ≤ levels := Nat.max_le.1 hr
    rw [accept] at haccept
    rw [absorb] at habsorb
    split at habsorb
    · rename_i hhas
      rw [if_pos hhas] at haccept
      obtain ⟨c', hc', rfl⟩ := map_eq_ok habsorb
      exact Nat.max_le.2 ⟨Content.depth_le_of_absorb h hc haccept hc', hrest⟩
    · rename_i hhas
      rw [if_neg hhas] at haccept
      obtain ⟨rest', hrest', rfl⟩ := map_eq_ok habsorb
      exact Nat.max_le.2 ⟨hc, depth_le_of_absorb h hrest haccept hrest'⟩

variable {l : Layout}

/-- **Taking up one field keeps a record within the limit.** -/
theorem depth_le_of_run_mergeNext (h : below.Bounds levels) {m m₁ : Record l} {r r₁ : Reader}
    (hm : m.depth ≤ levels) (hrun : (m.mergeNext below).run r = .ok m₁ r₁) :
    m₁.depth ≤ levels := by
  obtain ⟨⟨number, wireType⟩, s, -, hfield⟩ := Decode.run_bind_eq_ok.1 hrun
  have htake : (m.mergeField below number wireType).run s = .ok m₁ r₁ := hfield
  rw [mergeField_eq] at htake
  obtain ⟨o, haccept, -, habsorb⟩ := Reader.run_takeUp_eq_ok.1 htake
  exact depth_le_of_absorb h hm haccept habsorb

/-- **Taking up fields to the end keeps a record within the limit.** -/
theorem depth_le_of_exhausts (h : below.Bounds levels) {m m' : Record l} {r r' : Reader}
    (hrun : Reader.Exhausts (mergeNext below) m r m' r') (hm : m.depth ≤ levels) :
    m'.depth ≤ levels := by
  induction hrun with
  | done _ => exact hm
  | next _ hnext _ ih => exact ih (depth_le_of_run_mergeNext h hm hnext)

/-- A message that nothing was read for has no nesting. -/
theorem depth_empty : ∀ l : Layout, (empty l).depth = 0
  | [] => rfl
  | slot :: l => by
    have hslot : (Content.empty slot).depth = 0 := by
      cases slot with
      | field name number shape => cases shape <;> rfl
      | oneof name members => rfl
    rw [empty, depth, hslot, depth_empty l]
    rfl

/-- What is read from nothing is within the limit. -/
theorem depth_le_of_run_merge (h : below.Bounds levels) {m : Record l} {r r' : Reader}
    (hrun : ((empty l).merge below).run r = .ok m r') : m.depth ≤ levels := by
  refine depth_le_of_exhausts h ((Reader.run_untilEmpty_eq_ok (mergeNext_consumes below)).1 hrun) ?_
  rw [depth_empty]
  exact Nat.zero_le levels

end Record

/-- **Every level reads only what is less deep.** -/
theorem Below.ofLevels_bounds (levels : Nat) : (ofLevels levels).Bounds levels := by
  induction levels with
  | zero => exact nofun
  | succ levels ih =>
    rintro decode hdecode
    obtain rfl := Option.some.inj hdecode
    exact ⟨Nat.succ_pos levels, fun _ _ _ _ hrun =>
      Nat.lt_succ_of_le (Record.depth_le_of_run_merge ih hrun)⟩

/-! ## The limit -/

namespace Message

variable {t : MessageType}

/-- What is read within a budget is no deeper than the budget. -/
theorem depth_le_of_decodeWithin {levels : Nat} {bytes : Bytes} {m : Message t}
    (h : decodeWithin ⟨levels⟩ t bytes = .ok m) : m.depth ≤ levels := by
  obtain ⟨r', hrun⟩ := Reader.runWindow_eq_ok.1 h
  exact Record.depth_le_of_run_merge (Below.ofLevels_bounds levels) hrun

/-- **The nesting limit is exact.**  Within `levels` levels a message is read back from its encoding
when it is no deeper; a deeper one is refused, and the fault is at the length of its first nesting
`levels + 1` levels down.  Both hold as well when the pairs of its maps are written in any other
order.  What is read from any bytes is no deeper than the limit, so what the standard limit lets
through is read back from its own encoding. -/
theorem nesting_limit_exact (t : MessageType) (levels : Nat) :
    (∀ m : Message t, m.encode.length < 2 ^ 64 →
      (m.depth ≤ levels → decodeWithin ⟨levels⟩ t m.encode = .ok m ∧
        ∀ fields, m.Writes fields →
          decodeWithin ⟨levels⟩ t (WireField.encodeAll fields) = .ok m) ∧
      (levels < m.depth → ∃ n, Nesting.first? (levels + 1) m.nestings = some n ∧
        n.StandsIn m.encode ∧
        decodeWithin ⟨levels⟩ t m.encode = .error (.nestedTooDeep n.offset) ∧
        ∀ fields, m.Writes fields →
          decodeWithin ⟨levels⟩ t (WireField.encodeAll fields)
            = .error (.nestedTooDeep n.offset))) ∧
    (∀ (bytes : Bytes) (m : Message t), decodeWithin ⟨levels⟩ t bytes = .ok m →
      m.depth ≤ levels) ∧
    ∀ (bytes : Bytes) (m : Message t), decode t bytes = .ok m → m.encode.length < 2 ^ 64 →
      decode t m.encode = .ok m := by
  refine ⟨fun m hfits => ?_, fun bytes m h => depth_le_of_decodeWithin h, fun bytes m h hfits => ?_⟩
  · rw [length_encode] at hfits
    obtain ⟨own, hown, hencode⟩ := Record.exists_writes_encode m
    have hlen : ∀ fields, m.Writes fields → (WireField.encodeAll fields).length < 2 ^ 64 :=
      fun fields hw => by rwa [Record.length_of_writes hw]
    refine ⟨fun hdepth => ?_, fun hdepth => ?_⟩
    · have hread : ∀ fields, m.Writes fields →
          decodeWithin ⟨levels⟩ t (WireField.encodeAll fields) = .ok m := fun fields hw =>
        runWindow_merge_of_writes (Below.ofLevels_restores levels) hw hdepth (hlen fields hw) 0
      have hself := hread own hown
      rw [hencode] at hself
      exact ⟨hself, hread⟩
    · have hrefused : ∀ fields, m.Writes fields →
          ∃ n, Nesting.first? (levels + 1) m.nestings = some n ∧
            decodeWithin ⟨levels⟩ t (WireField.encodeAll fields)
              = .error (.nestedTooDeep n.offset) := fun fields hw => by
        obtain ⟨n, hn, hrun⟩ := runWindow_merge_of_too_deep (Below.ofLevels_restores levels)
          (Below.ofLevels_refuses levels) hw hdepth (hlen fields hw)
        have hfault := hrun 0
        rw [Nat.zero_add] at hfault
        exact ⟨n, hn, hfault⟩
      obtain ⟨n, hn, hself⟩ := hrefused own hown
      rw [hencode] at hself
      refine ⟨n, hn, Record.standsIn_encode m n (List.mem_of_find?_eq_some hn), hself,
        fun fields hw => ?_⟩
      obtain ⟨n', hn', hfault⟩ := hrefused fields hw
      obtain rfl : n = n' := Option.some.inj (hn.symm.trans hn')
      exact hfault
  · obtain ⟨fields, hw, hencode⟩ := Record.exists_writes_encode m
    have hsize : m.size < 2 ^ 64 := by rwa [length_encode] at hfits
    have hdecode := (decode_of_writes hw (depth_le_of_decodeWithin h) hsize).1
    rw [hencode] at hdecode
    exact hdecode

/-- A message that embeds one other. -/
def embedding : Message .nestedMessage :=
  .cons (.present (.message (.cons (.plain "x") .nil))) .nil

/-- One level lets the message through; with none it is refused at the length behind its tag. -/
theorem nesting_limit_exact_embedding :
    (embedding.encode.length < 2 ^ 64 ∧ embedding.depth = 1) ∧
    embedding.encode = [10, 3, 10, 1, 120] ∧
    decodeWithin ⟨1⟩ .nestedMessage embedding.encode = .ok embedding ∧
    decodeWithin ⟨0⟩ .nestedMessage embedding.encode = .error (.nestedTooDeep 1) := by
  have hfits : embedding.encode.length < 2 ^ 64 := by decide
  have hdepth : embedding.depth = 1 := by decide
  have hread := (((nesting_limit_exact .nestedMessage 1).1 embedding hfits).1 (by decide)).1
  obtain ⟨n, hn, -, hrefused, -⟩ :=
    ((nesting_limit_exact .nestedMessage 0).1 embedding hfits).2 (by decide)
  obtain rfl : (⟨1, 1⟩ : Nesting) = n := Option.some.inj hn
  exact ⟨⟨hfits, hdepth⟩, by decide, hread, hrefused⟩

end Message

end Protowire
