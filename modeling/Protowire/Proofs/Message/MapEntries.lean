import Mathlib.Data.List.Forall2
import Protowire.Proofs.Message.Embedded
import Protowire.Proofs.Message.RoundTrip
import Protowire.Proofs.Message.UnknownFields

/-!
# Proofs/Message/MapEntries — maps are read back, and their entries leniently

Entries that were written are read back one by one, whatever is made of them: a sequence holds them
all in order, and a map has under each key the last of its values (`Entry.runWindow_putNext`).

An entry itself is read from **any** fields.  Its key is the last of the keys among them and its
value the last of the values, with the zero of its kind where there is none; keys and values may
stand in any order, and other fields play no part (`Entry.foldlM_takeField_eq_ok_iff`).
-/

namespace Protowire

open Reader Decode

/-! ## The fields of one number -/

namespace RawField

variable {α : Type} {number : Nat} {read : RawField → Except DecodeError α} {f : RawField}
  {fields : List RawField} {as : List α}

/-- **The fields of this number are read as these values**, each of them alone. -/
def ReadAs (number : Nat) (read : RawField → Except DecodeError α) (fields : List RawField)
    (as : List α) : Prop :=
  List.Forall₂ (fun f a => read f = .ok a) (fields.filter (·.number == number)) as

/-- A field of the number in front adds its value. -/
theorem readAs_cons (h : f.number = number) : ReadAs number read (f :: fields) as ↔
    ∃ a as', read f = .ok a ∧ ReadAs number read fields as' ∧ as = a :: as' := by
  have hbeq : (f.number == number) = true := beq_iff_eq.2 h
  simp only [ReadAs, List.filter_cons, hbeq, if_true]
  exact List.forall₂_cons_left_iff

/-- A field of another number in front adds nothing. -/
theorem readAs_cons_of_ne (h : f.number ≠ number) :
    ReadAs number read (f :: fields) as ↔ ReadAs number read fields as := by
  simp only [ReadAs, List.filter_cons, beq_false_of_ne h, Bool.false_eq_true, if_false]

end RawField

namespace Entry

variable {k : Scalar} {e : Element} {below : Below} {budget : Budget} {number : Nat}

/-! ## Entries that were written -/

/-- Reads the next entry, whatever its number, and puts its pair where pairs are collected. -/
def putNext {σ : Type} (budget : Budget) (put : σ → k.Value × Item e → σ) (s : σ) : Decode σ := do
  let (_, wireType) ← tag
  let entry ← Entry.merge budget k e wireType
  return put s (entry.key, entry.value)

theorem merge_local (budget : Budget) (k : Scalar) (e : Element) (wireType : WireType) :
    Local (Entry.merge budget k e wireType) := by
  rw [merge_eq]
  exact takeUp_local (accept budget.below wireType) wireType (read budget.enter.below k e)

theorem putNext_consumes {σ : Type} (put : σ → k.Value × Item e → σ) (s : σ) :
    Consumes (putNext budget put s) :=
  tag_consumes.bind fun found => (merge_local budget k e found.2).bind fun entry =>
    .pure (put s (entry.key, entry.value))

/-- An entry is written as one field that holds a key and a value. -/
theorem encode_eq (number : Nat) (key : k.Value) (v : Item e) :
    encode number key v = (WireField.mk number (.delimited
      (k.encodeField keyNumber key ++ v.encode valueNumber))).encode := by
  rw [WireField.encode_delimited, encode, List.length_append, Scalar.length_encodeField,
    Item.length_encode]

/-- **An entry that was written is read back**, when a level is left for it. -/
theorem putNext_reads {σ : Type} (put : σ → k.Value × Item e → σ) (hpos : 1 ≤ number)
    (hmax : number ≤ FieldNumber.max) {key : k.Value} {v : Item e}
    (hdepth : v.depth < budget.levels)
    (hfits : (k.encodeField keyNumber key ++ v.encode valueNumber).length < 2 ^ 64) (s : σ) :
    Reads (putNext budget put s) (encode number key v) (put s (key, v)) := fun n => by
  obtain ⟨p, hw, hpayload⟩ := Item.exists_writes_payload v
  have hbody : WireField.encodeAll (fields key p)
      = k.encodeField keyNumber key ++ v.encode valueNumber := by
    rw [encodeAll_fields, Item.encode_of_writes hw, hpayload, Item.encode]
  have haccept : ∀ offset, accept budget.below .lengthDelimited offset = .ok () := fun offset => by
    rw [Budget.below_eq_some (Nat.lt_of_le_of_lt (Nat.zero_le v.depth) hdepth)]
    rfl
  have hread : ∀ offset place, read budget.enter.below k e ⟨offset, place,
      .delimited (k.encodeField keyNumber key ++ v.encode valueNumber)⟩ = .ok ⟨key, v⟩ := by
    rw [← hbody] at hfits ⊢
    exact read_of_writes (Below.ofLevels_restores _) hw (Nat.le_sub_one_of_lt hdepth) hfits
  have hblock : (Payload.delimited (k.encodeField keyNumber key ++ v.encode valueNumber)).Fits :=
    hfits
  have hmerge : ∀ n, ReadsAt n (Entry.merge budget k e .lengthDelimited) _ ⟨key, v⟩ := fun n => by
    rw [merge_eq]
    exact takeUp_readsAt hblock rfl (haccept n) (hread n)
  rw [encode_eq]
  exact (tag_readsAt hpos hmax .lengthDelimited).bind ((hmerge _).bind_nil (.pure (put s (key, v))))

/-- **Entries that were written are read back in order**, whatever is made of them. -/
theorem runWindow_putNext {σ : Type} (put : σ → k.Value × Item e → σ) (hpos : 1 ≤ number)
    (hmax : number ≤ FieldNumber.max) {entries : List (k.Value × Item e)}
    (hentries : ∀ p ∈ entries, p.2.depth < budget.levels ∧
      (k.encodeField keyNumber p.1 ++ p.2.encode valueNumber).length < 2 ^ 64)
    (s : σ) (start : Nat) :
    runWindow (untilEmpty (putNext budget put) s) (window start (encodeAll number entries))
      = .ok (entries.foldl put s) := by
  refine runWindow_untilEmpty_of_foldsTo (putNext_consumes put) (.foldl fun s p hp => ?_) start
  obtain ⟨hdepth, hfits⟩ := hentries p hp
  exact putNext_reads put hpos hmax hdepth hfits s

/-! ## Entries made of any fields -/

/-- The key in a field of an entry, read alone. -/
def keyOf (k : Scalar) (f : RawField) : Except DecodeError k.Value :=
  runWindow (k.merge f.wireType) (ofBytes f.payload)

/-- The value in a field of an entry, read alone. -/
def valueOf (below : Below) (e : Element) (f : RawField) : Except DecodeError (Item e) :=
  runWindow (Item.merge below e f.wireType) (ofBytes f.payload)

/-- Takes up one field of an entry, with no other bytes in sight. -/
def takeField (below : Below) (entry : Entry k e) (f : RawField) :
    Except DecodeError (Entry k e) :=
  runWindow (entry.mergeField below f.number f.wireType) (ofBytes f.payload)

section TakeField

variable {f : RawField} (entry : Entry k e)

theorem takeField_key (h : f.number = keyNumber) :
    entry.takeField below f = (fun key => { entry with key }) <$> keyOf k f := by
  have hone : f.number = 1 := h
  rw [takeField, mergeField, if_pos hone]
  exact runWindow_map _ _ _

theorem takeField_value (h : f.number = valueNumber) :
    entry.takeField below f = (fun value => { entry with value }) <$> valueOf below e f := by
  have htwo : f.number = 2 := h
  rw [takeField, mergeField, if_neg (htwo ▸ by decide), if_pos htwo]
  exact runWindow_map _ _ _

/-- A field that is neither key nor value is passed over. -/
theorem takeField_other (hf : f.IsComplete) (h : f.number ∉ [keyNumber, valueNumber]) :
    entry.takeField below f = .ok entry := by
  obtain ⟨o, r', ho⟩ := hf.exists_occurrence
  rw [takeField, mergeField_of_not_mem below h]
  exact runWindow_eq_ok.2 ⟨r', run_bind_of_ok (run_skip_of_occurrence ho)⟩

end TakeField

/-- **The last key and the last value make the entry**, and where there is none, what was there
before. -/
theorem foldlM_takeField_eq_ok_iff {fields : List RawField} (hfields : ∀ f ∈ fields, f.IsComplete)
    {entry entry' : Entry k e} :
    fields.foldlM (takeField below) entry = .ok entry' ↔ ∃ keys values,
      RawField.ReadAs keyNumber (keyOf k) fields keys ∧
        RawField.ReadAs valueNumber (valueOf below e) fields values ∧
        entry' = ⟨keys.getLastD entry.key, values.getLastD entry.value⟩ := by
  -- The fields that follow are read onto what was read so far, so the entry is kept general.
  induction fields generalizing entry with
  | nil =>
    constructor
    · intro h
      exact ⟨[], [], .nil, .nil, (Except.ok.inj h).symm⟩
    · rintro ⟨_, _, ⟨⟩, ⟨⟩, rfl⟩
      rfl
  | cons f fields ih =>
    obtain ⟨hf, hrest⟩ := List.forall_mem_cons.1 hfields
    rw [List.foldlM_cons]
    by_cases hkey : f.number = keyNumber
    · have hvalue : f.number ≠ valueNumber := hkey ▸ by decide
      simp only [takeField_key entry hkey, RawField.readAs_cons hkey,
        RawField.readAs_cons_of_ne hvalue]
      cases hread : keyOf k f with
      | error fault => exact ⟨nofun, by rintro ⟨_, _, ⟨_, _, ⟨⟩, _⟩, _⟩⟩
      | ok key =>
        refine (ih hrest).trans ⟨?_, ?_⟩
        · rintro ⟨keys, values, hkeys, hvalues, rfl⟩
          exact ⟨_, values, ⟨key, keys, rfl, hkeys, rfl⟩, hvalues, by rw [List.getLastD_cons]⟩
        · rintro ⟨_, values, ⟨_, keys, ⟨⟩, hkeys, rfl⟩, hvalues, rfl⟩
          exact ⟨keys, values, hkeys, hvalues, by rw [List.getLastD_cons]⟩
    by_cases hvalue : f.number = valueNumber
    · simp only [takeField_value entry hvalue, RawField.readAs_cons_of_ne hkey,
        RawField.readAs_cons hvalue]
      cases hread : valueOf below e f with
      | error fault => exact ⟨nofun, by rintro ⟨_, _, _, ⟨_, _, ⟨⟩, _⟩, _⟩⟩
      | ok v =>
        refine (ih hrest).trans ⟨?_, ?_⟩
        · rintro ⟨keys, values, hkeys, hvalues, rfl⟩
          exact ⟨keys, _, hkeys, ⟨v, values, rfl, hvalues, rfl⟩, by rw [List.getLastD_cons]⟩
        · rintro ⟨keys, _, hkeys, ⟨_, values, ⟨⟩, hvalues, rfl⟩, rfl⟩
          exact ⟨keys, values, hkeys, hvalues, by rw [List.getLastD_cons]⟩
    · have hother : f.number ∉ [keyNumber, valueNumber] := by simp [hkey, hvalue]
      simp only [takeField_other entry hf hother, RawField.readAs_cons_of_ne hkey,
        RawField.readAs_cons_of_ne hvalue]
      exact ih hrest

/-- **An entry is read from a payload made of any fields** by its last key and its last value. -/
theorem read_eq_ok_iff {below : Below} (hbelow : ∀ k, below.Shifts k) {bytes : Bytes}
    {offset place : Nat} {entry : Entry k e} :
    read below k e ⟨offset, place, .delimited bytes⟩ = .ok entry ↔
      ∃ fields keys values, RawField.split bytes = .ok fields ∧
        RawField.ReadAs keyNumber (keyOf k) fields keys ∧
        RawField.ReadAs valueNumber (valueOf below e) fields values ∧
        entry = ⟨keys.getLastD k.zero, values.getLastD (Item.empty e)⟩ := by
  have hpayload : ∀ (entry : Entry k e) (found : Nat × WireType),
      TakesPayload found.2 (entry.mergeField below found.1 found.2) :=
    mergeField_takesPayload hbelow
  have hleads : read below k e ⟨offset, place, .delimited bytes⟩ = .ok entry ↔
      Leads (mergeNext below) bytes (empty k e) entry :=
    (fieldStep_of_tag hpayload).runWindow_eq_ok_iff_leads
  rw [hleads]
  refine (leads_iff_foldlM hpayload).trans (exists_congr fun fields => ?_)
  constructor
  · rintro ⟨hsplit, hfold⟩
    obtain ⟨keys, values, hentry⟩ :=
      (foldlM_takeField_eq_ok_iff (RawField.split_eq_ok_iff.1 hsplit).1).1 hfold
    exact ⟨keys, values, hsplit, hentry⟩
  · rintro ⟨keys, values, hsplit, hentry⟩
    exact ⟨hsplit, (foldlM_takeField_eq_ok_iff (RawField.split_eq_ok_iff.1 hsplit).1).2
      ⟨keys, values, hentry⟩⟩

/-- **A message in a field of an entry is what its payload stands for alone**, one level down:
nothing is left of an earlier one. -/
theorem valueOf_message_eq_ok_iff {t : MessageType} {f : RawField} {p : Bytes} (hf : f.Holds p)
    {m : Message t} :
    valueOf budget.below (.message t) f = .ok (.message m) ↔
      1 ≤ budget.levels ∧ Message.decodeWithin budget.enter t p = .ok m := by
  obtain ⟨place, r, ho⟩ := exists_run_occurrence hf.payload
  rw [valueOf, hf.isDelimited, Item.merge_eq, runWindow_takeUp_eq_ok ho]
  obtain ⟨_ | levels⟩ := budget
  · exact ⟨fun h => absurd h.1 nofun, fun h => absurd h.1 (Nat.not_succ_le_zero 0)⟩
  · have hlevel : 1 ≤ (Budget.mk (levels + 1)).levels := Nat.succ_pos levels
    rw [Element.read_message hlevel]
    refine and_congr ⟨fun _ => hlevel, fun _ => rfl⟩ ?_
    cases Message.decodeWithin (Budget.mk (levels + 1)).enter t p with
    | error fault => exact ⟨nofun, nofun⟩
    | ok m' => simp [Except.mapError]

/-- **Maps are read back, and their entries leniently.**  Entries whose values are nested less deep
than the budget come out of their encoding as they went in: a sequence holds them all, in order, and
a map has under each key the last of its values.  An entry is read from any payload that splits into
fields, if each key and each value among them can be read alone: it has the last key and the last
value, or the zero of its kind where there is none, and a message as value is what its own payload
stands for. -/
theorem maps_read_back_and_leniently (k : Scalar) (e : Element) (budget : Budget) :
    (∀ {number : Nat} {entries : List (k.Value × Item e)}, 1 ≤ number → number ≤ FieldNumber.max →
      (∀ p ∈ entries, p.2.depth < budget.levels ∧
        (k.encodeField keyNumber p.1 ++ p.2.encode valueNumber).length < 2 ^ 64) →
      (∀ before start, runWindow (untilEmpty (putNext budget fun l p => l ++ [p]) before)
        (window start (encodeAll number entries)) = .ok (before ++ entries)) ∧
      ∀ (m : KeyMap k (Item e)) (start : Nat), ∃ m',
        runWindow (untilEmpty (putNext budget fun m p => m.insert p.1 p.2) m)
          (window start (encodeAll number entries)) = .ok m' ∧
        ∀ key, m'.find? key = (entries.reverse.lookup key).or (m.find? key)) ∧
    (∀ {r : Reader} {p : Bytes} {entry : Entry k e}, runWindow delimited r = .ok p →
      (runWindow (Entry.merge budget k e .lengthDelimited) r = .ok entry ↔
        1 ≤ budget.levels ∧ ∃ fields keys values, RawField.split p = .ok fields ∧
          RawField.ReadAs keyNumber (keyOf k) fields keys ∧
          RawField.ReadAs valueNumber (valueOf budget.enter.below e) fields values ∧
          entry = ⟨keys.getLastD k.zero, values.getLastD (Item.empty e)⟩)) ∧
    ∀ {t : MessageType} {f : RawField} {p : Bytes} {m : Message t}, f.Holds p →
      (valueOf budget.enter.below (.message t) f = .ok (.message m) ↔
        1 ≤ budget.enter.levels ∧ Message.decodeWithin budget.enter.enter t p = .ok m) := by
  refine ⟨fun {number entries} hpos hmax hentries => ⟨fun before start => ?_, fun m start => ?_⟩,
    fun {r p entry} hp => ?_, fun hf => valueOf_message_eq_ok_iff hf⟩
  · rw [← foldl_append_singleton]
    exact runWindow_putNext (fun l p => l ++ [p]) hpos hmax hentries before start
  · exact ⟨m.insertAll entries, runWindow_putNext _ hpos hmax hentries m start,
      m.find?_insertAll entries⟩
  · obtain ⟨place, r', ho⟩ := exists_run_occurrence hp
    rw [Entry.merge_eq, runWindow_takeUp_eq_ok ho, read_eq_ok_iff (budget.enter.below_shifts ·)]
    obtain ⟨_ | levels⟩ := budget
    · exact ⟨fun h => absurd h.1 nofun, fun h => absurd h.1 (Nat.not_succ_le_zero 0)⟩
    · exact and_congr_left' ⟨fun _ => Nat.succ_pos levels, fun _ => rfl⟩

/-- A message that holds a number. -/
def numbered (a : Int32) : Item (.message .test1) := .message (.cons (.plain a) .nil)

/-- Three pairs of which two have the same key. -/
def threePairs : List (String × Item (.message .test1)) :=
  [("a", numbered 7), ("b", numbered 0), ("a", numbered 8)]

/-- Under the key that occurs twice stands the later message; and an entry with two values, a field
that is neither key nor value and no key has the empty key and the value that is last. -/
theorem maps_read_back_and_leniently_three_pairs :
    ((1 ≤ 5 ∧ 5 ≤ FieldNumber.max) ∧
      ∀ p ∈ threePairs, p.2.depth < Budget.standard.levels ∧
        (Scalar.encodeField .string keyNumber p.1 ++ p.2.encode valueNumber).length < 2 ^ 64) ∧
    encodeAll (k := .string) 5 threePairs
      = [42, 7, 10, 1, 97, 18, 2, 8, 7, 42, 5, 10, 1, 98, 18, 0, 42, 7, 10, 1, 97, 18, 2, 8, 8] ∧
    (∃ m' : KeyMap .string (Item (.message .test1)),
      runWindow (untilEmpty (putNext .standard fun m p => m.insert p.1 p.2) .empty)
        (window 0 [42, 7, 10, 1, 97, 18, 2, 8, 7, 42, 5, 10, 1, 98, 18, 0, 42, 7, 10, 1, 97, 18, 2,
          8, 8]) = .ok m' ∧
      m'.find? "a" = some (numbered 8)) ∧
    runWindow delimited ⟨2, 1, [8, 18, 2, 8, 7, 24, 9, 18, 0, 255]⟩
      = .ok [18, 2, 8, 7, 24, 9, 18, 0] ∧
    runWindow (Entry.merge .standard .string (.message .test1) .lengthDelimited)
      ⟨2, 1, [8, 18, 2, 8, 7, 24, 9, 18, 0, 255]⟩ = .ok ⟨"", numbered 0⟩ := by
  have hnumber : 1 ≤ 5 ∧ 5 ≤ FieldNumber.max := by decide
  have hentries : ∀ p ∈ threePairs, p.2.depth < Budget.standard.levels ∧
      (Scalar.encodeField .string keyNumber p.1 ++ p.2.encode valueNumber).length < 2 ^ 64 := by
    decide
  have hencode : encodeAll (k := .string) 5 threePairs = [42, 7, 10, 1, 97, 18, 2, 8, 7, 42, 5, 10,
      1, 98, 18, 0, 42, 7, 10, 1, 97, 18, 2, 8, 8] := by
    decide
  obtain ⟨hback, hlenient, -⟩ :=
    maps_read_back_and_leniently .string (.message .test1) .standard
  obtain ⟨m', hmap, hfind⟩ := (hback hnumber.1 hnumber.2 hentries).2 .empty 0
  rw [hencode] at hmap
  have hp : runWindow delimited ⟨2, 1, [8, 18, 2, 8, 7, 24, 9, 18, 0, 255]⟩
      = .ok [18, 2, 8, 7, 24, 9, 18, 0] := rfl
  refine ⟨⟨hnumber, hentries⟩, hencode, ⟨m', hmap, hfind "a"⟩, hp, (hlenient hp).2 ?_⟩
  exact ⟨by decide, [⟨2, .lengthDelimited, [18], [2, 8, 7]⟩, ⟨3, .varint, [24], [9]⟩,
    ⟨2, .lengthDelimited, [18], [0]⟩], [], [numbered 7, numbered 0], rfl, .nil,
    .cons rfl (.cons rfl .nil), rfl⟩

end Entry

end Protowire
