import Protowire.Proofs.Message.RoundTrip

/-!
# Proofs/Message/Lists — a list is read the same, packed or one value at a time

A list grows by the values of each field that is read into it (`Item.addNext`).  A field with one
value adds that value, and the one field of a packed list adds all of them, so the two may be mixed
at will: a list of numbers cut into **pieces** (`Piece`), each written in either way, is read back
in order and without a gap (`Piece.packed_or_not_reads_the_same`).
-/

namespace Protowire

open Reader Decode

variable {e : Element} {below : Below} {levels number : Nat}

/-! ## Reading into a list -/

namespace Item

/-- Reads one field into a list, whatever its number: its values go behind those that are there. -/
def addNext (below : Below) (vs : List (Item e)) : Decode (List (Item e)) := do
  let (_, wireType) ← tag
  return vs ++ (← mergeMany below e wireType)

theorem mergeMany_local (below : Below) (e : Element) (wireType : WireType) :
    Local (mergeMany below e wireType) := by
  rw [mergeMany_eq]
  exact takeUp_local (e.acceptMany below wireType) wireType (e.readMany below)

theorem addNext_consumes (below : Below) (vs : List (Item e)) : Consumes (addNext below vs) :=
  tag_consumes.bind fun found => (mergeMany_local below e found.2).bind fun new =>
    .pure (vs ++ new)

/-- The field adds values to a list, wherever it stands. -/
def Adds (below : Below) (vs : List (Item e)) (f : WireField) (vs' : List (Item e)) : Prop :=
  Reads (addNext below vs) f.encode vs'

/-- **A list grows by the values that a payload adds to it.** -/
theorem adds_of_payload (hpos : 1 ≤ number) (hmax : number ≤ FieldNumber.max) {p : Payload}
    (hfits : p.Fits) {new : List (Item e)}
    (haccept : ∀ offset, e.acceptMany below p.wireType offset = .ok ())
    (hread : ∀ offset body, e.readMany below ⟨offset, body, p⟩ = .ok new) (vs : List (Item e)) :
    Adds below vs ⟨number, p⟩ (vs ++ new) := fun n => by
  have hmany : ReadsAt (n + (Tag.encode number p.wireType).length) (mergeMany below e p.wireType)
      p.encode new := by
    rw [mergeMany_eq]
    exact takeUp_readsAt hfits rfl (haccept _) (hread _)
  exact (tag_readsAt hpos hmax p.wireType).bind (hmany.bind_nil (.pure (vs ++ new)))

/-- Can the length in front of the value, if there is one, say how long it is? -/
def Fits : {e : Element} → Item e → Prop
  | .scalar s, .scalar v => (s.toPayload v).Fits
  | .message _, .message r => r.encode.length < 2 ^ 64

instance decidableFits : {e : Element} → (v : Item e) → Decidable v.Fits
  | .scalar s, .scalar v => inferInstanceAs (Decidable (s.toPayload v).Fits)
  | .message _, .message r => inferInstanceAs (Decidable (r.encode.length < 2 ^ 64))

/-- A payload fits if the value does, in whatever way that is written. -/
theorem Fits.of_writes {v : Item e} (h : v.Fits) {p : Payload} (hw : v.Writes p) : p.Fits := by
  cases v with
  | scalar v =>
    rw [hw]
    exact h
  | message r =>
    obtain ⟨fields, hr, rfl⟩ := hw
    have hlen : (WireField.encodeAll fields).length = r.encode.length := by
      rw [Record.length_of_writes hr, Record.length_encode]
    exact Nat.lt_of_le_of_lt (Nat.le_of_eq hlen) h

end Item

/-- The values of a list are added one by one, each from a field of its own. -/
theorem Items.foldsTo_addNext (h : below.Restores levels) (hpos : 1 ≤ number)
    (hmax : number ≤ FieldNumber.max) : ∀ {vs : Items e} {ps : List Payload}, vs.Writes ps →
      (∀ v ∈ vs.toList, v.Fits ∧ v.depth ≤ levels) → ∀ before : List (Item e),
      FoldsTo (Item.Adds below) before (ps.map (WireField.mk number)) (before ++ vs.toList)
  | .nil, _, hw, _, before => by
    obtain rfl : _ = [] := hw
    rw [toList, List.append_nil]
    exact .nil before
  | .cons v rest, _, hw, hvalues, before => by
    obtain ⟨p, others, hp, hrest, rfl⟩ := hw
    obtain ⟨⟨hfits, hdepth⟩, hothers⟩ := List.forall_mem_cons.1 hvalues
    have hpayload : p.Fits := hfits.of_writes hp
    have hhead : Item.Adds below before ⟨number, p⟩ (before ++ [v]) :=
      Item.adds_of_payload hpos hmax hpayload (Element.acceptMany_of_writes h hp hdepth)
        (Element.readMany_of_writes h hp hdepth hpayload) before
    rw [toList, List.append_cons]
    exact .cons hhead (foldsTo_addNext h hpos hmax hrest hothers (before ++ [v]))

/-- **A list written one value at a time is read back behind what was there.** -/
theorem Items.runWindow_addNext (h : below.Restores levels) (hpos : 1 ≤ number)
    (hmax : number ≤ FieldNumber.max) {vs : Items e}
    (hvalues : ∀ v ∈ vs.toList, v.Fits ∧ v.depth ≤ levels) (before : List (Item e)) (start : Nat) :
    runWindow (untilEmpty (Item.addNext below) before) (window start (vs.encode number))
      = .ok (before ++ vs.toList) := by
  obtain ⟨ps, hw, -, hencode, -⟩ := exists_writes_encode number vs
  rw [← hencode]
  exact runWindow_untilEmpty_of_foldsTo (Item.addNext_consumes below)
    (foldsTo_addNext h hpos hmax hw hvalues before) start

/-! ## Lists of numbers, cut into pieces -/

/-- Values of a list that are written together: packed, or each with a tag of its own. -/
structure Piece (s : Scalar) where
  values : List s.Value
  packed : Bool

namespace Piece

variable {s : Scalar}

/-- The values of a piece, as those of a field. -/
def items (c : Piece s) : Items (.scalar s) := .ofList (c.values.map .scalar)

/-- The bytes of a piece. -/
def encode (number : Nat) (c : Piece s) : Bytes :=
  if c.packed then c.items.encodePacked number else c.items.encode number

theorem toList_items (c : Piece s) : c.items.toList = c.values.map .scalar := Items.toList_ofList _

/-- The values of a packed piece are added all at once. -/
theorem foldsTo_pack (hpack : s.isPackable = true) (hpos : 1 ≤ number)
    (hmax : number ≤ FieldNumber.max) {vs : Items (.scalar s)} {ps : List Payload}
    (hw : vs.Writes ps) (hfits : (ps.flatMap Payload.encode).length < 2 ^ 64)
    (before : List (Item (.scalar s))) :
    FoldsTo (Item.Adds below) before (WireField.pack number ps) (before ++ vs.toList) := by
  cases vs with
  | nil =>
    obtain rfl : ps = [] := hw
    rw [Items.toList, List.append_nil]
    exact .nil before
  | cons v rest =>
    obtain ⟨p, others, -, -, rfl⟩ := id hw
    have hlist : (Items.cons v rest).scalarValues.map Item.scalar = (Items.cons v rest).toList := by
      rw [← Items.toList_ofList ((Items.cons v rest).scalarValues.map Item.scalar),
        Items.ofList_scalarValues]
    have hblock : (Payload.delimited ((p :: others).flatMap Payload.encode)).Fits := hfits
    have haccept : ∀ offset,
        Element.acceptMany below (.scalar s) .lengthDelimited offset = .ok () :=
      fun _ => if_pos ⟨hpack, rfl⟩
    rw [← hlist]
    exact .single (Item.adds_of_payload hpos hmax hblock haccept
      (Element.readMany_packed below hpack hw) before)

/-- **A piece is added behind the values that are there**, however it is written. -/
theorem exists_foldsTo (below : Below) (hpack : s.isPackable = true) (hpos : 1 ≤ number)
    (hmax : number ≤ FieldNumber.max) (c : Piece s)
    (hfits : c.packed = true → c.items.payload.length < 2 ^ 64)
    (before : List (Item (.scalar s))) :
    ∃ fields, WireField.encodeAll fields = c.encode number ∧
      FoldsTo (Item.Adds below) before fields (before ++ c.values.map .scalar) := by
  obtain ⟨ps, hw, hpayload, hencode, hencodePacked⟩ := Items.exists_writes_encode number c.items
  rw [encode, ← toList_items]
  cases hpacked : c.packed with
  | true =>
    have hlen : (ps.flatMap Payload.encode).length < 2 ^ 64 := hpayload ▸ hfits hpacked
    exact ⟨_, hencodePacked, foldsTo_pack hpack hpos hmax hw hlen before⟩
  | false =>
    have hvalues : ∀ v ∈ c.items.toList, v.Fits ∧ v.depth ≤ 0 := fun v hv => by
      rw [toList_items] at hv
      obtain ⟨x, -, rfl⟩ := List.mem_map.1 hv
      exact ⟨Scalar.fits_of_isPackable hpack x, Nat.le_refl 0⟩
    exact ⟨_, hencode, Items.foldsTo_addNext below.restores_zero hpos hmax hw hvalues before⟩

/-- Pieces are added one after the other. -/
theorem exists_foldsTo_all (below : Below) (hpack : s.isPackable = true) (hpos : 1 ≤ number)
    (hmax : number ≤ FieldNumber.max) : ∀ {pieces : List (Piece s)},
      (∀ c ∈ pieces, c.packed = true → c.items.payload.length < 2 ^ 64) →
      ∀ before : List (Item (.scalar s)),
      ∃ fields, WireField.encodeAll fields = pieces.flatMap (encode number) ∧
        FoldsTo (Item.Adds below) before fields
          (before ++ (pieces.flatMap values).map .scalar)
  | [], _, before => ⟨[], rfl, (List.append_nil before).symm ▸ .nil before⟩
  | c :: pieces, hfits, before => by
    obtain ⟨hc, hrest⟩ := List.forall_mem_cons.1 hfits
    obtain ⟨first, hfirst, hhead⟩ := exists_foldsTo below hpack hpos hmax c hc before
    obtain ⟨others, hothers, htail⟩ := exists_foldsTo_all below hpack hpos hmax hrest
      (before ++ c.values.map .scalar)
    refine ⟨first ++ others, ?_, ?_⟩
    · rw [WireField.encodeAll_append, hfirst, hothers, List.flatMap_cons]
    · rw [List.append_assoc, ← List.map_append, ← List.flatMap_cons] at htail
      exact hhead.append htail

/-- **A list of numbers is read the same, packed or not.**  However it is cut into pieces, and
whether each of them is written packed or one value at a time, reading all fields adds its values in
order behind those that were there; and the sizes of both forms are the numbers of their bytes. -/
theorem packed_or_not_reads_the_same (hpack : s.isPackable = true) (hpos : 1 ≤ number)
    (hmax : number ≤ FieldNumber.max) :
    (∀ {vs : List s.Value} {pieces : List (Piece s)}, pieces.flatMap values = vs →
      (∀ c ∈ pieces, c.packed = true → c.items.payload.length < 2 ^ 64) →
      ∀ (below : Below) (before : List (Item (.scalar s))) (start : Nat),
        runWindow (untilEmpty (Item.addNext below) before)
          (window start (pieces.flatMap (encode number))) = .ok (before ++ vs.map .scalar)) ∧
    ∀ vs : Items (.scalar s), (vs.encode number).length = vs.size number ∧
      (vs.encodePacked number).length = vs.packedSize number := by
  constructor
  · rintro _ pieces rfl hfits below before start
    obtain ⟨fields, hencode, hfold⟩ := exists_foldsTo_all below hpack hpos hmax hfits before
    rw [← hencode]
    exact runWindow_untilEmpty_of_foldsTo (Item.addNext_consumes below) hfold start
  · exact fun vs => ⟨vs.length_encode number, vs.length_encodePacked number⟩

/-- A negative number on its own, two packed, none packed, and one on its own again. -/
def mixed : List (Piece .int32) :=
  [⟨[(-1 : Int32)], false⟩, ⟨[(300 : Int32), (2 : Int32)], true⟩, ⟨[], true⟩,
    ⟨[(5 : Int32)], false⟩]

/-- The pieces are read in order, behind the number that is there. -/
theorem packed_or_not_reads_the_same_mixed :
    (Scalar.isPackable .int32 = true ∧ 1 ≤ 4 ∧ 4 ≤ FieldNumber.max) ∧
    (mixed.flatMap values = [-1, 300, 2, 5] ∧
      ∀ c ∈ mixed, c.packed = true → c.items.payload.length < 2 ^ 64) ∧
    mixed.flatMap (encode 4)
      = [32, 255, 255, 255, 255, 255, 255, 255, 255, 255, 1, 34, 3, 172, 2, 2, 32, 5] ∧
    runWindow (untilEmpty (Item.addNext none) [.scalar (7 : Int32)])
        (window 0 [32, 255, 255, 255, 255, 255, 255, 255, 255, 255, 1, 34, 3, 172, 2, 2, 32, 5])
      = .ok (([7, -1, 300, 2, 5] : List Int32).map (Item.scalar (s := .int32))) := by
  have hpack : Scalar.isPackable .int32 = true := rfl
  have hnumber : 1 ≤ 4 ∧ 4 ≤ FieldNumber.max := by decide
  have hvalues : mixed.flatMap values = [-1, 300, 2, 5] := rfl
  have hfits : ∀ c ∈ mixed, c.packed = true → c.items.payload.length < 2 ^ 64 := by decide
  have hencode : mixed.flatMap (encode 4)
      = [32, 255, 255, 255, 255, 255, 255, 255, 255, 255, 1, 34, 3, 172, 2, 2, 32, 5] := by decide
  have hread := (packed_or_not_reads_the_same hpack hnumber.1 hnumber.2).1 hvalues hfits none
    [.scalar (7 : Int32)] 0
  rw [hencode] at hread
  exact ⟨⟨hpack, hnumber⟩, ⟨hvalues, hfits⟩, hencode, hread⟩

end Piece

end Protowire
