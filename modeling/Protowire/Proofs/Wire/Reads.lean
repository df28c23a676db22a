import Protowire.Proofs.Wire.Scalar
import Protowire.Proofs.Wire.Shift

/-!
# Proofs/Wire/Reads — what was written is read back, wherever it stands

A computation **reads** bytes as a value (`Decode.ReadsAt`) when it takes exactly these bytes and
returns that value, in every input that has them at the given offset.  Each framing reads what its
writer writes, and sequences read what their parts read (`ReadsAt.bind`).

A loop that reads its inputs one by one goes from state to state along them (`FoldsTo`), so it reads
all of them (`Reader.runWindow_untilEmpty_of_foldsTo`).
-/

namespace Protowire

/-! ## States that inputs lead through -/

/-- The inputs lead from one state to another, one step each. -/
inductive FoldsTo {σ ι : Type} (step : σ → ι → σ → Prop) : σ → List ι → σ → Prop where
  | nil (s : σ) : FoldsTo step s [] s
  | cons {s s₁ s' : σ} {i : ι} {is : List ι} (head : step s i s₁) (tail : FoldsTo step s₁ is s') :
      FoldsTo step s (i :: is) s'

namespace FoldsTo

variable {σ τ ι : Type} {step : σ → ι → σ → Prop} {s s' s'' : σ} {is is' : List ι}

theorem single {i : ι} (h : step s i s') : FoldsTo step s [i] s' := .cons h (.nil s')

theorem append (h : FoldsTo step s is s') (h' : FoldsTo step s' is' s'') :
    FoldsTo step s (is ++ is') s'' := by
  induction h with
  | nil s => exact h'
  | cons head _ ih => exact .cons head (ih h')

/-- Inputs whose steps are those of a function lead where the function leads. -/
theorem foldl {g : σ → ι → σ} {s : σ} (h : ∀ s, ∀ i ∈ is, step s i (g s i)) :
    FoldsTo step s is (is.foldl g s) := by
  induction is generalizing s with
  | nil => exact .nil s
  | cons i is ih =>
    have htail : ∀ s, ∀ j ∈ is, step s j (g s j) := fun s j hj => h s j (List.mem_cons_of_mem i hj)
    exact .cons (h s i List.mem_cons_self) (ih htail)

/-- Steps that another system follows lead through its states. -/
theorem map {step' : τ → ι → τ → Prop} (g : σ → τ)
    (hstep : ∀ s s', ∀ i ∈ is, step s i s' → step' (g s) i (g s')) (h : FoldsTo step s is s') :
    FoldsTo step' (g s) is (g s') := by
  induction h with
  | nil s => exact .nil (g s)
  | @cons s s₁ _ i is head _ ih =>
    have htail : ∀ s s', ∀ j ∈ is, step s j s' → step' (g s) j (g s') :=
      fun s s' j hj => hstep s s' j (List.mem_cons_of_mem i hj)
    exact .cons (hstep s s₁ i List.mem_cons_self head) (ih htail)

/-- Steps on translated inputs are steps on the inputs. -/
theorem map_inputs {κ : Type} {e : κ → ι} {ks : List κ}
    (h : FoldsTo (fun s k s' => step s (e k) s') s ks s') : FoldsTo step s (ks.map e) s' := by
  induction h with
  | nil s => exact .nil s
  | cons head _ ih => exact .cons head ih

/-- Inputs lead to where steps that may fail lead, if these steps are theirs. -/
theorem iff_foldlM {ε : Type} {f : σ → ι → Except ε σ}
    (h : ∀ i ∈ is, ∀ s s', step s i s' ↔ f s i = .ok s') :
    FoldsTo step s is s' ↔ is.foldlM f s = .ok s' := by
  induction is generalizing s with
  | nil =>
    constructor
    · rintro ⟨⟩
      rfl
    · intro hfold
      obtain rfl : s = s' := Except.ok.inj hfold
      exact .nil s
  | cons i is ih =>
    obtain ⟨hhead, hrest⟩ := List.forall_mem_cons.1 h
    rw [List.foldlM_cons]
    constructor
    · intro hfold
      cases hfold with
      | cons head tail =>
        rw [(hhead s _).1 head]
        exact (ih hrest).1 tail
    · intro hfold
      cases hstep : f s i with
      | error e =>
        rw [hstep] at hfold
        exact absurd hfold nofun
      | ok s₁ =>
        rw [hstep] at hfold
        exact .cons ((hhead s s₁).2 hstep) ((ih hrest).2 hfold)

end FoldsTo

/-- Values that are added one by one come behind those that are there. -/
theorem foldl_append_singleton {α : Type} (before l : List α) :
    l.foldl (fun before a => before ++ [a]) before = before ++ l := by
  rw [List.foldl_append_eq_append, ← List.flatMap_def, List.flatMap_singleton']

/-! ## Reading given bytes -/

namespace Decode

variable {α β : Type}

/-- **Takes exactly these bytes, as this value**, where they stand at this offset, whatever
follows. -/
def ReadsAt (offset : Nat) (x : Decode α) (bytes : Bytes) (a : α) : Prop :=
  ∀ start pos tail, start + pos = offset →
    x.run ⟨start, pos, bytes ++ tail⟩ = .ok a ⟨start, pos + bytes.length, tail⟩

/-- Takes exactly these bytes, as this value, at every offset. -/
def Reads (x : Decode α) (bytes : Bytes) (a : α) : Prop := ∀ offset, ReadsAt offset x bytes a

variable {n : Nat} {x : Decode α} {f : α → Decode β} {bytes bytes' : Bytes} {a : α} {b : β}

theorem ReadsAt.pure (a : α) : ReadsAt n (Pure.pure a) [] a := fun _ _ _ _ => rfl

/-- A finished result reads nothing. -/
theorem ReadsAt.ofExcept {y : Except DecodeError α} (h : y = .ok a) :
    ReadsAt n (Decode.ofExcept y) [] a := by
  rw [h]
  exact .pure a

/-- **A sequence reads what its parts read**, one after the other. -/
theorem ReadsAt.bind (hx : ReadsAt n x bytes a) (hf : ReadsAt (n + bytes.length) (f a) bytes' b) :
    ReadsAt n (x >>= f) (bytes ++ bytes') b := by
  intro start pos tail hn
  have hmid : start + (pos + bytes.length) = n + bytes.length := by omega
  rw [List.append_assoc, run_bind_of_ok (hx start pos (bytes' ++ tail) hn),
    hf start (pos + bytes.length) tail hmid, List.length_append, Nat.add_assoc]

/-- A last part that reads nothing adds no bytes. -/
theorem ReadsAt.bind_nil (hx : ReadsAt n x bytes a) (hf : ReadsAt (n + bytes.length) (f a) [] b) :
    ReadsAt n (x >>= f) bytes b := by
  have h := hx.bind hf
  rw [List.append_nil] at h
  exact h

/-- A read that only looks at the offset first reads what it reads at that offset. -/
theorem ReadsAt.offset {g : Nat → Decode α} (h : ReadsAt n (g n) bytes a) :
    ReadsAt n (get >>= fun r : Reader => g r.offset) bytes a := by
  rintro start pos tail rfl
  exact h start pos tail rfl

/-- What takes at least one byte reads at least one. -/
theorem ReadsAt.ne_nil (hx : ReadsAt n x bytes a) (hc : Consumes x) : bytes ≠ [] := by
  rintro rfl
  exact Nat.lt_irrefl 0 (hc (hx n 0 [] (Nat.add_zero n)))

end Decode

/-- How many bytes stand in front of the body of a payload: those of its length, if it has one. -/
def Payload.lead : Payload → Nat
  | delimited bytes => (Varint.encode (UInt64.ofNat bytes.length)).length
  | _ => 0

/-- Can the length in front of the payload say how long it is? -/
def Payload.Fits : Payload → Prop
  | delimited bytes => bytes.length < 2 ^ 64
  | _ => True

instance Payload.decidableFits : (p : Payload) → Decidable p.Fits
  | delimited bytes => inferInstanceAs (Decidable (bytes.length < 2 ^ 64))
  | varint _ | fixed64 _ | fixed32 _ => inferInstanceAs (Decidable True)

/-- A payload that is not too long with its length in front is not too long without. -/
theorem Payload.fits_of_size_lt {p : Payload} (h : p.size < 2 ^ 64) : p.Fits := by
  cases p with
  | delimited bytes => exact Nat.lt_of_le_of_lt (Nat.le_add_left bytes.length _) h
  | varint word | fixed64 word | fixed32 word => exact True.intro

/-- A field as it is written: a number and a payload. -/
structure WireField where
  number : Nat
  payload : Payload
  deriving DecidableEq, Repr

namespace WireField

/-- The bytes of a field. -/
def encode (f : WireField) : Bytes :=
  Tag.encode f.number f.payload.wireType ++ f.payload.encode

/-- How many bytes a field takes. -/
def size (f : WireField) : Nat := Tag.size f.number + f.payload.size

/-- The bytes of fields one after the other. -/
def encodeAll (fields : List WireField) : Bytes := fields.flatMap encode

@[simp] theorem encodeAll_append (fields fields' : List WireField) :
    encodeAll (fields ++ fields') = encodeAll fields ++ encodeAll fields' := List.flatMap_append

@[simp] theorem encodeAll_singleton (f : WireField) : encodeAll [f] = f.encode :=
  List.append_nil f.encode

theorem length_encode (f : WireField) : f.encode.length = f.size := by
  rw [encode, List.length_append, Tag.length_encode, Payload.length_encode, size]

/-- The length of fields is the sum of their sizes. -/
theorem length_encodeAll (fields : List WireField) :
    (encodeAll fields).length = (fields.map size).sum := by
  rw [encodeAll, List.length_flatMap]
  exact congrArg List.sum (List.map_congr_left fun f _ => f.length_encode)

/-- No payload is longer than all fields are. -/
theorem payload_size_le {fields : List WireField} {f : WireField} (h : f ∈ fields) :
    f.payload.size ≤ (encodeAll fields).length := by
  obtain ⟨before, after, rfl⟩ := List.append_of_mem h
  rw [length_encodeAll, List.map_append, List.sum_append, List.map_cons, List.sum_cons, size]
  omega

/-- What a reader asks of a field: a number that a tag can carry, and a payload whose length does
not wrap around. -/
structure Valid (f : WireField) : Prop where
  pos : 1 ≤ f.number
  le_max : f.number ≤ FieldNumber.max
  fits : f.payload.size < 2 ^ 64

theorem Valid.payload_fits {f : WireField} (h : f.Valid) : f.payload.Fits :=
  Payload.fits_of_size_lt h.fits

end WireField

namespace Reader

open Decode

/-! ## The framings -/

variable {n : Nat}

/-- **Every form of a word is read as that word**, be it the shortest or not. -/
theorem varint_readsAt_of_decode {bytes : Bytes} {word : UInt64}
    (h : Varint.decode bytes = some (word, bytes.length)) : ReadsAt n varint bytes word := by
  intro start pos tail _
  obtain ⟨used, rest, rfl, hlen, -, htail⟩ := Varint.exists_used_of_decode h
  obtain rfl : rest = [] := by simpa using hlen
  rw [List.append_nil] at htail ⊢
  exact run_varint_eq_ok.2 ⟨used.length, htail tail, by rw [advance, List.drop_left]⟩

theorem varint_readsAt (word : UInt64) : ReadsAt n varint (Varint.encode word) word := by
  have h := Varint.decode_encode word []
  rw [List.append_nil, ← Varint.length_encode] at h
  exact varint_readsAt_of_decode h

theorem take_readsAt (bytes : Bytes) : ReadsAt n (take bytes.length) bytes bytes :=
  fun _ _ _ _ => run_take

theorem fixed32_readsAt (word : UInt32) :
    ReadsAt n fixed32 (Bytes.ofNat 4 word.toNat) word := by
  have htake := take_readsAt (n := n) (Bytes.ofNat 4 word.toNat)
  rw [Bytes.length_ofNat] at htake
  have hword : UInt32.ofNat (Bytes.ofNat 4 word.toNat).toNat = word := by
    rw [Bytes.toNat_ofNat word.toNat_lt, UInt32.ofNat_toNat]
  have h := htake.bind_nil (f := fun b => pure (UInt32.ofNat b.toNat)) (.pure _)
  rw [hword] at h
  exact h

theorem fixed64_readsAt (word : UInt64) :
    ReadsAt n fixed64 (Bytes.ofNat 8 word.toNat) word := by
  have htake := take_readsAt (n := n) (Bytes.ofNat 8 word.toNat)
  rw [Bytes.length_ofNat] at htake
  have hword : UInt64.ofNat (Bytes.ofNat 8 word.toNat).toNat = word := by
    rw [Bytes.toNat_ofNat word.toNat_lt, UInt64.ofNat_toNat]
  have h := htake.bind_nil (f := fun b => pure (UInt64.ofNat b.toNat)) (.pure _)
  rw [hword] at h
  exact h

/-- **A valid tag is read back.** -/
theorem tag_readsAt {number : Nat} (hpos : 1 ≤ number) (hmax : number ≤ FieldNumber.max)
    (w : WireType) : ReadsAt n tag (Tag.encode number w) (number, w) := by
  rw [tag_eq]
  exact .offset (g := fun offset => varint >>= fun key => Decode.ofExcept (Tag.decode key offset))
    ((varint_readsAt (Tag.key number w)).bind_nil (.ofExcept (Tag.decode_key hpos hmax w n)))

/-- **A length and its payload are read** as a window over the payload, which starts behind the
length, in whatever form the length stands. -/
theorem enter_readsAt_of_length {v bytes : Bytes} {length : UInt64}
    (hv : ReadsAt n varint v length) (hlength : length.toNat = bytes.length) :
    ReadsAt n enter (v ++ bytes) (window (n + v.length) bytes) := by
  have hbody : ReadsAt (n + v.length) (window (n + v.length) <$> take length.toNat) bytes
      (window (n + v.length) bytes) := by
    rw [hlength]
    exact (take_readsAt bytes).bind_nil (.pure (window (n + v.length) bytes))
  exact hv.bind (.offset (g := fun start => window start <$> take length.toNat) hbody)

/-- A length and its payload are read back as some window over the payload. -/
theorem enter_readsAt {bytes : Bytes} (hfits : bytes.length < 2 ^ 64) :
    ∃ place, ReadsAt n enter (Varint.encode (UInt64.ofNat bytes.length) ++ bytes)
      (window place bytes) :=
  ⟨_, enter_readsAt_of_length (varint_readsAt _) (UInt64.toNat_ofNat_of_lt' hfits)⟩

/-- A delimited payload is read with the offset its length stands at and that of its own bytes. -/
theorem delimited_readsAt_of_length {v bytes : Bytes} {length : UInt64}
    (hv : ReadsAt n varint v length) (hlength : length.toNat = bytes.length) :
    ReadsAt n (occurrence .lengthDelimited) (v ++ bytes) ⟨n, n + v.length, .delimited bytes⟩ :=
  .offset (g := fun offset => do
      let inner ← enter
      return Occurrence.mk offset inner.start (.delimited inner.rest))
    ((enter_readsAt_of_length hv hlength).bind_nil (.pure _))

/-- **Every payload is read back**, with the offset it stands at and, behind its lead, that of its
body. -/
theorem occurrence_readsAt_lead {p : Payload} (hfits : p.Fits) :
    ReadsAt n (occurrence p.wireType) p.encode ⟨n, n + p.lead, p⟩ := by
  cases p with
  | varint word =>
    exact .offset (g := fun offset => do
        return Occurrence.mk offset offset (.varint (← varint)))
      ((varint_readsAt word).bind_nil (.pure _))
  | fixed64 word =>
    exact .offset (g := fun offset => do
        return Occurrence.mk offset offset (.fixed64 (← fixed64)))
      ((fixed64_readsAt word).bind_nil (.pure _))
  | fixed32 word =>
    exact .offset (g := fun offset => do
        return Occurrence.mk offset offset (.fixed32 (← fixed32)))
      ((fixed32_readsAt word).bind_nil (.pure _))
  | delimited bytes =>
    exact delimited_readsAt_of_length (varint_readsAt _) (UInt64.toNat_ofNat_of_lt' hfits)

/-- Every payload is read back, with the offset it stands at. -/
theorem occurrence_readsAt {p : Payload} (hfits : p.Fits) :
    ∃ body, ReadsAt n (occurrence p.wireType) p.encode ⟨n, body, p⟩ :=
  ⟨_, occurrence_readsAt_lead hfits⟩

/-! ## Reading on to the end -/

variable {σ ι : Type} {step : σ → Decode σ} {encode : ι → Bytes}

/-- The steps that inputs lead through exhaust their bytes. -/
theorem exhausts_of_foldsTo (hstep : ∀ s, Consumes (step s)) {s s' : σ} {is : List ι}
    (h : FoldsTo (fun s i s' => Reads (step s) (encode i) s') s is s') (start pos : Nat) :
    ∃ r, Exhausts step s ⟨start, pos, is.flatMap encode⟩ s' r := by
  induction h generalizing pos with
  | nil s => exact ⟨_, .done rfl⟩
  | @cons s s₁ s' i is head _ ih =>
    obtain ⟨r, htail⟩ := ih (pos + (encode i).length)
    have hrun := head (start + pos) start pos (is.flatMap encode) rfl
    have hne : encode i ++ is.flatMap encode ≠ [] :=
      List.append_ne_nil_of_left_ne_nil ((head 0).ne_nil (hstep s)) _
    rw [List.flatMap_cons]
    exact ⟨r, .next hne hrun htail⟩

/-- **A loop reads all inputs that its steps read one by one.** -/
theorem runWindow_untilEmpty_of_foldsTo (hstep : ∀ s, Consumes (step s)) {s s' : σ}
    {is : List ι} (h : FoldsTo (fun s i s' => Reads (step s) (encode i) s') s is s')
    (start : Nat) : runWindow (untilEmpty step s) (window start (is.flatMap encode)) = .ok s' := by
  obtain ⟨r, hexhausts⟩ := exhausts_of_foldsTo hstep h start 0
  exact runWindow_eq_ok.2 ⟨r, (run_untilEmpty_eq_ok hstep).2 hexhausts⟩

end Reader

end Protowire
