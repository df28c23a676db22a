import Protowire.Message.Encode
import Protowire.Proofs.Message.TakeUp
import Protowire.Proofs.Wire.Reads

/-!
# Proofs/Message/Payloads — packed lists and map entries are read back

Both stand in a delimited payload of their own: a packed list one payload after the other
(`Scalar.runWindow_readPacked`), a map entry a key and a value as fields (`Entry.read_fields`).
-/

namespace Protowire

open Decode

/-! ## One payload -/

namespace Reader

variable {α : Type} {accept : Nat → Except DecodeError Unit} {w : WireType}
  {use : Occurrence → Except DecodeError α}

/-- **A payload is taken up** when its field is accepted and something can be made of it. -/
theorem takeUp_readsAt {n : Nat} {p : Payload} {a : α} (hfits : p.Fits)
    (hw : p.wireType = w) (haccept : accept n = .ok ())
    (huse : ∀ body, use ⟨n, body, p⟩ = .ok a) : ReadsAt n (takeUp accept w use) p.encode a := by
  subst hw
  obtain ⟨body, hread⟩ := occurrence_readsAt (n := n) hfits
  exact .offset (g := fun offset => do
      Decode.ofExcept (accept offset)
      Decode.ofExcept (use (← occurrence p.wireType)))
    ((ReadsAt.ofExcept haccept).bind (hread.bind_nil (.ofExcept (huse body))))

end Reader

/-- A field framed as its element is accepted, if it holds a scalar. -/
theorem Element.accept_scalar (below : Below) (s : Scalar) (offset : Nat) :
    accept below (.scalar s) s.wireType offset = .ok () := by
  rw [accept_scalar_eq, WireType.check_self]

namespace Scalar

variable (s : Scalar)

/-- The payload of a number has no length in front. -/
theorem fits_of_isPackable {s : Scalar} (h : s.isPackable = true) (v : s.Value) :
    (s.toPayload v).Fits := by
  cases s with
  | string | bytes => exact absurd h Bool.false_ne_true
  | _ => exact True.intro

theorem read_reads {v : s.Value} (hfits : (s.toPayload v).Fits) :
    Reads s.read (s.toPayload v).encode v := fun n => by
  rw [read_eq]
  exact Reader.takeUp_readsAt hfits (s.wireType_toPayload v) rfl
    fun body => s.ofOccurrence_toPayload v n body

theorem merge_reads {v : s.Value} (hfits : (s.toPayload v).Fits) :
    Reads (s.merge s.wireType) (s.toPayload v).encode v := fun n => by
  rw [merge_eq]
  exact Reader.takeUp_readsAt hfits (s.wireType_toPayload v) s.wireType.check_self
    fun body => s.ofOccurrence_toPayload v n body

/-- **A packed list is read back from its payload.** -/
theorem runWindow_readPacked (hpack : s.isPackable = true) (vs : List s.Value) (start : Nat) :
    Reader.runWindow s.readPacked
      (Reader.window start (vs.flatMap fun v => (s.toPayload v).encode)) = .ok vs := by
  have hsteps : FoldsTo (fun (vs : List s.Value) v vs' =>
      Reads (do return vs ++ [← s.read]) (s.toPayload v).encode vs') [] vs
      (vs.foldl (fun vs v => vs ++ [v]) []) :=
    .foldl fun before v _ n =>
      (s.read_reads (fits_of_isPackable hpack v) n).bind_nil (.pure (before ++ [v]))
  rw [foldl_append_singleton, List.nil_append] at hsteps
  exact Reader.runWindow_untilEmpty_of_foldsTo
    (fun before => s.read_consumes.bind fun v => .pure (before ++ [v])) hsteps start

end Scalar

/-! ## Map entries -/

namespace Entry

variable {k : Scalar} {e : Element} {below : Below}

/-- The fields of an entry whose value has the payload. -/
def fields (key : k.Value) (p : Payload) : List WireField :=
  [⟨keyNumber, k.toPayload key⟩, ⟨valueNumber, p⟩]

theorem encodeAll_fields (key : k.Value) (p : Payload) :
    WireField.encodeAll (fields key p)
      = k.encodeField keyNumber key ++ (WireField.mk valueNumber p).encode := by
  rw [fields, ← List.singleton_append, WireField.encodeAll_append, WireField.encodeAll_singleton,
    WireField.encodeAll_singleton, WireField.encode, Scalar.wireType_toPayload, Scalar.encodeField]

theorem mergeNext_reads_key (entry : Entry k e) {key : k.Value} (hfits : (k.toPayload key).Fits) :
    Reads (mergeNext below entry) (WireField.mk keyNumber (k.toPayload key)).encode
      { entry with key } := fun n => by
  have hnumber : 1 ≤ keyNumber ∧ keyNumber ≤ FieldNumber.max := by decide
  rw [WireField.encode, Scalar.wireType_toPayload]
  exact (Reader.tag_readsAt hnumber.1 hnumber.2 k.wireType).bind
    ((k.merge_reads hfits _).bind_nil (.pure { entry with key }))

theorem mergeNext_reads_value (entry : Entry k e) {p : Payload} {value : Item e}
    (h : Reads (Item.merge below e p.wireType) p.encode value) :
    Reads (mergeNext below entry) (WireField.mk valueNumber p).encode { entry with value } :=
  fun n => by
  have hnumber : 1 ≤ valueNumber ∧ valueNumber ≤ FieldNumber.max := by decide
  exact (Reader.tag_readsAt hnumber.1 hnumber.2 p.wireType).bind
    ((h _).bind_nil (.pure { entry with value }))

/-- **A map entry is read back from its fields**, if its value is read from its payload. -/
theorem read_fields {key : k.Value} (hfits : (k.toPayload key).Fits) {p : Payload} {value : Item e}
    (h : Reads (Item.merge below e p.wireType) p.encode value) (offset place : Nat) :
    read below k e ⟨offset, place, .delimited (WireField.encodeAll (fields key p))⟩
      = .ok ⟨key, value⟩ := by
  refine Reader.runWindow_untilEmpty_of_foldsTo (mergeNext_consumes below) ?_ place
  exact .cons (mergeNext_reads_key _ hfits) (.single (mergeNext_reads_value _ h))

end Entry

end Protowire
