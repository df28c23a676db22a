import Protowire.Proofs.Wire.Locality

/-!
# Proofs/Wire/RawField — the fields of an input, split by their framing alone

A `RawField` is one field as it stands in the input: what its tag says, and the bytes of its tag
and of its payload.  `RawField.split` cuts an input into its fields with nothing but `Reader.tag`
and `Reader.skip`, hence without knowing any message type.
-/

namespace Protowire

/-- One field as it stands in the input. -/
structure RawField where
  number : Nat
  wireType : WireType
  /-- The bytes of the tag, which need not be the shortest. -/
  tag : Bytes
  /-- The bytes after the tag. -/
  payload : Bytes
  deriving DecidableEq, Repr

/-- All bytes of a field. -/
def RawField.bytes (f : RawField) : Bytes := f.tag ++ f.payload

namespace Reader

variable {α : Type}

/-- Runs a computation and tells the bytes it takes. -/
def traced (x : Decode α) : Decode (α × Bytes) := fun r =>
  match x.run r with
  | .ok a r' => .ok (a, r.rest.take (r'.pos - r.pos)) r'
  | .error e r' => .error e r'

/-- Reads a tag and skips the payload it announces. -/
def rawField : Decode RawField := do
  let ((number, wireType), tag) ← traced tag
  let (_, payload) ← traced (skip wireType)
  return { number, wireType, tag, payload }

/-- Reads one more field. -/
def nextRawField (fields : List RawField) : Decode (List RawField) := do
  return fields ++ [← rawField]

end Reader

/-- All fields of an input. -/
def RawField.split (bytes : Bytes) : Except DecodeError (List RawField) :=
  Reader.runWindow (Reader.untilEmpty Reader.nextRawField []) (Reader.ofBytes bytes)

namespace Reader

open Decode

variable {α : Type}

/-- The bytes a local computation takes are those it is decided by. -/
theorem run_traced {x : Decode α} {start pos : Nat} {used rest : Bytes} {a : α}
    (h : x.run ⟨start, pos, used ++ rest⟩ = .ok a ⟨start, pos + used.length, rest⟩) :
    (traced x).run ⟨start, pos, used ++ rest⟩
      = .ok (a, used) ⟨start, pos + used.length, rest⟩ := by
  have hlen : pos + used.length - pos = used.length := Nat.add_sub_cancel_left pos used.length
  simp only [traced, EStateM.run] at h ⊢
  simp only [h, hlen, List.take_left]

/-- A local computation that succeeds can be traced. -/
theorem exists_run_traced {x : Decode α} (hx : Local x) {r r' : Reader} {a : α}
    (h : x.run r = .ok a r') : ∃ taken, (traced x).run r = .ok (a, taken) r' := by
  obtain ⟨start, pos, bytes⟩ := r
  obtain ⟨used, rest, hbytes, rfl, htail⟩ := hx h
  obtain rfl : bytes = used ++ rest := hbytes
  exact ⟨used, run_traced (htail rest)⟩

/-- What a traced computation gives, the computation itself gives. -/
theorem run_of_traced {x : Decode α} {r r' : Reader} {p : α × Bytes}
    (h : (traced x).run r = .ok p r') : x.run r = .ok p.1 r' := by
  simp only [traced, EStateM.run] at h ⊢
  split at h
  · rename_i a s hx
    obtain ⟨rfl, rfl⟩ := EStateM.Result.ok.inj h
    exact hx
  · exact absurd h nofun

/-- **What a local computation is traced to take decides it.** -/
theorem exists_of_run_traced {x : Decode α} (hx : Local x) {r r' : Reader} {a : α}
    {taken : Bytes} (h : (traced x).run r = .ok (a, taken) r') :
    ∃ rest, r.rest = taken ++ rest ∧ r' = ⟨r.start, r.pos + taken.length, rest⟩ ∧
      ∀ tail, x.run ⟨r.start, r.pos, taken ++ tail⟩
        = .ok a ⟨r.start, r.pos + taken.length, tail⟩ := by
  obtain ⟨start, pos, bytes⟩ := r
  obtain ⟨used, rest, hbytes, rfl, htail⟩ := hx (run_of_traced h)
  obtain rfl : bytes = used ++ rest := hbytes
  rw [run_traced (htail rest)] at h
  obtain rfl : used = taken := congrArg Prod.snd (EStateM.Result.ok.inj h).1
  exact ⟨rest, rfl, rfl, htail⟩

theorem traced_local {x : Decode α} (hx : Local x) : Local (traced x) := by
  rintro ⟨start, pos, bytes⟩ ⟨a, taken⟩ r' h
  obtain ⟨rest, hrest, rfl, htail⟩ := exists_of_run_traced hx h
  exact ⟨taken, rest, hrest, rfl, fun tail => run_traced (htail tail)⟩

/-- A field is its tag and then its payload. -/
theorem run_rawField_eq_ok {r r' : Reader} {f : RawField} :
    rawField.run r = .ok f r' ↔
      ∃ s, (traced tag).run r = .ok ((f.number, f.wireType), f.tag) s ∧
        (traced (skip f.wireType)).run s = .ok ((), f.payload) r' := by
  constructor
  · intro h
    obtain ⟨⟨⟨number, wireType⟩, tag⟩, s, htag, hbody⟩ := run_bind_eq_ok.1 h
    obtain ⟨⟨_, payload⟩, s', hskip, hpure⟩ := run_bind_eq_ok.1 hbody
    obtain ⟨rfl, rfl⟩ : _ = f ∧ s' = r' := EStateM.Result.ok.inj hpure
    exact ⟨s, htag, hskip⟩
  · rintro ⟨s, htag, hskip⟩
    exact (run_bind_of_ok htag).trans (run_bind_of_ok hskip)

theorem rawField_consumes : Consumes rawField := by
  have hpayload : ∀ p : (Nat × WireType) × Bytes, Local (do
      let (_, payload) ← traced (skip p.1.2)
      return RawField.mk p.1.1 p.1.2 p.2 payload : Decode RawField) := fun p =>
    (traced_local (skip_local p.1.2)).bind fun q => .pure (RawField.mk p.1.1 p.1.2 p.2 q.2)
  have htag : Consumes (traced tag) := fun r p r' h => tag_consumes (run_of_traced h)
  exact htag.bind hpayload

theorem nextRawField_consumes (fields : List RawField) : Consumes (nextRawField fields) :=
  rawField_consumes.bind fun f => .pure (fields ++ [f])

end Reader

end Protowire
