import Protowire.Proofs.Message.TakeUp
import Protowire.Proofs.Wire.Reads

/-!
# Proofs/Wire/Faults — where reading given bytes breaks off

The counterpart of `Decode.ReadsAt`: a computation **breaks off** with a fault (`Decode.FailsAt`)
when it does so in every input that has the bytes at the given offset.

A loop over inputs breaks off at the first that its step cannot read.  `StopsAt` counts the bytes up
to there, so the fault of a whole loop has its place relative to the start of the loop
(`Reader.runWindow_untilEmpty_of_stopsAt`).
-/

namespace Protowire

/-! ## Inputs up to one that fails -/

/-- The inputs lead on from a state to one that fails; `o` is how far behind the first input the
failure lies, when each input is as wide as `width` says. -/
inductive StopsAt {σ ι : Type} (step : σ → ι → σ → Prop) (fails : σ → ι → Nat → Prop)
    (width : ι → Nat) : σ → List ι → Nat → Prop where
  | here {s : σ} {i : ι} {o : Nat} (h : fails s i o) (is : List ι) :
      StopsAt step fails width s (i :: is) o
  | later {s s₁ : σ} {i : ι} {is : List ι} {o : Nat} (head : step s i s₁)
      (tail : StopsAt step fails width s₁ is o) :
      StopsAt step fails width s (i :: is) (width i + o)

namespace StopsAt

variable {σ τ ι : Type} {step : σ → ι → σ → Prop} {fails : σ → ι → Nat → Prop}
  {width : ι → Nat} {s s' : σ} {is is' : List ι} {o : Nat}

/-- What comes after the failure does not matter. -/
theorem append_right (h : StopsAt step fails width s is o) (is' : List ι) :
    StopsAt step fails width s (is ++ is') o := by
  induction h with
  | here h is => exact .here h (is ++ is')
  | later head _ ih => exact .later head ih

/-- **Inputs that are read before the failure move it along** by their widths. -/
theorem append_left (h : FoldsTo step s is s') (h' : StopsAt step fails width s' is' o) :
    StopsAt step fails width s (is ++ is') ((is.map width).sum + o) := by
  induction h with
  | nil s => rwa [List.map_nil, List.sum_nil, Nat.zero_add]
  | cons head _ ih =>
    rw [List.map_cons, List.sum_cons, Nat.add_assoc]
    exact .later head (ih h')

/-- A system that follows steps and failures stops where they stop. -/
theorem map {step' : τ → ι → τ → Prop} {fails' : τ → ι → Nat → Prop} (g : σ → τ)
    (hstep : ∀ s s', ∀ i ∈ is, step s i s' → step' (g s) i (g s'))
    (hfails : ∀ s o, ∀ i ∈ is, fails s i o → fails' (g s) i o)
    (h : StopsAt step fails width s is o) : StopsAt step' fails' width (g s) is o := by
  induction h with
  | here h is => exact .here (hfails _ _ _ List.mem_cons_self h) is
  | @later s s₁ i is o head _ ih =>
    have htail : StopsAt step' fails' width (g s₁) is o :=
      ih (fun s s' j hj => hstep s s' j (List.mem_cons_of_mem i hj))
        fun s o j hj => hfails s o j (List.mem_cons_of_mem i hj)
    exact .later (hstep s s₁ i List.mem_cons_self head) htail

end StopsAt

/-! ## Breaking off on given bytes -/

namespace Decode

variable {α β : Type}

/-- **Breaks off with this fault** where these bytes stand at this offset, whatever follows. -/
def FailsAt (offset : Nat) (x : Decode α) (bytes : Bytes) (e : DecodeError) : Prop :=
  ∀ start pos tail, start + pos = offset → ∃ r, x.run ⟨start, pos, bytes ++ tail⟩ = .error e r

variable {n : Nat} {x : Decode α} {f : α → Decode β} {bytes bytes' : Bytes} {a : α}
  {e : DecodeError}

theorem FailsAt.ofExcept {y : Except DecodeError α} (h : y = .error e) :
    FailsAt n (Decode.ofExcept y) bytes e := by
  rw [h]
  exact fun _ _ _ _ => ⟨_, rfl⟩

theorem FailsAt.bind (hx : FailsAt n x bytes e) : FailsAt n (x >>= f) bytes e := by
  intro start pos tail hn
  obtain ⟨r, hr⟩ := hx start pos tail hn
  exact ⟨r, run_bind_of_error hr⟩

/-- **A sequence breaks off behind what its first part reads** if the second part does. -/
theorem FailsAt.of_reads (hx : ReadsAt n x bytes a)
    (hf : FailsAt (n + bytes.length) (f a) bytes' e) :
    FailsAt n (x >>= f) (bytes ++ bytes') e := by
  intro start pos tail hn
  have hmid : start + (pos + bytes.length) = n + bytes.length := by omega
  obtain ⟨r, hr⟩ := hf start (pos + bytes.length) tail hmid
  rw [List.append_assoc]
  exact ⟨r, (run_bind_of_ok (hx start pos (bytes' ++ tail) hn)).trans hr⟩

/-- A second part that breaks off without reading adds no bytes. -/
theorem FailsAt.of_reads_nil (hx : ReadsAt n x bytes a)
    (hf : FailsAt (n + bytes.length) (f a) [] e) : FailsAt n (x >>= f) bytes e := by
  have h := FailsAt.of_reads hx hf
  rwa [List.append_nil] at h

/-- A read that only looks at the offset first breaks off as it does at that offset. -/
theorem FailsAt.offset {g : Nat → Decode α} (h : FailsAt n (g n) bytes e) :
    FailsAt n (get >>= fun r : Reader => g r.offset) bytes e := by
  rintro start pos tail rfl
  exact h start pos tail rfl

end Decode

/-- No field is empty: it has a tag. -/
theorem WireField.encode_ne_nil (f : WireField) : f.encode ≠ [] := by
  have htag : 0 < f.size := Nat.lt_of_lt_of_le (Nat.succ_pos _) (Nat.le_add_right _ _)
  rw [← length_encode] at htag
  exact List.ne_nil_of_length_pos htag

namespace Reader

open Decode

variable {α : Type} {accept : Nat → Except DecodeError Unit}
  {use : Occurrence → Except DecodeError α}

/-- **A field is refused** when it is not accepted, or when nothing can be made of its payload. -/
theorem takeUp_failsAt {n : Nat} {p : Payload} {e : DecodeError} (hfits : p.Fits)
    (h : (accept n >>= fun _ => use ⟨n, n + p.lead, p⟩) = .error e) :
    FailsAt n (takeUp accept p.wireType use) p.encode e := by
  refine .offset (g := fun offset => do
      Decode.ofExcept (accept offset)
      Decode.ofExcept (use (← occurrence p.wireType))) ?_
  cases haccept : accept n with
  | error e' =>
    rw [haccept] at h
    obtain rfl : e' = e := Except.error.inj h
    exact .bind (.ofExcept rfl)
  | ok u =>
    rw [haccept] at h
    have hread : FailsAt n (occurrence p.wireType >>= fun o => Decode.ofExcept (use o)) p.encode
        e :=
      .of_reads_nil (occurrence_readsAt_lead hfits) (.ofExcept h)
    exact FailsAt.of_reads (.ofExcept rfl) hread

end Reader

namespace Reader

open Decode

variable {σ ι : Type} {step : σ → Decode σ} {encode : ι → Bytes} {fault : Nat → DecodeError}

/-- The steps that lead to a failure lead a loop there. -/
theorem failsAt_of_stopsAt (hstep : ∀ s, Consumes (step s)) (hne : ∀ i, encode i ≠ []) {s : σ}
    {is : List ι} {o : Nat}
    (h : StopsAt (fun s i s' => Reads (step s) (encode i) s')
      (fun s i o => ∀ n, FailsAt n (step s) (encode i) (fault (n + o)))
      (fun i => (encode i).length) s is o) (n : Nat) :
    FailsAt n (untilEmpty step s) (is.flatMap encode) (fault (n + o)) := by
  induction h generalizing n with
  | @here s i o h is =>
    intro start pos tail hn
    rw [List.flatMap_cons, List.append_assoc]
    obtain ⟨r, hr⟩ := h n start pos (is.flatMap encode ++ tail) hn
    exact ⟨r, (run_untilEmpty_cons hstep (List.append_ne_nil_of_left_ne_nil (hne i) _)).trans
      (run_bind_of_error hr)⟩
  | @later s s₁ i is o head _ ih =>
    intro start pos tail hn
    have hmid : start + (pos + (encode i).length) = n + (encode i).length := by omega
    obtain ⟨r, hr⟩ := ih (n + (encode i).length) start (pos + (encode i).length) tail hmid
    rw [Nat.add_assoc] at hr
    rw [List.flatMap_cons, List.append_assoc]
    exact ⟨r, (run_untilEmpty_cons hstep (List.append_ne_nil_of_left_ne_nil (hne i) _)).trans
      ((run_bind_of_ok (head n start pos _ hn)).trans hr)⟩

/-- **A loop breaks off where its steps do**, with the fault counted from its start. -/
theorem runWindow_untilEmpty_of_stopsAt (hstep : ∀ s, Consumes (step s))
    (hne : ∀ i, encode i ≠ []) {s : σ} {is : List ι} {o : Nat}
    (h : StopsAt (fun s i s' => Reads (step s) (encode i) s')
      (fun s i o => ∀ n, FailsAt n (step s) (encode i) (fault (n + o)))
      (fun i => (encode i).length) s is o) (start : Nat) :
    runWindow (untilEmpty step s) (window start (is.flatMap encode))
      = .error (fault (start + o)) := by
  obtain ⟨r, hr⟩ := failsAt_of_stopsAt hstep hne h start start 0 [] rfl
  rw [List.append_nil] at hr
  rw [runWindow, window, hr]

end Reader

end Protowire
