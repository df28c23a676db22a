import Protowire.Proofs.Wire.RawField
import Protowire.Proofs.Wire.Reads

/-!
# Proofs/Wire/Fields — inputs made of complete fields, and loops that take up one at a time

A field is **complete** (`RawField.IsComplete`) when its bytes are read as that field wherever they
stand.  The fields an input splits into are the complete fields that make it up
(`RawField.split_eq_ok_iff`).

A loop whose steps take up fields (`Reader.FieldStep`) **leads** from state to state
(`Reader.Leads`).  Behind complete fields it goes on as if the rest were all of the input, whatever
that rest is (`FieldStep.leads_append_iff`), so bytes with the same effect may stand for each other
there (`SameEffect.between`).
-/

namespace Protowire

/-! ## Complete fields -/

namespace Decode

variable {α : Type} {x : Decode α} {start pos : Nat} {bytes : Bytes} {a : α}

/-- **What takes all bytes in one place reads them in every place**, when it is local and moves
along. -/
theorem Local.reads (hx : Local x) (hshift : ∀ k, Shifts k id x x)
    (h : x.run ⟨start, pos, bytes⟩ = .ok a ⟨start, pos + bytes.length, []⟩) : Reads x bytes a := by
  intro n start' pos' tail _
  obtain ⟨s, hs, hnil⟩ :=
    Reader.exists_run_of_rest_eq hshift (s := ⟨start', pos', bytes⟩) (by rfl) h
  obtain ⟨used, rest, hsplit, rfl, hmoved⟩ := hx hs
  obtain rfl : rest = [] := hnil
  obtain rfl : bytes = used := hsplit.trans (List.append_nil used)
  exact hmoved tail

/-- What a local computation is traced to take, it reads. -/
theorem Local.reads_of_traced (hx : Local x) (hshift : ∀ k, Shifts k id x x) {r r' : Reader}
    (h : (Reader.traced x).run r = .ok (a, bytes) r') :
    ∃ rest, r.rest = bytes ++ rest ∧ r' = ⟨r.start, r.pos + bytes.length, rest⟩ ∧
      Reads x bytes a := by
  obtain ⟨rest, hrest, hr', htail⟩ := Reader.exists_of_run_traced hx h
  have hused := htail []
  rw [List.append_nil] at hused
  exact ⟨rest, hrest, hr', hx.reads hshift hused⟩

/-- What is read is traced as the bytes it takes. -/
theorem Reads.traced (h : Reads x bytes a) : Reads (Reader.traced x) bytes (a, bytes) :=
  fun n start pos tail hn => Reader.run_traced (h n start pos tail hn)

end Decode

namespace RawField

open Reader Decode

/-- **The bytes of the field are read as this field**, wherever they stand. -/
def IsComplete (f : RawField) : Prop := Reads rawField f.bytes f

/-- No field is empty. -/
theorem IsComplete.bytes_ne_nil {f : RawField} (h : f.IsComplete) : f.bytes ≠ [] :=
  (h 0).ne_nil rawField_consumes

/-- **A field that was read is complete**, and its bytes are those that were taken. -/
theorem isComplete_of_run {r r' : Reader} {f : RawField} (h : rawField.run r = .ok f r') :
    f.IsComplete ∧ r.rest = f.bytes ++ r'.rest ∧
      r' = ⟨r.start, r.pos + f.bytes.length, r'.rest⟩ := by
  obtain ⟨s, htag, hskip⟩ := run_rawField_eq_ok.1 h
  obtain ⟨rest, hrest, rfl, htagReads⟩ := tag_local.reads_of_traced (tag_shifts ·) htag
  obtain ⟨rest', rfl, rfl, hskipReads⟩ :=
    (skip_local f.wireType).reads_of_traced (skip_shifts · f.wireType) hskip
  refine ⟨fun n => ?_, ?_, ?_⟩
  · exact (htagReads.traced n).bind ((hskipReads.traced _).bind_nil (.pure f))
  · rw [hrest, RawField.bytes, List.append_assoc]
  · rw [RawField.bytes, List.length_append, Nat.add_assoc]

/-- Reading complete fields one by one adds them to those read before. -/
theorem foldsTo_nextRawField {fields : List RawField} (h : ∀ f ∈ fields, f.IsComplete)
    (before : List RawField) :
    FoldsTo (fun before f after => Reads (nextRawField before) f.bytes after) before fields
      (before ++ fields) := by
  induction fields generalizing before with
  | nil => rw [List.append_nil]; exact .nil before
  | cons f fields ih =>
    have hnext : Reads (nextRawField before) f.bytes (before ++ [f]) :=
      fun n => (h f List.mem_cons_self n).bind_nil (.pure (before ++ [f]))
    rw [List.append_cons]
    exact .cons hnext (ih (fun g hg => h g (List.mem_cons_of_mem f hg)) (before ++ [f]))

/-- The fields a run adds are complete and make up what was left. -/
theorem complete_of_exhausts {before after : List RawField} {r r' : Reader}
    (h : Exhausts nextRawField before r after r') :
    ∃ fields, after = before ++ fields ∧ (∀ f ∈ fields, f.IsComplete) ∧
      fields.flatMap RawField.bytes = r.rest := by
  induction h with
  | @done before r hnil => exact ⟨[], (List.append_nil before).symm, nofun, hnil.symm⟩
  | @next before _ _ r r₁ r' _ hnext _ ih =>
    obtain ⟨f, s, hraw, hpure⟩ := Decode.run_bind_eq_ok.1 hnext
    obtain ⟨rfl, rfl⟩ : before ++ [f] = _ ∧ s = r₁ := EStateM.Result.ok.inj hpure
    obtain ⟨fields, rfl, hfields, hbytes⟩ := ih
    obtain ⟨hf, hrest, -⟩ := isComplete_of_run hraw
    refine ⟨f :: fields, (List.append_cons before f fields).symm, ?_, ?_⟩
    · exact List.forall_mem_cons.2 ⟨hf, hfields⟩
    · rw [List.flatMap_cons, hbytes, hrest]

/-- **An input splits into the complete fields that make it up.** -/
theorem split_eq_ok_iff {bytes : Bytes} {fields : List RawField} :
    split bytes = .ok fields ↔
      (∀ f ∈ fields, f.IsComplete) ∧ fields.flatMap RawField.bytes = bytes := by
  constructor
  · intro h
    obtain ⟨r', hrun⟩ := runWindow_eq_ok.1 h
    obtain ⟨fields', hfields, hcomplete, hbytes⟩ :=
      complete_of_exhausts ((run_untilEmpty_eq_ok nextRawField_consumes).1 hrun)
    obtain rfl : fields = fields' := hfields
    exact ⟨hcomplete, hbytes⟩
  · rintro ⟨hfields, rfl⟩
    exact runWindow_untilEmpty_of_foldsTo nextRawField_consumes (foldsTo_nextRawField hfields []) 0

/-- A field is complete when its bytes split into it alone. -/
theorem isComplete_iff {f : RawField} : f.IsComplete ↔ split f.bytes = .ok [f] := by
  rw [split_eq_ok_iff, List.flatMap_singleton]
  simp

end RawField

/-! ## Loops over fields -/

namespace Reader

open Decode

variable {σ : Type} {step : σ → Decode σ}

/-- **A step that takes up one field**: it ends where the field ends, and neither what follows the
field nor where it stands matters. -/
structure FieldStep (step : σ → Decode σ) : Prop where
  isLocal : ∀ s, Local (step s)
  shifts : ∀ k s, Shifts k id (step s) (step s)
  framed : ∀ {s s' : σ} {r r' : Reader}, (step s).run r = .ok s' r' →
    ∃ f, rawField.run r = .ok f r'

/-- Taking up all of the bytes leads from one state to another. -/
def Leads (step : σ → Decode σ) (bytes : Bytes) (s s' : σ) : Prop :=
  runWindow (untilEmpty step s) (ofBytes bytes) = .ok s'

/-- The bytes lead from the same states to the same states. -/
def SameEffect (step : σ → Decode σ) (bytes bytes' : Bytes) : Prop :=
  ∀ s s', Leads step bytes s s' ↔ Leads step bytes' s s'

namespace FieldStep

variable {s s' : σ} {f : RawField} {fields : List RawField}

theorem consumes (h : FieldStep step) (s : σ) : Consumes (step s) := by
  intro r s' r' hrun
  obtain ⟨f, hraw⟩ := h.framed hrun
  exact rawField_consumes hraw

/-- With nothing to take up the state stays. -/
theorem leads_nil_iff : Leads step [] s s' ↔ s = s' := by
  rw [Leads, runWindow, run_untilEmpty_nil rfl]
  exact ⟨Except.ok.inj, congrArg Except.ok⟩

/-- Where the bytes stand does not matter. -/
theorem runWindow_eq_ok_iff_leads (h : FieldStep step) {r : Reader} :
    runWindow (untilEmpty step s) r = .ok s' ↔ Leads step r.rest s s' :=
  runWindow_eq_ok_iff_of_rest_eq (fun k => Shifts.untilEmpty (h.shifts k) s) rfl

/-- **A complete field is taken up alone**, and then the rest of the input. -/
theorem leads_cons_iff (h : FieldStep step) (hf : f.IsComplete) {bytes : Bytes} :
    Leads step (f.bytes ++ bytes) s s' ↔
      ∃ s₁, Reads (step s) f.bytes s₁ ∧ Leads step bytes s₁ s' := by
  have hne : f.bytes ++ bytes ≠ [] := List.append_ne_nil_of_left_ne_nil hf.bytes_ne_nil bytes
  rw [Leads, runWindow_eq_ok]
  constructor
  · rintro ⟨r', hrun⟩
    rw [run_untilEmpty_cons h.consumes hne] at hrun
    obtain ⟨s₁, r₁, hstep, hrest⟩ := run_bind_eq_ok.1 hrun
    -- The step ends where the field does.
    obtain ⟨g, hg⟩ := h.framed hstep
    obtain ⟨rfl, rfl⟩ := EStateM.Result.ok.inj (hg.symm.trans (hf 0 0 0 bytes rfl))
    obtain ⟨used, rest, hsplit, hend, htail⟩ := h.isLocal s hstep
    obtain rfl : bytes = rest := congrArg Reader.rest hend
    obtain rfl : g.bytes = used := List.append_cancel_right hsplit
    have hused := htail []
    rw [List.append_nil] at hused
    exact ⟨s₁, (h.isLocal s).reads (h.shifts · s) hused,
      h.runWindow_eq_ok_iff_leads.1 (runWindow_eq_ok.2 ⟨r', hrest⟩)⟩
  · rintro ⟨s₁, hreads, hleads⟩
    obtain ⟨r', hrest⟩ := runWindow_eq_ok.1
      ((h.runWindow_eq_ok_iff_leads (r := ⟨0, 0 + f.bytes.length, bytes⟩)).2 hleads)
    refine ⟨r', ?_⟩
    rw [run_untilEmpty_cons h.consumes hne]
    exact (run_bind_of_ok (hreads 0 0 0 bytes rfl)).trans hrest

/-- A complete field leads where taking it up leads. -/
theorem leads_bytes_iff (h : FieldStep step) (hf : f.IsComplete) :
    Leads step f.bytes s s' ↔ Reads (step s) f.bytes s' := by
  have hcons : Leads step (f.bytes ++ []) s s' ↔ _ := h.leads_cons_iff hf
  rw [List.append_nil] at hcons
  rw [hcons]
  constructor
  · rintro ⟨s₁, hreads, hnil⟩
    exact leads_nil_iff.1 hnil ▸ hreads
  · exact fun hreads => ⟨s', hreads, leads_nil_iff.2 rfl⟩

/-- Complete fields are taken up one by one, and then the rest of the input. -/
theorem leads_fields_iff (h : FieldStep step) (hfields : ∀ f ∈ fields, f.IsComplete)
    {bytes : Bytes} :
    Leads step (fields.flatMap RawField.bytes ++ bytes) s s' ↔
      ∃ s₁, FoldsTo (fun s f s' => Reads (step s) (RawField.bytes f) s') s fields s₁ ∧
        Leads step bytes s₁ s' := by
  induction fields generalizing s with
  | nil =>
    constructor
    · exact fun hleads => ⟨s, .nil s, hleads⟩
    · rintro ⟨_, ⟨⟩, hleads⟩
      exact hleads
  | cons f fields ih =>
    obtain ⟨hf, hrest⟩ := List.forall_mem_cons.1 hfields
    rw [List.flatMap_cons, List.append_assoc, h.leads_cons_iff hf]
    constructor
    · rintro ⟨s₁, hreads, hleads⟩
      obtain ⟨s₂, hfolds, hend⟩ := (ih hrest).1 hleads
      exact ⟨s₂, .cons hreads hfolds, hend⟩
    · rintro ⟨s₂, hfolds, hend⟩
      cases hfolds with
      | cons hreads hfolds => exact ⟨_, hreads, (ih hrest).2 ⟨s₂, hfolds, hend⟩⟩

/-- An input of complete fields leads where its fields lead. -/
theorem leads_iff_foldsTo (h : FieldStep step) (hfields : ∀ f ∈ fields, f.IsComplete) :
    Leads step (fields.flatMap RawField.bytes) s s' ↔
      FoldsTo (fun s f s' => Reads (step s) (RawField.bytes f) s') s fields s' := by
  have happend : Leads step (fields.flatMap RawField.bytes ++ []) s s' ↔ _ :=
    h.leads_fields_iff hfields
  rw [List.append_nil] at happend
  rw [happend]
  constructor
  · rintro ⟨s₁, hfolds, hnil⟩
    exact leads_nil_iff.1 hnil ▸ hfolds
  · exact fun hfolds => ⟨s', hfolds, leads_nil_iff.2 rfl⟩

/-- A run goes over the fields that their framing alone shows. -/
theorem exists_exhausts (h : FieldStep step) {r r' : Reader} (hrun : Exhausts step s r s' r') :
    ∃ fields, ∀ before, Exhausts nextRawField before r (before ++ fields) r' := by
  induction hrun with
  | done hnil => exact ⟨[], fun before => (List.append_nil before).symm ▸ .done hnil⟩
  | @next s s₁ s' r r₁ r' hne hstep _ ih =>
    obtain ⟨f, hraw⟩ := h.framed hstep
    obtain ⟨fields, hfields⟩ := ih
    refine ⟨f :: fields, fun before => ?_⟩
    have hnext : (nextRawField before).run r = .ok (before ++ [f]) r₁ := run_bind_of_ok hraw
    rw [List.append_cons]
    exact .next hne hnext (hfields (before ++ [f]))

/-- **What is taken up splits into complete fields**, and leads where they lead. -/
theorem leads_iff_split (h : FieldStep step) {bytes : Bytes} :
    Leads step bytes s s' ↔ ∃ fields, RawField.split bytes = .ok fields ∧
      FoldsTo (fun s f s' => Reads (step s) (RawField.bytes f) s') s fields s' := by
  constructor
  · intro hleads
    obtain ⟨r', hrun⟩ := runWindow_eq_ok.1 hleads
    obtain ⟨fields, hexhausts⟩ := h.exists_exhausts ((run_untilEmpty_eq_ok h.consumes).1 hrun)
    have hsplit : RawField.split bytes = .ok fields := runWindow_eq_ok.2
      ⟨r', (run_untilEmpty_eq_ok nextRawField_consumes).2 (hexhausts [])⟩
    obtain ⟨hfields, rfl⟩ := RawField.split_eq_ok_iff.1 hsplit
    exact ⟨fields, hsplit, (h.leads_iff_foldsTo hfields).1 hleads⟩
  · rintro ⟨fields, hsplit, hfolds⟩
    obtain ⟨hfields, rfl⟩ := RawField.split_eq_ok_iff.1 hsplit
    exact (h.leads_iff_foldsTo hfields).2 hfolds

/-- **Behind complete fields the rest is taken up as an input of its own.** -/
theorem leads_append_iff (h : FieldStep step) {a : Bytes} (ha : RawField.split a = .ok fields)
    {b : Bytes} : Leads step (a ++ b) s s' ↔ ∃ s₁, Leads step a s s₁ ∧ Leads step b s₁ s' := by
  obtain ⟨hfields, rfl⟩ := RawField.split_eq_ok_iff.1 ha
  rw [h.leads_fields_iff hfields]
  exact exists_congr fun s₁ => and_congr_left' (h.leads_iff_foldsTo hfields).symm

end FieldStep

/-- **Complete fields may be replaced by complete fields with the same effect**, between complete
fields and any rest. -/
theorem SameEffect.between (h : FieldStep step) {a x y : Bytes} {before xs ys : List RawField}
    (ha : RawField.split a = .ok before) (hx : RawField.split x = .ok xs)
    (hy : RawField.split y = .ok ys) (hsame : SameEffect step x y) (b : Bytes) :
    SameEffect step (a ++ (x ++ b)) (a ++ (y ++ b)) := by
  intro s s'
  rw [h.leads_append_iff ha, h.leads_append_iff ha]
  refine exists_congr fun s₁ => and_congr_right fun _ => ?_
  rw [h.leads_append_iff hx, h.leads_append_iff hy]
  exact exists_congr fun s₂ => and_congr_left' (hsame s₁ s₂)

end Reader

end Protowire
