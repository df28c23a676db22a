import Protowire.Proofs.Descriptor.Wire
import Protowire.Proofs.Message.RoundTrip
import Protowire.Generator.Exchange

/-!
# Proofs/Generator/Exchange — every exchange ends with a complete answer

Whatever bytes a generator is given, they hold no request, or the parameter of the request is
none, or the generator has its say (`Yields`).  The response tells just that
(`IsAnswer`), and the exchange is then at its end, from where it may begin again.  What an exchange
has been through before leaves no trace in the response, so **a row of requests is answered one by
one**, each as in `Exchange.completes_process`.

The bytes that are written are the encoding of the response, which is nested one message deep, so
they are read back as the response.
-/

namespace Protowire

/-- What comes of bytes: the files they ask for, or the reason why there are none. -/
inductive Yields (request : Bytes) : Except GeneratorError (List CodeFile) → Prop where
  | undecodable {cause : DecodeError}
      (hdecode : Message.decode .generatorRequest request = .error cause) :
      Yields request (.error (.undecodable cause))
  | badParameter {m : Message .generatorRequest} {cause : ParameterError}
      (hdecode : Message.decode .generatorRequest request = .ok m)
      (hparse : Config.parse (GeneratorRequest.ofMessage m).parameter = .error cause) :
      Yields request (.error (.badParameter cause))
  | generated {m : Message .generatorRequest} {config : Config}
      (hdecode : Message.decode .generatorRequest request = .ok m)
      (hparse : Config.parse (GeneratorRequest.ofMessage m).parameter = .ok config) :
      Yields request (generateFiles (GeneratorRequest.ofMessage m).files
        (GeneratorRequest.ofMessage m).targets config)

/-- A response that tells what came of bytes: all files and no error, or the text of the failure and
no file. -/
inductive GeneratorResponse.Tells (response : GeneratorResponse) :
    Except GeneratorError (List CodeFile) → Prop where
  | files {code : List CodeFile} (herror : response.error = none)
      (hfiles : response.files = code.map fun file => ⟨file.name, "", file.content⟩) :
      response.Tells (.ok code)
  | failure {e : GeneratorError} (herror : response.error = some e.message)
      (hfiles : response.files = []) : response.Tells (.error e)

/-- The complete answer to bytes: the feature is advertised, and the response tells what came of
them. -/
structure IsAnswer (request : Bytes) (response : GeneratorResponse) : Prop where
  features : response.supportedFeatures = 1
  tells : ∃ outcome, Yields request outcome ∧ response.Tells outcome

/-- **Something comes of all bytes**, and it is what the generator acts upon. -/
theorem yields_generateFrom (request : Bytes) : Yields request (generateFrom request) := by
  rw [generateFrom, GeneratorRequest.decode]
  cases hdecode : Message.decode .generatorRequest request with
  | error cause => exact .undecodable hdecode
  | ok m =>
    change Yields request (GeneratorRequest.ofMessage m).generate
    rw [GeneratorRequest.generate]
    cases hparse : Config.parse (GeneratorRequest.ofMessage m).parameter with
    | error cause => exact .badParameter hdecode hparse
    | ok config => exact .generated hdecode hparse

theorem isAnswer_respond (request : Bytes) : IsAnswer request (respond request) := by
  have hyields := yields_generateFrom request
  rw [respond]
  cases hresult : generateFrom request with
  | ok code => exact ⟨rfl, .ok code, hresult ▸ hyields, .files rfl rfl⟩
  | error e => exact ⟨rfl, .error e, hresult ▸ hyields, .failure rfl rfl⟩

namespace GeneratorResponse

/-- A response is nested one message deep: it holds files. -/
theorem depth_toMessage_le (r : GeneratorResponse) : r.toMessage.depth ≤ 1 := by
  have hfiles (files : List ResponseFile) :
      (Items.ofMessages ResponseFile.toMessage files).depth ≤ 1 := by
    induction files with
    | nil => exact Nat.zero_le 1
    | cons file files ih => exact Nat.max_le.2 ⟨Nat.le_refl 1, ih⟩
  have herror : (.ofOption (r.error.map fun v => .scalar (s := .string) v) :
      Content (.field "error" 1 (.optional (.scalar .string)))).depth = 0 := by
    cases r.error <;> rfl
  rw [toMessage]
  simp only [Record.depth, Content.depth, herror]
  have := hfiles r.files
  omega

/-- **A response is read back from its encoding.** -/
theorem decode_encode_toMessage {r : GeneratorResponse}
    (hfits : r.toMessage.encode.length < 2 ^ 64) :
    (Message.decode .generatorResponse r.toMessage.encode).map ofMessage = .ok r := by
  have hdepth : r.toMessage.depth ≤ 100 := Nat.le_trans r.depth_toMessage_le (by decide)
  rw [Message.decode_encode r.toMessage hdepth hfits]
  exact congrArg Except.ok (ofMessage_toMessage r)

end GeneratorResponse

namespace Exchange

/-- The responses to requests one after the other, each with the exchange as it is left. -/
def processAll (e : Exchange) : List Bytes → List (GeneratorResponse × Exchange)
  | [] => []
  | request :: requests => e.process request :: (e.process request).2.processAll requests

/-- A request is done with: the exchange is at its end, and the response is the complete answer that
a new exchange would have given.  Where it is written instead, in however much room, the exchange
ends in the same way; with room enough all of it is written; and what is written, if it is no longer
than a length can say, is read back as the response. -/
structure Completes (request : Bytes) (response : GeneratorResponse) (after : Exchange) :
    Prop where
  stage : after.stage = .emitResponse
  fresh : (start.process request).1 = response
  answer : IsAnswer request response
  run_after : ∀ (e : Exchange) (room : Option Nat), (e.run request room).2 = after
  run_unbounded : ∀ e : Exchange, ∃ written, (e.run request none).1 = .ok written
  read_back : ∀ (e : Exchange) (room : Option Nat) (written : Bytes),
    (e.run request room).1 = .ok written → written.length < 2 ^ 64 →
      (Message.decode .generatorResponse written).map GeneratorResponse.ofMessage = .ok response

/-- What is written is the encoding of the response. -/
theorem eq_encode_of_run {e : Exchange} {request : Bytes} {room : Option Nat} {written : Bytes}
    (h : (e.run request room).1 = .ok written) : written = (respond request).toMessage.encode := by
  change (if room.any (· < (respond request).toMessage.encode.length) then Except.error _
    else .ok (respond request).toMessage.encode) = Except.ok written at h
  split at h
  · exact absurd h nofun
  · exact (Except.ok.inj h).symm

/-- **One request is done with**, at whatever stage the exchange was. -/
theorem completes_process (e : Exchange) (request : Bytes) :
    Completes request (e.process request).1 (e.process request).2 where
  stage := rfl
  fresh := rfl
  answer := isAnswer_respond request
  run_after := fun _ _ => rfl
  run_unbounded := fun _ => ⟨_, rfl⟩
  read_back := fun _ _ written hrun hfits => by
    obtain rfl := eq_encode_of_run hrun
    exact GeneratorResponse.decode_encode_toMessage hfits

/-- **Every exchange ends with a complete answer**, and so does every one that is begun again: of a
row of requests, each is done with before the next. -/
theorem answers_every_request (e : Exchange) (requests : List Bytes) :
    List.Forall₂ (fun request done => Completes request done.1 done.2) requests
      (e.processAll requests) := by
  induction requests generalizing e with
  | nil => exact .nil
  | cons request requests ih => exact .cons (e.completes_process request) (ih _)

/-- Bytes that hold no request, and then a request for no files. -/
theorem answers_every_request_bad_then_empty :
    Exchange.start.processAll [[0xff], []] =
      [(⟨some "failed to decode request: malformed varint at offset 0", 1, []⟩, ⟨.emitResponse⟩),
        (⟨none, 1, []⟩, ⟨.emitResponse⟩)] ∧
    (Exchange.start.run [] none).1 = .ok [0x10, 0x01] ∧
    IsAnswer [0xff] ⟨some "failed to decode request: malformed varint at offset 0", 1, []⟩ ∧
    (Message.decode .generatorResponse [0x10, 0x01]).map GeneratorResponse.ofMessage
      = .ok ⟨none, 1, []⟩ := by
  have hbad : respond [0xff] =
      ⟨some "failed to decode request: malformed varint at offset 0", 1, []⟩ := by decide +kernel
  have hresolve : Schema.resolve [] = .ok ⟨[], [], []⟩ := by
    have horder : Schema.importOrder [] = .ok [] := by cbv
    rw [Schema.resolve, horder]
    rfl
  have hgenerate : (⟨[], "", none, []⟩ : GeneratorRequest).generate = .ok [] := by
    have hconfig : Config.parse "" = .ok Config.standard := by decide +kernel
    rw [GeneratorRequest.generate, hconfig]
    change generateFiles [] [] Config.standard = .ok []
    rw [generateFiles, hresolve]
    rfl
  have hfrom : generateFrom [] = .ok [] := by
    have hdecode : GeneratorRequest.decode [] = .ok ⟨[], "", none, []⟩ := rfl
    rw [generateFrom, hdecode]
    exact hgenerate
  have hempty : respond [] = ⟨none, 1, []⟩ := by
    rw [respond, hfrom]
    rfl
  have hrun : (Exchange.start.run [] none).1 = .ok [0x10, 0x01] := by
    change Except.ok (respond []).toMessage.encode = _
    rw [hempty]
    exact congrArg Except.ok (by decide +kernel)
  have hall : Exchange.start.processAll [[0xff], []] =
      [(⟨some "failed to decode request: malformed varint at offset 0", 1, []⟩, ⟨.emitResponse⟩),
        (⟨none, 1, []⟩, ⟨.emitResponse⟩)] := by
    rw [← hbad, ← hempty]
    rfl
  have hdone := answers_every_request Exchange.start [[0xff], []]
  rw [hall] at hdone
  obtain ⟨hfirst, hrest⟩ := List.forall₂_cons.1 hdone
  obtain ⟨hsecond, -⟩ := List.forall₂_cons.1 hrest
  exact ⟨hall, hrun, hfirst.answer, hsecond.read_back start none _ hrun (by decide)⟩

end Exchange

end Protowire
