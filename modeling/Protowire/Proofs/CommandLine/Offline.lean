import Protowire.CommandLine.Run
import Protowire.Proofs.Descriptor.Wire
import Protowire.Proofs.Generator.OutputSet
import Protowire.Proofs.Message.RoundTrip

/-!
# Proofs/CommandLine/Offline — a file set and a request lead to the same files

The same files reach the generator in two ways: in a file set, with names and parameter beside it as
options, or in a request that has all three.  Both are read back from their bytes, and a request
with a file is nested no deeper than the file set (`GeneratorRequest.depth_toMessage_le`).  From
there on the two ways check the same things, and fail for the same reasons.
-/

namespace Protowire

/-! ## How deep descriptors are nested -/

theorem Items.depth_ofStrings (texts : List String) : (ofStrings texts).depth = 0 := by
  induction texts with
  | nil => rfl
  | cons text texts ih => exact (Nat.max_eq_right (Nat.zero_le _)).trans ih

/-- A message that is held takes a level. -/
theorem Items.one_le_depth_ofMessages {α : Type} {t : MessageType} {toMessage : α → Message t}
    {as : List α} (h : as ≠ []) : 1 ≤ (ofMessages toMessage as).depth := by
  cases as with
  | nil => exact absurd rfl h
  | cons a as => exact Nat.le_trans (Nat.le_add_left 1 _) (Nat.le_max_left _ _)

namespace GeneratorRequest

/-- **A request is nested no deeper than the set of its files**, if there are any. -/
theorem depth_toMessage_le {r : GeneratorRequest} (h : r.files ≠ []) :
    r.toMessage.depth ≤ (FileDescriptorSet.toMessage ⟨r.files⟩).depth := by
  have hfiles : 1 ≤ (Items.ofMessages FileDescriptor.toMessage r.files).depth :=
    Items.one_le_depth_ofMessages h
  have hversion : (.ofOption (r.compilerVersion.map fun v => .message v.toMessage) :
      Content (.field "compiler_version" 3 (.optional (.message .version)))).depth ≤ 1 := by
    cases r.compilerVersion with
    | none => exact Nat.zero_le 1
    | some v => exact Nat.le_refl 1
  rw [toMessage, FileDescriptorSet.toMessage]
  simp only [Record.depth, Content.depth, Items.depth_ofStrings]
  omega

/-- **A request is read back and acted upon.** -/
theorem generateFrom_encode {r : GeneratorRequest} (hdepth : r.toMessage.depth ≤ 100)
    (hfits : r.toMessage.encode.length < 2 ^ 64) :
    generateFrom r.toMessage.encode = r.generate := by
  have hdecode : decode r.toMessage.encode = .ok r := by
    rw [decode, Message.decode_encode r.toMessage hdepth hfits]
    exact congrArg Except.ok (ofMessage_toMessage r)
  rw [generateFrom, hdecode]
  rfl

end GeneratorRequest

namespace CommandLine

/-- The request for what the options ask for, and nothing else. -/
def Options.request (options : Options) (files : List FileDescriptor)
    (compilerVersion : Option Version) : GeneratorRequest where
  targets := if options.files.isEmpty then files.map (·.name) else options.files
  parameter := options.param
  compilerVersion := compilerVersion
  files := files

/-- What is generated from a file set and the response to a request are the same: both have the same
files, in the same order, or neither has any, and for the same reason. -/
structure Agrees (offline : Except Failure (List CodeFile)) (response : GeneratorResponse) :
    Prop where
  error_eq_none_iff : response.error = none ↔ ∃ code, offline = .ok code
  files_eq : ∀ code, offline = .ok code →
    response.files = code.map fun file => ⟨file.name, "", file.content⟩
  reason : ∀ failure, offline = .error failure →
    ∃ text, response.error = some text ∧ text ∈ failure.message :: failure.causes

theorem Agrees.ok (code : List CodeFile) : Agrees (.ok code) (.ofFiles code) where
  error_eq_none_iff := ⟨fun _ => ⟨code, rfl⟩, fun _ => rfl⟩
  files_eq := fun _ h => by rw [← Except.ok.inj h]; rfl
  reason := nofun

theorem Agrees.error {failure : Failure} {e : GeneratorError}
    (h : e.message ∈ failure.message :: failure.causes) : Agrees (.error failure) (.ofError e) where
  error_eq_none_iff := ⟨nofun, nofun⟩
  files_eq := nofun
  reason := fun _ hfailure => ⟨e.message, rfl, Except.error.inj hfailure ▸ h⟩

/-- A file set that is read back, and has files, is generated from as the options ask. -/
theorem generateOffline_of_decode {set : FileDescriptorSet} {options : Options} {content : Bytes}
    (hdecode : Message.decode .fileDescriptorSet content = .ok set.toMessage)
    (hfiles : set.files ≠ []) (path : String) (compilerVersion : Option Version) :
    generateOffline options path (.ok content) =
      (Config.parse options.param).mapError (fun e => ⟨e.message, []⟩) >>= fun config =>
        (generateFiles set.files (options.request set.files compilerVersion).targets
          config).mapError fun e => ⟨s!"Failed to generate code from {path}", [e.message]⟩ := by
  have hnonempty : set.files.isEmpty = false := List.isEmpty_eq_false_iff.2 hfiles
  simp only [generateOffline, Except.mapError, bind, Except.bind, hdecode, pure, Except.pure,
    FileDescriptorSet.ofMessage_toMessage, hnonempty]
  rfl

/-- **A file set and a request for the same lead to the same files.**  A file set with files that is
no deeper than is allowed is generated from, under any options, exactly when the request for what
the options ask for has a response without an error; and this holds the same files. -/
theorem offline_agrees_with_exchange (set : FileDescriptorSet) (hfiles : set.files ≠ [])
    (hdepth : set.toMessage.depth ≤ 100) (hset : set.toMessage.encode.length < 2 ^ 64)
    (options : Options) (compilerVersion : Option Version)
    (hrequest : (options.request set.files compilerVersion).toMessage.encode.length < 2 ^ 64)
    (path : String) (exchange : Exchange) :
    Agrees (generateOffline options path (.ok set.toMessage.encode))
      (exchange.process (options.request set.files compilerVersion).toMessage.encode).1 := by
  have hgenerate := GeneratorRequest.generateFrom_encode
    (r := options.request set.files compilerVersion)
    (Nat.le_trans (GeneratorRequest.depth_toMessage_le hfiles) hdepth) hrequest
  have hdecode := Message.decode_encode set.toMessage hdepth hset
  have hparameter : (options.request set.files compilerVersion).parameter = options.param := rfl
  have hsame : (options.request set.files compilerVersion).files = set.files := rfl
  rw [generateOffline_of_decode hdecode hfiles path compilerVersion]
  change Agrees _ (respond _)
  rw [respond, hgenerate, GeneratorRequest.generate, hparameter, hsame]
  cases Config.parse options.param with
  | error cause => exact .error (e := .badParameter cause) (.head _)
  | ok config =>
    simp only [Except.mapError, bind, Except.bind]
    cases generateFiles set.files (options.request set.files compilerVersion).targets config with
    | error e => exact .error (.tail _ (.head _))
    | ok code => exact .ok code

/-- A file set of one file with a message. -/
def greeting : FileDescriptorSet where
  files := [{
    name := "greeting.proto"
    package := "greet"
    imports := []
    messages := [⟨"Hello", [⟨"name", 1, 1, 9, "", none, none, "name", false⟩], [], [], none, []⟩]
    enums := []
    dialect := "proto3" }]

/-- Options that ask for all files of a set, without an index. -/
def askForAll : Options where
  source := .descriptorSet "set.bin"
  files := []
  param := "emit_index=false"
  output := "out"
  verbosity := 0
  force := false
  dryRun := false

/-- A request of a compiler with a version is answered without an error, and as is generated from
the file set. -/
theorem offline_agrees_with_exchange_greeting :
    Agrees (generateOffline askForAll "set.bin" (.ok greeting.toMessage.encode))
      (Exchange.start.process
        (askForAll.request greeting.files (some ⟨3, 21, 12, "rc1"⟩)).toMessage.encode).1 ∧
    (Exchange.start.process
      (askForAll.request greeting.files (some ⟨3, 21, 12, "rc1"⟩)).toMessage.encode).1.error
        = none := by
  have hagrees := offline_agrees_with_exchange greeting (by decide) (by decide) (by decide)
    askForAll (some ⟨3, 21, 12, "rc1"⟩) (by decide) "set.bin" Exchange.start
  refine ⟨hagrees, hagrees.error_eq_none_iff.2 ?_⟩
  have horder : Schema.importOrder greeting.files = .ok greeting.files := by cbv
  obtain ⟨s, hs⟩ := Schema.exists_resolve_of_isOk horder (by decide +kernel)
  have hdecode := Message.decode_encode greeting.toMessage (by decide) (by decide)
  have hparse : Config.parse askForAll.param = .ok { Config.standard with emitIndex := false } := by
    decide +kernel
  rw [generateOffline_of_decode hdecode (by decide) "set.bin" none, hparse]
  change ∃ code, Except.mapError _ (generateFiles greeting.files ["greeting.proto"] _) = .ok code
  rw [generateFiles_eq hs (by decide), map_name_codeFiles hs (by decide)]
  exact ⟨_, rfl⟩

end CommandLine

end Protowire
