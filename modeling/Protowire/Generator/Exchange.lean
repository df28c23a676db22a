import Protowire.Descriptor.Wire
import Protowire.Files.Disk
import Protowire.Generator.Generate

/-!
# Generator/Exchange — a request in, a response out

A compiler writes one request and reads one response.  **Every request has a response**: what is
wrong with the request is said in the response, which then has no files.  An exchange remembers only
how far it has come, and may be begun again.
-/

namespace Protowire

/-- The bit by which a generator says that it knows fields whose presence is tracked. -/
def trackedPresenceFeature : UInt64 := 1

namespace GeneratorResponse

/-- The response with these files. -/
def ofFiles (files : List CodeFile) : GeneratorResponse :=
  { error := none, supportedFeatures := trackedPresenceFeature
    files := files.map fun file => ⟨file.name, "", file.content⟩ }

/-- The response that says what is wrong. -/
def ofError (e : GeneratorError) : GeneratorResponse :=
  { error := some e.message, supportedFeatures := trackedPresenceFeature, files := [] }

end GeneratorResponse

/-- The request that bytes hold. -/
def GeneratorRequest.decode (request : Bytes) : Except GeneratorError GeneratorRequest :=
  ((Message.decode .generatorRequest request).map GeneratorRequest.ofMessage).mapError .undecodable

/-- The files that the request held by bytes asks for. -/
def generateFrom (request : Bytes) : Except GeneratorError (List CodeFile) := do
  (← GeneratorRequest.decode request).generate

/-- The response to bytes. -/
def respond (request : Bytes) : GeneratorResponse :=
  match generateFrom request with
  | .ok files => .ofFiles files
  | .error e => .ofError e

/-- How far an exchange has come. -/
inductive Stage where
  | awaitRequest
  | processing
  | emitResponse
  deriving DecidableEq, Repr

/-- An exchange between a compiler and a generator. -/
structure Exchange where
  stage : Stage
  deriving DecidableEq, Repr

/-- Why an exchange broke off. -/
inductive ExchangeError where
  /-- The request cannot be read. -/
  | unread (cause : DiskFault)
  /-- There is no room for the whole response. -/
  | noRoom
  deriving DecidableEq, Repr

/-- The text shown to the user. -/
def ExchangeError.message : ExchangeError → String
  | unread cause => s!"plugin I/O failed: {cause.message}"
  | noRoom => "plugin I/O failed: failed to write whole buffer"

namespace Exchange

/-- An exchange that has not begun. -/
def start : Exchange := ⟨.awaitRequest⟩

/-- The exchange at another stage. -/
def enter (_ : Exchange) (stage : Stage) : Exchange := ⟨stage⟩

/-- Takes a request and gives the response to it. -/
def process (e : Exchange) (request : Bytes) : GeneratorResponse × Exchange :=
  let e := e.enter .processing
  let response := respond request
  (response, e.enter .emitResponse)

/-- Takes a request and writes the response to it, where there may be room for only so many
bytes. -/
def run (e : Exchange) (request : Bytes) (room : Option Nat) :
    Except ExchangeError Bytes × Exchange :=
  let (response, e) := e.process request
  let written := response.toMessage.encode
  (if room.any (· < written.length) then .error .noRoom else .ok written, e)

end Exchange

end Protowire
