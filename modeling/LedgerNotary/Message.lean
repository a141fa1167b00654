import LedgerNotary.Index
import LedgerNotary.Transaction

/-! Requests to notarise, and the notary's answer.

A request claims that a transaction spends some states. What its sender signs is the tag for
requests, the version of the format in two bytes, and the encoded request. -/

namespace LedgerNotary

structure Request where
  states : List StateRef
  txId : Digest
deriving DecidableEq

structure RequestSignature where
  endorsement : Endorsement
  platformVersion : UInt32
deriving DecidableEq

/-- A request with its signature, not yet checked. -/
structure SignedRequest where
  request : Request
  signature : RequestSignature
deriving DecidableEq

/-- The notary's signatures over the identifier of an accepted transaction. -/
structure Response where
  signatures : List Endorsement
deriving DecidableEq

namespace Request

/-- The version of the format that signatures commit to. -/
def formatVersion : Nat := 0

instance : Wire Request :=
  Wire.record (fun r => (r.states, r.txId)) (fun (states, txId) => ⟨states, txId⟩)

instance : JsonForm Request where
  toJson r := .obj [("states", toJson r.states), ("tx_id", toJson r.txId)]
  fromJson := Json.record 2 fun r => Request.mk <$> r.field 0 "states" <*> r.field 1 "tx_id"

def framed (body : Bytes) : Bytes := Domain.request.tag ++ (Bytes.ofNatLE 2 formatVersion ++ body)

/-- The exact bytes that a signature on the request covers. -/
def signingBytes (r : Request) : Except ValueFault Bytes :=
  ((Wire.encode r).mapError .malformed).map framed

def sign (r : Request) (key : KeyPair) (platformVersion : UInt32) :
    Except ValueFault SignedRequest := do
  return ⟨r, key.sign (← r.signingBytes), platformVersion⟩

end Request

namespace RequestSignature

instance : Wire RequestSignature :=
  Wire.record (fun s => (s.endorsement, s.platformVersion))
    (fun (endorsement, platformVersion) => ⟨endorsement, platformVersion⟩)

instance : JsonForm RequestSignature where
  toJson s := .obj [("digital_signature", toJson s.endorsement),
    ("platform_version", toJson s.platformVersion)]
  fromJson := Json.record 2 fun r =>
    RequestSignature.mk <$> r.field 0 "digital_signature" <*> r.field 1 "platform_version"

end RequestSignature

namespace SignedRequest

instance : Wire SignedRequest :=
  Wire.record (fun s => (s.request, s.signature)) (fun (request, signature) => ⟨request, signature⟩)

instance : JsonForm SignedRequest where
  toJson s := .obj [("request", toJson s.request), ("signature", toJson s.signature)]
  fromJson := Json.record 2 fun r =>
    SignedRequest.mk <$> r.field 0 "request" <*> r.field 1 "signature"

inductive Defect
  | otherSigner (expected actual : Key)
  | unwritable (error : ValueFault)
  | signature (error : KeyFault)

def Defect.message : Defect → String
  | .otherSigner expected actual =>
    "expected a signature by " ++ expected.toText ++ ", but received one by " ++ actual.toText
  | .unwritable error => error.message
  | .signature error => error.message

/-- Checks that the sender signed exactly this request. -/
def verify (s : SignedRequest) (sender : Party) : Except Defect Unit := do
  let e := s.signature.endorsement
  if e.signer ≠ sender.key then throw (.otherSigner sender.key e.signer)
  let message ← s.request.signingBytes.mapError .unwritable
  (e.verify message).mapError .signature

end SignedRequest

namespace Response

instance : Wire Response := Wire.record Response.signatures Response.mk

instance : JsonForm Response where
  toJson r := .obj [("signatures", toJson r.signatures)]
  fromJson := Json.record 1 fun r => Response.mk <$> r.field 0 "signatures"

def signers (r : Response) : List Key := r.signatures.map (·.signer)

/-- Checks that the signers stand for the notary and that each signed the identifier. -/
def validate (r : Response) (txId : Digest) (notary : Party) : Except KeyFault Unit :=
  if notary.key.fulfilledBy r.signers then r.signatures.forM (·.verify txId.bytes)
  else .error .unfulfilled

end Response

/-! Why a request is rejected, as it is sent back to the requester. -/

inductive Refusal
  | conflict (txId : Digest) (contested : Conflict)
  | outsideWindow (now : Instant) (window : TimeWindow)
  | invalidTransaction (reason : String)
  | invalidRequestSignature (reason : String)
  | failure (reason : String)
deriving DecidableEq

namespace Refusal

def message : Refusal → String
  | .conflict txId contested =>
    "input state conflict in transaction " ++ Digest.toHex txId ++ ": " ++ contested.toText
  | .outsideWindow now window =>
    "current time " ++ now.toText ++ " is outside the time window " ++ window.toText
  | .invalidTransaction reason => "transaction invalid: " ++ reason
  | .invalidRequestSignature reason => "request signature invalid: " ++ reason
  | .failure reason => "notary failure: " ++ reason

def ofIndexFault (txId : Digest) : IndexFault → Refusal
  | .conflict contested => .conflict txId contested
  | fault => .failure fault.message

def ofRequestDefect : SignedRequest.Defect → Refusal
  | .unwritable error => .failure error.message
  | defect => .invalidRequestSignature defect.message

instance : Wire Refusal where
  pack
    | .conflict txId contested => 0 :: Wire.pack (txId, contested)
    | .outsideWindow now window => 1 :: Wire.pack (now, window)
    | .invalidTransaction reason => 2 :: Wire.pack reason
    | .invalidRequestSignature reason => 3 :: Wire.pack reason
    | .failure reason => 4 :: Wire.pack reason
  sized
    | .conflict txId contested => Wire.sized (txId, contested)
    | .outsideWindow now window => Wire.sized (now, window)
    | .invalidTransaction reason => Wire.sized reason
    | .invalidRequestSignature reason => Wire.sized reason
    | .failure reason => Wire.sized reason
  decode := Wire.decodeVariant fun tag s =>
    if tag = 0 then
      Wire.decodeAs (fun (txId, contested) => Refusal.conflict txId contested) s
    else if tag = 1 then
      Wire.decodeAs (fun (now, window) => Refusal.outsideWindow now window) s
    else if tag = 2 then Wire.decodeAs Refusal.invalidTransaction s
    else if tag = 3 then Wire.decodeAs Refusal.invalidRequestSignature s
    else if tag = 4 then Wire.decodeAs Refusal.failure s
    else .error (.badVariant tag)

instance : JsonForm Refusal where
  toJson
    | .conflict txId contested =>
      .obj [("Conflict", .obj [("tx_id", toJson txId), ("conflict", toJson contested)])]
    | .outsideWindow now window =>
      .obj [("TimeWindowInvalid",
        .obj [("current_time", toJson now), ("time_window", toJson window)])]
    | .invalidTransaction reason => .obj [("TransactionInvalid", toJson reason)]
    | .invalidRequestSignature reason => .obj [("RequestSignatureInvalid", toJson reason)]
    | .failure reason => .obj [("General", toJson reason)]
  fromJson := Json.variant fun name content =>
    if name = "Conflict" then
      Json.held (Json.members fun r =>
        Refusal.conflict <$> r.field 0 "tx_id" <*> r.field 1 "conflict") content
    else if name = "TimeWindowInvalid" then
      Json.held (Json.members fun r =>
        Refusal.outsideWindow <$> r.field 0 "current_time" <*> r.field 1 "time_window") content
    else if name = "TransactionInvalid" then
      (Json.held fromJson content).map Refusal.invalidTransaction
    else if name = "RequestSignatureInvalid" then
      (Json.held fromJson content).map Refusal.invalidRequestSignature
    else if name = "General" then (Json.held fromJson content).map Refusal.failure
    else .error .shape

end Refusal

/-! What a notary receives and what it answers. A validating notary is sent the whole transaction,
a non-validating one a tear-off of the inputs, the notary and the time window. -/

inductive Mode
  | validating
  | nonValidating
deriving DecidableEq, Repr

inductive Evidence
  | whole (tx : Transaction)
  | tornOff (tearOff : TearOff)
deriving DecidableEq

structure Submission where
  evidence : Evidence
  request : SignedRequest
deriving DecidableEq

inductive Reply
  | signed (response : Response)
  | rejected (error : Refusal)
deriving DecidableEq

structure Settings where
  mode : Mode
  platformVersion : UInt32
  tolerance : Option Duration
deriving DecidableEq

namespace Mode

def default : Mode := .validating

def toText : Mode → String
  | .validating => "validating"
  | .nonValidating => "non-validating"

def parse? (text : String) : Option Mode :=
  if text = "validating" then some .validating
  else if text = "non-validating" then some .nonValidating
  else none

def unknown (text : String) : String := "unknown notary mode `" ++ text ++ "`"

instance : Wire Mode where
  pack
    | .validating => [0]
    | .nonValidating => [1]
  decode := Wire.decodeVariant fun tag s =>
    if tag = 0 then .ok (.validating, s)
    else if tag = 1 then .ok (.nonValidating, s)
    else .error (.badVariant tag)

instance : JsonForm Mode where
  toJson
    | .validating => .str "Validating"
    | .nonValidating => .str "NonValidating"
  fromJson := Json.variant fun name content =>
    if name = "Validating" then Json.bare .validating content
    else if name = "NonValidating" then Json.bare .nonValidating content
    else .error .shape

end Mode

namespace Evidence

instance : Wire Evidence where
  pack
    | .whole tx => 0 :: Wire.pack tx
    | .tornOff f => 1 :: Wire.pack f
  sized
    | .whole tx => Wire.sized tx
    | .tornOff f => Wire.sized f
  decode := Wire.decodeVariant fun tag s =>
    if tag = 0 then Wire.decodeAs Evidence.whole s
    else if tag = 1 then Wire.decodeAs Evidence.tornOff s
    else .error (.badVariant tag)

end Evidence

namespace Submission

/-- The kinds that a non-validating notary has to see. -/
def revealedKinds : List GroupKind := [.inputs, .notary, .timeWindow]

instance : Wire Submission :=
  Wire.record (fun s => (s.evidence, s.request)) (fun (evidence, request) => ⟨evidence, request⟩)

/-- What a requester sends for a transaction to a notary of a mode. -/
def prepare (tx : Transaction) (mode : Mode) (key : KeyPair) (platformVersion : UInt32) :
    Except Refusal Submission :=
  match tx.visible.inputs with
  | .error e => .error (.invalidTransaction e.message)
  | .ok inputs =>
    match Request.sign ⟨inputs, tx.id⟩ key platformVersion with
    | .error e => .error (.failure e.message)
    | .ok request =>
      match mode with
      | .validating => .ok ⟨.whole tx, request⟩
      | .nonValidating => .ok ⟨.tornOff (tx.tearOff revealedKinds), request⟩

end Submission

namespace Reply

def toExcept : Reply → Except Refusal Response
  | .signed r => .ok r
  | .rejected e => .error e

instance : Wire Reply where
  pack
    | .signed r => 0 :: Wire.pack r
    | .rejected e => 1 :: Wire.pack e
  sized
    | .signed r => Wire.sized r
    | .rejected e => Wire.sized e
  decode := Wire.decodeVariant fun tag s =>
    if tag = 0 then Wire.decodeAs Reply.signed s
    else if tag = 1 then Wire.decodeAs Reply.rejected s
    else .error (.badVariant tag)

instance : JsonForm Reply where
  toJson
    | .signed r => .obj [("Signed", toJson r)]
    | .rejected e => .obj [("Error", toJson e)]
  fromJson := Json.variant fun name content =>
    if name = "Signed" then (Json.held fromJson content).map Reply.signed
    else if name = "Error" then (Json.held fromJson content).map Reply.rejected
    else .error .shape

end Reply

namespace Settings

instance : JsonForm Settings where
  toJson s := .obj [("mode", toJson s.mode), ("platform_version", toJson s.platformVersion),
    ("time_tolerance", toJson s.tolerance)]
  fromJson := Json.record 3 fun r =>
    Settings.mk <$> r.field 0 "mode" <*> r.field 1 "platform_version" <*>
      r.optional 2 "time_tolerance"

end Settings

end LedgerNotary
