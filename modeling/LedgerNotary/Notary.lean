import LedgerNotary.Message

/-! The notary.

A submission passes five steps in a fixed order: the transaction is read and must match the
request, the clock must lie in its time window, the requester must have signed the request, the
inputs are committed to the index, and the identifier is signed with every key. The first step
that fails decides the reply; nothing before the commit touches the index.

The clock is read once for a submission. A refusal names the same instant that the window was
checked against. -/

namespace LedgerNotary

/-- What the notary acts on in a transaction. -/
structure Summary where
  id : Digest
  inputs : List StateRef
  notary : Option Party
  timeWindow : Option TimeWindow
deriving DecidableEq

/-- Keys that together stand for the notary's identity. -/
structure Notary where
  identity : Party
  keys : List KeyPair
  settings : Settings
  fulfilled : identity.key.fulfilledBy (keys.map (·.publicKey)) = true

namespace Notary

def ofKeys (identity : Party) (keys : List KeyPair) (settings : Settings) :
    Except Refusal Notary :=
  if h : identity.key.fulfilledBy (keys.map (·.publicKey)) = true then
    .ok ⟨identity, keys, settings, h⟩
  else .error (.failure ("signing keys do not fulfil the identity of " ++ identity.name))

def invalid {α : Type} : Except TransactionFault α → Except Refusal α
  | .ok a => .ok a
  | .error e => .error (.invalidTransaction e.message)

/-- What is read of a transaction, in this order, under an identifier. -/
def summarise (id : Digest) (inputs : Except TransactionFault (List StateRef))
    (notary : Except TransactionFault (Option Party))
    (timeWindow : Except TransactionFault (Option TimeWindow)) : Except Refusal Summary := do
  let inputs ← invalid inputs
  let notary ← invalid notary
  let timeWindow ← invalid timeWindow
  return ⟨id, inputs, notary, timeWindow⟩

def summariseWhole (tx : Transaction) : Except Refusal Summary := do
  let _ ← invalid tx.visible.outputs
  let _ ← invalid tx.visible.commands
  let _ ← invalid tx.visible.attachments
  summarise tx.id tx.visible.inputs tx.notary tx.timeWindow

def summariseTearOff (f : TearOff) : Except Refusal Summary := do
  invalid (f.verify.mapError .tearOff)
  Submission.revealedKinds.forM fun kind => do
    let _ ← invalid (f.visible kind)
  summarise f.id f.visible.inputs f.visible.notary f.visible.timeWindow

/-- Reads the evidence, which must be of the kind that the mode asks for. -/
def extract (mode : Mode) (evidence : Evidence) : Except Refusal Summary :=
  match mode, evidence with
  | .validating, .whole tx => summariseWhole tx
  | .nonValidating, .tornOff f => summariseTearOff f
  | mode, _ =>
    .error (.invalidTransaction ("payload kind not accepted by a " ++ mode.toText ++ " notary"))

def checkMatches (n : Notary) (s : Summary) (request : Request) : Except Refusal Unit :=
  match s.notary with
  | none => .error (.invalidTransaction "transaction does not name a notary")
  | some other =>
    if other ≠ n.identity then
      .error (.invalidTransaction
        ("transaction names notary " ++ other.name ++ ", not " ++ n.identity.name))
    else if request.txId ≠ s.id then
      .error (.invalidTransaction "request tx id does not match the transaction")
    else if request.states ≠ s.inputs then
      .error (.invalidTransaction "request inputs do not match the transaction")
    else .ok ()

end Notary

/-- Why a submission comes to nothing: it is refused, or the notary is stopped by a tolerance that
has no opposite, and then there is no reply. -/
inductive Halt
  | refused (error : Refusal)
  | stopped
deriving DecidableEq

def Halt.reply : Halt → Option Reply
  | .refused e => some (.rejected e)
  | .stopped => none

namespace TimeWindow

/-- An absent window is open at any time. -/
def checkStrictly (now : Instant) : Option TimeWindow → Except Refusal Unit
  | none => .ok ()
  | some w => if w.contains now then .ok () else .error (.outsideWindow now w)

def checkWithin (tolerance : Duration) (now : Instant) : Option TimeWindow → Except Halt Unit
  | none => .ok ()
  | some w =>
    match w.containsWithin tolerance now with
    | none => .error .stopped
    | some inside => if inside then .ok () else .error (.refused (.outsideWindow now w))

/-- The tolerance that is meant where none is given. -/
def defaultTolerance : Duration := .ofSeconds 30

end TimeWindow

namespace Notary

def checkWindow (n : Notary) (now : Instant) (window : Option TimeWindow) : Except Halt Unit :=
  match n.settings.tolerance with
  | none => (TimeWindow.checkStrictly now window).mapError .refused
  | some tolerance => TimeWindow.checkWithin tolerance now window

/-- The steps up to the requester's signature. -/
def accept (n : Notary) (now : Instant) (s : Submission) (requester : Party) :
    Except Halt Summary := do
  let summary ← (extract n.settings.mode s.evidence).mapError .refused
  (n.checkMatches summary s.request.request).mapError .refused
  n.checkWindow now summary.timeWindow
  (s.request.verify requester).mapError fun d => .refused (.ofRequestDefect d)
  return summary

def sign (n : Notary) (txId : Digest) : Response := ⟨n.keys.map (·.sign txId.bytes)⟩

/-- The reply to a submission, if there is one, and the index after it. -/
def process (n : Notary) (now : Instant) (index : Index) (s : Submission) (requester : Party) :
    Option Reply × Index :=
  match n.accept now s requester with
  | .error halt => (halt.reply, index)
  | .ok summary =>
    match index.commit summary.inputs summary.id requester with
    | (.error e, index) => (some (.rejected (.ofIndexFault summary.id e)), index)
    | (.ok _, index) => (some (.signed (n.sign summary.id)), index)

end Notary

end LedgerNotary
