import LedgerNotary.Command.Arguments
import LedgerNotary.Json.Text
import LedgerNotary.Notary

/-! The versions of the protocol, and the settings that go with them. -/

namespace LedgerNotary

namespace Protocol

def version : Nat := 0

/-- The platform version that a node names in its profile and its signatures. -/
def platform : UInt32 := 1

end Protocol

def Settings.default : Settings := ⟨Mode.default, Protocol.platform, none⟩

end LedgerNotary

/-! What the program does for an invocation.

All that it needs from outside (environment, files, stored indexes, random bytes and the time) is
in a record of operations, so that the same steps run on a real system and on a model of one. -/

namespace LedgerNotary.Command

/-- The operations of the system that the program runs on; one that fails tells the cause. -/
structure Host (m : Type → Type) where
  environment : String → m (Option String)
  fetch : String → m (Except String Bytes)
  store : String → Bytes → m (Except String Unit)
  openIndex : String → m (Except String DurableIndex)
  saveIndex : String → DurableIndex → m Unit
  random : (n : Nat) → m (Octets n)
  now : m Instant

structure Failure where
  text : String
  cause : Option String

def Failure.message (f : Failure) : String :=
  "Error: " ++ f.text ++
    match f.cause with
    | some cause => "\n\nCaused by:\n    " ++ cause
    | none => ""

structure Outcome where
  exitCode : UInt8
  output : String
  complaint : String

/-- What an action prints, and the failure it ends in, if any. -/
structure Report where
  output : String
  failure : Option Failure

def usage : String :=
  "Usage: notarium-node [--db <DB>] [--log <LOG>] [--mode <MODE>] <COMMAND>\n\n" ++
  "Commands: inspect-node-info, new-node-info, consumed, notarise-demo\n"

def version : String := "notarium-node 0.1.0\n"

def defaultDb : String := "notarium.uniqueness.db"

def keyPairOf {n : Nat} (a : Octets n) : KeyPair :=
  ⟨a.toNatBE % (Curve.order - 1) + 1, by omega, by
    have := Nat.mod_lt a.toNatBE (show 0 < Curve.order - 1 by decide)
    have : 1 < Curve.order := by decide
    omega⟩

def saltOf (a : Octets 32) : Salt := if a.isZero then ⟨Octets.ofNatBE 32 1⟩ else ⟨a⟩

def printed (v : Json) : Report := ⟨v.pretty ++ "\n", none⟩

section

variable {m : Type → Type} [Monad m]

def keyPair (host : Host m) : m KeyPair := return keyPairOf (← host.random 48)

def refused (e : ValueFault) : Failure := ⟨e.message, none⟩

def profileFailure : ProfileFault → Failure
  | .malformed e => ⟨(ProfileFault.malformed e).message, some e.message⟩
  | e => ⟨e.message, none⟩

def readProfile (s : Bytes) : Except Failure Profile := do
  let signed : SignedProfile ← (Wire.read s).mapError fun f => refused (.malformed f)
  signed.verified.mapError profileFailure

def inspectProfile (host : Host m) (file : String) : ExceptT Failure m Report := do
  match ← host.fetch file with
  | .error cause => throw ⟨"reading " ++ file, some cause⟩
  | .ok s => return printed (toJson (← ExceptT.mk (pure (readProfile s))))

def serialAt (t : Instant) : UInt64 := UInt64.ofNat t.millis.toInt.toNat

def createProfile (host : Host m) (name : String) (addresses : List String) (out : String) :
    ExceptT Failure m Report := do
  let key ← keyPair (m := m) host
  let profile : Profile :=
    ⟨addresses, [⟨name, key.publicKey⟩], Protocol.platform, serialAt (← host.now)⟩
  let signed ← ExceptT.mk (pure ((profile.signWith [key]).mapError refused))
  let document ← ExceptT.mk (pure ((Wire.encode signed).mapError fun f => refused (.malformed f)))
  match ← host.store out document with
  | .error cause => throw ⟨"writing " ++ out, some cause⟩
  | .ok _ => return ⟨"", none⟩

def entryForm (state : StateRef) (record : Option Consumption) : Json :=
  .ofMembers [("state", .str state.toText), ("consumed_by", toJson record)]

def indexResult {α : Type} (r : Except IndexFault α) : ExceptT Failure m α :=
  ExceptT.mk (pure (r.mapError fun e => ⟨e.message, none⟩))

/-- The index at a path, new if there is none. -/
def openIndex (host : Host m) (db : String) : ExceptT Failure m DurableIndex := do
  match ← host.openIndex db with
  | .error cause => throw ⟨(IndexFault.storage ("IO error: " ++ cause)).message, none⟩
  | .ok index => return index

def consumed (host : Host m) (db : String) (state : Option StateRef) :
    ExceptT Failure m Report := do
  let index ← openIndex host db
  match state with
  | some state => return printed (entryForm state (← indexResult (index.lookup state)))
  | none =>
    let entries ← indexResult index.entries
    return printed (.arr (entries.map fun (state, record) => entryForm state (some record)))

/-- A transaction over fresh inputs of one fabricated issuer. -/
def demoDraft (issuer : Digest) (inputs : UInt32) (notary : Party) (window : TimeWindow) :
    Draft where
  inputs := (List.range inputs.toNat).map fun i => ⟨issuer, UInt32.ofNat i⟩
  outputs := [⟨"demo", Bytes.ofString "hello"⟩]
  notary := some notary
  timeWindow := some window

/-- The failure of a duration that has no opposite, which half a minute does have. -/
def overflow : Failure := ⟨"overflow when negating duration", none⟩

def demo (host : Host m) (db : String) (mode : Mode) (inputs : UInt32) :
    ExceptT Failure m Report := do
  let fail (text : String) : Failure := ⟨text, none⟩
  let notaryKey ← keyPair (m := m) host
  let identity : Party := ⟨"O=Demo Notary,L=London,C=GB", notaryKey.publicKey⟩
  let requesterKey ← keyPair (m := m) host
  let requester : Party := ⟨"O=Demo Requester,L=Paris,C=FR", requesterKey.publicKey⟩
  let index ← openIndex host db
  let settings : Settings := ⟨mode, Protocol.platform, none⟩
  let notary ← ExceptT.mk (pure ((Notary.ofKeys identity [notaryKey] settings).mapError
    fun e => fail e.message))
  let issuer ← host.random 32
  let some made := TimeWindow.around (← host.now) (.ofSeconds 30) | throw overflow
  let window ← ExceptT.mk (pure (made.mapError fun e => fail e.message))
  let salt := saltOf (← host.random 32)
  let tx ← ExceptT.mk (pure (((demoDraft issuer inputs identity window).build salt).mapError
    fun e => fail e.message))
  let prepared := Submission.prepare tx mode requesterKey Protocol.platform
  let submission ← ExceptT.mk (pure (prepared.mapError fun e => fail e.message))
  let (reply, index) := notary.process (← host.now) (.durable index) submission requester
  if let .durable index := index then host.saveIndex db index
  let some reply := reply | throw overflow
  let report := printed (.ofMembers [("tx_id", .str (Digest.toHex tx.id)), ("reply", toJson reply)])
  match reply with
  | .signed _ => return report
  | .rejected e => return { report with failure := some (fail e.message) }

/-- The mode that the arguments name, else the environment, else the default. -/
def resolveMode (host : Host m) (given : Option Mode) : ExceptT Failure m Mode := do
  match given with
  | some mode => return mode
  | none =>
    match ← host.environment "NOTARIUM_MODE" with
    | none => return .default
    | some text =>
      match Mode.parse? text with
      | some mode => return mode
      | none => throw ⟨Mode.unknown text, none⟩

def resolveDb (host : Host m) (given : Option String) : m String := do
  match given with
  | some db => return db
  | none => return (← host.environment "NOTARIUM_DB").getD defaultDb

def perform (host : Host m) (call : Invocation) : ExceptT Failure m Report := do
  let db ← resolveDb (m := m) host call.db
  let mode ← resolveMode host call.mode
  match call.action with
  | .inspectProfile file => inspectProfile host file
  | .createProfile name addresses out => createProfile host name addresses out
  | .consumed state => consumed host db state
  | .demo inputs => demo host db mode inputs

/-- Runs the program on its arguments: 0 is success, 1 a failure, 2 a misuse. -/
def run (host : Host m) (args : List String) : m Outcome := do
  match Invocation.parse args with
  | .error .usage => return ⟨2, "", usage⟩
  | .error .help => return ⟨0, usage, ""⟩
  | .error .version => return ⟨0, version, ""⟩
  | .ok call =>
    match ← (perform host call).run with
    | .error f => return ⟨1, "", f.message ++ "\n"⟩
    | .ok ⟨output, none⟩ => return ⟨0, output, ""⟩
    | .ok ⟨output, some f⟩ => return ⟨1, output, f.message ++ "\n"⟩

end

end LedgerNotary.Command
