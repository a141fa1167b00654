import LedgerNotary.Curve
import LedgerNotary.Key
import LedgerNotary.Value

/-! The binary and the JSON form of keys. Both admit sound threshold keys only; the binary form
wants the children in ascending order, the JSON form puts them there. -/

namespace LedgerNotary

instance : Wire PointCode := Wire.record PointCode.octets PointCode.mk

instance : JsonForm PointCode where
  toJson a := .str a.toHex
  fromJson
    | .str text =>
      match Hex.decode text with
      | .error _ => .error .shape
      | .ok s =>
        match Octets.ofBytes? 33 s with
        | some a => .ok ⟨a⟩
        | none => .error .keyLength
    | _ => .error .shape

namespace Key

open Wire (Fault decodeVariant decodeAs takeNat)

mutual
def pack : Key → Bytes
  | .single a => 0 :: Wire.pack a
  | .composite t cs =>
    1 :: (Wire.pack t ++ (Bytes.ofNatLE 4 cs.length ++ packChildren cs))

def packChildren : List (Key × UInt32) → Bytes
  | [] => []
  | (k, w) :: cs => pack k ++ (Wire.pack w ++ packChildren cs)
end

mutual
def sized : Key → Bool
  | .single _ => true
  | .composite _ cs => cs.length < UInt32.size && sizedChildren cs

def sizedChildren : List (Key × UInt32) → Bool
  | [] => true
  | (k, _) :: cs => sized k && sizedChildren cs
end

/-- A threshold key without the tag in front of it. -/
def packBody (threshold : UInt32) (children : List Child) : Bytes :=
  Wire.pack threshold ++ (Bytes.ofNatLE 4 children.length ++ packChildren children)

def decodeNode (body : Bytes → Except Fault (Key × Bytes)) : Bytes → Except Fault (Key × Bytes) :=
  decodeVariant fun tag s =>
    if tag = 0 then decodeAs Key.single s
    else if tag = 1 then body s
    else .error (.badKeyTag tag)

/-- Whether a child has to stand behind those read before it. -/
def follows (done : List Child) (c : Child) : Bool :=
  match done with
  | [] => true
  | d :: _ => Child.order d c == .lt

def decodeChildren (node : Bytes → Except Fault (Key × Bytes)) :
    Nat → List Child → Bytes → Except Fault (List Child × Bytes)
  | 0, done, s => .ok (done.reverse, s)
  | n + 1, done, s => do
    let (k, s) ← node s
    let (w, s) ← Wire.decode s
    if follows done (k, w) then decodeChildren node n ((k, w) :: done) s
    else throw .unsortedKey

def decodeBody : Nat → Bytes → Except Fault (Key × Bytes)
  | 0, _ => .error .deepKey
  | levels + 1, s => do
    let (t, s) ← Wire.decode s
    let (n, s) ← takeNat 4 s
    let (cs, s) ← decodeChildren (decodeNode (decodeBody levels)) n [] s
    match checkLevel t cs with
    | .ok _ => return (.composite t cs, s)
    | .error defect => throw (.badKey defect)

instance : Wire Key where
  pack := pack
  sized := sized
  decode := decodeNode (decodeBody maxDepth)

mutual
def formOf : Key → Json
  | .single a => .obj [("Secp256k1", toJson a)]
  | .composite t cs =>
    .obj [("Composite", .obj [("threshold", toJson t), ("children", .arr (formsOfChildren cs))])]

def formsOfChildren : List (Key × UInt32) → List Json
  | [] => []
  | (k, w) :: cs => .obj [("node", formOf k), ("weight", toJson w)] :: formsOfChildren cs
end

/-- A threshold key without the name of its alternative. -/
def formOfBody (threshold : UInt32) (children : List Child) : Json :=
  .obj [("threshold", toJson threshold), ("children", .arr (formsOfChildren children))]

def childOfForm (node : Json → Except Json.Fault Key) : Json → Except Json.Fault Child :=
  Json.record 2 fun r => Prod.mk <$> r.fieldBy node 0 "node" <*> r.field 1 "weight"

def bodyOfForm (node : Json → Except Json.Fault Key) (v : Json) : Except Json.Fault Key := do
  let (t, cs) ← Json.record 2 (fun r =>
    Prod.mk <$> r.field 0 "threshold"
      <*> r.fieldBy (Json.itemsBy (childOfForm node)) 1 "children") v
  match ofChildren t cs with
  | .ok k => return k
  | .error defect => throw (.badKey defect)

def ofForm : Nat → Json → Except Json.Fault Key
  | 0, _ => .error .shape
  | depth + 1, v =>
    Json.variant (fun name content =>
      if name = "Secp256k1" then (Json.held fromJson content).map Key.single
      else if name = "Composite" then Json.held (bodyOfForm (ofForm depth)) content
      else .error .shape) v

instance : JsonForm Key where
  toJson := formOf
  fromJson v := ofForm v.depth v

end Key

/-! A named identity with the key that signs for it. -/

structure Party where
  name : String
  key : Key
deriving DecidableEq

namespace Party

instance : Wire Party := Wire.record (fun p => (p.name, p.key)) (fun (name, key) => ⟨name, key⟩)

instance : JsonForm Party where
  toJson p := .obj [("name", toJson p.name), ("owning_key", toJson p.key)]
  fromJson := Json.record 2 fun r => Party.mk <$> r.field 0 "name" <*> r.field 1 "owning_key"

end Party

/-! Key pairs, signatures and their verification. Only single keys verify a signature. -/

inductive KeyFault
  | notAPoint
  | secretOutOfRange
  | compositeSigner
  | badSignature
  | badKey (defect : KeyDefect)
  | unfulfilled
deriving DecidableEq, Repr

def KeyFault.message : KeyFault → String
  | .notAPoint => "invalid key: not a secp256k1 point"
  | .secretOutOfRange => "invalid key: secret scalar out of range"
  | .compositeSigner => "invalid key: composite keys cannot verify a single signature"
  | .badSignature => "signature verification failed"
  | .badKey defect => "invalid composite key: " ++ defect.message
  | .unfulfilled => "insufficient signatures to fulfil the signing requirement"

/-- The bytes handed in as a signature, well formed or not. -/
structure Signature where
  bytes : Bytes
deriving DecidableEq

/-- A signature with the key that is said to have made it. -/
structure Endorsement where
  signer : Key
  signature : Signature
deriving DecidableEq

/-- A secret number, which fixes the key that belongs to it. -/
structure KeyPair where
  secret : Nat
  pos : 0 < secret
  lt_order : secret < Curve.order

namespace PointCode

/-- The key of a point in any of its byte forms. -/
def ofPointBytes (s : Bytes) : Except KeyFault PointCode :=
  match Curve.Point.parse? s with
  | some q => .ok ⟨q.compressed⟩
  | none => .error .notAPoint

def verify (a : PointCode) (message : Bytes) (signature : Signature) : Except KeyFault Unit :=
  match Curve.Point.parse? a.octets.bytes with
  | none => .error .notAPoint
  | some q =>
    if Curve.verify q message signature.bytes then .ok () else .error .badSignature

end PointCode

def Key.verify (message : Bytes) (signature : Signature) : Key → Except KeyFault Unit
  | .single a => a.verify message signature
  | .composite .. => .error .compositeSigner

def Endorsement.verify (e : Endorsement) (message : Bytes) : Except KeyFault Unit :=
  e.signer.verify message e.signature

namespace KeyPair

def ofSecret (a : Octets 32) : Except KeyFault KeyPair :=
  let secret := a.toNatBE
  if h : 0 < secret ∧ secret < Curve.order then .ok ⟨secret, h.1, h.2⟩
  else .error .secretOutOfRange

def code (k : KeyPair) : PointCode := ⟨(Curve.baseTimes k.secret).compressed⟩

def publicKey (k : KeyPair) : Key := .single k.code

def signRaw (k : KeyPair) (message : Bytes) : Signature := ⟨(Curve.sign k.secret message).bytes⟩

def sign (k : KeyPair) (message : Bytes) : Endorsement := ⟨k.publicKey, k.signRaw message⟩

end KeyPair

instance : Wire Signature := Wire.record Signature.bytes Signature.mk

instance : JsonForm Signature where
  toJson s := toJson s.bytes
  fromJson v := (fromJson v).map Signature.mk

instance : Wire Endorsement :=
  Wire.record (fun e => (e.signer, e.signature)) (fun (k, s) => ⟨k, s⟩)

instance : JsonForm Endorsement where
  toJson e := .obj [("by", toJson e.signer), ("bytes", toJson e.signature)]
  fromJson := Json.record 2 fun r => Endorsement.mk <$> r.field 0 "by" <*> r.field 1 "bytes"

/-! The profile that a node publishes of itself, and its signed form: the encoded profile with one
signature for each identity that is no threshold key, in the order of the identities. -/

structure Profile where
  addresses : List String
  identities : List Party
  platformVersion : UInt32
  serial : UInt64
deriving DecidableEq

structure SignedProfile where
  raw : Bytes
  signatures : List Signature
deriving DecidableEq

inductive ProfileFault
  | malformed (error : ValueFault)
  | extraSignatures (found expected : Nat)
  | missingSignatures (found expected : Nat)
  | badSignature (name : String)
deriving DecidableEq, Repr

def ProfileFault.message : ProfileFault → String
  | .malformed error => "malformed node info: " ++ error.message
  | .extraSignatures found expected => s!"Extra signatures. Found {found} expected {expected}"
  | .missingSignatures found expected => s!"Missing signatures. Found {found} expected {expected}"
  | .badSignature name => name ++ ": signature verification failed"

namespace Profile

/-- The identities that each owe a signature. -/
def signers (p : Profile) : List Party := p.identities.filter (!·.key.isComposite)

instance : Wire Profile :=
  Wire.record (fun p => (p.addresses, p.identities, p.platformVersion, p.serial))
    (fun (addresses, identities, platformVersion, serial) =>
      ⟨addresses, identities, platformVersion, serial⟩)

instance : JsonForm Profile where
  toJson p := .obj [("addresses", toJson p.addresses), ("legal_identities", toJson p.identities),
    ("platform_version", toJson p.platformVersion), ("serial", toJson p.serial)]
  fromJson := Json.record 4 fun r =>
    Profile.mk <$> r.field 0 "addresses" <*> r.field 1 "legal_identities" <*>
      r.field 2 "platform_version" <*> r.field 3 "serial"

/-- Signs with one key after the other; whether they are the right ones is not asked. -/
def signWith (p : Profile) (keys : List KeyPair) : Except ValueFault SignedProfile := do
  let raw ← (Wire.encode p).mapError .malformed
  return ⟨raw, keys.map (·.signRaw raw)⟩

end Profile

namespace SignedProfile

instance : Wire SignedProfile :=
  Wire.record (fun p => (p.raw, p.signatures)) (fun (raw, signatures) => ⟨raw, signatures⟩)

instance : JsonForm SignedProfile where
  toJson p := .obj [("raw", toJson p.raw), ("signatures", toJson p.signatures)]
  fromJson := Json.record 2 fun r =>
    SignedProfile.mk <$> r.field 0 "raw" <*> r.field 1 "signatures"

def checkInTurn (raw : Bytes) : List (Party × Signature) → Except ProfileFault Unit
  | [] => .ok ()
  | (party, signature) :: rest =>
    match party.key.verify raw signature with
    | .ok _ => checkInTurn raw rest
    | .error _ => .error (.badSignature party.name)

/-- The profile, if every identity that owes a signature has made the one at its place. -/
def verified (p : SignedProfile) : Except ProfileFault Profile :=
  match (Wire.read p.raw : Except Wire.Fault Profile) with
  | .error fault => .error (.malformed (.malformed fault))
  | .ok profile =>
    let found := p.signatures.length
    let expected := profile.signers.length
    if expected < found then .error (.extraSignatures found expected)
    else if found < expected then .error (.missingSignatures found expected)
    else do
      checkInTurn p.raw (profile.signers.zip p.signatures)
      return profile

end SignedProfile

end LedgerNotary
