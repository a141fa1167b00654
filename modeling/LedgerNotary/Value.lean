import LedgerNotary.Hash
import LedgerNotary.Json.Form
import LedgerNotary.Wire

/-! Why a text, a byte string or a pair of bounds is not a value of the ledger. -/

namespace LedgerNotary

inductive ValueFault
  | hexLength (got : Nat)
  | hex (fault : Hex.Fault)
  | zeroSalt
  | stateRefForm
  | stateRefIndex
  | windowOrder
  | windowUnbounded
  | malformed (fault : Wire.Fault)
deriving DecidableEq, Repr

def ValueFault.message : ValueFault → String
  | .hexLength got => s!"invalid hex length: expected 32 bytes, got {got} bytes"
  | .hex fault => "invalid hex: " ++ fault.message
  | .zeroSalt => "invalid value: privacy salt must not be all zeros"
  | .stateRefForm => "invalid value: state ref must be <txhash>:<index>"
  | .stateRefIndex => "invalid value: state ref index is not a u32"
  | .windowOrder => "invalid value: time window from_time must precede until_time"
  | .windowUnbounded => "invalid value: time window has no bounds"
  | .malformed fault => "serialization failed: " ++ fault.message

/-! Digests of 32 bytes, how they are computed under a tag and how they are written. -/

/-- A hash value; also the identifier of a transaction. -/
abbrev Digest := Octets 32

/-- What is hashed is told apart by the tag in front of it. -/
inductive Domain
  | componentNonce
  | groupNonce
  | componentLeaf
  | emptyGroup
  | merkleNode
  | request
deriving DecidableEq, Repr

namespace Domain

def all : List Domain :=
  [.componentNonce, .groupNonce, .componentLeaf, .emptyGroup, .merkleNode, .request]

def label : Domain → String
  | .componentNonce => "NOTARIUM::COMPONENT_NONCE::V0"
  | .groupNonce => "NOTARIUM::GROUP_NONCE::V0"
  | .componentLeaf => "NOTARIUM::COMPONENT_LEAF::V0"
  | .emptyGroup => "NOTARIUM::EMPTY_GROUP::V0"
  | .merkleNode => "NOTARIUM::MERKLE_NODE::V0"
  | .request => "NOTARIUM::NOTARISATION_REQUEST::V0"

def tag (d : Domain) : Bytes := Bytes.ofString d.label

end Domain

namespace Digest

def tagged (tag body : Bytes) : Digest := Blake3.hash (tag ++ body)

def of (d : Domain) (parts : List Bytes) : Digest := tagged d.tag parts.flatten

def toHex {n : Nat} (a : Octets n) : String := Hex.encode a.bytes

/-- A text without one leading `0x`. -/
def unmarked : List Char → List Char
  | '0' :: 'x' :: s => s
  | s => s

/-- Reads 32 bytes in hexadecimal. -/
def parseChars (s : List Char) : Except ValueFault (Octets 32) :=
  match Hex.decodeBytes ((unmarked s).flatMap String.utf8EncodeChar) with
  | .error fault => .error (.hex fault)
  | .ok body =>
    match Octets.ofBytes? 32 body with
    | some a => .ok a
    | none => .error (.hexLength body.length)

def parse (text : String) : Except ValueFault Digest := parseChars text.toList

end Digest

/-! The secret of a transaction that its nonces are derived from. Only a salt that is not all
zeros can be made, read or decoded. -/

structure Salt where
  octets : Octets 32
deriving DecidableEq

namespace Salt

def bytes (salt : Salt) : Bytes := salt.octets.bytes

def ofOctets (a : Octets 32) : Except ValueFault Salt :=
  if a.isZero then .error .zeroSalt else .ok ⟨a⟩

def parse (text : String) : Except ValueFault Salt := do
  ofOctets (← Digest.parse text)

instance : Wire Salt where
  pack salt := Wire.pack salt.octets
  decode s := do
    let (a, s) ← (Wire.decode s : Except Wire.Fault (Octets 32 × Bytes))
    if a.isZero then throw .zeroSalt else return (⟨a⟩, s)

instance : JsonForm Salt where
  toJson salt := toJson salt.octets
  fromJson v := do
    let a ← (fromJson v : Except Json.Fault (Octets 32))
    if a.isZero then throw .zeroSalt else return ⟨a⟩

end Salt

/-! The address of an output: the transaction that made it and its place there, written with a
colon between them. -/

structure StateRef where
  tx : Digest
  index : UInt32
deriving DecidableEq

namespace StateRef

/-- Ordered by transaction, then by place. -/
instance : Ord StateRef := ⟨compareLex (compareOn tx) (compareOn index)⟩

instance : Std.TransOrd StateRef :=
  inferInstanceAs (Std.TransCmp (compareLex (compareOn tx) (compareOn index)))

instance : Std.LawfulEqOrd StateRef where
  eq_of_compare {a b} h := by
    obtain ⟨h₁, h₂⟩ := compareLex_eq_eq.1 h
    cases a; cases b
    simp_all [compareOn]

def toText (a : StateRef) : String := Digest.toHex a.tx ++ s!":{a.index}"

def splitAtLastColon (s : List Char) : Option (List Char × List Char) :=
  let behind := s.reverse.takeWhile (· != ':')
  if behind.length < s.length then
    some (s.take (s.length - behind.length - 1), behind.reverse)
  else none

/-- Reads an address; a missing colon is reported before a bad index, that before a bad hash. -/
def parse (text : String) : Except ValueFault StateRef :=
  match splitAtLastColon text.toList with
  | none => .error .stateRefForm
  | some (hash, index) =>
    match Decimal.uint32? index with
    | none => .error .stateRefIndex
    | some index => (Digest.parseChars hash).map (⟨·, index⟩)

instance : Wire StateRef :=
  Wire.record (fun a => (a.tx, a.index)) (fun (tx, index) => ⟨tx, index⟩)

instance : JsonForm StateRef where
  toJson a := .obj [("txhash", toJson a.tx), ("index", toJson a.index)]
  fromJson := Json.record 2 fun r => StateRef.mk <$> r.field 0 "txhash" <*> r.field 1 "index"

end StateRef

end LedgerNotary
