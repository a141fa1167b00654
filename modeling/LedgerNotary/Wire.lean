import LedgerNotary.Defect
import LedgerNotary.Text

/-! Why a value has no encoding, or a byte string is not the encoding of a value. -/

namespace LedgerNotary.Wire

inductive Fault
  | longLength
  | shortInput
  | trailingBytes
  | badVariant (tag : UInt8)
  | badOption (tag : UInt8)
  | badText (fault : Utf8.Fault)
  | badKeyTag (tag : UInt8)
  | deepKey
  | unsortedKey
  | badKey (defect : KeyDefect)
  | zeroSalt
  | badLayout (defect : LayoutDefect)
deriving DecidableEq, Repr

def Fault.message : Fault → String
  | .longLength => "invalid data"
  | .shortInput => "Unexpected length of input"
  | .trailingBytes => "Not all bytes read"
  | .badVariant tag => s!"Unexpected variant tag: {tag}"
  | .badOption tag =>
    s!"Invalid Option representation: {tag}. The first byte must be 0 or 1"
  | .badText fault => fault.message
  | .badKeyTag tag => s!"unknown public key tag {tag}"
  | .deepKey => "composite key nesting too deep"
  | .unsortedKey => "composite key children not in canonical order"
  | .badKey defect => "invalid composite key: " ++ defect.message
  | .zeroSalt => "invalid value: privacy salt must not be all zeros"
  | .badLayout defect => "invalid argument: " ++ defect.message

end LedgerNotary.Wire

/-! The binary format of all that is hashed, signed, sent or stored.

Numbers are written least significant byte first; texts and lists behind their length in four
bytes; an optional value behind a byte 0 or 1; records as their fields in turn. A value in which
some length takes more than four bytes is not written at all. Reading hands back the bytes behind
the value and stops at the first fault. -/

namespace LedgerNotary

/-- A type with a binary format: how a value is laid out in bytes, whether every length in it can be
written in four bytes, and how values are read. What is laid out of a value with a longer length is
not its encoding; `Wire.encode` refuses such a value. -/
class Wire (α : Type) where
  pack : α → Bytes
  sized : α → Bool := fun _ => true
  decode : Bytes → Except Wire.Fault (α × Bytes)

namespace Wire

variable {α β : Type}

/-- The encoding of a value, unless one of its lengths is too long. -/
def encode [Wire α] (a : α) : Except Fault Bytes :=
  if sized a then .ok (pack a) else .error .longLength

theorem encode_eq_ok [Wire α] {a : α} {s : Bytes} :
    encode a = .ok s ↔ sized a = true ∧ s = pack a := by
  unfold encode
  split <;> simp [*, eq_comm]

def read [Wire α] (s : Bytes) : Except Fault α := do
  let (a, rest) ← decode s
  if rest.isEmpty then return a else throw .trailingBytes

theorem read_eq_ok [Wire α] {s : Bytes} {a : α} : read s = .ok a ↔ decode s = .ok (a, []) := by
  unfold read
  match decode (α := α) s with
  | .error fault => simp [bind, Except.bind]
  | .ok (b, []) => simp [bind, Except.bind, pure, Except.pure]
  | .ok (b, _ :: _) => simp [bind, Except.bind, throw, throwThe, MonadExceptOf.throw]

def take (n : Nat) (s : Bytes) : Except Fault (Bytes × Bytes) :=
  match Bytes.split? n s with
  | some p => .ok p
  | none => .error .shortInput

def takeNat (width : Nat) (s : Bytes) : Except Fault (Nat × Bytes) := do
  let (front, s) ← take width s
  return (Bytes.toNatLE front, s)

instance : Wire UInt8 where
  pack b := [b]
  decode
    | [] => .error .shortInput
    | b :: s => .ok (b, s)

instance : Wire UInt32 where
  pack n := Bytes.ofNatLE 4 n.toNat
  decode s := do
    let (n, s) ← takeNat 4 s
    return (UInt32.ofNat n, s)

instance : Wire UInt64 where
  pack n := Bytes.ofNatLE 8 n.toNat
  decode s := do
    let (n, s) ← takeNat 8 s
    return (UInt64.ofNat n, s)

/-- Negative numbers in two's complement. -/
instance : Wire Int64 where
  pack n := Wire.pack n.toUInt64
  decode s := do
    let (n, s) ← (Wire.decode s : Except Fault (UInt64 × Bytes))
    return (n.toInt64, s)

instance {n : Nat} : Wire (Octets n) where
  pack a := a.bytes
  decode s :=
    match h : Bytes.split? n s with
    | some (front, s) => .ok (⟨front, (Bytes.split?_eq_some.1 h).2⟩, s)
    | none => .error .shortInput

def decodeItems [Wire α] : Nat → List α → Bytes → Except Fault (List α × Bytes)
  | 0, done, s => .ok (done.reverse, s)
  | n + 1, done, s =>
    match decode s with
    | .ok (a, s) => decodeItems n (a :: done) s
    | .error fault => .error fault

instance [Wire α] : Wire (List α) where
  pack as := Bytes.ofNatLE 4 as.length ++ as.flatMap pack
  sized as := as.length < UInt32.size && as.all sized
  decode s := do
    let (n, s) ← takeNat 4 s
    decodeItems n [] s

instance : Wire String where
  pack text := Wire.pack (Bytes.ofString text)
  sized text := Wire.sized (Bytes.ofString text)
  decode s := do
    let (body, s) ← (Wire.decode s : Except Fault (Bytes × Bytes))
    match Utf8.decode body with
    | .ok text => return (text, s)
    | .error fault => throw (.badText fault)

instance [Wire α] : Wire (Option α) where
  pack
    | none => [0]
    | some a => 1 :: pack a
  sized a? := a?.all sized
  decode
    | [] => .error .shortInput
    | tag :: s =>
      if tag = 0 then .ok (none, s)
      else if tag = 1 then do
        let (a, s) ← decode s
        return (some a, s)
      else .error (.badOption tag)

instance [Wire α] [Wire β] : Wire (α × β) where
  pack p := pack p.1 ++ pack p.2
  sized p := sized p.1 && sized p.2
  decode s := do
    let (a, s) ← decode s
    let (b, s) ← decode s
    return ((a, b), s)

/-- The format of a record, given that of its fields in turn. -/
@[reducible] def record [Wire β] (fields : α → β) (make : β → α) : Wire α where
  pack a := pack (fields a)
  sized a := sized (fields a)
  decode s := do
    let (b, s) ← decode s
    return (make b, s)

def decodeAs [Wire β] (make : β → α) (s : Bytes) : Except Fault (α × Bytes) := do
  let (b, s) ← decode s
  return (make b, s)

/-- Reads a variant: one byte for the alternative, then what that alternative holds. -/
def decodeVariant (alternative : UInt8 → Bytes → Except Fault (α × Bytes)) :
    Bytes → Except Fault (α × Bytes)
  | [] => .error .shortInput
  | tag :: s => alternative tag s

end Wire

end LedgerNotary
