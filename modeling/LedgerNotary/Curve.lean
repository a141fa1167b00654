import LedgerNotary.Hash

/-! The curve `y² = x³ + 7` over the prime field of secp256k1, with its base point.

Affine points are what keys and signatures are made of. Sums are computed in Jacobian coordinates,
where `(x, y, z)` stands for `(x / z², y / z³)` and `z = 0` for the point at infinity. -/

namespace LedgerNotary.Curve

/-- The size of the coordinate field. -/
def prime : Nat := 0xFFFFFFFFFFFFFFFFFFFFFFFFFFFFFFFFFFFFFFFFFFFFFFFFFFFFFFFEFFFFFC2F

/-- The number of points, at infinity included. -/
def order : Nat := 0xFFFFFFFFFFFFFFFFFFFFFFFFFFFFFFFEBAAEDCE6AF48A03BBFD25E8CD0364141

/-- `b ^ e` modulo `m` for an exponent below `2 ^ bits`. -/
def powMod (m : Nat) : Nat → Nat → Nat → Nat
  | 0, _, _ => 1
  | bits + 1, b, e =>
    let r := powMod m bits (b * b % m) (e / 2)
    if e % 2 = 1 then r * b % m else r

/-- The inverse modulo a prime below `2 ^ 256`, zero for zero. -/
def invMod (m a : Nat) : Nat := powMod m 256 a (m - 2)

/-- `a - b` modulo `m`, for reduced `b`. -/
def subMod (m a b : Nat) : Nat := (a + m - b) % m

structure Point where
  (x y : Nat)
deriving DecidableEq, Repr

def Point.onCurve (q : Point) : Bool :=
  q.x < prime && q.y < prime && q.y * q.y % prime == (q.x * q.x * q.x + 7) % prime

def base : Point :=
  ⟨0x79BE667EF9DCBBAC55A06295CE870B07029BFCDB2DCE28D959F2815B16F81798,
   0x483ADA7726A3C4655DA4FBFC0E1108A8FD17B448A68554199C47D08FFB10D4B8⟩

/-- The `y` of a given parity above `x`, if the curve has one there. -/
def lift? (x : Nat) (odd : Bool) : Option Point :=
  let c := (x * x * x + 7) % prime
  let y := powMod prime 256 c ((prime + 1) / 4)
  if x < prime ∧ y * y % prime = c then
    some ⟨x, if (y % 2 == 1) == odd then y else (prime - y) % prime⟩
  else none

structure Jacobian where
  (x y z : Nat)
deriving DecidableEq, Repr

namespace Jacobian

def infinity : Jacobian := ⟨1, 1, 0⟩

def double (q : Jacobian) : Jacobian :=
  let yy := q.y * q.y % prime
  let s := 4 * q.x * yy % prime
  let m := 3 * q.x * q.x % prime
  let x := subMod prime (m * m) (2 * s % prime)
  ⟨x, subMod prime (m * subMod prime s x) (8 * yy * yy % prime), 2 * q.y * q.z % prime⟩

def add (q r : Jacobian) : Jacobian :=
  if q.z = 0 then r
  else if r.z = 0 then q
  else
    let qzz := q.z * q.z % prime
    let rzz := r.z * r.z % prime
    let u := q.x * rzz % prime
    let s := q.y * rzz * r.z % prime
    let h := subMod prime (r.x * qzz % prime) u
    let d := subMod prime (r.y * qzz * q.z % prime) s
    if h = 0 then
      if d = 0 then q.double else infinity
    else
      let hh := h * h % prime
      let hhh := h * hh % prime
      let v := u * hh % prime
      let x := subMod prime (d * d) ((hhh + 2 * v) % prime)
      ⟨x, subMod prime (d * subMod prime v x) (s * hhh % prime), q.z * r.z * h % prime⟩

/-- The `k`-fold sum, for `k` below `2 ^ bits`. -/
def times : Nat → Nat → Jacobian → Jacobian
  | 0, _, _ => infinity
  | bits + 1, k, q =>
    let r := times bits (k / 2) q.double
    if k % 2 = 1 then add q r else r

def toPoint? (q : Jacobian) : Option Point :=
  if q.z = 0 then none
  else
    let i := invMod prime q.z
    let ii := i * i % prime
    some ⟨q.x * ii % prime, q.y * ii * i % prime⟩

end Jacobian

def Point.toJacobian (q : Point) : Jacobian := ⟨q.x, q.y, 1⟩

/-! The byte forms of a curve point.

Read are: `2` or `3` and `x`, the tag giving the parity of `y`; `5` and `x`, with an even `y`; and
`4` with both coordinates. Written is always the first form. -/

/-- Tag and `x`: 33 bytes. -/
def Point.compressed (q : Point) : Octets 33 :=
  ⟨(if q.y % 2 = 1 then 3 else 2) :: Bytes.ofNatBE 32 q.x, by simp⟩

def Point.parse? : Bytes → Option Point
  | [] => none
  | tag :: s =>
    if s.length = 32 then
      if tag = 2 ∨ tag = 5 then lift? (Bytes.toNatBE s) false
      else if tag = 3 then lift? (Bytes.toNatBE s) true
      else none
    else if s.length = 64 ∧ tag = 4 then
      let q : Point := ⟨Bytes.toNatBE (s.take 32), Bytes.toNatBE (s.drop 32)⟩
      if q.onCurve then some q else none
    else none

/-! Signatures on messages hashed with SHA-256: `r` and `s` as 32 bytes each.

The nonce is derived from secret and message, so signing is deterministic. Of the two values of `s`
that would verify, only the smaller is made and only the smaller is accepted. -/

def messageNumber (message : Bytes) : Nat := (Sha256.hash message).toNatBE

/-- The first number in range among those that the keyed hash yields from `key` and `value`, or one
when `tries` of them miss. -/
def nonceFrom : Nat → Octets 32 → Octets 32 → Nat
  | 0, _, _ => 1
  | tries + 1, key, value =>
    let value := Sha256.hmac key.bytes value.bytes
    let k := value.toNatBE
    if 0 < k ∧ k < order then k
    else
      let key := Sha256.hmac key.bytes (value.bytes ++ [0])
      nonceFrom tries key (Sha256.hmac key.bytes value.bytes)

def nonce (secret z : Nat) : Nat :=
  let seed := Bytes.ofNatBE 32 secret ++ Bytes.ofNatBE 32 (z % order)
  let value := List.replicate 32 1
  let key := Sha256.hmac (List.replicate 32 0) (value ++ 0 :: seed)
  let value := Sha256.hmac key.bytes value
  let key := Sha256.hmac key.bytes (value.bytes ++ 1 :: seed)
  nonceFrom 100 key (Sha256.hmac key.bytes value.bytes)

/-- The affine point of a multiple of the base point. -/
def baseTimes (k : Nat) : Point :=
  ((Jacobian.times 256 k base.toJacobian).toPoint?).getD base

def sign (secret : Nat) (message : Bytes) : Octets 64 :=
  let z := messageNumber message
  let k := nonce secret z
  let r := (baseTimes k).x % order
  let s := invMod order k * (z + r * secret) % order
  let low := if order / 2 < s then order - s else s
  ⟨Bytes.ofNatBE 32 r ++ Bytes.ofNatBE 32 low, by simp⟩

/-- The two numbers of a well-formed signature: 64 bytes, both in range, `s` the smaller choice. -/
def signatureNumbers? (signature : Bytes) : Option (Nat × Nat) :=
  let r := Bytes.toNatBE (signature.take 32)
  let s := Bytes.toNatBE (signature.drop 32)
  if signature.length = 64 ∧ 0 < r ∧ r < order ∧ 0 < s ∧ s ≤ order / 2 then some (r, s) else none

def verifyNumbers (q : Point) (z r s : Nat) : Bool :=
  let w := invMod order s
  let sum := Jacobian.add (Jacobian.times 256 (z * w % order) base.toJacobian)
    (Jacobian.times 256 (r * w % order) q.toJacobian)
  match sum.toPoint? with
  | some p => p.x % order == r
  | none => false

def verify (q : Point) (message signature : Bytes) : Bool :=
  match signatureNumbers? signature with
  | some (r, s) => verifyNumbers q (messageNumber message) r s
  | none => false

end LedgerNotary.Curve
