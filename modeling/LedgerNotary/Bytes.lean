/-! Byte strings, blocks of a fixed number of bytes, and natural numbers written as bytes in
either order of significance. -/

namespace LedgerNotary

abbrev Bytes := List UInt8

namespace Bytes

/-- The first `n` bytes and the rest, when there are that many. -/
def split? (n : Nat) (s : Bytes) : Option (Bytes × Bytes) :=
  let front := s.take n
  if front.length = n then some (front, s.drop n) else none

theorem split?_append (a s : Bytes) : split? a.length (a ++ s) = some (a, s) := by
  simp [split?]

theorem split?_eq_some {n : Nat} {s a r : Bytes} :
    split? n s = some (a, r) ↔ s = a ++ r ∧ a.length = n := by
  constructor
  · intro h
    simp only [split?] at h
    split at h
    · next hn => cases h; exact ⟨(List.take_append_drop n s).symm, hn⟩
    · cases h
  · rintro ⟨rfl, rfl⟩; exact split?_append a r

/-- `n` in `width` bytes, least significant first; higher bits are dropped. -/
def ofNatLE : Nat → Nat → Bytes
  | 0, _ => []
  | width + 1, n => UInt8.ofNat n :: ofNatLE width (n / 256)

def toNatLE : Bytes → Nat
  | [] => 0
  | b :: s => b.toNat + 256 * toNatLE s

/-- How many numbers can be written in `width` bytes. -/
def capacity : Nat → Nat
  | 0 => 1
  | width + 1 => 256 * capacity width

@[simp] theorem length_ofNatLE (width n : Nat) : (ofNatLE width n).length = width := by
  induction width generalizing n <;> simp_all [ofNatLE]

@[simp] theorem toNatLE_ofNatLE (width n : Nat) :
    toNatLE (ofNatLE width n) = n % capacity width := by
  induction width generalizing n with
  | zero => simp [ofNatLE, toNatLE, capacity, Nat.mod_one]
  | succ w ih => simp [ofNatLE, toNatLE, capacity, ih, Nat.mod_mul]

theorem toNatLE_lt (s : Bytes) : toNatLE s < capacity s.length := by
  induction s with
  | nil => simp [toNatLE, capacity]
  | cons b s ih =>
    have := b.toNat_lt
    simp only [toNatLE, List.length_cons, capacity]
    omega

theorem ofNatLE_toNatLE (s : Bytes) : ofNatLE s.length (toNatLE s) = s := by
  induction s with
  | nil => rfl
  | cons b s ih =>
    have := b.toNat_lt
    have hq : (b.toNat + 256 * toNatLE s) / 256 = toNatLE s := by omega
    have hb : UInt8.ofNat (b.toNat + 256 * toNatLE s) = b := by
      apply UInt8.toNat_inj.1
      simp
    simp [ofNatLE, toNatLE, hq, hb, ih]

/-- `n` in `width` bytes, most significant first; higher bits are dropped. -/
def ofNatBE (width n : Nat) : Bytes := (ofNatLE width n).reverse

def toNatBE (s : Bytes) : Nat := toNatLE s.reverse

@[simp] theorem length_ofNatBE (width n : Nat) : (ofNatBE width n).length = width := by
  simp [ofNatBE]

theorem ofNatBE_toNatBE (s : Bytes) : ofNatBE s.length (toNatBE s) = s := by
  simpa [ofNatBE, toNatBE] using congrArg List.reverse (ofNatLE_toNatLE s.reverse)

def ofString (s : String) : Bytes := s.toList.flatMap String.utf8EncodeChar

end Bytes

/-- A block of exactly `n` bytes. -/
structure Octets (n : Nat) where
  bytes : Bytes
  length_eq : bytes.length = n
deriving DecidableEq

namespace Octets

variable {n : Nat}

@[ext] theorem ext {a b : Octets n} (h : a.bytes = b.bytes) : a = b := by
  cases a; cases b; simp_all

def ofBytes? (n : Nat) (s : Bytes) : Option (Octets n) :=
  if h : s.length = n then some ⟨s, h⟩ else none

@[simp] theorem ofBytes?_bytes (a : Octets n) : ofBytes? n a.bytes = some a := by
  simp [ofBytes?, a.length_eq]

theorem ofBytes?_eq_some {s : Bytes} {a : Octets n} : ofBytes? n s = some a ↔ s = a.bytes := by
  constructor
  · intro h
    unfold ofBytes? at h
    split at h <;> simp_all
    rw [← h]
  · rintro rfl; simp

def zero (n : Nat) : Octets n := ⟨List.replicate n 0, List.length_replicate⟩

def isZero (a : Octets n) : Bool := a.bytes.all (· == 0)

theorem isZero_iff (a : Octets n) : a.isZero = true ↔ a = zero n := by
  simp [isZero, zero, Octets.ext_iff, List.eq_replicate_iff, a.length_eq]

/-- `k` in `n` bytes, most significant first. -/
def ofNatBE (n k : Nat) : Octets n := ⟨Bytes.ofNatBE n k, Bytes.length_ofNatBE n k⟩

def toNatBE (a : Octets n) : Nat := Bytes.toNatBE a.bytes

instance : Ord (Octets n) := ⟨compareOn bytes⟩

instance : Std.TransOrd (Octets n) :=
  inferInstanceAs (Std.TransCmp (compareOn (@Octets.bytes n)))

instance : Std.LawfulEqOrd (Octets n) where
  eq_of_compare h := Octets.ext (Std.LawfulEqOrd.eq_of_compare h)

end Octets

end LedgerNotary
