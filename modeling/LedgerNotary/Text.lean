import LedgerNotary.Bytes

/-! Decimal text of a 32-bit number: ASCII digits behind an optional plus sign, leading zeros
allowed. -/

namespace LedgerNotary.Decimal

def digits? (s : List Char) : Option Nat :=
  if s.isEmpty then none
  else if s.all Char.isDigit then some (s.foldl (fun n c => 10 * n + (c.toNat - 48)) 0)
  else none

def unsigned : List Char → List Char
  | '+' :: s => s
  | s => s

def uint32? (s : List Char) : Option UInt32 :=
  match digits? (unsigned s) with
  | some n => if n < 4294967296 then some (UInt32.ofNat n) else none
  | none => none

end LedgerNotary.Decimal

/-! Reading UTF-8. A byte string that is no UTF-8 is refused at the first byte of its first
ill-formed sequence, with the number of bytes that are certainly wrong, or as incomplete when only
the end of the input is missing. -/

namespace LedgerNotary.Utf8

inductive Fault
  | invalid (width position : Nat)
  | incomplete (position : Nat)
deriving DecidableEq, Repr

def Fault.message : Fault → String
  | .invalid width position => s!"invalid utf-8 sequence of {width} bytes from index {position}"
  | .incomplete position => s!"incomplete utf-8 byte sequence from index {position}"

def isTail (b : UInt8) : Bool := 0x80 ≤ b && b ≤ 0xBF

/-- The bytes that may follow a lead byte of three; overlong forms and surrogates fall outside. -/
def second3 (lead b : UInt8) : Bool :=
  if lead = 0xE0 then 0xA0 ≤ b && b ≤ 0xBF
  else if lead = 0xED then 0x80 ≤ b && b ≤ 0x9F
  else isTail b

/-- The bytes that may follow a lead byte of four; the range ends at the last code point. -/
def second4 (lead b : UInt8) : Bool :=
  if lead = 0xF0 then 0x90 ≤ b && b ≤ 0xBF
  else if lead = 0xF4 then 0x80 ≤ b && b ≤ 0x8F
  else isTail b

def char2 (a b : UInt8) : Char := Char.ofNat ((a.toNat - 0xC0) * 64 + (b.toNat - 0x80))

def char3 (a b c : UInt8) : Char :=
  Char.ofNat ((a.toNat - 0xE0) * 4096 + (b.toNat - 0x80) * 64 + (c.toNat - 0x80))

def char4 (a b c d : UInt8) : Char :=
  Char.ofNat ((a.toNat - 0xF0) * 262144 + (b.toNat - 0x80) * 4096 + (c.toNat - 0x80) * 64 +
    (d.toNat - 0x80))

/-- Reads on behind the characters `done`; the first byte stands at `position`. -/
def decodeChars (done : List Char) (position : Nat) : Bytes → Except Fault (List Char)
  | [] => .ok done.reverse
  | a :: s =>
    if a < 0x80 then decodeChars (Char.ofNat a.toNat :: done) (position + 1) s
    else if 0xC2 ≤ a && a ≤ 0xDF then
      match s with
      | [] => .error (.incomplete position)
      | b :: s =>
        if !isTail b then .error (.invalid 1 position)
        else decodeChars (char2 a b :: done) (position + 2) s
    else if 0xE0 ≤ a && a ≤ 0xEF then
      match s with
      | [] => .error (.incomplete position)
      | b :: s =>
        if !second3 a b then .error (.invalid 1 position)
        else match s with
          | [] => .error (.incomplete position)
          | c :: s =>
            if !isTail c then .error (.invalid 2 position)
            else decodeChars (char3 a b c :: done) (position + 3) s
    else if 0xF0 ≤ a && a ≤ 0xF4 then
      match s with
      | [] => .error (.incomplete position)
      | b :: s =>
        if !second4 a b then .error (.invalid 1 position)
        else match s with
          | [] => .error (.incomplete position)
          | c :: s =>
            if !isTail c then .error (.invalid 2 position)
            else match s with
              | [] => .error (.incomplete position)
              | d :: s =>
                if !isTail d then .error (.invalid 3 position)
                else decodeChars (char4 a b c d :: done) (position + 4) s
    else .error (.invalid 1 position)

def decode (s : Bytes) : Except Fault String := (decodeChars [] 0 s).map String.ofList

end LedgerNotary.Utf8

/-! Hexadecimal text: two lowercase digits a byte when written, either case when read.

Reading works on the UTF-8 bytes of the text. An odd number of them is reported first, then the
first byte that is no digit together with its position. -/

namespace LedgerNotary.Hex

inductive Fault
  | oddLength
  | badDigit (byte : UInt8) (position : Nat)
deriving DecidableEq, Repr

def digit (n : Nat) : Char :=
  if n < 10 then Char.ofNat (48 + n) else Char.ofNat (87 + n)

def encodeChars (s : Bytes) : List Char :=
  s.flatMap fun b => [digit (b.toNat / 16), digit (b.toNat % 16)]

def encode (s : Bytes) : String := String.ofList (encodeChars s)

def digitValue? (b : UInt8) : Option Nat :=
  let n := b.toNat
  if 48 ≤ n ∧ n ≤ 57 then some (n - 48)
  else if 97 ≤ n ∧ n ≤ 102 then some (n - 87)
  else if 65 ≤ n ∧ n ≤ 70 then some (n - 55)
  else none

theorem digitValue?_digit {n : Nat} (h : n < 16) :
    digitValue? (UInt8.ofNat (digit n).toNat) = some n := by
  revert n
  decide

def digitAt (position : Nat) (b : UInt8) : Except Fault Nat :=
  match digitValue? b with
  | some v => .ok v
  | none => .error (.badDigit b position)

/-- Reads digit pairs behind the bytes `done`; the first digit stands at `position`. -/
def decodePairs (done : Bytes) (position : Nat) : Bytes → Except Fault Bytes
  | [] => .ok done.reverse
  | [_] => .error .oddLength
  | a :: b :: s => do
    let high ← digitAt position a
    let low ← digitAt (position + 1) b
    decodePairs (UInt8.ofNat (16 * high + low) :: done) (position + 2) s

def decodeBytes (s : Bytes) : Except Fault Bytes :=
  if s.length % 2 = 1 then .error .oddLength else decodePairs [] 0 s

theorem utf8_digit {n : Nat} (h : n < 16) :
    String.utf8EncodeChar (digit n) = [UInt8.ofNat (digit n).toNat] := by
  revert n
  decide

theorem utf8_encodeChars_cons (b : UInt8) (s : Bytes) :
    (encodeChars (b :: s)).flatMap String.utf8EncodeChar =
      UInt8.ofNat (digit (b.toNat / 16)).toNat :: UInt8.ofNat (digit (b.toNat % 16)).toNat ::
        (encodeChars s).flatMap String.utf8EncodeChar := by
  have hb := b.toNat_lt
  simp [encodeChars, utf8_digit (show b.toNat / 16 < 16 by omega),
    utf8_digit (show b.toNat % 16 < 16 by omega)]

theorem decodePairs_encodeChars (s done : Bytes) (position : Nat) :
    decodePairs done position ((encodeChars s).flatMap String.utf8EncodeChar) =
      .ok (done.reverse ++ s) := by
  induction s generalizing done position with
  | nil => simp [encodeChars, decodePairs]
  | cons b s ih =>
    have hb := b.toNat_lt
    have back : UInt8.ofNat (16 * (b.toNat / 16) + b.toNat % 16) = b := by
      rw [Nat.div_add_mod, UInt8.ofNat_toNat]
    rw [utf8_encodeChars_cons]
    simp only [decodePairs, digitAt, digitValue?_digit (show b.toNat / 16 < 16 by omega),
      digitValue?_digit (show b.toNat % 16 < 16 by omega), bind, Except.bind, back, ih]
    simp

theorem length_utf8_encodeChars (s : Bytes) :
    ((encodeChars s).flatMap String.utf8EncodeChar).length = 2 * s.length := by
  induction s with
  | nil => rfl
  | cons b s ih =>
    rw [utf8_encodeChars_cons]
    simp only [List.length_cons]
    omega

theorem decodeBytes_encodeChars (s : Bytes) :
    decodeBytes ((encodeChars s).flatMap String.utf8EncodeChar) = .ok s := by
  have even := length_utf8_encodeChars s
  rw [decodeBytes, if_neg (by omega), decodePairs_encodeChars]
  rfl

def decode (text : String) : Except Fault Bytes := decodeBytes (Bytes.ofString text)

/-- A byte as a quoted Latin-1 character, control and invisible characters escaped. -/
def quoted (b : UInt8) : String :=
  let n := b.toNat
  let body :=
    if n = 0 then "\\0"
    else if n = 9 then "\\t"
    else if n = 10 then "\\n"
    else if n = 13 then "\\r"
    else if n = 39 then "\\'"
    else if n = 92 then "\\\\"
    else if n < 32 ∨ (127 ≤ n ∧ n ≤ 160) ∨ n = 173 then
      "\\u\x7b" ++ String.ofList (Nat.toDigits 16 n) ++ "\x7d"
    else String.singleton (Char.ofNat n)
  "'" ++ body ++ "'"

def Fault.message : Fault → String
  | .oddLength => "Odd number of digits"
  | .badDigit byte position => "Invalid character " ++ quoted byte ++ s!" at position {position}"

end LedgerNotary.Hex
