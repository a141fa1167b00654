import LedgerNotary.Json.Form

/-! JSON text: on one line without blanks, or with every member and item on a line of its own,
two blanks deeper than what it belongs to. -/

namespace LedgerNotary.Json

def escaped (c : Char) : String :=
  let n := c.toNat
  if c = '"' then "\\\""
  else if c = '\\' then "\\\\"
  else if n = 8 then "\\b"
  else if n = 9 then "\\t"
  else if n = 10 then "\\n"
  else if n = 12 then "\\f"
  else if n = 13 then "\\r"
  else if n < 16 then "\\u000" ++ String.ofList (Nat.toDigits 16 n)
  else if n < 32 then "\\u00" ++ String.ofList (Nat.toDigits 16 n)
  else String.singleton c

def quoted (text : String) : String :=
  text.toList.foldl (fun out c => out ++ escaped c) "\"" ++ "\""

/-- What stands between two tokens that begin and end a line at the given depth. -/
def lineBreak (lines : Bool) (depth : Nat) : String :=
  if lines then "\n" ++ String.ofList (List.replicate (2 * depth) ' ') else ""

def colon (lines : Bool) : String := if lines then ": " else ":"

mutual
/-- Writes a value behind the text `out`. -/
def write (lines : Bool) (depth : Nat) (out : String) : Json → String
  | .null => out ++ "null"
  | .bool value => out ++ (if value then "true" else "false")
  | .int value => out ++ toString value
  | .real literal => out ++ literal
  | .str text => out ++ quoted text
  | .arr [] => out ++ "[]"
  | .arr (v :: vs) =>
    let body := write lines (depth + 1) (out ++ "[" ++ lineBreak lines (depth + 1)) v
    writeItems lines (depth + 1) body vs ++ lineBreak lines depth ++ "]"
  | .obj [] => out ++ "\x7b\x7d"
  | .obj ((name, v) :: ms) =>
    let body := write lines (depth + 1)
      (out ++ "\x7b" ++ lineBreak lines (depth + 1) ++ quoted name ++ colon lines) v
    writeMembers lines (depth + 1) body ms ++ lineBreak lines depth ++ "\x7d"

def writeItems (lines : Bool) (depth : Nat) (out : String) : List Json → String
  | [] => out
  | v :: vs =>
    writeItems lines depth (write lines depth (out ++ "," ++ lineBreak lines depth) v) vs

def writeMembers (lines : Bool) (depth : Nat) (out : String) : List (String × Json) → String
  | [] => out
  | (name, v) :: ms =>
    writeMembers lines depth
      (write lines depth (out ++ "," ++ lineBreak lines depth ++ quoted name ++ colon lines) v) ms
end

def compact (value : Json) : String := write false 0 "" value

def pretty (value : Json) : String := write true 0 "" value

/-! Reading JSON text. Of two members of one name the later counts. A number without fraction and
exponent that fits 64 bits, signed or not, is an integer; minus zero and all others are not. -/

def isBlank (c : Char) : Bool := c = ' ' || c = '\t' || c = '\n' || c = '\r'

def skipBlanks (s : List Char) : List Char := s.dropWhile isBlank

def hexDigit? (c : Char) : Option Nat :=
  let n := c.toNat
  if c.isDigit then some (n - 48)
  else if 'a' ≤ c ∧ c ≤ 'f' then some (n - 87)
  else if 'A' ≤ c ∧ c ≤ 'F' then some (n - 55)
  else none

def hex4? : List Char → Option (Nat × List Char)
  | a :: b :: c :: d :: s => do
    let a ← hexDigit? a
    let b ← hexDigit? b
    let c ← hexDigit? c
    let d ← hexDigit? d
    return (a * 4096 + b * 256 + c * 16 + d, s)
  | _ => none

/-- The character of an escape after its `u`; two surrogates make one character. -/
def unicodeEscape? (s : List Char) : Option (Char × List Char) := do
  let (n, s) ← hex4? s
  if 0xD800 ≤ n ∧ n < 0xDC00 then
    match s with
    | '\\' :: 'u' :: s => do
      let (m, s) ← hex4? s
      if 0xDC00 ≤ m ∧ m < 0xE000 then
        return (Char.ofNat (0x10000 + (n - 0xD800) * 1024 + (m - 0xDC00)), s)
      else none
    | _ => none
  else if 0xDC00 ≤ n ∧ n < 0xE000 then none
  else return (Char.ofNat n, s)

def plainEscape? (c : Char) : Option Char :=
  if c = '"' ∨ c = '\\' ∨ c = '/' then some c
  else if c = 'b' then some (Char.ofNat 8)
  else if c = 't' then some '\t'
  else if c = 'n' then some '\n'
  else if c = 'f' then some (Char.ofNat 12)
  else if c = 'r' then some '\r'
  else none

/-- Reads a text behind its opening quote and the characters `done`. -/
def textFrom? : Nat → List Char → List Char → Option (String × List Char)
  | 0, _, _ => none
  | fuel + 1, done, s =>
    match s with
    | [] => none
    | '"' :: s => some (String.ofList done.reverse, s)
    | '\\' :: 'u' :: s =>
      match unicodeEscape? s with
      | some (c, s) => textFrom? fuel (c :: done) s
      | none => none
    | '\\' :: e :: s =>
      match plainEscape? e with
      | some c => textFrom? fuel (c :: done) s
      | none => none
    | c :: s => if c.toNat < 32 then none else textFrom? fuel (c :: done) s

def digitsValue (s : List Char) : Nat := s.foldl (fun n c => 10 * n + (c.toNat - 48)) 0

/-- Splits off an optional fraction and exponent; none when a digit is missing there. -/
def tail? (s : List Char) : Option (List Char × List Char) := do
  let (fraction, s) ← match s with
    | '.' :: s =>
      let ds := s.takeWhile Char.isDigit
      if ds.isEmpty then none else some ('.' :: ds, s.dropWhile Char.isDigit)
    | s => some ([], s)
  match s with
  | e :: s' =>
    if e = 'e' ∨ e = 'E' then
      let (sign, s') := match s' with
        | '+' :: r => (['+'], r)
        | '-' :: r => (['-'], r)
        | r => ([], r)
      let ds := s'.takeWhile Char.isDigit
      if ds.isEmpty then none
      else some (fraction ++ e :: sign ++ ds, s'.dropWhile Char.isDigit)
    else some (fraction, s)
  | [] => some (fraction, s)

/-- Reads a number behind its sign. -/
def number? (negative : Bool) (s : List Char) : Option (Json × List Char) := do
  let whole := s.takeWhile Char.isDigit
  if whole.isEmpty ∨ (whole.head? = some '0' ∧ 1 < whole.length) then none
  let (tail, rest) ← tail? (s.dropWhile Char.isDigit)
  let n : Int := digitsValue whole
  let literal := String.ofList ((if negative then ['-'] else []) ++ whole ++ tail)
  if tail.isEmpty ∧ negative ∧ 0 < n ∧ n ≤ 9223372036854775808 then return (.int (-n), rest)
  else if tail.isEmpty ∧ ¬ negative ∧ n < 18446744073709551616 then return (.int n, rest)
  else return (.real literal, rest)

mutual
def value? : Nat → List Char → Option (Json × List Char)
  | 0, _ => none
  | fuel + 1, s =>
    match skipBlanks s with
    | 'n' :: 'u' :: 'l' :: 'l' :: s => some (.null, s)
    | 't' :: 'r' :: 'u' :: 'e' :: s => some (.bool true, s)
    | 'f' :: 'a' :: 'l' :: 's' :: 'e' :: s => some (.bool false, s)
    | '"' :: s => (textFrom? (fuel + 1) [] s).map fun (text, s) => (.str text, s)
    | '-' :: s => number? true s
    | '[' :: s =>
      match skipBlanks s with
      | ']' :: s => some (.arr [], s)
      | s => items? fuel [] s
    | '\x7b' :: s =>
      match skipBlanks s with
      | '\x7d' :: s => some (.obj [], s)
      | s => members? fuel [] s
    | s => number? false s

def items? : Nat → List Json → List Char → Option (Json × List Char)
  | 0, _, _ => none
  | fuel + 1, done, s =>
    match value? fuel s with
    | none => none
    | some (v, s) =>
      match skipBlanks s with
      | ',' :: s => items? fuel (v :: done) s
      | ']' :: s => some (.arr (v :: done).reverse, s)
      | _ => none

def members? : Nat → List (String × Json) → List Char → Option (Json × List Char)
  | 0, _, _ => none
  | fuel + 1, done, s =>
    match skipBlanks s with
    | '"' :: s =>
      match textFrom? (fuel + 1) [] s with
      | none => none
      | some (name, s) =>
        match skipBlanks s with
        | ':' :: s =>
          match value? fuel s with
          | none => none
          | some (v, s) =>
            match skipBlanks s with
            | ',' :: s => members? fuel ((name, v) :: done) s
            | '\x7d' :: s => some (ofMembers ((name, v) :: done).reverse, s)
            | _ => none
        | _ => none
    | _ => none
end

def parse? (text : String) : Option Json :=
  let s := text.toList
  match value? (s.length + 1) s with
  | some (v, rest) => if (skipBlanks rest).isEmpty then some v else none
  | none => none

end LedgerNotary.Json
