import LedgerNotary.Bytes
import LedgerNotary.Defect

/-! JSON values. A number is kept apart by whether it is a 64-bit integer; of any other number
only the text is kept. -/

namespace LedgerNotary

inductive Json
  | null
  | bool (value : Bool)
  | int (value : Int)
  | real (literal : String)
  | str (text : String)
  | arr (items : List Json)
  | obj (members : List (String × Json))

namespace Json

/-- Puts a member into a list ascending by name, in place of one with its name. -/
def insertMember (name : String) (value : Json) : List (String × Json) → List (String × Json)
  | [] => [(name, value)]
  | (other, v) :: rest =>
    if name = other then (name, value) :: rest
    else if name < other then (name, value) :: (other, v) :: rest
    else (other, v) :: insertMember name value rest

/-- The object with the members given, ascending by name; the last of a name counts. -/
def ofMembers (members : List (String × Json)) : Json :=
  .obj (members.foldl (fun ms (name, value) => insertMember name value ms) [])

mutual
/-- How deep arrays and objects stand inside one another, one for a plain value. -/
def depth : Json → Nat
  | .arr items => depthOfItems items + 1
  | .obj members => depthOfMembers members + 1
  | _ => 1

def depthOfItems : List Json → Nat
  | [] => 0
  | v :: vs => max (depth v) (depthOfItems vs)

def depthOfMembers : List (String × Json) → Nat
  | [] => 0
  | (_, v) :: ms => max (depth v) (depthOfMembers ms)
end

def member? (name : String) : Json → Option Json
  | .obj members => members.lookup name
  | _ => none

end Json

/-! The JSON form of a type.

A record is an object; members of other names are passed over, and an array of exactly its fields
in turn is read as well. A variant is an object whose only member names the alternative; one that
holds nothing is written as that name alone, and what one holds under names of its own is read from
an object only. Reading fails with the first fault in the order in which members or items stand;
that something is missing is noticed last. -/

namespace Json

/-- Why a value is not of a form. Only breaches of the rules below have a wording of their own. -/
inductive Fault
  | shape
  | zeroSalt
  | keyLength
  | badKey (defect : KeyDefect)
deriving DecidableEq, Repr

def Fault.message? : Fault → Option String
  | .shape => none
  | .zeroSalt => some "invalid value: privacy salt must not be all zeros"
  | .keyLength => some "public key must be 33 bytes"
  | .badKey defect => some ("invalid composite key: " ++ defect.message)

end Json

class JsonForm (α : Type) where
  toJson : α → Json
  fromJson : Json → Except Json.Fault α

export JsonForm (toJson fromJson)

namespace Json

variable {α β : Type}

/-- What is known of a record while its fields are read: the earliest fault with its place, and
the value unless something failed or is missing. -/
structure Reading (α : Type) where
  fault : Option (Nat × Fault)
  value : Option α

def earlier (a b : Option (Nat × Fault)) : Option (Nat × Fault) :=
  match a, b with
  | some (i, f), some (j, g) => if i ≤ j then some (i, f) else some (j, g)
  | some a, none => some a
  | none, b => b

instance : Functor Reading := { map := fun f r => ⟨r.fault, r.value.map f⟩ }

instance : Seq Reading where
  seq r x :=
    let s := x ()
    ⟨earlier r.fault s.fault, match r.value, s.value with
      | some f, some a => some (f a)
      | _, _ => none⟩

/-- The parts of a record, by name or by place. -/
inductive Parts
  | named (members : List (String × Json))
  | placed (items : List Json)

def Parts.find? (parts : Parts) (place : Nat) (name : String) : Option (Nat × Json) :=
  match parts with
  | .named members => (members.zipIdx.find? (·.1.1 == name)).map fun ((_, v), i) => (i, v)
  | .placed items => items[place]?.map fun v => (place, v)

def Parts.fieldBy (parts : Parts) (read : Json → Except Fault α) (place : Nat) (name : String) :
    Reading α :=
  match parts.find? place name with
  | none => ⟨none, none⟩
  | some (i, v) =>
    match read v with
    | .ok a => ⟨none, some a⟩
    | .error fault => ⟨some (i, fault), none⟩

def Parts.field [JsonForm α] (parts : Parts) (place : Nat) (name : String) : Reading α :=
  parts.fieldBy fromJson place name

/-- A field that counts as empty when an object lacks it. -/
def Parts.optional [JsonForm α] (parts : Parts) (place : Nat) (name : String) :
    Reading (Option α) :=
  match parts, parts.find? place name with
  | .named _, none => ⟨none, some none⟩
  | _, _ => parts.fieldBy
    (fun
      | .null => .ok none
      | v => (fromJson v).map some) place name

def Reading.result (r : Reading α) : Except Fault α :=
  match r.fault, r.value with
  | some (_, fault), _ => .error fault
  | none, some a => .ok a
  | none, none => .error .shape

def members (build : Parts → Reading α) : Json → Except Fault α
  | .obj members => (build (.named members)).result
  | _ => .error .shape

def record (count : Nat) (build : Parts → Reading α) : Json → Except Fault α
  | .obj members => (build (.named members)).result
  | .arr items => do
    let a ← (build (.placed items)).result
    if items.length = count then return a else throw .shape
  | _ => .error .shape

def tuple (count : Nat) (build : Parts → Reading α) : Json → Except Fault α
  | .arr items => record count build (.arr items)
  | _ => .error .shape

def variant (alternative : String → Option Json → Except Fault α) : Json → Except Fault α
  | .str name => alternative name none
  | .obj [(name, v)] => alternative name (some v)
  | _ => .error .shape

def held (read : Json → Except Fault α) : Option Json → Except Fault α
  | some v => read v
  | none => .error .shape

def bare (a : α) : Option Json → Except Fault α
  | none | some .null => .ok a
  | some _ => .error .shape

def intBetween (low high : Int) : Json → Except Fault Int
  | .int n => if low ≤ n ∧ n ≤ high then .ok n else .error .shape
  | _ => .error .shape

def itemsBy (read : Json → Except Fault α) : Json → Except Fault (List α)
  | .arr items => items.mapM read
  | _ => .error .shape

end Json

instance : JsonForm UInt8 where
  toJson n := .int n.toNat
  fromJson v := (Json.intBetween 0 255 v).map fun n => UInt8.ofNat n.toNat

instance : JsonForm UInt32 where
  toJson n := .int n.toNat
  fromJson v := (Json.intBetween 0 4294967295 v).map fun n => UInt32.ofNat n.toNat

instance : JsonForm UInt64 where
  toJson n := .int n.toNat
  fromJson v := (Json.intBetween 0 18446744073709551615 v).map fun n => UInt64.ofNat n.toNat

instance : JsonForm Int64 where
  toJson n := .int n.toInt
  fromJson v := (Json.intBetween (-9223372036854775808) 9223372036854775807 v).map Int64.ofInt

instance : JsonForm String where
  toJson text := .str text
  fromJson
    | .str text => .ok text
    | _ => .error .shape

instance {α : Type} [JsonForm α] : JsonForm (List α) where
  toJson as := .arr (as.map toJson)
  fromJson := Json.itemsBy fromJson

instance {α : Type} [JsonForm α] : JsonForm (Option α) where
  toJson
    | none => .null
    | some a => toJson a
  fromJson
    | .null => .ok none
    | v => (fromJson v).map some

/-- A pair is an array of two. -/
instance {α β : Type} [JsonForm α] [JsonForm β] : JsonForm (α × β) where
  toJson p := .arr [toJson p.1, toJson p.2]
  fromJson := Json.tuple 2 fun r => Prod.mk <$> r.field 0 "" <*> r.field 1 ""

/-- A block of bytes is an array of exactly as many numbers. -/
instance {n : Nat} : JsonForm (Octets n) where
  toJson a := toJson a.bytes
  fromJson v := do
    let s ← (fromJson v : Except Json.Fault Bytes)
    match Octets.ofBytes? n s with
    | some a => return a
    | none => throw .shape

end LedgerNotary
