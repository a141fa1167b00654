import LedgerNotary.Defect
import LedgerNotary.Text

/-! Public keys: a single key, or a weighted threshold over further keys.

A single key is any 33 bytes; whether they name a curve point is only asked when a signature is
checked. Keys are ordered, single keys first, so that the children of a threshold key have one
order. -/

namespace LedgerNotary

structure PointCode where
  octets : Octets 33
deriving DecidableEq

namespace PointCode

instance : Ord PointCode := ⟨fun a b => compare a.octets b.octets⟩

def toHex (a : PointCode) : String := Hex.encode a.octets.bytes

end PointCode

inductive Key
  | single (code : PointCode)
  | composite (threshold : UInt32) (children : List (Key × UInt32))

namespace Key

abbrev Child := Key × UInt32

mutual
def decEq : (a b : Key) → Decidable (a = b)
  | .single a, .single b => if h : a = b then isTrue (by rw [h]) else isFalse (by simpa using h)
  | .single _, .composite .. => isFalse (by simp)
  | .composite .., .single _ => isFalse (by simp)
  | .composite s cs, .composite t ds =>
    if h : s = t then
      match decEqChildren cs ds with
      | isTrue h' => isTrue (by rw [h, h'])
      | isFalse h' => isFalse (by simp [h'])
    else isFalse (by simp [h])

def decEqChildren : (a b : List (Key × UInt32)) → Decidable (a = b)
  | [], [] => isTrue rfl
  | [], _ :: _ => isFalse (by simp)
  | _ :: _, [] => isFalse (by simp)
  | (k, v) :: cs, (l, w) :: ds =>
    match decEq k l with
    | isFalse h => isFalse (by simp [h])
    | isTrue h =>
      if h' : v = w then
        match decEqChildren cs ds with
        | isTrue h'' => isTrue (by rw [h, h', h''])
        | isFalse h'' => isFalse (by simp [h''])
      else isFalse (by simp [h'])
end

instance : DecidableEq Key := decEq

mutual
/-- Single keys come first, by their bytes; threshold keys by threshold, then child by child. -/
def order : Key → Key → Ordering
  | .single a, .single b => compare a b
  | .single _, .composite .. => .lt
  | .composite .., .single _ => .gt
  | .composite s cs, .composite t ds => (compare s t).then (orderChildren cs ds)

def orderChildren : List (Key × UInt32) → List (Key × UInt32) → Ordering
  | [], [] => .eq
  | [], _ :: _ => .lt
  | _ :: _, [] => .gt
  | (k, v) :: cs, (l, w) :: ds =>
    ((order k l).then (compare v w)).then (orderChildren cs ds)
end

instance : Ord Key := ⟨order⟩

def Child.order (c d : Child) : Ordering := (Key.order c.1 d.1).then (compare c.2 d.2)

def isComposite : Key → Bool
  | .single _ => false
  | .composite .. => true

mutual
/-- The single keys of a tree in order, as often as they stand in it. -/
def leaves : Key → List PointCode
  | .single a => [a]
  | .composite _ cs => leavesOfChildren cs

def leavesOfChildren : List (Key × UInt32) → List PointCode
  | [] => []
  | (k, _) :: cs => leaves k ++ leavesOfChildren cs
end

/-- Keeps the first of equal elements. -/
def firsts {α : Type} [DecidableEq α] : List α → List α → List α
  | seen, [] => seen.reverse
  | seen, a :: as => if a ∈ seen then firsts seen as else firsts (a :: seen) as

theorem mem_firsts {α : Type} [DecidableEq α] {a : α} {seen as : List α} :
    a ∈ firsts seen as ↔ a ∈ seen ∨ a ∈ as := by
  fun_induction firsts seen as with
  | case1 => simp
  | case2 seen b as hb ih => grind
  | case3 seen b as hb ih => grind

/-- The different single keys of a tree, in the order of their first places. -/
def leafKeys (k : Key) : List PointCode := firsts [] k.leaves

@[simp] theorem mem_leafKeys {k : Key} {a : PointCode} : a ∈ k.leafKeys ↔ a ∈ k.leaves := by
  simp [leafKeys, mem_firsts]

mutual
def toText : Key → String
  | .single a => a.toHex
  | .composite t cs =>
    s!"Composite(threshold={t}, children=[" ++ ", ".intercalate (textsOfChildren cs) ++ "])"

def textsOfChildren : List (Key × UInt32) → List String
  | [] => []
  | (k, w) :: cs => (s!"{w}*" ++ toText k) :: textsOfChildren cs
end

end Key

end LedgerNotary

/-! When a threshold key is sound: on every level a positive threshold that the weights reach,
positive weights and no child twice, and at most eight levels. -/

namespace LedgerNotary.Key

/-- How many threshold keys may stand inside one another. -/
def maxDepth : Nat := 8

/-- Adds a weight to a sum of 64 bits, which stops at the end of its range. -/
def addWeight (total : UInt64) (w : UInt32) : UInt64 :=
  UInt64.ofNat (min (total.toNat + w.toNat) (UInt64.size - 1))

def sumWeights : UInt64 → List Child → UInt64
  | total, [] => total
  | total, (_, w) :: cs => sumWeights (addWeight total w) cs

/-- Checks the children in turn against the keys seen before them. -/
def checkChildren : List Key → List Child → Except KeyDefect Unit
  | _, [] => .ok ()
  | seen, (k, w) :: cs =>
    if w = 0 then .error .zeroWeight
    else if k ∈ seen then .error .duplicateChild
    else checkChildren (k :: seen) cs

def checkLevel (threshold : UInt32) (children : List Child) : Except KeyDefect Unit := do
  if threshold = 0 then throw .zeroThreshold
  if children.isEmpty then throw .noChildren
  checkChildren [] children
  if sumWeights 0 children < threshold.toUInt64 then throw .unreachable

mutual
/-- The rules for all levels, of which `levels` are left. -/
def checkBelow (levels : Nat) : Key → Except KeyDefect Unit
  | .single _ => .ok ()
  | .composite t cs =>
    match levels with
    | 0 => .error .tooDeep
    | levels + 1 => do
      checkLevel t cs
      checkAllBelow levels cs

def checkAllBelow (levels : Nat) : List (Key × UInt32) → Except KeyDefect Unit
  | [] => .ok ()
  | (k, _) :: cs => do
    checkBelow levels k
    checkAllBelow levels cs
end

/-- Whether a key obeys the rules; single keys do. -/
def check (k : Key) : Except KeyDefect Unit := checkBelow maxDepth k

/-- Puts a child in front of the first one not below it. -/
def insertChild (c : Child) : List Child → List Child
  | [] => [c]
  | d :: cs => if (Child.order c d).isLE then c :: d :: cs else d :: insertChild c cs

theorem insertChild_perm (c : Child) (cs : List Child) : (insertChild c cs).Perm (c :: cs) := by
  fun_induction insertChild c cs with
  | case1 => rfl
  | case2 => rfl
  | case3 d cs _ ih => exact (ih.cons d).trans (.swap c d cs)

def sortChildren (children : List Child) : List Child := children.foldr insertChild []

theorem sortChildren_perm (cs : List Child) : (sortChildren cs).Perm cs := by
  induction cs with
  | nil => rfl
  | cons c cs ih => exact (insertChild_perm c _).trans (ih.cons c)

/-- The threshold key over the children given, in any order. -/
def ofChildren (threshold : UInt32) (children : List Child) : Except KeyDefect Key := do
  let key := Key.composite threshold (sortChildren children)
  check key
  return key

/-- The threshold key over keys of weight one. -/
def ofKeys (threshold : UInt32) (keys : List Key) : Except KeyDefect Key :=
  ofChildren threshold (keys.map fun k => (k, 1))

/-! When signing keys together stand for a key: a single key by being among them, a sound threshold
key when the children they stand for weigh enough. -/

mutual
/-- The threshold rule, followed through `levels` levels. -/
def metBelow (keys : List Key) (levels : Nat) : Key → Bool
  | .single a => decide (.single a ∈ keys)
  | .composite t cs =>
    match levels with
    | 0 => false
    | levels + 1 => t ≠ 0 && t.toUInt64 ≤ metTotal keys levels 0 cs

def metTotal (keys : List Key) (levels : Nat) : UInt64 → List (Key × UInt32) → UInt64
  | total, [] => total
  | total, (k, w) :: cs =>
    metTotal keys levels (if metBelow keys levels k then addWeight total w else total) cs
end

/-- Whether the owners of `keys` can sign for `k`; an unsound threshold key is met by nobody. -/
def fulfilledBy (k : Key) (keys : List Key) : Bool :=
  match check k with
  | .error _ => false
  | .ok _ => metBelow keys maxDepth k

end LedgerNotary.Key
