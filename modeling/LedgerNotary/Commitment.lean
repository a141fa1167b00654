import LedgerNotary.Value

/-! The nonces and leaves of a transaction's commitment.

Nonces come from the salt and the position; a leaf is the hash of a component with its nonce; the
root of an empty group is the hash of the nonce of the group as a whole. -/

namespace LedgerNotary.Commitment

def position (n : UInt32) : Bytes := Bytes.ofNatLE 4 n.toNat

def componentNonce (salt : Salt) (group component : UInt32) : Digest :=
  Digest.of .componentNonce [salt.bytes, position group, position component]

def groupNonce (salt : Salt) (group : UInt32) : Digest :=
  Digest.of .groupNonce [salt.bytes, position group]

def componentLeaf (component : Bytes) (nonce : Digest) : Digest :=
  Digest.of .componentLeaf [component, nonce.bytes]

def emptyGroupRoot (nonce : Digest) : Digest :=
  Digest.of .emptyGroup [(Octets.zero 32).bytes, nonce.bytes]

end LedgerNotary.Commitment

/-! Merkle trees over lists of digests. A level with an odd number of nodes is extended by its last
node; a single node is its own root. -/

namespace LedgerNotary.Merkle

def parent (left right : Digest) : Digest := Digest.of .merkleNode [left.bytes, right.bytes]

/-- The parents of neighbours; an odd last node is its own neighbour. -/
def nextLevel : List Digest → List Digest
  | a :: b :: rest => parent a b :: nextLevel rest
  | [a] => [parent a a]
  | [] => []

theorem length_nextLevel (level : List Digest) :
    (nextLevel level).length = (level.length + 1) / 2 := by
  fun_induction nextLevel level <;> grind

/-- Reduces level by level, at most `levels` times. -/
def reduce : Nat → List Digest → Option Digest
  | _, [] => none
  | _, [a] => some a
  | 0, _ => none
  | levels + 1, level => reduce levels (nextLevel level)

/-- A level of `n` nodes takes fewer than `n` rounds, so reducing never runs out of them. -/
theorem isSome_reduce {levels : Nat} {level : List Digest} (h : level ≠ [])
    (hl : level.length ≤ levels) : (reduce levels level).isSome := by
  fun_induction reduce levels level with
  | case1 => exact absurd rfl h
  | case2 => rfl
  | case3 => simp_all
  | case4 levels level h₀ h₁ ih =>
    have hn := length_nextLevel level
    have : 2 ≤ level.length := by
      match level with
      | [] => exact absurd rfl h
      | [a] => exact absurd rfl (h₁ a)
      | _ :: _ :: _ => simp
    refine ih (fun e => ?_) (by omega)
    rw [e] at hn
    simp at hn
    omega

def root? (leaves : List Digest) : Option Digest := reduce leaves.length leaves

@[simp] theorem root?_singleton (leaf : Digest) : root? [leaf] = some leaf := rfl

theorem root?_eq_none_iff {leaves : List Digest} : root? leaves = none ↔ leaves = [] := by
  refine ⟨fun h => ?_, fun h => h ▸ rfl⟩
  by_cases hne : leaves = []
  · exact hne
  · have hs := isSome_reduce hne (Nat.le_refl leaves.length)
    rw [show reduce leaves.length leaves = none from h] at hs
    cases hs

end LedgerNotary.Merkle

/-! Component groups: what a transaction holds, as encoded components of one kind in order, and
their commitment. A group's place in the transaction fixes its kind. -/

namespace LedgerNotary

inductive GroupKind
  | inputs
  | outputs
  | commands
  | attachments
  | notary
  | timeWindow
deriving DecidableEq, Repr

namespace GroupKind

def all : List GroupKind := [.inputs, .outputs, .commands, .attachments, .notary, .timeWindow]

def index : GroupKind → UInt32
  | .inputs => 0
  | .outputs => 1
  | .commands => 2
  | .attachments => 3
  | .notary => 4
  | .timeWindow => 5

def ofIndex? (i : UInt32) : Option GroupKind := all.find? (·.index == i)

theorem ofIndex?_index (k : GroupKind) : ofIndex? k.index = some k := by cases k <;> rfl

/-- Whether a transaction has at most one component of this kind. -/
def isSingleton : GroupKind → Bool
  | .notary | .timeWindow => true
  | _ => false

def name : GroupKind → String
  | .inputs => "Inputs"
  | .outputs => "Outputs"
  | .commands => "Commands"
  | .attachments => "Attachments"
  | .notary => "Notary"
  | .timeWindow => "TimeWindow"

instance : JsonForm GroupKind where
  toJson k := .str k.name
  fromJson := Json.variant fun name content =>
    match all.find? (·.name == name) with
    | some k => Json.bare k content
    | none => .error .shape

end GroupKind

structure Group where
  components : List Bytes
deriving DecidableEq

namespace Group

def ofValues {α : Type} [Wire α] (values : List α) : Except ValueFault Group := do
  return ⟨← values.mapM fun a => (Wire.encode a).mapError .malformed⟩

def leaves (g : Group) (salt : Salt) (index : UInt32) : List Digest :=
  g.components.zipIdx.map fun (c, i) =>
    Commitment.componentLeaf c (Commitment.componentNonce salt index (UInt32.ofNat i))

/-- The root over the leaves, or the placeholder of a group without components. -/
def root (g : Group) (salt : Salt) (index : UInt32) : Digest :=
  (Merkle.root? (g.leaves salt index)).getD
    (Commitment.emptyGroupRoot (Commitment.groupNonce salt index))

def roots (groups : List Group) (salt : Salt) : List Digest :=
  groups.zipIdx.map fun (g, i) => g.root salt (UInt32.ofNat i)

@[simp] theorem length_roots (groups : List Group) (salt : Salt) :
    (roots groups salt).length = groups.length := by simp [roots]

/-- How many positions a number of 32 bits can tell apart. -/
def maxPositions : Nat := 4294967296

/-- Positions and sizes that the commitment can express. -/
def checkShape (groups : List Group) : Except LayoutDefect Unit := do
  if groups.isEmpty then throw .noGroups
  if maxPositions ≤ groups.length then throw .tooManyGroups
  if groups.any fun g => maxPositions ≤ g.components.length then throw .tooManyComponents

def transactionId (groups : List Group) (salt : Salt) : Except LayoutDefect Digest := do
  checkShape groups
  match Merkle.root? (roots groups salt) with
  | some id => return id
  | none => throw .noLeaves

instance : Wire Group := Wire.record Group.components Group.mk

instance : JsonForm Group where
  toJson g := .obj [("components", toJson g.components)]
  fromJson := Json.record 1 fun r => Group.mk <$> r.field 0 "components"

end Group

end LedgerNotary
