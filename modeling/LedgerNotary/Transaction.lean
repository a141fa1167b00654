import LedgerNotary.Commitment
import LedgerNotary.Identity
import LedgerNotary.Time

/-! The typed parts of a transaction, read from the components of its groups.

What can be read depends on which groups are visible: all of them in a whole transaction, the
revealed ones in a tear-off. -/

namespace LedgerNotary

/-- A state that a transaction produces, under the contract that governs it. -/
structure OutputState where
  contract : String
  data : Bytes
deriving DecidableEq

structure Command where
  value : Bytes
  signers : List Key
deriving DecidableEq

inductive TearOffDefect
  | noRoots
  | wrongId
  | revealedTwice
  | outOfRange
  | emptyComponents
  | countsDiffer
  | noLeaves
  | wrongRoot
deriving DecidableEq, Repr

def TearOffDefect.message : TearOffDefect → String
  | .noRoots => "no group roots"
  | .wrongId => "group roots do not commit to the transaction id"
  | .revealedTwice => "group revealed twice"
  | .outOfRange => "group index out of range"
  | .emptyComponents => "empty group must be revealed by its group nonce"
  | .countsDiffer => "component and nonce counts differ"
  | .noLeaves => "no leaves"
  | .wrongRoot => "revealed group does not match its root"

inductive TransactionFault
  | layout (defect : LayoutDefect)
  | value (error : ValueFault)
  | tearOff (defect : TearOffDefect)
  | hidden (kind : GroupKind)
deriving DecidableEq, Repr

def TransactionFault.message : TransactionFault → String
  | .layout defect => "invalid argument: " ++ defect.message
  | .value error => error.message
  | .tearOff defect => "filtered transaction invalid: " ++ defect.message
  | .hidden kind => "component group " ++ kind.name ++ " is not revealed"

instance : Wire OutputState :=
  Wire.record (fun o => (o.contract, o.data)) (fun (contract, data) => ⟨contract, data⟩)

instance : JsonForm OutputState where
  toJson o := .obj [("contract", toJson o.contract), ("data", toJson o.data)]
  fromJson := Json.record 2 fun r => OutputState.mk <$> r.field 0 "contract" <*> r.field 1 "data"

instance : Wire Command :=
  Wire.record (fun c => (c.value, c.signers)) (fun (value, signers) => ⟨value, signers⟩)

instance : JsonForm Command where
  toJson c := .obj [("value", toJson c.value), ("signers", toJson c.signers)]
  fromJson := Json.record 2 fun r => Command.mk <$> r.field 0 "value" <*> r.field 1 "signers"

/-- The components of each group that can be seen. -/
abbrev Visible := GroupKind → Except TransactionFault (List Bytes)

namespace Visible

/-- Every component of a kind as a value, up to the first that is none. -/
def decodeAll (α : Type) [Wire α] (v : Visible) (kind : GroupKind) :
    Except TransactionFault (List α) := do
  let components ← v kind
  components.mapM fun c =>
    match Wire.read c with
    | .ok a => .ok a
    | .error fault => .error (.value (.malformed fault))

/-- The value of a kind that occurs at most once. -/
def decodeOne (α : Type) [Wire α] (v : Visible) (kind : GroupKind) :
    Except TransactionFault (Option α) := do
  let values ← v.decodeAll α kind
  if 1 < values.length then throw (.layout .crowdedSingleton)
  return values.getLast?

def inputs (v : Visible) : Except TransactionFault (List StateRef) := v.decodeAll StateRef .inputs

def outputs (v : Visible) : Except TransactionFault (List OutputState) :=
  v.decodeAll OutputState .outputs

def commands (v : Visible) : Except TransactionFault (List Command) :=
  v.decodeAll Command .commands

def attachments (v : Visible) : Except TransactionFault (List Digest) :=
  v.decodeAll Digest .attachments

def notary (v : Visible) : Except TransactionFault (Option Party) := v.decodeOne Party .notary

def validWindow : Option TimeWindow → Except TransactionFault (Option TimeWindow)
  | none => .ok none
  | some w =>
    match w.validate with
    | .ok _ => .ok (some w)
    | .error e => .error (.value e)

def timeWindow (v : Visible) : Except TransactionFault (Option TimeWindow) := do
  validWindow (← v.decodeOne TimeWindow .timeWindow)

end Visible

/-! Whole transactions: groups and salt in a layout that can be notarised. The identifier is the
root over the roots of the groups. -/

namespace Transaction

/-- Every kind has its group, possibly empty, singleton groups hold one component at most, and the
salt is not all zeros. Groups behind those of the known kinds are allowed. -/
def checkLayout (groups : List Group) (salt : Salt) : Except LayoutDefect Unit := do
  Group.checkShape groups
  if groups.length < GroupKind.all.length then throw .missingGroups
  if GroupKind.all.any fun k =>
      k.isSingleton && 1 < (groups.getD k.index.toNat ⟨[]⟩).components.length then
    throw .crowdedSingleton
  if salt.octets.isZero then throw .zeroSalt

end Transaction

structure Transaction where
  groups : List Group
  salt : Salt
  laidOut : Transaction.checkLayout groups salt = .ok ()
deriving DecidableEq

namespace Transaction

def ofGroups (groups : List Group) (salt : Salt) : Except LayoutDefect Transaction :=
  match h : checkLayout groups salt with
  | .ok _ => .ok ⟨groups, salt, h⟩
  | .error defect => .error defect

def roots (t : Transaction) : List Digest := Group.roots t.groups t.salt

def id (t : Transaction) : Digest := (Merkle.root? t.roots).getD (Octets.zero 32)

def group (t : Transaction) (kind : GroupKind) : Group := t.groups.getD kind.index.toNat ⟨[]⟩

def visible (t : Transaction) : Visible := fun kind => .ok (t.group kind).components

/-- The notary that the transaction names. Its layout has one at most, so they are not counted. -/
def notary (t : Transaction) : Except TransactionFault (Option Party) := do
  let parties ← t.visible.decodeAll Party .notary
  return parties.getLast?

def timeWindow (t : Transaction) : Except TransactionFault (Option TimeWindow) := do
  let windows ← t.visible.decodeAll TimeWindow .timeWindow
  Visible.validWindow windows.getLast?

instance : Wire Transaction where
  pack t := Wire.pack (t.groups, t.salt)
  sized t := Wire.sized t.groups
  decode s := do
    let (groups, s) ← (Wire.decode s : Except Wire.Fault (List Group × Bytes))
    let (salt, s) ← (Wire.decode s : Except Wire.Fault (Salt × Bytes))
    match ofGroups groups salt with
    | .ok t => return (t, s)
    | .error defect => throw (.badLayout defect)

end Transaction

/-- The parts from which a transaction is made. -/
structure Draft where
  inputs : List StateRef := []
  outputs : List OutputState := []
  commands : List Command := []
  attachments : List Digest := []
  notary : Option Party := none
  timeWindow : Option TimeWindow := none

namespace Draft

def groups (d : Draft) : Except ValueFault (List Group) := do
  return [← Group.ofValues d.inputs, ← Group.ofValues d.outputs, ← Group.ofValues d.commands,
    ← Group.ofValues d.attachments, ← Group.ofValues d.notary.toList,
    ← Group.ofValues d.timeWindow.toList]

/-- Whether some two neighbours are the same. -/
def twins : List StateRef → Bool
  | [] => false
  | [_] => false
  | x :: y :: rest => x = y || twins (y :: rest)

/-- Whether an input is listed twice. Once sorted, the same inputs stand side by side. -/
def repeats (inputs : List StateRef) : Bool :=
  twins (inputs.mergeSort fun x y => (compare x y).isLE)

/-- Inputs and a window need a notary to see to them, and no input may be listed twice. -/
def check (d : Draft) : Except TransactionFault Unit := do
  if d.notary.isNone && !d.inputs.isEmpty then throw (.layout .inputsWithoutNotary)
  if d.notary.isNone && d.timeWindow.isSome then throw (.layout .windowWithoutNotary)
  if repeats d.inputs then throw (.layout .duplicateInput)
  match d.timeWindow with
  | none => return ()
  | some w =>
    match w.validate with
    | .ok _ => return ()
    | .error e => throw (.value e)

def build (d : Draft) (salt : Salt) : Except TransactionFault Transaction := do
  d.check
  let groups ← d.groups.mapError .value
  (Transaction.ofGroups groups salt).mapError .layout

end Draft

/-! Tear-offs: the roots of all groups of a transaction, and some groups in full.

A revealed group comes with the nonces of its components, or with its own nonce when it is empty,
so that its root can be computed again; the salt stays secret. A tear-off says nothing until it is
verified. -/

inductive RevealedContent
  | components (components : List Bytes) (nonces : List Digest)
  | empty (nonce : Digest)
deriving DecidableEq

structure RevealedGroup where
  index : UInt32
  content : RevealedContent
deriving DecidableEq

structure TearOff where
  id : Digest
  roots : List Digest
  groups : List RevealedGroup
deriving DecidableEq

namespace RevealedContent

def root : RevealedContent → Except TearOffDefect Digest
  | .components cs nonces =>
    if cs.isEmpty then .error .emptyComponents
    else if cs.length ≠ nonces.length then .error .countsDiffer
    else
      match Merkle.root? ((cs.zip nonces).map fun (c, n) => Commitment.componentLeaf c n) with
      | some r => .ok r
      | none => .error .noLeaves
  | .empty nonce => .ok (Commitment.emptyGroupRoot nonce)

def shown : RevealedContent → List Bytes
  | .components cs _ => cs
  | .empty _ => []

instance : Wire RevealedContent where
  pack
    | .components cs nonces => 0 :: Wire.pack (cs, nonces)
    | .empty nonce => 1 :: Wire.pack nonce
  sized
    | .components cs nonces => Wire.sized (cs, nonces)
    | .empty _ => true
  decode := Wire.decodeVariant fun tag s =>
    if tag = 0 then
      Wire.decodeAs (fun (cs, nonces) => RevealedContent.components cs nonces) s
    else if tag = 1 then Wire.decodeAs RevealedContent.empty s
    else .error (.badVariant tag)

instance : JsonForm RevealedContent where
  toJson
    | .components cs nonces =>
      .obj [("Components", .obj [("components", toJson cs), ("nonces", toJson nonces)])]
    | .empty nonce => .obj [("Empty", .obj [("group_nonce", toJson nonce)])]
  fromJson := Json.variant fun name content =>
    if name = "Components" then
      Json.held (Json.members fun r =>
        RevealedContent.components <$> r.field 0 "components" <*> r.field 1 "nonces") content
    else if name = "Empty" then
      Json.held (Json.members fun r => RevealedContent.empty <$> r.field 0 "group_nonce") content
    else .error .shape

end RevealedContent

namespace RevealedGroup

instance : Wire RevealedGroup :=
  Wire.record (fun g => (g.index, g.content)) (fun (index, content) => ⟨index, content⟩)

instance : JsonForm RevealedGroup where
  toJson g := .obj [("group_index", toJson g.index), ("content", toJson g.content)]
  fromJson := Json.record 2 fun r =>
    RevealedGroup.mk <$> r.field 0 "group_index" <*> r.field 1 "content"

end RevealedGroup

namespace TearOff

/-- Checks the revealed groups in turn against their roots, given the places seen before. -/
def checkGroups (roots : List Digest) : List UInt32 → List RevealedGroup → Except TearOffDefect Unit
  | _, [] => .ok ()
  | seen, g :: gs =>
    if g.index ∈ seen then .error .revealedTwice
    else
      match roots[g.index.toNat]? with
      | none => .error .outOfRange
      | some expected => do
        let root ← g.content.root
        if root = expected then checkGroups roots (g.index :: seen) gs else throw .wrongRoot

/-- Checks that the roots stand for the identifier and the revealed groups for their roots. -/
def verify (f : TearOff) : Except TearOffDefect Unit :=
  match Merkle.root? f.roots with
  | none => .error .noRoots
  | some root => if root = f.id then checkGroups f.roots [] f.groups else .error .wrongId

def revealed? (f : TearOff) (kind : GroupKind) : Option RevealedGroup :=
  f.groups.find? (·.index == kind.index)

/-- The components of the revealed groups; any other is hidden. -/
def visible (f : TearOff) : Visible := fun kind =>
  match f.revealed? kind with
  | some g => .ok g.content.shown
  | none => .error (.hidden kind)

instance : Wire TearOff :=
  Wire.record (fun f => (f.id, f.roots, f.groups)) (fun (id, roots, groups) => ⟨id, roots, groups⟩)

instance : JsonForm TearOff where
  toJson f := .obj [("id", toJson f.id), ("group_roots", toJson f.roots),
    ("groups", toJson f.groups)]
  fromJson := Json.record 3 fun r =>
    TearOff.mk <$> r.field 0 "id" <*> r.field 1 "group_roots" <*> r.field 2 "groups"

end TearOff

namespace Transaction

/-- One group with what is needed to compute its root again. The nonces are counted with 32 bits. -/
def reveal (t : Transaction) (kind : GroupKind) : RevealedGroup :=
  let components := (t.group kind).components
  let count := UInt32.ofNat components.length
  ⟨kind.index,
    if components.isEmpty then .empty (Commitment.groupNonce t.salt kind.index)
    else .components components ((List.range count.toNat).map fun i =>
      Commitment.componentNonce t.salt kind.index (UInt32.ofNat i))⟩

/-- The tear-off that reveals the groups of some kinds, each once and in the order of kinds. -/
def tearOff (t : Transaction) (kinds : List GroupKind) : TearOff :=
  ⟨t.id, t.roots, (GroupKind.all.filter (· ∈ kinds)).map t.reveal⟩

end Transaction

end LedgerNotary
