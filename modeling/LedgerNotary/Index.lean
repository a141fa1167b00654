import LedgerNotary.Identity
import LedgerNotary.SortedMap

/-! What the index of consumed states holds of a state, and the conflict between a request and
that record. -/

namespace LedgerNotary

/-- Which transaction consumed a state, at which of its inputs, and who asked for that. -/
structure Consumption where
  txId : Digest
  inputIndex : UInt32
  party : Party
deriving DecidableEq

/-- The states that other transactions have consumed. -/
structure Conflict where
  history : SortedMap StateRef Consumption
deriving DecidableEq

namespace Consumption

instance : Wire Consumption :=
  Wire.record (fun c => (c.txId, c.inputIndex, c.party))
    (fun (txId, inputIndex, party) => ⟨txId, inputIndex, party⟩)

instance : JsonForm Consumption where
  toJson c := .obj [("id", toJson c.txId), ("input_index", toJson c.inputIndex),
    ("requesting_party", toJson c.party)]
  fromJson := Json.record 3 fun r =>
    Consumption.mk <$> r.field 0 "id" <*> r.field 1 "input_index" <*> r.field 2 "requesting_party"

end Consumption

namespace Conflict

def ofEntries (entries : List (StateRef × Consumption)) : Conflict := ⟨.ofList entries⟩

/-- Entries are read in any order and written ascending. -/
instance : Wire Conflict := Wire.record (·.history.entries) ofEntries

instance : JsonForm Conflict where
  toJson c := .obj [("state_history", toJson c.history.entries)]
  fromJson := Json.record 1 fun r => ofEntries <$> r.field 0 "state_history"

def toText (c : Conflict) : String :=
  ", ".intercalate (c.history.entries.map fun (state, record) =>
    state.toText ++ " consumed by " ++ Digest.toHex record.txId)

end Conflict

/-- Why the index refuses a request or cannot answer. -/
inductive IndexFault
  | conflict (contested : Conflict)
  | storage (reason : String)
  | corrupt (reason : String)
deriving DecidableEq

namespace IndexFault

def message : IndexFault → String
  | .conflict contested => "input states already consumed: " ++ contested.toText
  | .storage reason => "uniqueness store failure: " ++ reason
  | .corrupt reason => "corrupt uniqueness record: " ++ reason

/-- A record that has no encoding is reported like one that cannot be read. -/
def unwritable (fault : Wire.Fault) : IndexFault := .corrupt (ValueFault.malformed fault).message

end IndexFault

/-! What a request to consume states comes to, before anything is written.

A state listed twice counts at its first place. A state that the same transaction has consumed is
not contested, one that another has consumed is, and the rest are to be recorded. -/

structure Plan where
  fresh : List (StateRef × Consumption)
  contested : List (StateRef × Consumption)

namespace Plan

/-- Sorts the states, the first of which stands at `place`, behind the plan made so far. -/
def extend (existing : StateRef → Except IndexFault (Option Consumption)) (txId : Digest)
    (party : Party) : Nat → List StateRef → Plan → List StateRef → Except IndexFault Plan
  | _, _, plan, [] => .ok ⟨plan.fresh.reverse, plan.contested.reverse⟩
  | place, seen, plan, state :: rest =>
    if state ∈ seen then extend existing txId party (place + 1) seen plan rest
    else do
      let plan ← (existing state).map fun
        | some record =>
          if record.txId = txId then plan
          else { plan with contested := (state, record) :: plan.contested }
        | none =>
          { plan with fresh := (state, ⟨txId, UInt32.ofNat place, party⟩) :: plan.fresh }
      extend existing txId party (place + 1) (state :: seen) plan rest

def make (existing : StateRef → Except IndexFault (Option Consumption)) (states : List StateRef)
    (txId : Digest) (party : Party) : Except IndexFault Plan :=
  extend existing txId party 0 [] ⟨[], []⟩ states

def resolve (plan : Plan) : Except IndexFault (List (StateRef × Consumption)) :=
  if plan.contested.isEmpty then .ok plan.fresh
  else .error (.conflict (.ofEntries plan.contested))

def grant (existing : StateRef → Except IndexFault (Option Consumption)) (states : List StateRef)
    (txId : Digest) (party : Party) : Except IndexFault (List (StateRef × Consumption)) := do
  let plan ← make existing states txId party
  plan.resolve

end Plan

/-! The index of consumed states in memory. -/

structure VolatileIndex where
  records : SortedMap StateRef Consumption
deriving DecidableEq

namespace VolatileIndex

def empty : VolatileIndex := ⟨.empty⟩

def lookup (i : VolatileIndex) (state : StateRef) : Option Consumption := i.records.find? state

def size (i : VolatileIndex) : Nat := i.records.size

/-- Records the states as consumed by the transaction, or reports those that another has. -/
def commit (i : VolatileIndex) (states : List StateRef) (txId : Digest) (party : Party) :
    Except IndexFault Unit × VolatileIndex :=
  match Plan.grant (fun s => .ok (i.lookup s)) states txId party with
  | .error e => (.error e, i)
  | .ok fresh => (.ok (), ⟨i.records.insertAll fresh⟩)

end VolatileIndex

/-! The index of consumed states as it is kept on disk: encoded states, ascending as byte strings,
with encoded records. What a record holds is only found out when it is read.

The sound store assumption: once it is open, the store does not fail. It holds what was last put
into it, also after it has been closed and opened again, it keeps what a transaction has written
that ends well, and drops what one has written that is aborted. So flushing it at the end of a
commit is no step of its own here, and a fault of storage is met only where an index is opened. -/

structure DurableIndex where
  cells : SortedMap Bytes Bytes
deriving DecidableEq

namespace DurableIndex

def empty : DurableIndex := ⟨.empty⟩

def readCell (α : Type) [Wire α] (s : Bytes) : Except IndexFault α :=
  match Wire.read s with
  | .ok a => .ok a
  | .error fault => .error (.corrupt fault.message)

def lookup (i : DurableIndex) (state : StateRef) : Except IndexFault (Option Consumption) :=
  match i.cells.find? (Wire.pack state) with
  | none => .ok none
  | some s => (readCell Consumption s).map some

def size (i : DurableIndex) : Nat := i.cells.size

/-- All states with their records in the order of the encoded states. -/
def entries (i : DurableIndex) : Except IndexFault (List (StateRef × Consumption)) :=
  i.cells.entries.mapM fun (k, v) => do
    let state ← readCell StateRef k
    let record ← readCell Consumption v
    return (state, record)

def plant (i : DurableIndex) (key value : Bytes) : DurableIndex := ⟨i.cells.insert key value⟩

/-- Puts records into the index one by one, up to the first that has no encoding. -/
def write : List (StateRef × Consumption) → DurableIndex → Except IndexFault Unit × DurableIndex
  | [], i => (.ok (), i)
  | (state, record) :: rest, i =>
    match Wire.encode record with
    | .ok s => write rest (i.plant (Wire.pack state) s)
    | .error fault => (.error (.unwritable fault), i)

/-- Runs a change of the index as one transaction: if it fails, all that it has written is dropped
with it. -/
def transact (change : DurableIndex → Except IndexFault Unit × DurableIndex) (i : DurableIndex) :
    Except IndexFault Unit × DurableIndex :=
  match change i with
  | (.ok _, i') => (.ok (), i')
  | (.error e, _) => (.error e, i)

def commit (i : DurableIndex) (states : List StateRef) (txId : Digest) (party : Party) :
    Except IndexFault Unit × DurableIndex :=
  i.transact fun i =>
    match Plan.grant i.lookup states txId party with
    | .error e => (.error e, i)
    | .ok fresh => i.write fresh

end DurableIndex

/-! The index of consumed states of either kind. -/

inductive Index
  | volatile (index : VolatileIndex)
  | durable (index : DurableIndex)

namespace Index

def lookup (i : Index) (state : StateRef) : Except IndexFault (Option Consumption) :=
  match i with
  | .volatile i => .ok (i.lookup state)
  | .durable i => i.lookup state

def size : Index → Nat
  | .volatile i => i.size
  | .durable i => i.size

def commit (i : Index) (states : List StateRef) (txId : Digest) (party : Party) :
    Except IndexFault Unit × Index :=
  match i with
  | .volatile i => (i.commit states txId party).map id .volatile
  | .durable i => (i.commit states txId party).map id .durable

end Index

end LedgerNotary
