import LedgerNotary.Proofs.Index.Commit

/-! A commit is one exact check-and-set: all states of a batch are recorded, or nothing is.

The content of an index is compared as it is stored. On disk that is encoded entries, some of which
may hold no record at all. -/

namespace LedgerNotary

open Outcome Plan

theorem Conflict.find?_ofEntries {as : List (StateRef × Consumption)}
    (hn : (as.map Prod.fst).Nodup) {x : StateRef} {r : Consumption} :
    (ofEntries as).history.find? x = some r ↔ (x, r) ∈ as := by
  rw [SortedMap.find?_eq_some, ofEntries, SortedMap.ofList,
    SortedMap.mem_entries_insertAll hn fun _ _ => SortedMap.find?_empty _]
  exact or_iff_right List.not_mem_nil

theorem DurableIndex.lookup_eq_none {m : DurableIndex} {x : StateRef} :
    m.lookup x = .ok none ↔ m.cells.find? (Wire.pack x) = none := by
  unfold lookup
  cases m.cells.find? (Wire.pack x) with
  | none => simp
  | some s => simp [map_eq_ok]

structure Batch where
  states : List StateRef
  txId : Digest
  party : Party
deriving DecidableEq

namespace Index

/-- An entry as it is stored. -/
inductive Cell
  | plain (state : StateRef) (record : Consumption)
  | encoded (key value : Bytes)

def cells : Index → List Cell
  | .volatile m => m.records.entries.map fun (x, r) => .plain x r
  | .durable m => m.cells.entries.map fun (k, v) => .encoded k v

def cell (i : Index) (x : StateRef) (r : Consumption) : Cell :=
  match i with
  | .volatile _ => .plain x r
  | .durable _ => .encoded (Wire.pack x) (Wire.pack r)

def submit (i : Index) (b : Batch) : Except IndexFault Unit × Index :=
  i.commit b.states b.txId b.party

variable {i : Index} {b : Batch} {fresh : List (StateRef × Consumption)}

theorem find?_pack_eq_none {m : DurableIndex}
    (hf : ∀ x ∈ fresh.map Prod.fst, (durable m).lookup x = .ok none) :
    ∀ k ∈ (fresh.map fun (x, r) => (Wire.pack x, Wire.pack r)).map Prod.fst,
      m.cells.find? k = none := by
  intro k hk
  rw [List.map_map] at hk
  obtain ⟨e, he, rfl⟩ := List.mem_map.1 hk
  exact DurableIndex.lookup_eq_none.1 (hf e.1 (List.mem_map_of_mem he))

theorem mem_cells_record (hn : (fresh.map Prod.fst).Nodup)
    (hf : ∀ x ∈ fresh.map Prod.fst, i.lookup x = .ok none) {c : Cell} :
    c ∈ (i.record fresh).cells ↔ c ∈ i.cells ∨ ∃ x r, (x, r) ∈ fresh ∧ c = i.cell x r := by
  cases i with
  | volatile m =>
    have hf' : ∀ x ∈ fresh.map Prod.fst, m.records.find? x = none := fun x hx =>
      Except.ok.inj (hf x hx)
    simp only [cells, record, List.mem_map, SortedMap.mem_entries_insertAll hn hf', or_and_right,
      exists_or, cell, Prod.exists, eq_comm (a := c)]
  | durable m =>
    simp only [cells, record, List.mem_map (l := SortedMap.entries _),
      SortedMap.mem_entries_insertAll (nodup_pack hn) (find?_pack_eq_none hf), or_and_right,
      exists_or, cell]
    refine or_congr_right ⟨?_, ?_⟩
    · rintro ⟨p, hp, rfl⟩
      obtain ⟨⟨x, r⟩, hx, rfl⟩ := List.mem_map.1 hp
      exact ⟨x, r, hx, rfl⟩
    · rintro ⟨x, r, hx, rfl⟩
      exact ⟨_, List.mem_map_of_mem hx, rfl⟩

theorem size_record (hn : (fresh.map Prod.fst).Nodup)
    (hf : ∀ x ∈ fresh.map Prod.fst, i.lookup x = .ok none) :
    (i.record fresh).size = i.size + fresh.length := by
  cases i with
  | volatile m => exact SortedMap.size_insertAll hn fun x hx => Except.ok.inj (hf x hx)
  | durable m =>
    have hs := SortedMap.size_insertAll (nodup_pack hn) (find?_pack_eq_none hf)
    rwa [List.length_map] at hs

theorem committed_submit (i : Index) (b : Batch) :
    i.Committed b.states b.txId b.party (i.submit b) :=
  i.committed_commit b.states b.txId b.party

theorem submit_of_ok (h : (i.submit b).1 = .ok ()) :
    (i.submit b).2 = i.record (entries i.lookup b.states b.txId b.party) :=
  (commit_eq_ok.1 (Prod.ext h rfl)).2.2

theorem submit_fst_eq_ok :
    (i.submit b).1 = .ok () ↔ i.Grants b.states b.txId ∧ i.Writes b.states b.party := by
  constructor
  · intro h
    obtain ⟨hg, hw, -⟩ := commit_eq_ok.1 (Prod.ext h rfl)
    exact ⟨hg, hw⟩
  · rintro ⟨hg, hw⟩
    exact congrArg Prod.fst (commit_eq_ok.2 ⟨hg, hw, rfl⟩)

theorem submit_of_ne_ok (h : (i.submit b).1 ≠ .ok ()) : (i.submit b).2 = i := by
  generalize hs : i.submit b = c at h ⊢
  cases hs ▸ i.committed_submit b with
  | granted hg hw => exact absurd rfl h
  | _ => rfl

theorem toNat_idxOf {states : List StateRef} {x : StateRef} (h : states.length < UInt32.size)
    (hx : x ∈ states) : (UInt32.ofNat (states.idxOf x)).toNat = states.idxOf x :=
  UInt32.toNat_ofNat_of_lt' (Nat.lt_trans (List.idxOf_lt_length_of_mem hx) h)

theorem mem_cells_submit (h : (i.submit b).1 = .ok ()) {c : Cell} :
    c ∈ (i.submit b).2.cells ↔ c ∈ i.cells ∨ ∃ x ∈ b.states, i.lookup x = .ok none ∧
      c = i.cell x ⟨b.txId, UInt32.ofNat (b.states.idxOf x), b.party⟩ := by
  rw [submit_of_ok h, mem_cells_record (nodup_entries _) fun _ hx => (mem_map_entries.1 hx).2]
  refine or_congr_right ⟨?_, ?_⟩
  · rintro ⟨x, r, hm, rfl⟩
    obtain ⟨hx, hn, rfl⟩ := mem_entries.1 hm
    exact ⟨x, hx, hn, rfl⟩
  · rintro ⟨x, hx, hn, rfl⟩
    exact ⟨x, _, mem_entries.2 ⟨hx, hn, rfl⟩, rfl⟩

theorem of_conflict {k : Conflict} (h : (i.submit b).1 = .error (.conflict k)) :
    (∀ x ∈ b.states, ∃ r?, i.lookup x = .ok r?) ∧
      ∀ x r, k.history.find? x = some r ↔
        x ∈ b.states ∧ i.lookup x = .ok (some r) ∧ r.txId ≠ b.txId := by
  generalize hs : i.submit b = c at h
  cases hs ▸ i.committed_submit b with
  | contested hl hd =>
    rw [Except.error.injEq, IndexFault.conflict.injEq] at h
    refine ⟨hl, fun x r => ?_⟩
    rw [← h, Conflict.find?_ofEntries (nodup_disputes _), mem_disputes]
  | _ => cases h

def zeroOutput (n : UInt32) : StateRef := ⟨.zero 32, n⟩

def nobody : Party := ⟨"nobody", .single ⟨.zero 33⟩⟩

def foreignRecord : Consumption := ⟨⟨List.replicate 32 1, List.length_replicate⟩, 5, nobody⟩

/-- On disk the first output is consumed by another transaction than the second, the third has no
record that can be read, and the fourth has none; one key is not that of a state. -/
def spoilt : DurableIndex :=
  (((DurableIndex.empty.plant (Wire.pack (zeroOutput 0)) (Wire.pack foreignRecord)).plant
      (Wire.pack (zeroOutput 1)) (Wire.pack (⟨.zero 32, 0, nobody⟩ : Consumption))).plant
      (Wire.pack (zeroOutput 2)) [255]).plant [] [0]

/-- What is fresh and what is consumed already, listed twice over. -/
def contestedBatch : Batch :=
  ⟨[zeroOutput 3, zeroOutput 1, zeroOutput 3, zeroOutput 0, zeroOutput 1], .zero 32, nobody⟩

end Index

end LedgerNotary
