import LedgerNotary.Proofs.Index.Plan
import LedgerNotary.Proofs.Wire.Format

/-! What a commit does to the index of consumed states, of either kind.

The durable index may hold a record that cannot be read back. It is not told apart here whether that
happens: a state is held for a transaction when whatever a look-up finds of it names that
transaction. -/

namespace LedgerNotary

open Outcome Plan

namespace Index

variable {i i' : Index} {states : List StateRef} {txId : Digest} {party : Party}

/-- The index answers for every state, and no other transaction has one. -/
def Grants (i : Index) (states : List StateRef) (txId : Digest) : Prop :=
  ∀ x ∈ states, ∃ r?, i.lookup x = .ok r? ∧ ∀ r, r? = some r → r.txId = txId

def record (i : Index) (fresh : List (StateRef × Consumption)) : Index :=
  match i with
  | .volatile m => .volatile ⟨m.records.insertAll fresh⟩
  | .durable m =>
    .durable ⟨m.cells.insertAll (fresh.map fun (x, r) => (Wire.pack x, Wire.pack r))⟩

theorem record_nil (i : Index) : i.record [] = i := by
  cases i <;> rfl

theorem lookup_eq_error {x : StateRef} {e : IndexFault} (h : i.lookup x = .error e) :
    ∃ reason, e = .corrupt reason := by
  cases i with
  | volatile m => cases h
  | durable m =>
    simp only [lookup, DurableIndex.lookup] at h
    cases hf : m.cells.find? (Wire.pack x) with
    | none => simp [hf] at h
    | some s =>
      simp only [hf, DurableIndex.readCell] at h
      cases hr : Wire.read (α := Consumption) s with
      | ok r => simp [hr, Except.map] at h
      | error fault =>
        rw [hr] at h
        exact ⟨fault.message, (Except.error.inj h).symm⟩

/-- Whether a record that names the party can be written. In memory there is nothing to write. -/
def Keeps (i : Index) (party : Party) : Prop :=
  match i with
  | .volatile _ => True
  | .durable _ => Wire.sized party = true

instance (i : Index) (party : Party) : Decidable (i.Keeps party) :=
  match i with
  | .volatile _ => inferInstanceAs (Decidable True)
  | .durable _ => inferInstanceAs (Decidable (Wire.sized party = true))

theorem keeps_record (fresh : List (StateRef × Consumption)) :
    (i.record fresh).Keeps party ↔ i.Keeps party := by
  cases i <;> rfl

/-- Whether the records that a request is to make can be written, if it is to make any. -/
def Writes (i : Index) (states : List StateRef) (party : Party) : Prop :=
  ∀ x ∈ states, i.lookup x = .ok none → i.Keeps party

def put (i : Index) (fresh : List (StateRef × Consumption)) : Except IndexFault Unit × Index :=
  if ∀ e ∈ fresh, i.Keeps e.2.party then (.ok (), i.record fresh)
  else (.error (.unwritable .longLength), i)

theorem put_of_keeps {fresh : List (StateRef × Consumption)}
    (h : ∀ e ∈ fresh, i.Keeps e.2.party) : i.put fresh = (.ok (), i.record fresh) := if_pos h

end Index

namespace DurableIndex

variable {d d' : DurableIndex} {fresh : List (StateRef × Consumption)} {e : IndexFault}
  {change : DurableIndex → Except IndexFault Unit × DurableIndex}

theorem write_of_sized (h : ∀ e ∈ fresh, Wire.sized e.2.party = true) (d : DurableIndex) :
    write fresh d =
      (.ok (), ⟨d.cells.insertAll (fresh.map fun (x, r) => (Wire.pack x, Wire.pack r))⟩) := by
  induction fresh generalizing d with
  | nil => rfl
  | cons e fresh ih =>
    obtain ⟨he, hfresh⟩ := List.forall_mem_cons.1 h
    have hs : Wire.encode e.2 = .ok (Wire.pack e.2) := Wire.encode_eq_ok.2 ⟨he, rfl⟩
    rw [write, hs]
    exact ih hfresh _

/-- What has been written before the record without an encoding is left behind. -/
theorem write_of_not_sized (h : ¬ ∀ e ∈ fresh, Wire.sized e.2.party = true) (d : DurableIndex) :
    (write fresh d).1 = .error (.unwritable .longLength) := by
  induction fresh generalizing d with
  | nil => exact absurd nofun h
  | cons e fresh ih =>
    by_cases he : Wire.sized e.2 = true
    · have hs : Wire.encode e.2 = .ok (Wire.pack e.2) := Wire.encode_eq_ok.2 ⟨he, rfl⟩
      rw [write, hs]
      exact ih (fun hfresh => h (List.forall_mem_cons.2 ⟨he, hfresh⟩)) _
    · rw [write, Wire.encode, if_neg he]

theorem transact_of_ok (h : change d = (.ok (), d')) : d.transact change = (.ok (), d') := by
  rw [transact, h]

theorem transact_of_error (h : (change d).1 = .error e) : d.transact change = (.error e, d) := by
  unfold transact
  split
  · next hc => cases hc ▸ h
  · next hc => rw [hc] at h; rw [Except.error.inj h]

end DurableIndex

namespace Index

variable {i i' : Index} {states : List StateRef} {txId : Digest} {party : Party}

theorem commit_eq (i : Index) (states : List StateRef) (txId : Digest) (party : Party) :
    i.commit states txId party =
      match grant i.lookup states txId party with
      | .error e => (.error e, i)
      | .ok fresh => i.put fresh := by
  cases i with
  | volatile m =>
    have hl : (volatile m).lookup = fun s => .ok (m.lookup s) := rfl
    rw [hl, commit, VolatileIndex.commit]
    cases grant (fun s => .ok (m.lookup s)) states txId party with
    | error e => rfl
    | ok fresh => exact (put_of_keeps (i := volatile m) fun _ _ => trivial).symm
  | durable d =>
    have hl : (durable d).lookup = d.lookup := rfl
    rw [hl, commit, DurableIndex.commit]
    cases hg : grant d.lookup states txId party with
    | error e => rw [DurableIndex.transact_of_error (by rw [hg])]; rfl
    | ok fresh =>
      by_cases hk : ∀ e ∈ fresh, (durable d).Keeps e.2.party
      · have hw := DurableIndex.write_of_sized hk d
        rw [DurableIndex.transact_of_ok (by rw [hg]; exact hw)]
        exact (put_of_keeps hk).symm
      · have hw := DurableIndex.write_of_not_sized hk d
        rw [DurableIndex.transact_of_error (by rw [hg]; exact hw)]
        exact (if_neg hk).symm

theorem forall_keeps_entries :
    (∀ e ∈ entries i.lookup states txId party, i.Keeps e.2.party) ↔ i.Writes states party := by
  constructor
  · intro h x hx hn
    exact h (x, ⟨txId, UInt32.ofNat (states.idxOf x), party⟩) (mem_entries.2 ⟨hx, hn, rfl⟩)
  · rintro h ⟨x, r⟩ hm
    obtain ⟨hx, hn, rfl⟩ := mem_entries.1 hm
    exact h x hx hn

/-- What a commit comes to: it fails at a record that cannot be read, or else at the disputes, or
else at a record that cannot be written, or it makes the records that are missing. Where it fails,
the index stays as it is. -/
inductive Committed (i : Index) (states : List StateRef) (txId : Digest) (party : Party) :
    Except IndexFault Unit × Index → Prop
  | corrupt (x : StateRef) (reason : String) (hx : x ∈ states)
      (he : i.lookup x = .error (.corrupt reason)) :
      Committed i states txId party (.error (.corrupt reason), i)
  | contested (hl : ∀ x ∈ states, ∃ r?, i.lookup x = .ok r?)
      (hd : disputes i.lookup states txId ≠ []) :
      Committed i states txId party
        (.error (.conflict (.ofEntries (disputes i.lookup states txId))), i)
  | unwritable (hg : i.Grants states txId) (hw : ¬ i.Writes states party) :
      Committed i states txId party (.error (.unwritable .longLength), i)
  | granted (hg : i.Grants states txId) (hw : i.Writes states party) :
      Committed i states txId party (.ok (), i.record (entries i.lookup states txId party))

theorem committed_commit (i : Index) (states : List StateRef) (txId : Digest) (party : Party) :
    i.Committed states txId party (i.commit states txId party) := by
  rw [commit_eq]
  rcases grant_cases i.lookup states txId party with ⟨x, hx, e, he, hg⟩ | ⟨hl, hg⟩
  · obtain ⟨reason, rfl⟩ := lookup_eq_error he
    rw [hg]
    exact .corrupt x reason hx he
  · by_cases hd : disputes i.lookup states txId = []
    · have hgrants := (grant_eq_ok.1 (hg.trans (if_pos hd))).1
      rw [hg, if_pos hd]
      by_cases hw : i.Writes states party
      · simp only [put_of_keeps (forall_keeps_entries.2 hw)]
        exact .granted hgrants hw
      · simp only [put, if_neg (mt forall_keeps_entries.1 hw)]
        exact .unwritable hgrants hw
    · rw [hg, if_neg hd]
      exact .contested hl hd

theorem Grants.lookup_ne_error (h : i.Grants states txId) {x : StateRef} (hx : x ∈ states)
    {e : IndexFault} : i.lookup x ≠ .error e := by
  obtain ⟨r?, hr, -⟩ := h x hx
  rw [hr]
  exact nofun

theorem Grants.disputes_eq_nil (h : i.Grants states txId) : disputes i.lookup states txId = [] := by
  refine Plan.disputes_eq_nil.2 fun x hx r hr => ?_
  obtain ⟨r?, hr', ht⟩ := h x hx
  exact ht r (Except.ok.inj (hr'.symm.trans hr))

theorem commit_eq_ok : i.commit states txId party = (.ok (), i') ↔
    i.Grants states txId ∧ i.Writes states party ∧
      i' = i.record (entries i.lookup states txId party) := by
  generalize hc : i.commit states txId party = c
  cases hc ▸ i.committed_commit states txId party with
  | corrupt x reason hx he => exact iff_of_false nofun fun h => h.1.lookup_ne_error hx he
  | contested hl hd => exact iff_of_false nofun fun h => hd h.1.disputes_eq_nil
  | unwritable hg hw => exact iff_of_false nofun fun h => hw h.2.1
  | granted hg hw => simp [hg, hw, eq_comm]

/-- What a look-up finds where a record has been put. -/
def stored (i : Index) (r : Consumption) : Except IndexFault (Option Consumption) :=
  match i with
  | .volatile _ => .ok (some r)
  | .durable _ => (DurableIndex.readCell Consumption (Wire.pack r)).map some

theorem txId_of_stored {r : Consumption} {r? : Option Consumption} (h : i.stored r = .ok r?) :
    ∃ s, r? = some s ∧ s.txId = r.txId := by
  cases i with
  | volatile m =>
    cases h
    exact ⟨r, rfl, rfl⟩
  | durable m =>
    simp only [stored, DurableIndex.readCell] at h
    cases hr : Wire.read (α := Consumption) (Wire.pack r) with
    | error fault => simp [hr, Except.map] at h
    | ok s =>
      rw [hr] at h
      cases h
      exact ⟨s, rfl, Consumption.txId_of_read hr⟩

section Record

variable {fresh : List (StateRef × Consumption)} {x : StateRef}

theorem nodup_pack (hn : (fresh.map Prod.fst).Nodup) :
    ((fresh.map fun (x, r) => (Wire.pack x, Wire.pack r)).map Prod.fst).Nodup := by
  have he := List.Nodup.map (fun _ _ h => StateRef.pack_inj h) hn
  rw [List.map_map] at he ⊢
  exact he

theorem pack_mem_map_pack :
    Wire.pack x ∈ (fresh.map fun (x, r) => (Wire.pack x, Wire.pack r)).map Prod.fst ↔
      x ∈ fresh.map Prod.fst := by
  rw [List.map_map]
  constructor
  · intro h
    obtain ⟨⟨y, r⟩, hy, he⟩ := List.mem_map.1 h
    exact StateRef.pack_inj he ▸ List.mem_map_of_mem (f := Prod.fst) hy
  · intro h
    obtain ⟨e, he, rfl⟩ := List.mem_map.1 h
    exact List.mem_map_of_mem he

theorem lookup_record_of_mem (hn : (fresh.map Prod.fst).Nodup) {r : Consumption}
    (hx : (x, r) ∈ fresh) : (i.record fresh).lookup x = i.stored r := by
  cases i with
  | volatile m => exact congrArg Except.ok (SortedMap.find?_insertAll_of_mem hn hx)
  | durable m =>
    have hm : (Wire.pack x, Wire.pack r) ∈
        fresh.map fun (x, r) => (Wire.pack x, Wire.pack r) :=
      List.mem_map_of_mem (f := fun (x, r) => (Wire.pack x, Wire.pack r)) hx
    simp only [lookup, record, DurableIndex.lookup,
      SortedMap.find?_insertAll_of_mem (nodup_pack hn) hm, stored]

theorem lookup_record_of_notMem (hx : x ∉ fresh.map Prod.fst) :
    (i.record fresh).lookup x = i.lookup x := by
  cases i with
  | volatile m => exact congrArg Except.ok (SortedMap.find?_insertAll_of_notMem hx)
  | durable m =>
    simp only [lookup, record, DurableIndex.lookup,
      SortedMap.find?_insertAll_of_notMem (mt pack_mem_map_pack.1 hx)]

end Record

/-- A record once made is not touched. -/
theorem lookup_commit (h : i.commit states txId party = (.ok (), i')) {x : StateRef}
    (hx : i.lookup x ≠ .ok none) : i'.lookup x = i.lookup x := by
  obtain ⟨-, -, rfl⟩ := commit_eq_ok.1 h
  exact lookup_record_of_notMem fun hm => hx (mem_map_entries.1 hm).2

/-- Whatever is found of the state is that the transaction has consumed it. -/
def Holds (i : Index) (x : StateRef) (txId : Digest) : Prop :=
  ∀ r?, i.lookup x = .ok r? → ∃ r, r? = some r ∧ r.txId = txId

theorem holds_of_commit (h : i.commit states txId party = (.ok (), i')) {x : StateRef}
    (hx : x ∈ states) : i'.Holds x txId := by
  intro r? hr
  obtain ⟨hg, -, he⟩ := commit_eq_ok.1 h
  obtain ⟨s?, hs, htx⟩ := hg x hx
  cases s? with
  | none =>
    have hm : (x, _) ∈ entries i.lookup states txId party := mem_entries.2 ⟨hx, hs, rfl⟩
    rw [he, lookup_record_of_mem (nodup_entries states) hm] at hr
    exact txId_of_stored hr
  | some s =>
    rw [lookup_commit h (by simp [hs]), hs, Except.ok.injEq] at hr
    exact ⟨s, hr.symm, htx s rfl⟩

/-- A state that is held stays so, whatever else is committed. -/
theorem Holds.commit {x : StateRef} {id : Digest} (hx : i.Holds x id)
    (h : i.commit states txId party = (.ok (), i')) : i'.Holds x id := by
  have hn : i.lookup x ≠ .ok none := by
    intro hn
    obtain ⟨r, hr, -⟩ := hx none hn
    cases hr
  intro r? hr
  exact hx r? (lookup_commit h hn ▸ hr)

theorem Holds.eq_of_commit {x : StateRef} {id : Digest} (hx : i.Holds x id)
    (h : i.commit states txId party = (.ok (), i')) (hm : x ∈ states) : id = txId := by
  obtain ⟨r?, hr, htx⟩ := (commit_eq_ok.1 h).1 x hm
  obtain ⟨r, he, hid⟩ := hx r? hr
  rw [← hid, htx r he]

end Index

end LedgerNotary
