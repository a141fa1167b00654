import LedgerNotary.Proofs.Index.CheckAndSet
import Mathlib.Data.Finset.Card

/-! The index is an append-only record of who consumed a state first.

What a sequence of batches leaves behind is told from the batches that were granted: each of their
states has the record that the first of them to list it asks for, and there is nothing else. -/

namespace LedgerNotary

open Plan

namespace Batch

/-- The record that a batch asks for, at the first place of the state. -/
def record (b : Batch) (x : StateRef) : Consumption :=
  ⟨b.txId, UInt32.ofNat (b.states.idxOf x), b.party⟩

def first? (bs : List Batch) (x : StateRef) : Option Batch := bs.find? fun b => x ∈ b.states

theorem first?_eq_none {bs : List Batch} {x : StateRef} :
    first? bs x = none ↔ ∀ b ∈ bs, x ∉ b.states := by
  simp [first?]

theorem of_first? {bs : List Batch} {x : StateRef} {b : Batch} (h : first? bs x = some b) :
    b ∈ bs ∧ x ∈ b.states :=
  ⟨List.mem_of_find?_eq_some h, by simpa using List.find?_some h⟩

theorem first?_append (as bs : List Batch) (x : StateRef) :
    first? (as ++ bs) x = (first? as x).or (first? bs x) := List.find?_append

theorem first?_concat_eq_some {as : List Batch} {x : StateRef} {a b : Batch} :
    first? (as ++ [b]) x = some a ↔
      first? as x = some a ∨ first? as x = none ∧ x ∈ b.states ∧ b = a := by
  rw [first?_append]
  cases first? as x with
  | some a' => simp
  | none => by_cases hx : x ∈ b.states <;> simp [first?, hx]

def allStates (bs : List Batch) : Finset StateRef := (bs.flatMap (·.states)).toFinset

theorem mem_allStates {bs : List Batch} {x : StateRef} :
    x ∈ allStates bs ↔ ∃ b ∈ bs, x ∈ b.states := by
  simp [allStates]

theorem allStates_append (as bs : List Batch) :
    allStates (as ++ bs) = allStates as ∪ allStates bs := by
  simp [allStates, List.toFinset_append]

end Batch

open Batch

namespace Index

def granted : Index → List Batch → List Batch
  | _, [] => []
  | i, b :: bs =>
    match i.submit b with
    | (.ok _, i) => b :: granted i bs
    | (.error _, i) => granted i bs

def after (i : Index) (bs : List Batch) : Index := bs.foldl (fun i b => (i.submit b).2) i

/-- Whether an index holds what some batches, each granted in turn, leave behind. -/
structure Follows (i : Index) (as : List Batch) : Prop where
  absent : ∀ x, first? as x = none → i.lookup x = .ok none
  first : ∀ x a, first? as x = some a →
    i.lookup x = i.stored (a.record x) ∧ i.cell x (a.record x) ∈ i.cells
  agree : ∀ x a, first? as x = some a → ∀ b ∈ as, x ∈ b.states → b.txId = a.txId
  size : i.size = (allStates as).card

variable {i : Index} {as bs : List Batch} {b : Batch}

theorem stored_ne_none (i : Index) (r : Consumption) : i.stored r ≠ .ok none := fun h => by
  obtain ⟨s, hs, -⟩ := txId_of_stored h
  cases hs

theorem stored_record (i : Index) (fresh : List (StateRef × Consumption)) :
    (i.record fresh).stored = i.stored := by
  cases i <;> rfl

theorem cell_record (i : Index) (fresh : List (StateRef × Consumption)) :
    (i.record fresh).cell = i.cell := by
  cases i <;> rfl

theorem follows_nil (h : i.size = 0) : i.Follows [] where
  absent x _ := by
    cases i with
    | volatile m =>
      have he : m.records.entries = [] := List.length_eq_zero_iff.1 h
      simp [lookup, VolatileIndex.lookup, SortedMap.find?, he, SortedMap.lookup]
    | durable m =>
      have he : m.cells.entries = [] := List.length_eq_zero_iff.1 h
      simp [lookup, DurableIndex.lookup, SortedMap.find?, he, SortedMap.lookup]
  first := by simp [first?]
  agree := by simp [first?]
  size := by simp [h, allStates]

theorem lookup_submit_of_ne_none {x : StateRef} (hx : i.lookup x ≠ .ok none) (b : Batch) :
    (i.submit b).2.lookup x = i.lookup x := by
  by_cases h : (i.submit b).1 = .ok ()
  · exact lookup_commit (Prod.ext h rfl) hx
  · rw [submit_of_ne_ok h]

theorem Follows.lookup_ne_none (hi : i.Follows as) {x : StateRef} :
    i.lookup x ≠ .ok none ↔ ∃ a ∈ as, x ∈ a.states := by
  cases hf : first? as x with
  | none =>
    refine iff_of_false (not_not_intro (hi.absent x hf)) ?_
    rintro ⟨a, ha, hx⟩
    exact first?_eq_none.1 hf a ha hx
  | some a => exact iff_of_true ((hi.first x a hf).1 ▸ i.stored_ne_none _) ⟨a, of_first? hf⟩

/-- The records to be made are for the states that no batch has listed before. -/
theorem Follows.length_entries (hi : i.Follows as) (b : Batch) :
    (entries i.lookup b.states b.txId b.party).length = (allStates [b] \ allStates as).card := by
  have hfresh : ((entries i.lookup b.states b.txId b.party).map Prod.fst).toFinset =
      allStates [b] \ allStates as := by
    ext x
    rw [List.mem_toFinset, mem_map_entries, Finset.mem_sdiff, mem_allStates, mem_allStates,
      ← hi.lookup_ne_none, not_not]
    exact and_congr_left fun _ => by simp
  rw [← hfresh, List.toFinset_card_of_nodup (nodup_entries _), List.length_map]

theorem Follows.submit (hi : i.Follows as) (h : (i.submit b).1 = .ok ()) :
    (i.submit b).2.Follows (as ++ [b]) where
  absent x hx := by
    obtain ⟨ha, hb⟩ := Option.or_eq_none_iff.1 (first?_append as [b] x ▸ hx)
    have hxb := first?_eq_none.1 hb b (List.mem_singleton_self b)
    rw [submit_of_ok h, lookup_record_of_notMem fun hm => hxb (mem_map_entries.1 hm).1,
      hi.absent x ha]
  first x a ha := by
    rw [mem_cells_submit h, submit_of_ok h, stored_record, cell_record]
    rcases first?_concat_eq_some.1 ha with hf | ⟨hf, hx, rfl⟩
    · obtain ⟨hl, hc⟩ := hi.first x a hf
      have hkept := lookup_submit_of_ne_none (hl ▸ i.stored_ne_none _) b
      rw [submit_of_ok h] at hkept
      exact ⟨hkept.trans hl, Or.inl hc⟩
    · have hn := hi.absent x hf
      exact ⟨lookup_record_of_mem (nodup_entries _) (mem_entries.2 ⟨hx, hn, rfl⟩),
        Or.inr ⟨x, hx, hn, rfl⟩⟩
  agree x a ha c hc hx := by
    rw [List.mem_append, List.mem_singleton] at hc
    rcases first?_concat_eq_some.1 ha with hf | ⟨hf, -, rfl⟩
    · rcases hc with hc | rfl
      · exact hi.agree x a hf c hc hx
      · -- the record that the new batch finds is of its transaction, or it were not granted
        obtain ⟨r?, hr, ht⟩ := (submit_fst_eq_ok.1 h).1 x hx
        obtain ⟨r, hs, hid⟩ := txId_of_stored ((hi.first x a hf).1.symm.trans hr)
        exact (ht r hs).symm.trans hid
    · rcases hc with hc | rfl
      · exact absurd hx (first?_eq_none.1 hf c hc)
      · rfl
  size := by
    rw [submit_of_ok h, size_record (nodup_entries _) fun _ hx => (mem_map_entries.1 hx).2, hi.size,
      hi.length_entries, allStates_append, Finset.union_comm, Nat.add_comm,
      Finset.card_sdiff_add_card]

theorem granted_cons_of_ok (h : (i.submit b).1 = .ok ()) :
    i.granted (b :: bs) = b :: (i.submit b).2.granted bs := by
  rw [granted]
  split
  · next he => rw [he]
  · next he => simp [he] at h

theorem granted_cons_of_ne_ok (h : (i.submit b).1 ≠ .ok ()) :
    i.granted (b :: bs) = i.granted bs := by
  rw [granted]
  split
  · next he => simp [he] at h
  · next he => rw [← submit_of_ne_ok h, he]

theorem after_append (i : Index) (bs later : List Batch) :
    i.after (bs ++ later) = (i.after bs).after later := List.foldl_append

theorem granted_append (i : Index) (bs later : List Batch) :
    i.granted (bs ++ later) = i.granted bs ++ (i.after bs).granted later := by
  induction bs generalizing i with
  | nil => rfl
  | cons b bs ih =>
    by_cases h : (i.submit b).1 = .ok ()
    · rw [List.cons_append, granted_cons_of_ok h, granted_cons_of_ok h, ih]
      rfl
    · rw [List.cons_append, granted_cons_of_ne_ok h, granted_cons_of_ne_ok h, ih]
      simp only [after, List.foldl_cons, submit_of_ne_ok h]

theorem mem_of_mem_granted {a : Batch} (h : a ∈ i.granted bs) : a ∈ bs := by
  induction bs generalizing i with
  | nil => exact h
  | cons b bs ih =>
    by_cases hb : (i.submit b).1 = .ok ()
    · rw [granted_cons_of_ok hb] at h
      rcases List.mem_cons.1 h with rfl | h
      · exact List.mem_cons_self
      · exact List.mem_cons_of_mem b (ih h)
    · exact List.mem_cons_of_mem b (ih (granted_cons_of_ne_ok hb ▸ h))

/-- Whatever batches come, the index follows those that are granted. -/
theorem Follows.after (hi : i.Follows as) (bs : List Batch) :
    (i.after bs).Follows (as ++ i.granted bs) := by
  induction bs generalizing i as with
  | nil => simpa [Index.after, granted] using hi
  | cons b bs ih =>
    by_cases h : (i.submit b).1 = .ok ()
    · have ho := ih (hi.submit h)
      rwa [List.append_assoc, List.singleton_append, ← granted_cons_of_ok h] at ho
    · rw [granted_cons_of_ne_ok h]
      have hs : i.after (b :: bs) = i.after bs := by
        simp only [Index.after, List.foldl_cons, submit_of_ne_ok h]
      exact hs ▸ ih hi

theorem lookup_after_of_ne_none {x : StateRef} (hx : i.lookup x ≠ .ok none) (bs : List Batch) :
    (i.after bs).lookup x = i.lookup x := by
  induction bs generalizing i with
  | nil => rfl
  | cons b bs ih =>
    have hb := lookup_submit_of_ne_none hx b
    exact (ih (hb ▸ hx)).trans hb

/-- After any batches, exactly the states that some granted batch lists have a record. It is the
one that the first of these batches asks for; it stays, and whatever is granted later is of the same
transaction. -/
theorem first_writer {i : Index} (h : i.size = 0) {bs : List Batch}
    (hb : ∀ b ∈ bs, b.states.length < UInt32.size) (later : List Batch) :
    (∀ x, (i.after bs).lookup x ≠ .ok none ↔ ∃ a ∈ i.granted bs, x ∈ a.states) ∧
    (∀ x a, first? (i.granted bs) x = some a → ∃ r,
      (i.after bs).lookup x = (i.after bs).stored r ∧
        (i.after bs).cell x r ∈ (i.after bs).cells ∧
        r.txId = a.txId ∧ r.party = a.party ∧ r.inputIndex.toNat = a.states.idxOf x ∧
        ∀ b ∈ i.granted (bs ++ later), x ∈ b.states → b.txId = r.txId) ∧
    (∀ x, (i.after bs).lookup x ≠ .ok none →
      (i.after (bs ++ later)).lookup x = (i.after bs).lookup x) ∧
    (i.after bs).size = (allStates (i.granted bs)).card := by
  have follows (bs : List Batch) : (i.after bs).Follows (i.granted bs) := (follows_nil h).after bs
  refine ⟨fun x => (follows bs).lookup_ne_none, fun x a ha => ?_, fun x hx => ?_, (follows bs).size⟩
  · obtain ⟨hl, hc⟩ := (follows bs).first x a ha
    obtain ⟨hm, hx⟩ := of_first? ha
    have ha' : first? (i.granted (bs ++ later)) x = some a := by
      rw [granted_append, first?_append, ha, Option.some_or]
    exact ⟨a.record x, hl, hc, rfl, rfl, toNat_idxOf (hb a (mem_of_mem_granted hm)) hx,
      (follows (bs ++ later)).agree x a ha'⟩
  · rw [after_append]
    exact lookup_after_of_ne_none hx later

def somebody : Party := ⟨"somebody", .single ⟨.zero 33⟩⟩

def opening : Batch := ⟨[zeroOutput 0, zeroOutput 1, zeroOutput 0], .zero 32, nobody⟩

/-- Spends one state of the opening in another transaction. -/
def rival : Batch := ⟨[zeroOutput 2, zeroOutput 1], ⟨List.replicate 32 1, rfl⟩, somebody⟩

/-- Asks for a state of the opening and a new one, in the same transaction. -/
def sequel : Batch := ⟨[zeroOutput 1, zeroOutput 2], .zero 32, somebody⟩

theorem first_writer_opening :
    (volatile .empty).size = 0 ∧
    (∀ b ∈ [opening, rival, sequel], b.states.length < UInt32.size) ∧
    (volatile .empty).granted [opening, rival, sequel] = [opening, sequel] ∧
    (∃ r, ((volatile .empty).after [opening, rival, sequel]).lookup (zeroOutput 1) =
        ((volatile .empty).after [opening, rival, sequel]).stored r ∧
      r.txId = .zero 32 ∧ r.party = nobody ∧ r.inputIndex.toNat = 1) ∧
    ((volatile .empty).after [opening, rival, sequel]).size = 3 := by
  have hb : ∀ b ∈ [opening, rival, sequel], b.states.length < UInt32.size := by decide
  have hg : (volatile .empty).granted [opening, rival, sequel] = [opening, sequel] := by
    decide +kernel
  obtain ⟨-, hfirst, -, hsize⟩ := first_writer (i := volatile .empty) rfl hb [rival]
  obtain ⟨r, hl, -, hid, hp, hn, -⟩ := hfirst (zeroOutput 1) opening (by rw [hg]; rfl)
  refine ⟨rfl, hb, hg, ⟨r, hl, hid, hp, hn⟩, ?_⟩
  rw [hsize, hg]
  decide

end Index

end LedgerNotary
