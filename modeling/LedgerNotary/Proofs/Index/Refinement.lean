import LedgerNotary.Proofs.Index.CheckAndSet
import LedgerNotary.Proofs.Key.Canonical

/-! The durable index answers as the volatile one does.

A batch is judged by look-ups alone, so the two part only where a record that was written is not
found again. On disk that takes two encodings: that of a state is injective, and that of a record is
read back. -/

namespace LedgerNotary

open Outcome Plan

namespace Index

inductive Step
  | commit (b : Batch)
  | lookup (x : StateRef)
  | size
  | reopen

inductive Answer
  | committed (outcome : Except IndexFault Unit)
  | found (record? : Except IndexFault (Option Consumption))
  | counted (n : Nat)
  | reopened

/-- A durable index is opened again on the cells that it left on disk; a volatile one is kept. -/
def reopen : Index → Index
  | .volatile m => .volatile m
  | .durable d => .durable ⟨d.cells⟩

def step (i : Index) : Step → Answer × Index
  | .commit b => (.committed (i.submit b).1, (i.submit b).2)
  | .lookup x => (.found (i.lookup x), i)
  | .size => (.counted i.size, i)
  | .reopen => (.reopened, i.reopen)

def run : Index → List Step → List Answer × Index
  | i, [] => ([], i)
  | i, s :: ss =>
    let (a, i) := i.step s
    let (as, i) := run i ss
    (a :: as, i)

def Answer.IsCorrupt (a : Answer) : Prop :=
  ∃ fault, a = .committed (.error (.corrupt fault)) ∨ a = .found (.error (.corrupt fault))

def Step.Writable (s : Step) : Prop := ∀ b, s = .commit b → b.party.Writable

theorem stored_eq (i : Index) {r : Consumption} (h : r.party.Writable) :
    i.stored r = .ok (some r) := by
  cases i with
  | volatile m => rfl
  | durable d =>
    simp only [stored, DurableIndex.readCell, Wire.read_pack (Consumption.fits h)]
    rfl

/-- Whether what an index records for a party is found again. On disk it has to be written first. -/
def Recalls (i : Index) (p : Party) : Prop :=
  match i with
  | .volatile _ => True
  | .durable _ => p.Writable

theorem Recalls.stored_eq {i : Index} {r : Consumption} (h : i.Recalls r.party) :
    i.stored r = .ok (some r) := by
  cases i with
  | volatile m => rfl
  | durable d => exact Index.stored_eq _ h

theorem Recalls.keeps {i : Index} {p : Party} (h : i.Recalls p) : i.Keeps p := by
  cases i with
  | volatile m => trivial
  | durable d => exact Wire.sized_of_fits (Party.Writable.fits h)

end Index

open Index

/-- A durable index that holds what a volatile one does, and nothing that cannot be read. -/
structure Mirrors (d : DurableIndex) (m : VolatileIndex) : Prop where
  lookup : ∀ x, d.lookup x = .ok (m.lookup x)
  size : d.size = m.size
  legible : ∀ c ∈ d.cells.entries, ∃ (x : StateRef) (r : Consumption),
    c = (Wire.pack x, Wire.pack r) ∧ r.party.Writable

variable {d : DurableIndex} {m : VolatileIndex}

theorem mirrors_empty : Mirrors .empty .empty where
  lookup _ := rfl
  size := rfl
  legible := nofun

theorem Mirrors.record (h : Mirrors d m) {fresh : List (StateRef × Consumption)}
    (hn : (fresh.map Prod.fst).Nodup) (hf : ∀ x ∈ fresh.map Prod.fst, m.lookup x = none)
    (hw : ∀ e ∈ fresh, e.2.party.Writable) :
    Mirrors ⟨d.cells.insertAll (fresh.map fun (x, r) => (Wire.pack x, Wire.pack r))⟩
      ⟨m.records.insertAll fresh⟩ := by
  have hfv : ∀ x ∈ fresh.map Prod.fst, (volatile m).lookup x = .ok none := fun x hx =>
    congrArg Except.ok (hf x hx)
  have hfd : ∀ x ∈ fresh.map Prod.fst, (durable d).lookup x = .ok none := fun x hx =>
    (h.lookup x).trans (hfv x hx)
  refine ⟨fun x => ?_, ?_, fun c hc => ?_⟩
  · change ((durable d).record fresh).lookup x = ((volatile m).record fresh).lookup x
    by_cases hx : x ∈ fresh.map Prod.fst
    · obtain ⟨⟨x, r⟩, hr, rfl⟩ := List.mem_map.1 hx
      have hs := hw _ hr
      rw [lookup_record_of_mem hn hr, lookup_record_of_mem hn hr, stored_eq _ hs, stored_eq _ hs]
    · rw [lookup_record_of_notMem hx, lookup_record_of_notMem hx]
      exact h.lookup x
  · have hd := size_record hn hfd
    have hv := size_record hn hfv
    have hs : (durable d).size = (volatile m).size := h.size
    exact hd.trans ((congrArg (· + fresh.length) hs).trans hv.symm)
  · rcases (SortedMap.mem_entries_insertAll (nodup_pack hn) (find?_pack_eq_none hfd)).1 hc with
      hc | hc
    · exact h.legible c hc
    · obtain ⟨⟨x, r⟩, hr, rfl⟩ := List.mem_map.1 hc
      exact ⟨x, r, rfl, hw _ hr⟩

/-- Of one batch both indexes say the same, and never that a record cannot be read. -/
theorem Mirrors.submit (h : Mirrors d m) {b : Batch} (hb : b.party.Writable) :
    ∃ o d' m', (durable d).submit b = (o, durable d') ∧ (volatile m).submit b = (o, volatile m') ∧
      Mirrors d' m' ∧ ∀ fault, o ≠ .error (.corrupt fault) := by
  have hl : (durable d).lookup = (volatile m).lookup := funext h.lookup
  rw [Index.submit, Index.submit, commit_eq, commit_eq, hl]
  rcases grant_cases (volatile m).lookup b.states b.txId b.party with ⟨x, -, e, he, -⟩ | ⟨-, hg⟩
  · cases he
  · by_cases hd : disputes (volatile m).lookup b.states b.txId = []
    · have hw : ∀ e ∈ entries (volatile m).lookup b.states b.txId b.party,
          e.2.party.Writable := by
        rintro ⟨x, r⟩ hr
        obtain ⟨-, -, rfl⟩ := mem_entries.1 hr
        exact hb
      rw [hg, if_pos hd]
      simp only [put_of_keeps (i := durable d) fun e he => Recalls.keeps (i := durable d) (hw e he),
        put_of_keeps (i := volatile m) fun _ _ => trivial]
      refine ⟨_, _, _, rfl, rfl, h.record (nodup_entries _) (fun x hx => ?_) hw, nofun⟩
      exact Except.ok.inj (mem_map_entries.1 hx).2
    · rw [hg, if_neg hd]
      exact ⟨_, d, m, rfl, rfl, h, nofun⟩

theorem Mirrors.step (h : Mirrors d m) {s : Step} (hs : s.Writable) :
    ∃ a d' m', (durable d).step s = (a, durable d') ∧ (volatile m).step s = (a, volatile m') ∧
      Mirrors d' m' ∧ ¬ a.IsCorrupt := by
  cases s with
  | commit b =>
    obtain ⟨o, d', m', hd, hm, h', ho⟩ := h.submit (hs b rfl)
    refine ⟨.committed o, d', m', by rw [Index.step, hd], by rw [Index.step, hm], h', ?_⟩
    rintro ⟨fault, hc | hc⟩ <;> cases hc
    exact ho fault rfl
  | lookup x =>
    refine ⟨.found (.ok (m.lookup x)), d, m, ?_, rfl, h, ?_⟩
    · rw [Index.step, Index.lookup, h.lookup]
    · rintro ⟨fault, hc | hc⟩ <;> cases hc
  | size =>
    refine ⟨.counted m.size, d, m, ?_, rfl, h, ?_⟩
    · rw [Index.step, Index.size, h.size]
    · rintro ⟨fault, hc | hc⟩ <;> cases hc
  | reopen =>
    refine ⟨.reopened, d, m, rfl, rfl, h, ?_⟩
    rintro ⟨fault, hc | hc⟩ <;> cases hc

theorem Mirrors.run (h : Mirrors d m) {ss : List Step} (hs : ∀ s ∈ ss, s.Writable) :
    ∃ as d' m', (durable d).run ss = (as, durable d') ∧ (volatile m).run ss = (as, volatile m') ∧
      Mirrors d' m' ∧ ∀ a ∈ as, ¬ a.IsCorrupt := by
  induction ss generalizing d m with
  | nil => exact ⟨[], d, m, rfl, rfl, h, nofun⟩
  | cons s ss ih =>
    obtain ⟨hs, hss⟩ := List.forall_mem_cons.1 hs
    obtain ⟨a, d', m', hd, hm, h', ha⟩ := h.step hs
    obtain ⟨as, d'', m'', hds, hms, h'', has⟩ := ih h' hss
    refine ⟨a :: as, d'', m'', ?_, ?_, h'', List.forall_mem_cons.2 ⟨ha, has⟩⟩
    · simp only [Index.run, hd, hds]
    · simp only [Index.run, hm, hms]

theorem DurableIndex.readCell_eq_ok {α : Type} [Wire α] {s : Bytes} {a : α} :
    readCell α s = .ok a ↔ Wire.read s = .ok a := by
  unfold readCell
  cases Wire.read (α := α) s <;> simp

theorem DurableIndex.lookup_eq_some {x : StateRef} {r : Consumption} :
    d.lookup x = .ok (some r) ↔
      ∃ s, (Wire.pack x, s) ∈ d.cells.entries ∧ Wire.read s = .ok r := by
  simp only [← SortedMap.find?_eq_some, lookup]
  cases d.cells.find? (Wire.pack x) with
  | none => simp
  | some s => simp [map_eq_ok, readCell_eq_ok]

def DurableIndex.readEntry (c : Bytes × Bytes) : Except IndexFault (StateRef × Consumption) := do
  let state ← readCell StateRef c.1
  let record ← readCell Consumption c.2
  return (state, record)

theorem DurableIndex.readEntry_pack (x : StateRef) {r : Consumption} (h : r.party.Writable) :
    readEntry (Wire.pack x, Wire.pack r) = .ok (x, r) := by
  have hx := readCell_eq_ok.2 (Wire.read_pack x.fits)
  have hr := readCell_eq_ok.2 (Wire.read_pack (Consumption.fits h))
  rw [readEntry, hx, ok_bind, hr]
  rfl

theorem Mirrors.entries (h : Mirrors d m) :
    ∃ es, d.entries = .ok es ∧ (es.map Prod.fst).Nodup ∧
      es.Pairwise (fun a b => compare (Wire.pack a.1) (Wire.pack b.1) = .lt) ∧
      ∀ x r, (x, r) ∈ es ↔ d.lookup x = .ok (some r) := by
  have hread : ∀ c ∈ d.cells.entries, ∃ e : StateRef × Consumption,
      (Wire.pack e.1, Wire.pack e.2) = c ∧ DurableIndex.readEntry c = .ok e := by
    intro c hc
    obtain ⟨x, r, rfl, hr⟩ := h.legible c hc
    exact ⟨(x, r), rfl, DurableIndex.readEntry_pack x hr⟩
  obtain ⟨es, he, hmap⟩ := exists_mapM_eq_ok hread
  have hlt : es.Pairwise fun a b => compare (Wire.pack a.1) (Wire.pack b.1) = .lt := by
    have ha := d.cells.ascending
    rwa [← hmap, List.pairwise_map] at ha
  refine ⟨es, he, List.pairwise_map.2 (hlt.imp fun hab hx => ?_), hlt, fun x r => ?_⟩
  · simp [hx, Std.ReflCmp.compare_self] at hab
  · rw [mem_of_mapM he, DurableIndex.lookup_eq_some]
    constructor
    · rintro ⟨c, hc, hx⟩
      obtain ⟨y, s, rfl, hs⟩ := h.legible c hc
      rw [DurableIndex.readEntry_pack y hs, Except.ok.injEq, Prod.mk.injEq] at hx
      obtain ⟨rfl, rfl⟩ := hx
      exact ⟨_, hc, Wire.read_pack (Consumption.fits hs)⟩
    · rintro ⟨v, hc, hr⟩
      obtain ⟨y, s, hys, hs⟩ := h.legible _ hc
      obtain ⟨hx, rfl⟩ := Prod.mk.inj hys
      obtain rfl := StateRef.pack_inj hx
      obtain rfl := Except.ok.inj (hr.symm.trans (Wire.read_pack (Consumption.fits hs)))
      exact ⟨_, hc, DurableIndex.readEntry_pack x hs⟩

namespace Index

/-- Whatever is asked of an empty durable index, closed and opened again at any time, the answers
are those of a volatile one, and none is that a record cannot be read. The listing holds each
recorded state once, with its record, by the 36 bytes of the state. -/
theorem run_durable {ss : List Step} (hs : ∀ s ∈ ss, s.Writable) :
    ((durable .empty).run ss).1 = ((volatile .empty).run ss).1 ∧
    (∀ a ∈ ((durable .empty).run ss).1, ¬ a.IsCorrupt) ∧
    ∃ d es, ((durable .empty).run ss).2 = .durable d ∧ d.entries = .ok es ∧
      (es.map Prod.fst).Nodup ∧ (∀ e ∈ es, (Wire.pack e.1).length = 36) ∧
      es.Pairwise (fun a b => compare (Wire.pack a.1) (Wire.pack b.1) = .lt) ∧
      ∀ x r, (x, r) ∈ es ↔ d.lookup x = .ok (some r) := by
  obtain ⟨as, d, m, hd, hm, hmirrors, has⟩ := mirrors_empty.run hs
  obtain ⟨es, he, hn, hlt, hmem⟩ := hmirrors.entries
  rw [hd, hm]
  exact ⟨rfl, has, d, es, rfl, he, hn, fun e _ => e.1.length_pack, hlt, hmem⟩

/-- Either of two keys, given in descending order. -/
def eitherKey : Key :=
  .composite 1 [(.single ⟨.zero 33⟩, 1), (.single ⟨.ofNatBE 33 1⟩, 2)]

def board : Party := ⟨"Räte", eitherKey⟩

/-- The board consumes two outputs, the second of which another transaction asks for after the index
has been opened again. -/
def boardRun : List Step :=
  [.commit ⟨[zeroOutput 1, zeroOutput 256], .zero 32, board⟩, .reopen, .lookup (zeroOutput 256),
    .commit ⟨[zeroOutput 256], .ofNatBE 32 1, nobody⟩, .size]

theorem writable_board : board.Writable where
  name := by decide
  key := by
    have made : Key.ofChildren 1 [(.single ⟨.ofNatBE 33 1⟩, 2), (.single ⟨.zero 33⟩, 1)] =
        .ok eitherKey := by decide +kernel
    refine .composite ?_ (by decide) made
    simp [Key.Built.single]

theorem run_durable_board : (∀ s ∈ boardRun, s.Writable) ∧
    ((durable .empty).run boardRun).1 = ((volatile .empty).run boardRun).1 ∧
    ∃ d es, ((durable .empty).run boardRun).2 = .durable d ∧ d.entries = .ok es ∧
      (zeroOutput 256, ⟨.zero 32, 1, board⟩) ∈ es := by
  have hs : ∀ s ∈ boardRun, s.Writable := by
    have hn : nobody.Writable := ⟨by decide, .single _⟩
    simp only [boardRun, List.forall_mem_cons, Step.Writable]
    simp [writable_board, hn]
  have hl : ((durable .empty).run boardRun).2.lookup (zeroOutput 256) =
      .ok (some ⟨.zero 32, 1, board⟩) := by decide +kernel
  obtain ⟨ha, -, d, es, hd, he, -, -, -, hmem⟩ := run_durable hs
  rw [hd] at hl
  exact ⟨hs, ha, d, es, hd, he, (hmem _ _).2 hl⟩

end Index

end LedgerNotary
