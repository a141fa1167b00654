import LedgerNotary.Proofs.Index.FirstWriter
import LedgerNotary.Proofs.Index.Refinement

/-! Batches without a state in common do not notice each other.

A batch reads the records of its own states and writes records of its own states, so of two that
share none either may come first. Where two batches do share states, the first takes them. -/

namespace LedgerNotary

open Plan

namespace Plan

variable {existing existing' : StateRef → Except IndexFault (Option Consumption)}
  {states : List StateRef}

theorem extend_congr (h : ∀ x ∈ states, existing x = existing' x) (txId : Digest) (party : Party)
    (place : Nat) (seen : List StateRef) (plan : Plan) :
    extend existing txId party place seen plan states =
      extend existing' txId party place seen plan states := by
  induction states generalizing place seen plan with
  | nil => rfl
  | cons x rest ih =>
    obtain ⟨hx, hrest⟩ := List.forall_mem_cons.1 h
    simp only [extend, hx, ih hrest]

theorem grant_congr (h : ∀ x ∈ states, existing x = existing' x) (txId : Digest) (party : Party) :
    grant existing states txId party = grant existing' states txId party := by
  rw [grant, grant, make, make, extend_congr h]

end Plan

namespace Index

def answers : Index → List Batch → List (Except IndexFault Unit)
  | _, [] => []
  | i, b :: bs => (i.submit b).1 :: (i.submit b).2.answers bs

/-- The records that a batch makes, none if it is refused. -/
def writes (i : Index) (b : Batch) : List (StateRef × Consumption) :=
  match grant i.lookup b.states b.txId b.party with
  | .ok fresh => if ∀ e ∈ fresh, i.Keeps e.2.party then fresh else []
  | .error _ => []

variable {i j : Index} {b c : Batch} {bs cs : List Batch}

theorem submit_snd (i : Index) (b : Batch) : (i.submit b).2 = i.record (i.writes b) := by
  rw [submit, commit_eq, writes]
  cases grant i.lookup b.states b.txId b.party with
  | error e => exact i.record_nil.symm
  | ok fresh =>
    simp only [put]
    split
    · rfl
    · exact i.record_nil.symm

theorem writes_cases (i : Index) (b : Batch) :
    i.writes b = [] ∨ i.writes b = entries i.lookup b.states b.txId b.party := by
  rw [writes]
  cases hg : grant i.lookup b.states b.txId b.party with
  | error e => exact Or.inl rfl
  | ok fresh =>
    simp only [← (grant_eq_ok.1 hg).2]
    split
    · exact Or.inr rfl
    · exact Or.inl rfl

theorem nodup_writes (i : Index) (b : Batch) : ((i.writes b).map Prod.fst).Nodup := by
  rcases i.writes_cases b with h | h
  · rw [h]
    exact List.nodup_nil
  · rw [h]
    exact nodup_entries b.states

theorem mem_states_of_mem_writes {x : StateRef} (h : x ∈ (i.writes b).map Prod.fst) :
    x ∈ b.states := by
  rcases i.writes_cases b with hw | hw
  · rw [hw] at h
    cases h
  · rw [hw] at h
    exact (mem_map_entries.1 h).1

section Congruence

variable (hl : ∀ x ∈ b.states, i.lookup x = j.lookup x) (hk : ∀ p, i.Keeps p ↔ j.Keeps p)
include hl hk

theorem writes_congr : i.writes b = j.writes b := by
  simp only [writes, grant_congr hl, hk]

theorem submit_fst_congr : (i.submit b).1 = (j.submit b).1 := by
  rw [submit, submit, commit_eq, commit_eq, grant_congr hl]
  cases grant j.lookup b.states b.txId b.party with
  | error e => rfl
  | ok fresh =>
    simp only [put, hk]
    split <;> rfl

end Congruence

theorem keeps_submit (i : Index) (b : Batch) (p : Party) :
    (i.submit b).2.Keeps p ↔ i.Keeps p := by
  rw [submit_snd, keeps_record]

theorem lookup_submit_of_notMem {x : StateRef} (h : x ∉ b.states) :
    (i.submit b).2.lookup x = i.lookup x := by
  rw [submit_snd, lookup_record_of_notMem (mt mem_states_of_mem_writes h)]

theorem record_comm {as bs : List (StateRef × Consumption)} (ha : (as.map Prod.fst).Nodup)
    (hb : (bs.map Prod.fst).Nodup) (h : (as.map Prod.fst).Disjoint (bs.map Prod.fst)) :
    (i.record as).record bs = (i.record bs).record as := by
  cases i with
  | volatile m =>
    exact congrArg (fun r => volatile ⟨r⟩) (SortedMap.insertAll_comm ha hb fun _ hk hl => h hk hl)
  | durable d =>
    refine congrArg (fun r => durable ⟨r⟩)
      (SortedMap.insertAll_comm (nodup_pack ha) (nodup_pack hb) fun k hk hl => ?_)
    rw [List.map_map] at hk
    obtain ⟨e, he, rfl⟩ := List.mem_map.1 hk
    exact h (List.mem_map_of_mem he) (pack_mem_map_pack.1 hl)

section Disjoint

variable (h : b.states.Disjoint c.states)
include h

theorem lookup_submit_of_disjoint : ∀ x ∈ c.states, (i.submit b).2.lookup x = i.lookup x :=
  fun _ hx => lookup_submit_of_notMem fun hb => h hb hx

theorem submit_fst_of_disjoint : ((i.submit b).2.submit c).1 = (i.submit c).1 :=
  submit_fst_congr (lookup_submit_of_disjoint h) (i.keeps_submit b)

theorem submit_comm : ((i.submit b).2.submit c).2 = ((i.submit c).2.submit b).2 := by
  have hd : ((i.writes b).map Prod.fst).Disjoint ((i.writes c).map Prod.fst) := fun x hb hc =>
    h (mem_states_of_mem_writes hb) (mem_states_of_mem_writes hc)
  calc ((i.submit b).2.submit c).2
      = (i.record (i.writes b)).record (i.writes c) := by
        rw [submit_snd, writes_congr (lookup_submit_of_disjoint h) (i.keeps_submit b), submit_snd]
    _ = (i.record (i.writes c)).record (i.writes b) :=
        record_comm (i.nodup_writes b) (i.nodup_writes c) hd
    _ = ((i.submit c).2.submit b).2 := by
        rw [submit_snd, writes_congr (lookup_submit_of_disjoint h.symm) (i.keeps_submit c),
          submit_snd]

end Disjoint

/-- Whether no two of some batches share a state. -/
def Independent (bs : List Batch) : Prop := bs.Pairwise fun b c => b.states.Disjoint c.states

theorem Independent.perm (h : Independent bs) (hp : bs.Perm cs) : Independent cs :=
  hp.pairwise h fun hd => hd.symm

/-- Every batch is answered as if it were the only one. -/
theorem Independent.answers_eq (h : Independent bs) (i : Index) :
    i.answers bs = bs.map fun b => (i.submit b).1 := by
  induction bs generalizing i with
  | nil => rfl
  | cons b bs ih =>
    obtain ⟨hb, hbs⟩ := List.pairwise_cons.1 h
    rw [answers, ih hbs, List.map_cons]
    exact congrArg _ (List.map_congr_left fun c hc => submit_fst_of_disjoint (hb c hc))

theorem Independent.after_perm (h : Independent bs) (hp : bs.Perm cs) (i : Index) :
    i.after bs = i.after cs := by
  induction hp generalizing i with
  | nil => rfl
  | cons b hp ih => exact ih (List.pairwise_cons.1 h).2 _
  | swap b c bs =>
    have hd := (List.pairwise_cons.1 h).1 b List.mem_cons_self
    exact congrArg (after · bs) (submit_comm hd)
  | trans hp hq ihp ihq => exact (ihp h i).trans (ihq (h.perm hp) i)

/-- Whether the first of two batches takes the states of both: the other is refused for exactly
these, with the records of the first, and leaves no trace. -/
structure FirstWins (i : Index) (b c : Batch) : Prop where
  answers : ∃ k, i.answers [b, c] = [.ok (), .error (.conflict k)] ∧
    ∀ x r, k.history.find? x = some r ↔ x ∈ b.states ∧ x ∈ c.states ∧ r = b.record x
  recorded : ∀ x ∈ b.states, (i.after [b, c]).lookup x = .ok (some (b.record x))
  after : i.after [b, c] = i.after [b]

theorem exists_conflict (hl : ∀ x ∈ b.states, ∃ r?, i.lookup x = .ok r?) {x : StateRef}
    {r : Consumption} (hx : x ∈ b.states) (hr : i.lookup x = .ok (some r)) (hne : r.txId ≠ b.txId) :
    ∃ k, i.submit b = (.error (.conflict k), i) := by
  have other (hg : i.Grants b.states b.txId) : False := by
    obtain ⟨r?, hr', ht⟩ := hg x hx
    exact hne (ht r (Except.ok.inj (hr'.symm.trans hr)))
  generalize hs : i.submit b = c
  cases hs ▸ i.committed_submit b with
  | corrupt y reason hy he =>
    obtain ⟨r?, hr⟩ := hl y hy
    cases he.symm.trans hr
  | contested => exact ⟨_, rfl⟩
  | unwritable hg | granted hg => exact absurd hg other

section FirstWins

variable (hb : ∀ x ∈ b.states, i.lookup x = .ok none) (hk : i.Recalls b.party)
include hb hk

theorem submit_fst_of_fresh : (i.submit b).1 = .ok () :=
  submit_fst_eq_ok.2 ⟨fun x hx => ⟨none, hb x hx, nofun⟩, fun _ _ _ => hk.keeps⟩

theorem lookup_submit_of_fresh {x : StateRef} (hx : x ∈ b.states) :
    (i.submit b).2.lookup x = .ok (some (b.record x)) := by
  have hm : (x, b.record x) ∈ entries i.lookup b.states b.txId b.party :=
    mem_entries.2 ⟨hx, hb x hx, rfl⟩
  rw [submit_of_ok (submit_fst_of_fresh hb hk), lookup_record_of_mem (nodup_entries _) hm]
  exact Recalls.stored_eq hk

theorem firstWins (hc : ∀ x ∈ c.states, i.lookup x = .ok none) (hne : b.txId ≠ c.txId)
    (hs : ∃ x ∈ b.states, x ∈ c.states) : i.FirstWins b c := by
  -- what the second batch finds: the records of the first, and none at the rest of its states
  have hl : ∀ x ∈ c.states, (i.submit b).2.lookup x =
      .ok (if x ∈ b.states then some (b.record x) else none) := by
    intro x hx
    by_cases hxb : x ∈ b.states
    · rw [if_pos hxb, lookup_submit_of_fresh hb hk hxb]
    · rw [if_neg hxb, lookup_submit_of_notMem hxb, hc x hx]
  obtain ⟨k, hsub⟩ : ∃ k, (i.submit b).2.submit c = (.error (.conflict k), (i.submit b).2) := by
    obtain ⟨x, hxb, hxc⟩ := hs
    exact exists_conflict (fun y hy => ⟨_, hl y hy⟩) hxc (by rw [hl x hxc, if_pos hxb]) hne
  have hafter : i.after [b, c] = i.after [b] := by
    change ((i.submit b).2.submit c).2 = (i.submit b).2
    rw [hsub]
  refine ⟨⟨k, ?_, fun x r => ?_⟩, fun x hx => ?_, hafter⟩
  · rw [answers, answers, answers, submit_fst_of_fresh hb hk, hsub]
  · rw [(of_conflict (congrArg Prod.fst hsub)).2]
    constructor
    · rintro ⟨hxc, hr, -⟩
      rw [hl x hxc] at hr
      grind
    · rintro ⟨hxb, hxc, rfl⟩
      exact ⟨hxc, by rw [hl x hxc, if_pos hxb], hne⟩
  · rw [hafter]
    exact lookup_submit_of_fresh hb hk hx

end FirstWins

/-- In whatever order batches come of which no two share a state, each is answered as if it were the
only one, and the index is the same after them. Of two transactions that ask for a state in common,
none of whose states is recorded, the one that comes first wins. -/
theorem commits_commute (i : Index) :
    (∀ bs cs : List Batch, bs.Perm cs → Independent bs →
      i.answers bs = bs.map (fun b => (i.submit b).1) ∧
      i.answers cs = cs.map (fun b => (i.submit b).1) ∧ i.after bs = i.after cs) ∧
    ∀ b c : Batch, b.txId ≠ c.txId → (∃ x ∈ b.states, x ∈ c.states) →
      (∀ x, x ∈ b.states ∨ x ∈ c.states → i.lookup x = .ok none) →
      i.Recalls b.party → i.Recalls c.party → i.FirstWins b c ∧ i.FirstWins c b := by
  refine ⟨fun bs cs hp h => ⟨h.answers_eq i, (h.perm hp).answers_eq i, h.after_perm hp i⟩, ?_⟩
  intro b c hne ⟨x, hxb, hxc⟩ hnone hkb hkc
  have hb : ∀ x ∈ b.states, i.lookup x = .ok none := fun x hx => hnone x (Or.inl hx)
  have hc : ∀ x ∈ c.states, i.lookup x = .ok none := fun x hx => hnone x (Or.inr hx)
  exact ⟨firstWins hb hkb hc hne ⟨x, hxb, hxc⟩, firstWins hc hkc hb hne.symm ⟨x, hxc, hxb⟩⟩

/-- Asks for what cannot be read on the spoilt disk. -/
def illegibleBatch : Batch := ⟨[zeroOutput 2, zeroOutput 2], .zero 32, somebody⟩

/-- Two outputs, of which the spoilt disk has no record. -/
def earlyBatch : Batch := ⟨[zeroOutput 4, zeroOutput 5, zeroOutput 4], .zero 32, nobody⟩

/-- One of these outputs and another. -/
def lateBatch : Batch := ⟨[zeroOutput 6, zeroOutput 5], .ofNatBE 32 1, somebody⟩

theorem commits_commute_spoilt :
    Independent [contestedBatch, illegibleBatch, earlyBatch] ∧
    (durable spoilt).answers [contestedBatch, illegibleBatch, earlyBatch] =
      [contestedBatch, illegibleBatch, earlyBatch].map (fun b => ((durable spoilt).submit b).1) ∧
    (durable spoilt).after [contestedBatch, illegibleBatch, earlyBatch] =
      (durable spoilt).after [earlyBatch, illegibleBatch, contestedBatch] ∧
    (∀ x, x ∈ earlyBatch.states ∨ x ∈ lateBatch.states →
      (durable spoilt).lookup x = .ok none) ∧
    (durable spoilt).FirstWins earlyBatch lateBatch ∧
    (durable spoilt).FirstWins lateBatch earlyBatch := by
  obtain ⟨hind, hrace⟩ := commits_commute (durable spoilt)
  have hi : Independent [contestedBatch, illegibleBatch, earlyBatch] := by
    unfold Independent List.Disjoint
    decide
  have hp := List.reverse_perm [earlyBatch, illegibleBatch, contestedBatch]
  obtain ⟨ha, -, hafter⟩ := hind _ _ hp hi
  have hnone : ∀ x, x ∈ earlyBatch.states ∨ x ∈ lateBatch.states →
      (durable spoilt).lookup x = .ok none := by
    have hall : ∀ x ∈ earlyBatch.states ++ lateBatch.states,
        (durable spoilt).lookup x = .ok none := by decide +kernel
    exact fun x hx => hall x (List.mem_append.2 hx)
  have hn : nobody.Writable := ⟨by decide, .single _⟩
  have hs : somebody.Writable := ⟨by decide, .single _⟩
  exact ⟨hi, ha, hafter, hnone,
    hrace earlyBatch lateBatch (by decide) ⟨zeroOutput 5, by decide, by decide⟩ hnone hn hs⟩

end Index

end LedgerNotary
