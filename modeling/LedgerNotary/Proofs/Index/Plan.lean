import LedgerNotary.Index
import LedgerNotary.Proofs.Outcome
import Mathlib.Data.List.Nodup

/-! What a plan holds of a request: every state once, at its first place, and each of them judged by
what the index said of it. -/

namespace LedgerNotary.Plan

open Outcome

variable {existing : StateRef → Except IndexFault (Option Consumption)} {txId : Digest}
  {party : Party}

/-- The states not seen before, each with its first place; the list begins at a place given. -/
def firsts : Nat → List StateRef → List StateRef → List (StateRef × Nat)
  | _, _, [] => []
  | place, seen, x :: rest =>
    if x ∈ seen then firsts (place + 1) seen rest
    else (x, place) :: firsts (place + 1) (x :: seen) rest

/-- The record to be made of a state of which the index has none. -/
def fresh? (existing : StateRef → Except IndexFault (Option Consumption)) (txId : Digest)
    (party : Party) (e : StateRef × Nat) : Option (StateRef × Consumption) :=
  match existing e.1 with
  | .ok none => some (e.1, ⟨txId, UInt32.ofNat e.2, party⟩)
  | _ => none

def contested? (existing : StateRef → Except IndexFault (Option Consumption)) (txId : Digest)
    (e : StateRef × Nat) : Option (StateRef × Consumption) :=
  match existing e.1 with
  | .ok (some r) => if r.txId = txId then none else some (e.1, r)
  | _ => none

theorem mem_firsts {place : Nat} {seen states : List StateRef} {x : StateRef} {n : Nat} :
    (x, n) ∈ firsts place seen states ↔ x ∈ states ∧ x ∉ seen ∧ n = place + states.idxOf x := by
  fun_induction firsts place seen states with
  | case1 => simp
  | case2 place seen y rest hy ih =>
    rw [ih]
    by_cases hx : x = y
    · simp [hx, hy]
    · rw [List.idxOf_cons_ne _ (Ne.symm hx), List.mem_cons, or_iff_right hx]
      refine and_congr_right fun _ => and_congr_right fun _ => ?_
      omega
  | case3 place seen y rest hy ih =>
    rw [List.mem_cons, ih, Prod.mk.injEq]
    by_cases hx : x = y
    · simp [hx, hy]
    · have hn : n = place + 1 + rest.idxOf x ↔ n = place + (rest.idxOf x + 1) := by omega
      rw [List.idxOf_cons_ne _ (Ne.symm hx), hn]
      simp [hx]

theorem nodup_firsts (place : Nat) (seen states : List StateRef) :
    ((firsts place seen states).map Prod.fst).Nodup := by
  fun_induction firsts place seen states with
  | case1 => simp
  | case2 place seen y rest hy ih => exact ih
  | case3 place seen y rest hy ih =>
    refine List.nodup_cons.2 ⟨fun h => ?_, ih⟩
    obtain ⟨⟨x, n⟩, hm, rfl⟩ := List.mem_map.1 h
    exact (mem_firsts.1 hm).2.1 List.mem_cons_self

theorem extend_eq_ok {place : Nat} {seen states : List StateRef} {plan p : Plan} :
    extend existing txId party place seen plan states = .ok p ↔
      (∀ e ∈ firsts place seen states, ∃ r?, existing e.1 = .ok r?) ∧
      p = ⟨plan.fresh.reverse ++
          (firsts place seen states).filterMap (fresh? existing txId party),
        plan.contested.reverse ++
          (firsts place seen states).filterMap (contested? existing txId)⟩ := by
  induction states generalizing place seen plan with
  | nil => simp [extend, firsts, eq_comm]
  | cons x rest ih =>
    by_cases hx : x ∈ seen
    · simp only [extend, firsts, hx, if_true, ih]
    · simp only [extend, firsts, hx, if_false]
      cases he : existing x with
      | error fault => simp [Except.map, error_bind, he]
      | ok r? =>
        simp only [Except.map, bind_eq_ok, Except.ok.injEq, exists_eq_left', ih,
          List.forall_mem_cons, he, exists_eq', true_and]
        cases r? with
        | none => simp [fresh?, contested?, he]
        | some r => by_cases hr : r.txId = txId <;> simp [fresh?, contested?, he, hr]

theorem make_eq_ok {states : List StateRef} {p : Plan} :
    make existing states txId party = .ok p ↔
      (∀ x ∈ states, ∃ r?, existing x = .ok r?) ∧
      p = ⟨(firsts 0 [] states).filterMap (fresh? existing txId party),
        (firsts 0 [] states).filterMap (contested? existing txId)⟩ := by
  rw [make, extend_eq_ok]
  refine and_congr ⟨fun h x hx => ?_, fun h e he => ?_⟩ (by simp)
  · exact h _ (mem_firsts.2 ⟨hx, List.not_mem_nil, rfl⟩)
  · exact h e.1 (mem_firsts.1 he).1

theorem extend_eq_error {place : Nat} {seen states : List StateRef} {plan : Plan} {e : IndexFault}
    (h : extend existing txId party place seen plan states = .error e) :
    ∃ x ∈ states, existing x = .error e := by
  induction states generalizing place seen plan with
  | nil => cases h
  | cons x rest ih =>
    by_cases hx : x ∈ seen
    · rw [extend, if_pos hx] at h
      obtain ⟨y, hy, he⟩ := ih h
      exact ⟨y, List.mem_cons_of_mem x hy, he⟩
    · rw [extend, if_neg hx] at h
      cases he : existing x with
      | error fault =>
        rw [he, Except.map, error_bind] at h
        exact ⟨x, List.mem_cons_self, he.trans (congrArg _ (Except.error.inj h))⟩
      | ok r? =>
        rw [he] at h
        obtain ⟨y, hy, he⟩ := ih h
        exact ⟨y, List.mem_cons_of_mem x hy, he⟩

def entries (existing : StateRef → Except IndexFault (Option Consumption)) (states : List StateRef)
    (txId : Digest) (party : Party) : List (StateRef × Consumption) :=
  (firsts 0 [] states).filterMap (fresh? existing txId party)

def disputes (existing : StateRef → Except IndexFault (Option Consumption)) (states : List StateRef)
    (txId : Digest) : List (StateRef × Consumption) :=
  (firsts 0 [] states).filterMap (contested? existing txId)

theorem fresh?_eq_some {e : StateRef × Nat} {x : StateRef} {r : Consumption} :
    fresh? existing txId party e = some (x, r) ↔
      e.1 = x ∧ existing x = .ok none ∧ r = ⟨txId, UInt32.ofNat e.2, party⟩ := by
  unfold fresh?
  split <;> grind

theorem contested?_eq_some {e : StateRef × Nat} {x : StateRef} {r : Consumption} :
    contested? existing txId e = some (x, r) ↔
      e.1 = x ∧ existing x = .ok (some r) ∧ r.txId ≠ txId := by
  unfold contested?
  split <;> grind

/-- What is to be written: of each listed state that has no record, one with its first place. -/
theorem mem_entries {states : List StateRef} {x : StateRef} {r : Consumption} :
    (x, r) ∈ entries existing states txId party ↔
      x ∈ states ∧ existing x = .ok none ∧ r = ⟨txId, UInt32.ofNat (states.idxOf x), party⟩ := by
  rw [entries, List.mem_filterMap]
  constructor
  · rintro ⟨⟨y, n⟩, hm, hf⟩
    obtain ⟨rfl, hy, rfl⟩ := fresh?_eq_some.1 hf
    obtain ⟨hs, -, rfl⟩ := mem_firsts.1 hm
    exact ⟨hs, hy, by rw [Nat.zero_add]⟩
  · rintro ⟨hs, hx, rfl⟩
    refine ⟨(x, states.idxOf x), ?_, fresh?_eq_some.2 ⟨rfl, hx, rfl⟩⟩
    exact mem_firsts.2 ⟨hs, List.not_mem_nil, (Nat.zero_add _).symm⟩

theorem mem_map_entries {states : List StateRef} {x : StateRef} :
    x ∈ (entries existing states txId party).map Prod.fst ↔ x ∈ states ∧ existing x = .ok none := by
  rw [List.mem_map]
  constructor
  · rintro ⟨⟨y, r⟩, hm, rfl⟩
    obtain ⟨hx, hn, -⟩ := mem_entries.1 hm
    exact ⟨hx, hn⟩
  · rintro ⟨hx, hn⟩
    exact ⟨_, mem_entries.2 ⟨hx, hn, rfl⟩, rfl⟩

theorem mem_disputes {states : List StateRef} {x : StateRef} {r : Consumption} :
    (x, r) ∈ disputes existing states txId ↔
      x ∈ states ∧ existing x = .ok (some r) ∧ r.txId ≠ txId := by
  rw [disputes, List.mem_filterMap]
  constructor
  · rintro ⟨⟨y, n⟩, hm, hf⟩
    obtain ⟨rfl, hy, hr⟩ := contested?_eq_some.1 hf
    exact ⟨(mem_firsts.1 hm).1, hy, hr⟩
  · rintro ⟨hs, hx, hr⟩
    refine ⟨(x, 0 + states.idxOf x), ?_, contested?_eq_some.2 ⟨rfl, hx, hr⟩⟩
    exact mem_firsts.2 ⟨hs, List.not_mem_nil, rfl⟩

theorem disputes_eq_nil {states : List StateRef} : disputes existing states txId = [] ↔
    ∀ x ∈ states, ∀ r, existing x = .ok (some r) → r.txId = txId := by
  rw [List.eq_nil_iff_forall_not_mem]
  constructor
  · intro h x hx r hr
    by_contra hne
    exact h (x, r) (mem_disputes.2 ⟨hx, hr, hne⟩)
  · rintro h ⟨x, r⟩ hm
    obtain ⟨hx, hr, hne⟩ := mem_disputes.1 hm
    exact hne (h x hx r hr)

theorem nodup_filterMap_firsts {f : StateRef × Nat → Option (StateRef × Consumption)}
    (hf : ∀ e x r, f e = some (x, r) → e.1 = x) (states : List StateRef) :
    (((firsts 0 [] states).filterMap f).map Prod.fst).Nodup := by
  have hn := nodup_firsts 0 [] states
  rw [List.Nodup, List.pairwise_map] at hn ⊢
  refine List.pairwise_filterMap.2 (hn.imp ?_)
  rintro d e hne ⟨x, r⟩ hx ⟨y, s⟩ hy
  rwa [← hf d x r hx, ← hf e y s hy]

theorem nodup_entries (states : List StateRef) :
    ((entries existing states txId party).map Prod.fst).Nodup :=
  nodup_filterMap_firsts (fun _ _ _ h => (fresh?_eq_some.1 h).1) states

theorem nodup_disputes (states : List StateRef) :
    ((disputes existing states txId).map Prod.fst).Nodup :=
  nodup_filterMap_firsts (fun _ _ _ h => (contested?_eq_some.1 h).1) states

theorem grant_cases (existing : StateRef → Except IndexFault (Option Consumption))
    (states : List StateRef) (txId : Digest) (party : Party) :
    (∃ x ∈ states, ∃ e, existing x = .error e ∧ grant existing states txId party = .error e) ∨
      (∀ x ∈ states, ∃ r?, existing x = .ok r?) ∧
        grant existing states txId party =
          if disputes existing states txId = [] then .ok (entries existing states txId party)
          else .error (.conflict (.ofEntries (disputes existing states txId))) := by
  cases hm : make existing states txId party with
  | error e =>
    obtain ⟨x, hx, he⟩ := extend_eq_error hm
    exact Or.inl ⟨x, hx, e, he, by rw [grant, hm, error_bind]⟩
  | ok p =>
    obtain ⟨hok, rfl⟩ := make_eq_ok.1 hm
    refine Or.inr ⟨hok, ?_⟩
    rw [grant, hm]
    simp only [← List.isEmpty_iff]
    rfl

theorem grant_eq_ok {states : List StateRef} {fresh : List (StateRef × Consumption)} :
    grant existing states txId party = .ok fresh ↔
      (∀ x ∈ states, ∃ r?, existing x = .ok r? ∧ ∀ r, r? = some r → r.txId = txId) ∧
      fresh = entries existing states txId party := by
  rcases grant_cases existing states txId party with ⟨x, hx, e, he, hg⟩ | ⟨hok, hg⟩
  · rw [hg]
    refine ⟨nofun, ?_⟩
    rintro ⟨h, -⟩
    obtain ⟨r?, hr, -⟩ := h x hx
    cases he.symm.trans hr
  · rw [hg, ite_else_error_eq_ok, disputes_eq_nil, Except.ok.injEq, eq_comm (a := fresh)]
    refine and_congr_left fun _ => forall₂_congr fun x hx => ?_
    obtain ⟨r?, hr⟩ := hok x hx
    simp [hr]

end LedgerNotary.Plan
