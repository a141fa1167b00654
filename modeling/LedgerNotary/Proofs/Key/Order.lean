import LedgerNotary.Key
import LedgerNotary.Proofs.Outcome
import Mathlib.Data.List.Chain
import Mathlib.Data.List.Nodup

/-! What a sound threshold key is, said without the order in which the rules are checked.

The weights are added up in 64 bits and stop there, and thresholds have 32, so whether a threshold
is reached is the same for their exact sum. -/

namespace LedgerNotary.Key

open Outcome

variable {levels : Nat} {t : UInt32} {cs : List Child} {k : Key}

@[elab_as_elim]
theorem induction {P : Key → Prop} (single : ∀ a, P (.single a))
    (composite : ∀ t cs, (∀ c ∈ cs, P c.1) → P (.composite t cs)) : ∀ k, P k
  | .single a => single a
  | .composite t cs => composite t cs fun c hc => by
    have hlt : sizeOf c < sizeOf cs := List.sizeOf_lt_of_mem hc
    have hnode : sizeOf c.1 < sizeOf c := by
      obtain ⟨k, w⟩ := c
      simp only [Prod.mk.sizeOf_spec]
      omega
    exact induction single composite c.1
termination_by k => sizeOf k
decreasing_by
  simp only [Key.composite.sizeOf_spec]
  omega

theorem mem_leavesOfChildren {a : PointCode} :
    a ∈ leavesOfChildren cs ↔ ∃ c ∈ cs, a ∈ c.1.leaves := by
  induction cs with
  | nil => simp [leavesOfChildren]
  | cons c cs ih =>
    obtain ⟨k, w⟩ := c
    simp [leavesOfChildren, ih]

theorem mem_leaves_composite {a : PointCode} :
    a ∈ (composite t cs).leaves ↔ ∃ c ∈ cs, a ∈ c.1.leaves := mem_leavesOfChildren

def totalWeight : List Child → Nat
  | [] => 0
  | (_, w) :: cs => w.toNat + totalWeight cs

theorem toNat_addWeight (total : UInt64) (w : UInt32) :
    (addWeight total w).toNat = min (total.toNat + w.toNat) (UInt64.size - 1) := by
  refine UInt64.toNat_ofNat_of_lt' ?_
  have hsize : 0 < UInt64.size := by decide
  omega

theorem toNat_sumWeights (total : UInt64) (cs : List Child) :
    (sumWeights total cs).toNat = min (total.toNat + totalWeight cs) (UInt64.size - 1) := by
  induction cs generalizing total with
  | nil =>
    have hlt : total.toNat < UInt64.size := total.toNat_lt_size
    simp only [sumWeights, totalWeight]
    omega
  | cons c cs ih =>
    obtain ⟨k, w⟩ := c
    rw [sumWeights, ih, toNat_addWeight, totalWeight]
    omega

/-- Where a sum stops, it has passed every threshold. -/
theorem le_sumWeights : t.toUInt64 ≤ sumWeights 0 cs ↔ t.toNat ≤ totalWeight cs := by
  have hlt : t.toNat < UInt32.size := t.toNat_lt_size
  have hsize : UInt32.size < UInt64.size := by decide
  rw [UInt64.le_iff_toNat_le, toNat_sumWeights, UInt32.toNat_toUInt64, UInt64.toNat_zero]
  omega

theorem checkChildren_eq_ok {seen : List Key} :
    checkChildren seen cs = .ok () ↔
      (∀ c ∈ cs, c.2 ≠ 0) ∧ (cs.map Prod.fst).Nodup ∧ ∀ c ∈ cs, c.1 ∉ seen := by
  induction cs generalizing seen with
  | nil => simp [checkChildren]
  | cons c cs ih =>
    obtain ⟨k, w⟩ := c
    have hk : (∀ c ∈ cs, c.1 ∉ k :: seen) ↔ k ∉ cs.map Prod.fst ∧ ∀ c ∈ cs, c.1 ∉ seen := by
      simp only [List.mem_cons, not_or, forall₂_and, List.mem_map, not_exists, not_and]
    rw [checkChildren, ite_error_eq_ok, ite_error_eq_ok, ih, hk, List.forall_mem_cons,
      List.forall_mem_cons, List.map_cons, List.nodup_cons]
    tauto

/-- On one level: a positive threshold that the weights reach, children of positive weight, and no
child twice. -/
theorem checkLevel_eq_ok : checkLevel t cs = .ok () ↔ t ≠ 0 ∧ cs ≠ [] ∧ (∀ c ∈ cs, c.2 ≠ 0) ∧
      (cs.map Prod.fst).Nodup ∧ t.toNat ≤ totalWeight cs := by
  have hlevel : checkLevel t cs = if t = 0 then .error .zeroThreshold
      else if cs.isEmpty then .error .noChildren
      else checkChildren [] cs >>= fun _ =>
        if sumWeights 0 cs < t.toUInt64 then .error .unreachable else .ok () := by
    by_cases ht : t = 0 <;> by_cases hc : cs.isEmpty = true <;> simp [checkLevel, ht, hc] <;> rfl
  rw [hlevel, ite_error_eq_ok, ite_error_eq_ok, unit_bind_eq_ok, ite_error_eq_ok,
    checkChildren_eq_ok, List.isEmpty_iff, UInt64.not_lt, le_sumWeights]
  simp [and_assoc]

theorem checkAllBelow_eq_ok :
    checkAllBelow levels cs = .ok () ↔ ∀ c ∈ cs, checkBelow levels c.1 = .ok () := by
  induction cs with
  | nil => simp [checkAllBelow]
  | cons c cs ih =>
    obtain ⟨k, w⟩ := c
    rw [checkAllBelow, unit_bind_eq_ok, ih, List.forall_mem_cons]

theorem checkBelow_composite_eq_ok :
    checkBelow levels (.composite t cs) = .ok () ↔
      ∃ below, levels = below + 1 ∧ checkLevel t cs = .ok () ∧
        ∀ c ∈ cs, checkBelow below c.1 = .ok () := by
  cases levels with
  | zero => simp [checkBelow]
  | succ below => simp [checkBelow, unit_bind_eq_ok, checkAllBelow_eq_ok]

theorem checkBelow_mono {more : Nat} (h : checkBelow levels k = .ok ()) (hle : levels ≤ more) :
    checkBelow more k = .ok () := by
  induction k using induction generalizing levels more with
  | single a => rfl
  | composite t cs ih =>
    obtain ⟨below, rfl, hl, hcs⟩ := checkBelow_composite_eq_ok.1 h
    obtain ⟨more, rfl⟩ : ∃ n, more = n + 1 := ⟨more - 1, by omega⟩
    exact checkBelow_composite_eq_ok.2
      ⟨more, rfl, hl, fun c hc => ih c hc (hcs c hc) (by omega)⟩

theorem check_of_mem {c : Child} (h : check (.composite t cs) = .ok ()) (hc : c ∈ cs) :
    check c.1 = .ok () := by
  obtain ⟨below, hmax, -, hcs⟩ := checkBelow_composite_eq_ok.1 h
  exact checkBelow_mono (hcs c hc) (by omega)

/-- A key of at most so many levels that keeps the rules on each of them. -/
inductive Sound : Nat → Key → Prop
  | single {levels : Nat} (a : PointCode) : Sound levels (.single a)
  | composite {levels : Nat} {t : UInt32} {cs : List Child} (positive : t ≠ 0)
    (inhabited : cs ≠ []) (weights : ∀ c ∈ cs, c.2 ≠ 0) (distinct : (cs.map Prod.fst).Nodup)
    (reachable : t.toNat ≤ totalWeight cs) (children : ∀ c ∈ cs, Sound levels c.1) :
    Sound (levels + 1) (.composite t cs)

theorem checkBelow_eq_ok_iff : checkBelow levels k = .ok () ↔ Sound levels k := by
  induction k using induction generalizing levels with
  | single a => exact iff_of_true rfl (.single a)
  | composite t cs ih =>
    rw [checkBelow_composite_eq_ok]
    constructor
    · rintro ⟨below, rfl, hl, hcs⟩
      obtain ⟨positive, inhabited, weights, distinct, reachable⟩ := checkLevel_eq_ok.1 hl
      exact .composite positive inhabited weights distinct reachable
        fun c hc => (ih c hc).1 (hcs c hc)
    · intro h
      obtain _ | @⟨below, _, _, positive, inhabited, weights, distinct, reachable, children⟩ := h
      exact ⟨below, rfl,
        checkLevel_eq_ok.2 ⟨positive, inhabited, weights, distinct, reachable⟩,
        fun c hc => (ih c hc).2 (children c hc)⟩

end LedgerNotary.Key

/-! The order of keys, and what sorting by it makes of the children of a threshold key.

Neighbours are all that has to be compared: a list is read as ascending if each child stands before
the next. -/

namespace LedgerNotary

theorem PointCode.compare_swap (a b : PointCode) : compare b a = (compare a b).swap := by
  have ho : compare b.octets a.octets = (compare a.octets b.octets).swap :=
    Std.OrientedCmp.eq_swap
  exact ho

theorem PointCode.eq_of_compare {a b : PointCode} (h : compare a b = .eq) : a = b := by
  have hc : compare a.octets b.octets = .eq := h
  have ho : a.octets = b.octets := Std.LawfulEqOrd.eq_of_compare hc
  cases a
  cases b
  simpa using ho

namespace Key

mutual
theorem order_swap : ∀ a b : Key, order b a = (order a b).swap
  | .single a, .single b => a.compare_swap b
  | .single _, .composite .. => rfl
  | .composite .., .single _ => rfl
  | .composite s cs, .composite t ds => by
    have ht : compare t s = (compare s t).swap := Std.OrientedCmp.eq_swap
    rw [order, order, ht, orderChildren_swap cs ds, Ordering.swap_then]

theorem orderChildren_swap : ∀ cs ds : List Child,
    orderChildren ds cs = (orderChildren cs ds).swap
  | [], [] => rfl
  | [], _ :: _ => rfl
  | _ :: _, [] => rfl
  | (k, v) :: cs, (l, w) :: ds => by
    have hw : compare w v = (compare v w).swap := Std.OrientedCmp.eq_swap
    rw [orderChildren, orderChildren, order_swap k l, hw, orderChildren_swap cs ds,
      Ordering.swap_then, Ordering.swap_then]
end

mutual
theorem eq_of_order : ∀ {a b : Key}, order a b = .eq → a = b
  | .single a, .single b, h => by rw [PointCode.eq_of_compare h]
  | .single _, .composite .., h => by cases h
  | .composite .., .single _, h => by cases h
  | .composite s cs, .composite t ds, h => by
    obtain ⟨hs, hc⟩ := Ordering.then_eq_eq.1 h
    rw [Std.LawfulEqCmp.eq_of_compare hs, eq_of_orderChildren hc]

theorem eq_of_orderChildren : ∀ {cs ds : List Child}, orderChildren cs ds = .eq → cs = ds
  | [], [], _ => rfl
  | [], _ :: _, h => by cases h
  | _ :: _, [], h => by cases h
  | (k, v) :: cs, (l, w) :: ds, h => by
    obtain ⟨hc, hcs⟩ := Ordering.then_eq_eq.1 h
    obtain ⟨hk, hw⟩ := Ordering.then_eq_eq.1 hc
    rw [eq_of_order hk, Std.LawfulEqCmp.eq_of_compare hw, eq_of_orderChildren hcs]
end

theorem Child.order_swap (c d : Child) : Child.order d c = (Child.order c d).swap := by
  have hw : compare d.2 c.2 = (compare c.2 d.2).swap := Std.OrientedCmp.eq_swap
  rw [Child.order, Child.order, Key.order_swap c.1 d.1, hw, Ordering.swap_then]

theorem Child.eq_of_order {c d : Child} (h : Child.order c d = .eq) : c = d := by
  obtain ⟨hk, hw⟩ := Ordering.then_eq_eq.1 h
  exact Prod.ext (Key.eq_of_order hk) (Std.LawfulEqCmp.eq_of_compare hw)

/-- A comparison in two steps passes on what each step does: `o` and `o'` compare a first value with
a second one, `p` and `p'` the second with a third, `q` and `q'` the first with the third. -/
theorem isLE_then_trans {o p q o' p' q' : Ordering}
    (h : o.isLE = true → p.isLE = true → q.isLE = true) (he : q = .eq → p = o.swap)
    (h' : o'.isLE = true → p'.isLE = true → q'.isLE = true) :
    (o.then o').isLE = true → (p.then p').isLE = true → (q.then q').isLE = true := by
  intro ho hp
  obtain ⟨ho₁, ho₂⟩ := Ordering.isLE_then_iff_and.1 ho
  obtain ⟨hp₁, hp₂⟩ := Ordering.isLE_then_iff_and.1 hp
  refine Ordering.isLE_then_iff_and.2 ⟨h ho₁ hp₁, ?_⟩
  by_cases hq : q = .eq
  · -- then the first steps are equal, so the second ones decide
    obtain rfl := he hq
    cases o <;> simp at ho₁ hp₁ ho₂ hp₂
    exact Or.inr (h' ho₂ hp₂)
  · have hq' := h ho₁ hp₁
    rw [Ordering.isLE_iff_eq_lt_or_eq_eq] at hq'
    exact Or.inl (hq'.resolve_right hq)

mutual
theorem order_isLE_trans : ∀ a b c : Key, (order a b).isLE = true → (order b c).isLE = true →
    (order a c).isLE = true
  | .single a, .single b, .single c => fun hab hbc => by
    have h : (compare a.octets c.octets).isLE = true := Std.TransCmp.isLE_trans hab hbc
    exact h
  | .single _, .single _, .composite .. => fun _ _ => rfl
  | .single _, .composite .., .single _ => fun _ h => by cases h
  | .single _, .composite .., .composite .. => fun _ _ => rfl
  | .composite .., .single _, _ => fun h => by cases h
  | .composite .., .composite .., .single _ => fun _ h => by cases h
  | .composite s cs, .composite t ds, .composite u es => by
    refine isLE_then_trans Std.TransCmp.isLE_trans (fun h => ?_)
      (orderChildren_isLE_trans cs ds es)
    rw [Std.LawfulEqCmp.eq_of_compare h]
    exact Std.OrientedCmp.eq_swap

theorem orderChildren_isLE_trans : ∀ cs ds es : List Child, (orderChildren cs ds).isLE = true →
    (orderChildren ds es).isLE = true → (orderChildren cs es).isLE = true
  | [], _, [] => fun _ _ => rfl
  | [], _, _ :: _ => fun _ _ => rfl
  | _ :: _, [], _ => fun h => by cases h
  | _ :: _, _ :: _, [] => fun _ h => by cases h
  | (k, v) :: cs, (l, w) :: ds, (m, x) :: es => by
    refine isLE_then_trans (isLE_then_trans (order_isLE_trans k l m) (fun h => ?_)
      Std.TransCmp.isLE_trans) (fun h => ?_) (orderChildren_isLE_trans cs ds es)
    · rw [eq_of_order h]
      exact order_swap m l
    · obtain ⟨hk, hw⟩ := Ordering.then_eq_eq.1 h
      have hvw : compare w x = (compare v w).swap := by
        rw [Std.LawfulEqCmp.eq_of_compare hw]
        exact Std.OrientedCmp.eq_swap
      rw [eq_of_order hk, hvw, order_swap m l, Ordering.swap_then]
end

theorem Child.order_isLE_trans {c d e : Child} (hcd : (Child.order c d).isLE = true)
    (hde : (Child.order d e).isLE = true) : (Child.order c e).isLE = true := by
  refine isLE_then_trans (Key.order_isLE_trans c.1 d.1 e.1) (fun h => ?_) Std.TransCmp.isLE_trans
    hcd hde
  rw [Key.eq_of_order h]
  exact Key.order_swap e.1 d.1

theorem Child.order_self (c : Child) : Child.order c c = .eq := by
  have h := Child.order_swap c c
  cases hc : Child.order c c <;> simp [hc] at h ⊢

instance : Std.TransCmp Child.order where
  eq_swap := Child.order_swap _ _
  isLE_trans := Child.order_isLE_trans

instance : Std.LawfulEqCmp Child.order where
  compare_self := Child.order_self _
  eq_of_compare := Child.eq_of_order

def Ascends (cs : List Child) : Prop := cs.IsChain fun c d => Child.order c d = .lt

def Sorted (cs : List Child) : Prop := cs.IsChain fun c d => (Child.order c d).isLE = true

theorem head?_insertChild {c d : Child} {cs : List Child} (h : d ∈ (insertChild c cs).head?) :
    d = c ∨ d ∈ cs.head? := by
  cases cs with
  | nil => simpa [insertChild, eq_comm] using h
  | cons e cs =>
    by_cases hc : (Child.order c e).isLE = true
    · simp only [insertChild, if_pos hc, List.head?_cons, Option.mem_some_iff] at h
      exact Or.inl h.symm
    · rw [insertChild, if_neg hc] at h
      exact Or.inr h

theorem Sorted.insertChild {cs : List Child} (h : Sorted cs) (c : Child) :
    Sorted (insertChild c cs) := by
  fun_induction Key.insertChild c cs with
  | case1 => exact List.isChain_singleton c
  | case2 d cs hc => exact List.isChain_cons_cons.2 ⟨hc, h⟩
  | case3 d cs hc ih =>
    obtain ⟨hd, hcs⟩ := List.isChain_cons.1 h
    refine List.isChain_cons.2 ⟨fun e he => ?_, ih hcs⟩
    rcases head?_insertChild he with rfl | he
    · -- what does not stand in front of `d` may stand behind it
      rw [Child.order_swap]
      cases ho : Child.order e d <;> simp [ho] at hc ⊢
    · exact hd e he

theorem sorted_sortChildren (cs : List Child) : Sorted (sortChildren cs) := by
  induction cs with
  | nil => exact List.isChain_nil
  | cons c cs ih => exact ih.insertChild c

theorem Sorted.ascends {cs : List Child} (h : Sorted cs) (hn : (cs.map Prod.fst).Nodup) :
    Ascends cs := by
  induction cs with
  | nil => exact List.isChain_nil
  | cons c cs ih =>
    obtain ⟨hc, hcs⟩ := List.isChain_cons.1 h
    rw [List.map_cons, List.nodup_cons] at hn
    refine List.isChain_cons.2 ⟨fun d hd => ?_, ih hcs hn.2⟩
    have hle := hc d hd
    have hne : Child.order c d ≠ .eq := by
      intro he
      obtain rfl := Child.eq_of_order he
      exact hn.1 (List.mem_map_of_mem (List.mem_of_mem_head? hd))
    cases ho : Child.order c d <;> simp [ho] at hle hne ⊢

theorem Sorted.pairwise {cs : List Child} (h : Sorted cs) :
    cs.Pairwise fun c d => (Child.order c d).isLE = true := by
  have hchain : cs.IsChain fun c d => (Child.order c d).isLE = true := h
  let : Trans (fun c d => (Child.order c d).isLE = true) (fun c d => (Child.order c d).isLE = true)
      (fun c d => (Child.order c d).isLE = true) := ⟨Child.order_isLE_trans⟩
  exact List.isChain_iff_pairwise.1 hchain

theorem Ascends.sorted {cs : List Child} (h : Ascends cs) : Sorted cs :=
  h.imp fun _ _ hlt => by rw [hlt]; rfl

theorem Sorted.eq_of_perm {cs ds : List Child} (hc : Sorted cs) (hd : Sorted ds)
    (h : cs.Perm ds) : cs = ds := by
  refine h.eq_of_pairwise (fun c d _ _ hcd hdc => ?_) hc.pairwise hd.pairwise
  exact Child.eq_of_order (Std.OrientedCmp.isLE_antisymm hcd hdc)

theorem sortChildren_congr {cs ds : List Child} (h : cs.Perm ds) :
    sortChildren cs = sortChildren ds := by
  have hp : (sortChildren cs).Perm (sortChildren ds) :=
    ((sortChildren_perm cs).trans h).trans (sortChildren_perm ds).symm
  exact (sorted_sortChildren cs).eq_of_perm (sorted_sortChildren ds) hp

theorem Sorted.sortChildren {cs : List Child} (h : Sorted cs) : sortChildren cs = cs :=
  (sorted_sortChildren cs).eq_of_perm h (sortChildren_perm cs)

end Key

end LedgerNotary
