import LedgerNotary.Proofs.Json.Key

/-! Fulfilment is the weighted threshold rule on exact sums.

The levels a key has left are counted down on the way to its leaves, and weights are added up in 64
bits. A sound key runs out of neither, so a child of a sound key is asked the same question as a key
by itself. -/

namespace LedgerNotary.Key

open Outcome

variable {keys others : List Key} {levels : Nat} {t : UInt32} {cs : List Child} {k : Key}

theorem metTotal_eq (total : UInt64) :
    metTotal keys levels total cs =
      sumWeights total (cs.filter fun c => metBelow keys levels c.1) := by
  induction cs generalizing total with
  | nil => rfl
  | cons c cs ih =>
    obtain ⟨k, w⟩ := c
    rw [metTotal, ih, List.filter_cons]
    by_cases hk : metBelow keys levels k = true
    · rw [if_pos hk, if_pos hk, sumWeights]
    · rw [if_neg hk, if_neg hk]

theorem metBelow_single {a : PointCode} :
    metBelow keys levels (.single a) = true ↔ .single a ∈ keys := by
  simp [metBelow]

theorem metBelow_composite : metBelow keys (levels + 1) (.composite t cs) = true ↔
    t ≠ 0 ∧ t.toNat ≤ totalWeight (cs.filter fun c => metBelow keys levels c.1) := by
  simp [metBelow, metTotal_eq, le_sumWeights]

/-- More levels than a sound key has do not matter. -/
theorem metBelow_congr_levels {more : Nat} (h : checkBelow levels k = .ok ())
    (h' : checkBelow more k = .ok ()) : metBelow keys levels k = metBelow keys more k := by
  induction k using induction generalizing levels more with
  | single a => rw [metBelow, metBelow]
  | composite t cs ih =>
    obtain ⟨below, rfl, -, hcs⟩ := checkBelow_composite_eq_ok.1 h
    obtain ⟨below', rfl, -, hcs'⟩ := checkBelow_composite_eq_ok.1 h'
    have hfilter : (cs.filter fun c => metBelow keys below c.1) =
        cs.filter fun c => metBelow keys below' c.1 :=
      List.filter_congr fun c hc => ih c hc (hcs c hc) (hcs' c hc)
    rw [Bool.eq_iff_iff, metBelow_composite, metBelow_composite, hfilter]

theorem fulfilledBy_eq_true :
    k.fulfilledBy keys = true ↔ check k = .ok () ∧ metBelow keys maxDepth k = true := by
  unfold fulfilledBy
  cases check k <;> simp

theorem fulfilledBy_single {a : PointCode} :
    (single a).fulfilledBy keys = true ↔ .single a ∈ keys := by
  rw [fulfilledBy_eq_true, metBelow_single]
  exact and_iff_right rfl

theorem fulfilledBy_composite : (composite t cs).fulfilledBy keys = true ↔
    check (.composite t cs) = .ok () ∧
      t.toNat ≤ totalWeight (cs.filter fun c => c.1.fulfilledBy keys) := by
  rw [fulfilledBy_eq_true]
  refine and_congr_right fun hc => ?_
  obtain ⟨below, hmax, hl, hcs⟩ := checkBelow_composite_eq_ok.1 hc
  have hchild : ∀ c ∈ cs, metBelow keys below c.1 = c.1.fulfilledBy keys := by
    intro c hm
    have hcheck : check c.1 = .ok () := check_of_mem hc hm
    rw [Bool.eq_iff_iff, fulfilledBy_eq_true, metBelow_congr_levels (hcs c hm) hcheck]
    exact (and_iff_right hcheck).symm
  rw [hmax, metBelow_composite, List.filter_congr hchild]
  exact and_iff_right (checkLevel_eq_ok.1 hl).1

/-- Who stands for a key is a matter of which of its leaves are there. -/
theorem fulfilledBy_congr (h : ∀ a ∈ k.leaves, single a ∈ keys ↔ single a ∈ others) :
    k.fulfilledBy keys = k.fulfilledBy others := by
  rw [Bool.eq_iff_iff]
  induction k using induction with
  | single a =>
    rw [fulfilledBy_single, fulfilledBy_single]
    exact h a (by simp [leaves])
  | composite t cs ih =>
    have hfilter : (cs.filter fun c => c.1.fulfilledBy keys) =
        cs.filter fun c => c.1.fulfilledBy others :=
      List.filter_congr fun c hc =>
        Bool.eq_iff_iff.2 (ih c hc fun a ha => h a (mem_leaves_composite.2 ⟨c, hc, ha⟩))
    rw [fulfilledBy_composite, fulfilledBy_composite, hfilter]

theorem totalWeight_filter_le {p q : Child → Bool} (h : ∀ c ∈ cs, p c = true → q c = true) :
    totalWeight (cs.filter p) ≤ totalWeight (cs.filter q) := by
  induction cs with
  | nil => exact Nat.le_refl _
  | cons c cs ih =>
    obtain ⟨hc, hcs⟩ := List.forall_mem_cons.1 h
    have hle := ih hcs
    by_cases hp : p c = true
    · rw [List.filter_cons_of_pos hp, List.filter_cons_of_pos (hc hp), totalWeight, totalWeight]
      omega
    · rw [List.filter_cons_of_neg hp]
      by_cases hq : q c = true
      · rw [List.filter_cons_of_pos hq, totalWeight]
        omega
      · rwa [List.filter_cons_of_neg hq]

theorem fulfilledBy_mono (h : keys ⊆ others) (hk : k.fulfilledBy keys = true) :
    k.fulfilledBy others = true := by
  induction k using induction with
  | single a => exact fulfilledBy_single.2 (h (fulfilledBy_single.1 hk))
  | composite t cs ih =>
    obtain ⟨hc, ht⟩ := fulfilledBy_composite.1 hk
    exact fulfilledBy_composite.2 ⟨hc, Nat.le_trans ht (totalWeight_filter_le ih)⟩

/-- The threshold rule for a test of keys: a single key passes if it is among `keys`, a threshold
key if it is sound and the exact sum of the weights of those children that pass reaches its
threshold. -/
structure FollowsRule (keys : List Key) (f : Key → Bool) : Prop where
  single (a : PointCode) : f (.single a) = true ↔ .single a ∈ keys
  composite (t : UInt32) (cs : List Child) : f (.composite t cs) = true ↔
    Sound maxDepth (.composite t cs) ∧ t.toNat ≤ totalWeight (cs.filter fun c => f c.1)

theorem followsRule_fulfilledBy (keys : List Key) :
    FollowsRule keys fun k => k.fulfilledBy keys where
  single _ := fulfilledBy_single
  composite _ _ := by rw [fulfilledBy_composite, check, checkBelow_eq_ok_iff]

theorem FollowsRule.eq {f g : Key → Bool} (hf : FollowsRule keys f) (hg : FollowsRule keys g) :
    f = g := by
  funext k
  rw [Bool.eq_iff_iff]
  induction k using induction with
  | single a => rw [hf.single, hg.single]
  | composite t cs ih =>
    have hfilter : (cs.filter fun c => f c.1) = cs.filter fun c => g c.1 :=
      List.filter_congr fun c hc => Bool.eq_iff_iff.2 (ih c hc)
    rw [hf.composite, hg.composite, hfilter]

/-- Fulfilment is the one test that follows the threshold rule on exact sums. So it depends only on
which leaves of a key are among the signing keys, and more of these never turn it down. -/
theorem fulfilledBy_exact (keys : List Key) :
    (∀ f, FollowsRule keys f ↔ f = fun k => k.fulfilledBy keys) ∧
    (∀ (k : Key) (others : List Key),
      (∀ a ∈ k.leafKeys, .single a ∈ keys ↔ .single a ∈ others) →
        k.fulfilledBy keys = k.fulfilledBy others) ∧
    ∀ (k : Key) (more : List Key), keys ⊆ more →
      k.fulfilledBy keys = true → k.fulfilledBy more = true := by
  refine ⟨fun f => ⟨fun hf => hf.eq (followsRule_fulfilledBy keys), ?_⟩, ?_, ?_⟩
  · rintro rfl
    exact followsRule_fulfilledBy keys
  · intro k others h
    exact fulfilledBy_congr fun a ha => h a (mem_leafKeys.2 ha)
  · intro k more h hk
    exact fulfilledBy_mono h hk

/-- A key of weight two beside one of two keys that weigh one together, of which all are needed:
their order, repeats and a threshold key among them change nothing. -/
theorem fulfilledBy_exact_nested :
    let a : Key := .single ⟨Octets.zero 33⟩
    let b : Key := .single ⟨⟨List.replicate 33 1, rfl⟩⟩
    let c : Key := .single ⟨⟨List.replicate 33 2, rfl⟩⟩
    let inner : Key := .composite 1 [(a, 1), (b, 1)]
    let k : Key := .composite 3 [(c, 2), (inner, 1)]
    Sound maxDepth k ∧ k.fulfilledBy [c, a] = true ∧ k.fulfilledBy [c, inner] = false ∧
      k.fulfilledBy [a, inner, c, a] = true ∧ k.fulfilledBy [c, a, b] = true := by
  intro a b c inner k
  have hk : k.fulfilledBy [c, a] = true := by decide
  obtain ⟨hrule, hleaves, hmore⟩ := fulfilledBy_exact [c, a]
  have hfollows : FollowsRule [c, a] fun k => k.fulfilledBy [c, a] := (hrule _).2 rfl
  have hsame : ∀ x ∈ k.leafKeys, .single x ∈ [c, a] ↔ .single x ∈ [a, inner, c, a] := by decide
  refine ⟨((hfollows.composite _ _).1 hk).1, hk, by decide, ?_, ?_⟩
  · rw [← hleaves k _ hsame]
    exact hk
  · exact hmore k _ (by decide) hk

/-! What a key asks of its leaves.

A sound key can be met: on every level the weights reach the threshold, so all leaves together stand
for all children and with them for the key. It is not met for nothing: thresholds are positive, so
some child has to be met, and at the end of the way down some leaf has to be there. -/

open Wire

/-- Who holds all leaves of a sound key stands for it. -/
theorem fulfilledBy_of_leaves (hc : check k = .ok ()) (h : ∀ a ∈ k.leaves, single a ∈ keys) :
    k.fulfilledBy keys = true := by
  induction k using induction with
  | single a => exact fulfilledBy_single.2 (h a (by simp [leaves]))
  | composite t cs ih =>
    have hmet : ∀ c ∈ cs, c.1.fulfilledBy keys = true := fun c hm =>
      ih c hm (check_of_mem hc hm) fun a ha => h a (mem_leaves_composite.2 ⟨c, hm, ha⟩)
    obtain ⟨_, -, hl, -⟩ := checkBelow_composite_eq_ok.1 hc
    obtain ⟨-, -, -, -, hreach⟩ := checkLevel_eq_ok.1 hl
    refine fulfilledBy_composite.2 ⟨hc, ?_⟩
    rwa [List.filter_eq_self.2 hmet]

theorem exists_leaf_of_fulfilledBy (h : k.fulfilledBy keys = true) :
    ∃ a ∈ k.leaves, single a ∈ keys := by
  induction k using induction with
  | single a => exact ⟨a, by simp [leaves], fulfilledBy_single.1 h⟩
  | composite t cs ih =>
    obtain ⟨hc, ht⟩ := fulfilledBy_composite.1 h
    obtain ⟨_, -, hl, -⟩ := checkBelow_composite_eq_ok.1 hc
    have hpos : t ≠ 0 := (checkLevel_eq_ok.1 hl).1
    have hmet : (cs.filter fun c => c.1.fulfilledBy keys) ≠ [] := by
      intro hnil
      rw [hnil, totalWeight, Nat.le_zero] at ht
      exact hpos (UInt32.toNat_inj.1 ht)
    obtain ⟨c, hm⟩ := List.exists_mem_of_ne_nil _ hmet
    obtain ⟨hm, hfc⟩ := List.mem_filter.1 hm
    obtain ⟨a, ha, hkey⟩ := ih c hm hfc
    exact ⟨a, mem_leaves_composite.2 ⟨c, hm, ha⟩, hkey⟩

/-- The keys that there are: built from children, or read in the binary form, with whatever comes
behind, or in the JSON form. -/
inductive Admitted : Key → Prop
  | built {t : UInt32} {cs : List Child} {k : Key} (made : ofChildren t cs = .ok k) : Admitted k
  | decoded {s rest : Bytes} {k : Key} (read : Wire.decode s = .ok (k, rest)) : Admitted k
  | ofJson {v : Json} {k : Key} (read : fromJson v = .ok k) : Admitted k

theorem check_of_ofForm {v : Json} {n : Nat} (h : ofForm n v = .ok k) : check k = .ok () := by
  cases n with
  | zero => cases h
  | succ n =>
    obtain ⟨name, content, h⟩ := Json.of_variant h
    by_cases hname : name = "Secp256k1"
    · rw [if_pos hname] at h
      obtain ⟨a, -, rfl⟩ := map_eq_ok.1 h
      rfl
    · obtain ⟨-, h⟩ := ite_else_error_eq_ok.1 ((if_neg hname).symm.trans h)
      obtain ⟨w, -, h⟩ := Json.held_eq_ok.1 h
      obtain ⟨t, cs, made, -⟩ := of_bodyOfForm h
      obtain ⟨rfl, hc⟩ := ofChildren_eq_ok.1 made
      exact hc

theorem Admitted.check_eq_ok (h : Admitted k) : check k = .ok () := by
  cases h with
  | built made =>
    obtain ⟨rfl, hc⟩ := ofChildren_eq_ok.1 made
    exact hc
  | decoded read => exact (Exact.of_decode read).1.check_eq_ok
  | ofJson read => exact check_of_ofForm read

/-- Whatever key comes in, however nested and weighted, its own leaves stand for it, and no keys
among which none of its leaves is do. -/
theorem met_by_leaves_never_without (h : Admitted k) :
    k.fulfilledBy (k.leafKeys.map single) = true ∧
      ∀ keys : List Key, (∀ a ∈ k.leafKeys, single a ∉ keys) → k.fulfilledBy keys = false := by
  constructor
  · refine fulfilledBy_of_leaves h.check_eq_ok fun a ha => ?_
    exact List.mem_map_of_mem (mem_leafKeys.2 ha)
  · intro keys hnone
    refine Bool.eq_false_iff.2 fun hmet => ?_
    obtain ⟨a, ha, hkey⟩ := exists_leaf_of_fulfilledBy hmet
    exact hnone a (mem_leafKeys.2 ha) hkey

/-- One leaf stands at two places, behind weights of which only the sum reaches the threshold. The
threshold key inside is no leaf, so it does not count by itself. -/
theorem met_by_leaves_never_without_nested :
    let a : Key := .single ⟨Octets.zero 33⟩
    let b : Key := .single ⟨⟨List.replicate 33 1, rfl⟩⟩
    let inner : Key := .composite 2 [(a, 1), (b, 1)]
    let k : Key := .composite 5 [(a, 2), (inner, 3)]
    ofChildren 5 [(inner, 3), (a, 2)] = .ok k ∧ k.fulfilledBy [a, b] = true ∧
      k.fulfilledBy [inner, k] = false := by
  intro a b inner k
  have hk : ofChildren 5 [(inner, 3), (a, 2)] = .ok k := by decide
  obtain ⟨hmet, hnone⟩ := met_by_leaves_never_without (.built hk)
  exact ⟨hk, hmet, hnone _ (by decide)⟩

end LedgerNotary.Key
