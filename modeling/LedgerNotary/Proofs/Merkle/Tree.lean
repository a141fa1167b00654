import LedgerNotary.Proofs.Merkle.Levels
import LedgerNotary.Proofs.Wire.Format
import Mathlib.Data.List.Basic

/-! The byte strings behind the digests of a commitment.

A digest is not assumed to have one preimage. A statement that needs one ends in `Collision`: two
different strings among those that were hashed have the same digest. Without a collision, equal
digests come from the same domain and from equal parts. -/

namespace LedgerNotary

/-- Two different ones among the byte strings have one digest. -/
def Collision (ss : List Bytes) : Prop :=
  ∃ a ∈ ss, ∃ b ∈ ss, a ≠ b ∧ Blake3.hash a = Blake3.hash b

instance (ss : List Bytes) : Decidable (Collision ss) :=
  inferInstanceAs (Decidable (∃ a ∈ ss, ∃ b ∈ ss, a ≠ b ∧ Blake3.hash a = Blake3.hash b))

theorem Collision.mono {ss ts : List Bytes} (h : ss ⊆ ts) : Collision ss → Collision ts := by
  rintro ⟨a, ha, b, hb, hab⟩
  exact ⟨a, h ha, b, h hb, hab⟩

theorem eq_of_hash_eq {ss : List Bytes} (free : ¬ Collision ss) {a b : Bytes} (ha : a ∈ ss)
    (hb : b ∈ ss) (h : Blake3.hash a = Blake3.hash b) : a = b := by
  by_contra hn
  exact free ⟨a, ha, b, hb, hn, h⟩

namespace Domain

def string (d : Domain) (parts : List Bytes) : Bytes := d.tag ++ parts.flatten

theorem eq_of_tag_begins {d e : Domain} (h : d.tag <+: e.tag) : d = e := by
  revert h
  cases d <;> cases e <;> decide

theorem eq_of_string_eq {d e : Domain} {ps qs : List Bytes} (h : d.string ps = e.string qs) :
    d = e := by
  have hd : d.tag <+: e.string qs := h ▸ List.prefix_append _ _
  rcases List.prefix_or_prefix_of_prefix hd (List.prefix_append e.tag qs.flatten) with hp | hp
  · exact eq_of_tag_begins hp
  · exact (eq_of_tag_begins hp).symm

end Domain

namespace Commitment

theorem position_inj {m n : UInt32} (h : position m = position n) : m = n := Bytes.ofNatLE_inj h

def nodeString (left right : Digest) : Bytes := Domain.merkleNode.string [left.bytes, right.bytes]

def leafString (component : Bytes) (nonce : Digest) : Bytes :=
  Domain.componentLeaf.string [component, nonce.bytes]

def emptyString (nonce : Digest) : Bytes :=
  Domain.emptyGroup.string [(Octets.zero 32).bytes, nonce.bytes]

def componentNonceString (salt : Salt) (group component : UInt32) : Bytes :=
  Domain.componentNonce.string [salt.bytes, position group, position component]

def groupNonceString (salt : Salt) (group : UInt32) : Bytes :=
  Domain.groupNonce.string [salt.bytes, position group]

theorem hash_nodeString (l r : Digest) : Blake3.hash (nodeString l r) = Merkle.parent l r := rfl

theorem nodeString_inj {l r l' r' : Digest} (h : nodeString l r = nodeString l' r') :
    l = l' ∧ r = r' := by
  simp only [nodeString, Domain.string, List.append_cancel_left_eq, List.flatten_cons,
    List.flatten_nil, List.append_nil] at h
  obtain ⟨hl, hr⟩ := List.append_inj h (by rw [l.length_eq, l'.length_eq])
  exact ⟨Octets.ext hl, Octets.ext hr⟩

theorem leafString_inj {c c' : Bytes} {n n' : Digest} (h : leafString c n = leafString c' n') :
    c = c' ∧ n = n' := by
  simp only [leafString, Domain.string, List.append_cancel_left_eq, List.flatten_cons,
    List.flatten_nil, List.append_nil] at h
  obtain ⟨hc, hn⟩ := List.append_inj' h (by rw [n.length_eq, n'.length_eq])
  exact ⟨hc, Octets.ext hn⟩

theorem emptyString_inj {n n' : Digest} (h : emptyString n = emptyString n') : n = n' := by
  simp only [emptyString, Domain.string, List.append_cancel_left_eq, List.flatten_cons,
    List.flatten_nil, List.append_nil] at h
  exact Octets.ext h

theorem componentNonceString_inj {s s' : Salt} {g c g' c' : UInt32}
    (h : componentNonceString s g c = componentNonceString s' g' c') :
    s = s' ∧ g = g' ∧ c = c' := by
  simp only [componentNonceString, Domain.string, List.append_cancel_left_eq, List.flatten_cons,
    List.flatten_nil, List.append_nil, Salt.bytes] at h
  obtain ⟨hs, hp⟩ := List.append_inj h (by rw [s.octets.length_eq, s'.octets.length_eq])
  obtain ⟨hg, hc⟩ := List.append_inj hp (by simp [position])
  cases s; cases s'
  exact ⟨congrArg Salt.mk (Octets.ext hs), position_inj hg, position_inj hc⟩

theorem groupNonceString_inj {s s' : Salt} {g g' : UInt32}
    (h : groupNonceString s g = groupNonceString s' g') : s = s' ∧ g = g' := by
  simp only [groupNonceString, Domain.string, List.append_cancel_left_eq, List.flatten_cons,
    List.flatten_nil, List.append_nil, Salt.bytes] at h
  obtain ⟨hs, hg⟩ := List.append_inj h (by rw [s.octets.length_eq, s'.octets.length_eq])
  cases s; cases s'
  exact ⟨congrArg Salt.mk (Octets.ext hs), position_inj hg⟩

end Commitment

end LedgerNotary

/-! The binary trees behind Merkle roots, and the strings that are hashed for their nodes.

Without a collision the root fixes the whole tree wherever the two trees compared do not end at
different depths: either because they are equally high, or because no leaf of one is the digest of
a node of the other. -/

namespace LedgerNotary.Merkle

open Commitment (nodeString nodeString_inj hash_nodeString)

def levelStrings : List Digest → List Bytes
  | a :: b :: rest => nodeString a b :: levelStrings rest
  | [a] => [nodeString a a]
  | [] => []

theorem map_hash_levelStrings (level : List Digest) :
    (levelStrings level).map Blake3.hash = nextLevel level := by
  fun_induction nextLevel level with
  | case1 a b rest ih => simp [levelStrings, ih, hash_nodeString]
  | case2 a => rfl
  | case3 => rfl

/-- What is hashed in reducing level by level, at most `levels` times. -/
def reduceStrings : Nat → List Digest → List Bytes
  | _, [] => []
  | _, [_] => []
  | 0, _ => []
  | levels + 1, level => levelStrings level ++ reduceStrings levels (nextLevel level)

def rootStrings (leaves : List Digest) : List Bytes := reduceStrings leaves.length leaves

theorem mem_rootStrings {leaves : List Digest} {s : Bytes} :
    s ∈ rootStrings leaves ↔ ∃ h < height leaves, s ∈ levelStrings (rise parent h leaves) := by
  have key : ∀ levels level, List.length level ≤ levels →
      (s ∈ reduceStrings levels level ↔
        ∃ h < height level, s ∈ levelStrings (rise parent h level)) := by
    intro levels level hl
    fun_induction reduceStrings levels level with
    | case1 => simp [height]
    | case2 => simp [height]
    | case3 level h₀ h₁ => exact absurd (List.length_eq_zero_iff.1 (by omega)) h₀
    | case4 levels level h₀ h₁ ih =>
      have h2 := two_le_length h₀ h₁
      rw [List.mem_append, ih (by have := length_nextLevel level; omega), height_pairUp parent h2,
        pairUp_parent]
      constructor
      · rintro (hs | ⟨h, hh, hs⟩)
        · exact ⟨0, by omega, hs⟩
        · exact ⟨h + 1, by omega, by rwa [rise, pairUp_parent]⟩
      · rintro ⟨_ | h, hh, hs⟩
        · exact Or.inl hs
        · exact Or.inr ⟨h, by omega, by rwa [rise, pairUp_parent] at hs⟩
  exact key _ _ (Nat.le_refl _)

theorem exists_of_mem_levelStrings {level : List Digest} {s : Bytes} (h : s ∈ levelStrings level) :
    ∃ l r, s = nodeString l r := by
  fun_induction levelStrings level <;> grind

/-- Whatever is on a higher level is the digest of a string hashed on the way. -/
theorem exists_string_of_mem_rise {leaves : List Digest} {h : Nat} (hh : h < height leaves)
    {d : Digest} (hd : d ∈ rise parent (h + 1) leaves) :
    ∃ s ∈ rootStrings leaves, Blake3.hash s = d := by
  rw [rise_add parent h 1, rise, rise, pairUp_parent, ← map_hash_levelStrings, List.mem_map] at hd
  obtain ⟨s, hs, rfl⟩ := hd
  exact ⟨s, mem_rootStrings.2 ⟨h, hh, hs⟩, rfl⟩

inductive HashTree
  | leaf (d : Digest)
  | node (l r : HashTree)

namespace HashTree

def root : HashTree → Digest
  | leaf d => d
  | node l r => parent l.root r.root

def leaves : HashTree → List Digest
  | leaf d => [d]
  | node l r => l.leaves ++ r.leaves

def strings : HashTree → List Bytes
  | leaf _ => []
  | node l r => nodeString l.root r.root :: (l.strings ++ r.strings)

/-- All leaves lie at one depth. -/
def Perfect : Nat → HashTree → Prop
  | 0, leaf _ => True
  | h + 1, node l r => l.Perfect h ∧ r.Perfect h
  | _, _ => False

theorem perfect_zero {T : HashTree} : T.Perfect 0 ↔ ∃ d, T = leaf d := by
  cases T <;> simp [Perfect]

theorem perfect_succ {T : HashTree} {h : Nat} :
    T.Perfect (h + 1) ↔ ∃ l r, T = node l r ∧ l.Perfect h ∧ r.Perfect h := by
  cases T <;> simp [Perfect]

theorem exists_of_mem_strings {T : HashTree} {s : Bytes} (h : s ∈ T.strings) :
    ∃ l r, s = nodeString l r := by
  induction T with
  | leaf d => simp [strings] at h
  | node l r ihl ihr =>
    rcases List.mem_cons.1 h with rfl | h
    · exact ⟨_, _, rfl⟩
    · rcases List.mem_append.1 h with h | h
      · exact ihl h
      · exact ihr h

/-- The tree that joins some trees level by level. -/
def join? (ts : List HashTree) : Option HashTree := top? node ts

theorem root?_of_join? {ts : List HashTree} {T : HashTree} (h : join? ts = some T) :
    root? (ts.map root) = some T.root := by
  rw [root?_eq_top?, ← map_top? root node parent (fun _ _ => rfl)]
  exact congrArg (Option.map root) h

theorem mem_leaves_rise {h : Nat} {ts : List HashTree} {d : Digest} :
    (∃ T ∈ rise node h ts, d ∈ T.leaves) ↔ ∃ t ∈ ts, d ∈ t.leaves := by
  have hm : d ∈ (rise (· ++ ·) h (ts.map leaves)).flatten ↔ d ∈ (ts.map leaves).flatten :=
    mem_flatten_rise
  rw [← map_rise leaves node (· ++ ·) (fun _ _ => rfl)] at hm
  simpa using hm

/-- A tree some rounds up holds the leaves of a tree that does not stand at the place given. Only
the last one of an odd number is joined with itself, so that place must not be given. -/
theorem exists_leaves_subset_of_mem_pairUp {ts : List HashTree} {i : Nat}
    (hi : ts.length % 2 = 1 → i + 1 ≠ ts.length) {T : HashTree} (hT : T ∈ pairUp node ts) :
    ∃ j t, j ≠ i ∧ ts[j]? = some t ∧ t.leaves ⊆ T.leaves := by
  fun_induction pairUp node ts generalizing i with
  | case1 a b rest ih =>
    rcases List.mem_cons.1 hT with rfl | hT
    · by_cases h : i = 0
      · exact ⟨1, b, by omega, rfl, List.subset_append_right _ _⟩
      · exact ⟨0, a, by omega, rfl, List.subset_append_left _ _⟩
    · simp only [List.length_cons] at hi
      by_cases h : i < 2
      · obtain ⟨j, t, -, hj, hs⟩ := ih (i := rest.length) (by omega) hT
        exact ⟨j + 2, t, by omega, hj, hs⟩
      · obtain ⟨j, t, hne, hj, hs⟩ := ih (i := i - 2) (by omega) hT
        exact ⟨j + 2, t, by omega, hj, hs⟩
  | case2 a =>
    obtain rfl := List.mem_singleton.1 hT
    have h : i ≠ 0 := fun h => hi rfl (by simp [h])
    exact ⟨0, a, h.symm, rfl, List.subset_append_left _ _⟩
  | case3 => cases hT

theorem exists_leaves_subset_of_mem_rise {h : Nat} {ts : List HashTree} {i : Nat}
    (hi : ts.length % 2 = 1 → i + 1 ≠ ts.length) {T : HashTree} (hT : T ∈ rise node (h + 1) ts) :
    ∃ j t, j ≠ i ∧ ts[j]? = some t ∧ t.leaves ⊆ T.leaves := by
  refine forall_mem_rise node
    (fun _ T => ∃ j t, j ≠ i ∧ ts[j]? = some t ∧ t.leaves ⊆ T.leaves) ?_ h 0
    (fun _ => exists_leaves_subset_of_mem_pairUp hi) T hT
  rintro - a b ⟨j, t, hne, hj, hs⟩ -
  exact ⟨j, t, hne, hj, List.subset_append_of_subset_left _ hs⟩

theorem strings_of_mem_pairUp {ts : List HashTree} {s : Bytes} {T : HashTree}
    (hT : T ∈ pairUp node ts) (hs : s ∈ T.strings) :
    (∃ t ∈ ts, s ∈ t.strings) ∨ s ∈ levelStrings (ts.map root) := by
  fun_induction pairUp node ts with
  | case1 a b rest ih => grind [strings, levelStrings]
  | case2 a => grind [strings, levelStrings]
  | case3 => simp at hT

theorem strings_of_mem_rise {h : Nat} {ts : List HashTree} {s : Bytes} {T : HashTree}
    (hT : T ∈ rise node h ts) (hs : s ∈ T.strings) :
    (∃ t ∈ ts, s ∈ t.strings) ∨ ∃ g < h, s ∈ levelStrings (rise parent g (ts.map root)) := by
  induction h generalizing ts with
  | zero => exact Or.inl ⟨T, hT, hs⟩
  | succ h ih =>
    rcases ih hT with ⟨t, ht, hs⟩ | ⟨g, hg, hs⟩
    · rcases strings_of_mem_pairUp ht hs with hs | hs
      · exact Or.inl hs
      · exact Or.inr ⟨0, by omega, hs⟩
    · refine Or.inr ⟨g + 1, by omega, ?_⟩
      rwa [map_pairUp root node parent (fun _ _ => rfl)] at hs

theorem strings_of_join? {ts : List HashTree} {T : HashTree} (h : join? ts = some T) {s : Bytes}
    (hs : s ∈ T.strings) : (∃ t ∈ ts, s ∈ t.strings) ∨ s ∈ rootStrings (ts.map root) := by
  have hT : T ∈ rise node (height ts) ts := by
    rw [(top?_eq_some (ne_nil_of_top? h)).1 h]
    exact List.mem_singleton_self T
  rcases strings_of_mem_rise hT hs with hs | ⟨g, hg, hs⟩
  · exact Or.inl hs
  · exact Or.inr (mem_rootStrings.2 ⟨g, by simpa using hg, hs⟩)

theorem perfect_of_join? {ts : List HashTree} {T : HashTree} (h : join? ts = some T)
    (ht : ∀ t ∈ ts, t.Perfect 0) : T.Perfect (height ts) := by
  have hp : ∀ t ∈ rise node (height ts) ts, t.Perfect (0 + height ts) :=
    forall_mem_rise node (fun k t => t.Perfect k) (fun k a b ha hb => ⟨ha, hb⟩) _ _ ht
  rw [(top?_eq_some (ne_nil_of_top? h)).1 h] at hp
  simpa using hp T (List.mem_singleton_self T)

def over? (ds : List Digest) : Option HashTree := join? (ds.map leaf)

theorem exists_over? {ds : List Digest} (h : ds ≠ []) : ∃ T, over? ds = some T :=
  exists_top? node (by simpa using h)

theorem root?_of_over? {ds : List Digest} {T : HashTree} (h : over? ds = some T) :
    root? ds = some T.root := by
  have hr := root?_of_join? h
  rwa [List.map_map, show root ∘ leaf = id from rfl, List.map_id] at hr

theorem leaves_of_over? {ds : List Digest} {T : HashTree} (h : over? ds = some T) :
    T.leaves = pad ds := by
  have hm := map_top? leaves node (· ++ ·) (fun _ _ => rfl) (ds.map leaf)
  rw [show top? node (ds.map leaf) = some T from h, List.map_map] at hm
  rw [pad, singles, show (fun d : Digest => [d]) = leaves ∘ leaf from rfl, ← hm]
  rfl

theorem strings_of_over? {ds : List Digest} {T : HashTree} (h : over? ds = some T) :
    T.strings ⊆ rootStrings ds := by
  intro s hs
  rcases strings_of_join? h hs with ⟨t, ht, hst⟩ | hs
  · obtain ⟨d, -, rfl⟩ := List.mem_map.1 ht
    simp [strings] at hst
  · rwa [List.map_map, show root ∘ leaf = id from rfl, List.map_id] at hs

theorem perfect_of_over? {ds : List Digest} {T : HashTree} (h : over? ds = some T) :
    T.Perfect (height ds) := by
  have hp := perfect_of_join? h (by simp [Perfect])
  rwa [height_map] at hp

end HashTree

/-! What a Merkle root fixes, as long as no two of the strings hashed have one digest. -/

variable {ss : List Bytes}

/-- A digest of a string that was hashed, and not for a node. -/
def Sealed (ss : List Bytes) (d : Digest) : Prop :=
  ∃ s ∈ ss, Blake3.hash s = d ∧ ∀ l r, s ≠ nodeString l r

theorem Sealed.ne_hash_nodeString (free : ¬ Collision ss) {d : Digest} (h : Sealed ss d)
    {l r : Digest} (hs : nodeString l r ∈ ss) : Blake3.hash (nodeString l r) ≠ d := by
  rintro rfl
  obtain ⟨s, hs', he, hn⟩ := h
  exact hn l r (eq_of_hash_eq free hs' hs he)

namespace HashTree

theorem eq_of_perfect (free : ¬ Collision ss) {h : Nat} {T U : HashTree} (hT : T.Perfect h)
    (hU : U.Perfect h) (hTs : T.strings ⊆ ss) (hUs : U.strings ⊆ ss) (hr : T.root = U.root) :
    T = U := by
  induction h generalizing T U with
  | zero =>
    obtain ⟨d, rfl⟩ := perfect_zero.1 hT
    obtain ⟨e, rfl⟩ := perfect_zero.1 hU
    exact congrArg leaf hr
  | succ h ih =>
    obtain ⟨l, r, rfl, hTl, hTr⟩ := perfect_succ.1 hT
    obtain ⟨l', r', rfl, hUl, hUr⟩ := perfect_succ.1 hU
    simp only [strings, List.cons_subset, List.append_subset] at hTs hUs
    obtain ⟨hleft, hright⟩ := nodeString_inj (eq_of_hash_eq free hTs.1 hUs.1 hr)
    rw [ih hTl hUl hTs.2.1 hUs.2.1 hleft, ih hTr hUr hTs.2.2 hUs.2.2 hright]

/-- Trees with one root are the same when no leaf of either is the digest of a node of the
other. -/
theorem eq_of_root_eq (free : ¬ Collision ss) {T U : HashTree} (hTs : T.strings ⊆ ss)
    (hUs : U.strings ⊆ ss) (hTU : ∀ d ∈ T.leaves, ∀ s ∈ U.strings, Blake3.hash s ≠ d)
    (hUT : ∀ d ∈ U.leaves, ∀ s ∈ T.strings, Blake3.hash s ≠ d) (hr : T.root = U.root) :
    T = U := by
  induction T generalizing U with
  | leaf d =>
    cases U with
    | leaf e => exact congrArg leaf hr
    | node l r =>
      have hs : nodeString l.root r.root ∈ (node l r).strings := by simp [strings]
      exact absurd hr.symm (hTU d (by simp [leaves]) _ hs)
  | node l r ihl ihr =>
    cases U with
    | leaf e =>
      have hs : nodeString l.root r.root ∈ (node l r).strings := by simp [strings]
      exact absurd hr (hUT e (by simp [leaves]) _ hs)
    | node l' r' =>
      simp only [strings, List.cons_subset, List.append_subset] at hTs hUs
      obtain ⟨hl, hr⟩ := nodeString_inj (eq_of_hash_eq free hTs.1 hUs.1 hr)
      have hsub := ihl hTs.2.1 hUs.2.1 (fun d hd s hs => hTU d (by simp [leaves, hd]) s
        (by simp [strings, hs])) (fun d hd s hs => hUT d (by simp [leaves, hd]) s
        (by simp [strings, hs])) hl
      have hsub' := ihr hTs.2.2 hUs.2.2 (fun d hd s hs => hTU d (by simp [leaves, hd]) s
        (by simp [strings, hs])) (fun d hd s hs => hUT d (by simp [leaves, hd]) s
        (by simp [strings, hs])) hr
      rw [hsub, hsub']

theorem ne_of_sealed (free : ¬ Collision ss) {T : HashTree} (hT : T.strings ⊆ ss) {d : Digest}
    (hd : Sealed ss d) {s : Bytes} (hs : s ∈ T.strings) : Blake3.hash s ≠ d := by
  obtain ⟨l, r, rfl⟩ := exists_of_mem_strings hs
  exact hd.ne_hash_nodeString free (hT hs)

/-- Trees down to sealed leaves are the same when they have one root. -/
theorem eq_of_sealed (free : ¬ Collision ss) {T U : HashTree} (hTs : T.strings ⊆ ss)
    (hUs : U.strings ⊆ ss) (hT : ∀ d ∈ T.leaves, Sealed ss d) (hU : ∀ d ∈ U.leaves, Sealed ss d)
    (hr : T.root = U.root) : T = U :=
  eq_of_root_eq free hTs hUs (fun d hd _ hs => ne_of_sealed free hUs (hT d hd) hs)
    (fun d hd _ hs => ne_of_sealed free hTs (hU d hd) hs) hr

end HashTree

theorem pad_eq_of_root?_eq (free : ¬ Collision ss) {l m : List Digest} (hl : l ≠ [])
    (hls : rootStrings l ⊆ ss) (hms : rootStrings m ⊆ ss) (hh : height l = height m)
    (hr : root? l = root? m) : pad l = pad m := by
  have hm : m ≠ [] := by
    rintro rfl
    exact hl (root?_eq_none_iff.1 hr)
  obtain ⟨T, hT⟩ := HashTree.exists_over? hl
  obtain ⟨U, hU⟩ := HashTree.exists_over? hm
  rw [HashTree.root?_of_over? hT, HashTree.root?_of_over? hU, Option.some.injEq] at hr
  have hUp : U.Perfect (height l) := hh ▸ HashTree.perfect_of_over? hU
  have he := HashTree.eq_of_perfect free (HashTree.perfect_of_over? hT) hUp
    (List.Subset.trans (HashTree.strings_of_over? hT) hls)
    (List.Subset.trans (HashTree.strings_of_over? hU) hms) hr
  rw [← HashTree.leaves_of_over? hT, ← HashTree.leaves_of_over? hU, he]

theorem root?_rise {h : Nat} {l : List Digest} (hh : h ≤ height l) :
    root? (rise parent h l) = root? l := by
  rw [root?_eq_top?, root?_eq_top?, top?, top?, height_rise parent hh, ← rise_add,
    Nat.add_sub_cancel' hh]

theorem rootStrings_rise {h : Nat} {l : List Digest} (hh : h ≤ height l) :
    rootStrings (rise parent h l) ⊆ rootStrings l := by
  intro s hs
  obtain ⟨g, hg, hs⟩ := mem_rootStrings.1 hs
  rw [height_rise parent hh] at hg
  exact mem_rootStrings.2 ⟨h + g, by omega, by rwa [rise_add]⟩

/-- A list with the root of a higher one has the extension of a level above that one. -/
theorem pad_eq_pad_rise (free : ¬ Collision ss) {l m : List Digest} (hl : l ≠ [])
    (hls : rootStrings l ⊆ ss) (hms : rootStrings m ⊆ ss) (hh : height l ≤ height m)
    (hr : root? l = root? m) : pad l = pad (rise parent (height m - height l) m) := by
  apply pad_eq_of_root?_eq free hl hls
  · exact List.Subset.trans (rootStrings_rise (Nat.sub_le _ _)) hms
  · rw [height_rise parent (Nat.sub_le _ _)]
    omega
  · rw [hr, root?_rise (Nat.sub_le _ _)]

/-- No higher list has the root of a list that holds a sealed digest. -/
theorem height_le_of_sealed (free : ¬ Collision ss) {l m : List Digest} (hls : rootStrings l ⊆ ss)
    (hms : rootStrings m ⊆ ss) (hr : root? l = root? m) {d : Digest} (hd : d ∈ l)
    (hs : Sealed ss d) : height m ≤ height l := by
  by_contra hn
  have hp := pad_eq_pad_rise free (List.ne_nil_of_mem hd) hls hms (by omega) hr
  have hm : d ∈ rise parent (height m - height l) m := by rwa [← mem_pad, ← hp, mem_pad]
  obtain ⟨k, hk⟩ : ∃ k, height m - height l = k + 1 := ⟨height m - height l - 1, by omega⟩
  rw [hk] at hm
  obtain ⟨s, hsm, he⟩ := exists_string_of_mem_rise (by omega) hm
  obtain ⟨g, -, hg⟩ := mem_rootStrings.1 hsm
  obtain ⟨a, b, rfl⟩ := exists_of_mem_levelStrings hg
  exact hs.ne_hash_nodeString free (hms hsm) he

end LedgerNotary.Merkle
