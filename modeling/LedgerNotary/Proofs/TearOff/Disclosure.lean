import LedgerNotary.Proofs.TearOff.Genuine

/-! A verified tear-off loses nothing of a group that it reveals.

What it may add are the repetitions that the tree over the group's leaves brings anyway: whoever
discloses a group can show its last components again, with their nonces, and the root stays. -/

namespace LedgerNotary

open Merkle Commitment

variable {ss : List Bytes}

namespace Transaction

theorem nodup_openings (free : ¬ Collision ss) {t : Transaction} (hs : t.idStrings ⊆ ss)
    (k : GroupKind) : (t.reveal k).content.openings.Nodup := by
  rw [content_reveal, Group.openings_disclosed]
  have hz : (t.group k).components.zipIdx.Nodup :=
    List.Nodup.of_map Prod.snd (by simpa using List.nodup_range')
  refine List.Nodup.map_on ?_ hz
  rintro ⟨c, i⟩ hx ⟨c', j⟩ hy h
  obtain ⟨rfl, hn⟩ := Prod.ext_iff.1 h
  have hi : Place.Of t.groups (.component k.index.toNat i c) :=
    ⟨_, t.getElem?_groups k, List.mem_zipIdx_iff_getElem?.1 hx⟩
  have hj : Place.Of t.groups (.component k.index.toNat j c) :=
    ⟨_, t.getElem?_groups k, List.mem_zipIdx_iff_getElem?.1 hy⟩
  have hs' : (Place.component k.index.toNat i c).string t.salt =
      (Place.component k.index.toNat j c).string t.salt := by
    simpa [Place.string] using congrArg (leafString c) hn
  obtain ⟨hij, -⟩ := Place.eq_of_string_eq free hs hs t.checked.1 t.checked.1 hi hj hs'
  cases hij
  rfl

end Transaction

namespace TearOff

/-- A verified tear-off with a root for each group of a transaction shows the components of a
revealed group in their order and all of them, and behind them only what the tree repeats. -/
theorem components_prefix_shown {t : Transaction} {f : TearOff} {k : GroupKind} {g : RevealedGroup}
    (hv : f.verify = .ok ()) (hid : f.id = t.id) (hl : f.roots.length = t.groups.length)
    (hg : f.revealed? k = some g) :
    ((t.group k).components <+: g.content.shown ∧
      pad g.content.shown = pad (t.group k).components) ∨
    Collision (t.idStrings ++ f.strings) := by
  by_cases free : Collision (t.idStrings ++ f.strings)
  · exact Or.inr free
  · refine Or.inl ?_
    have hts := List.subset_append_left t.idStrings f.strings
    have hf : f.Verified (t.idStrings ++ f.strings) := ⟨hv, List.subset_append_right _ _⟩
    have ht := (t.verified_tearOff GroupKind.all).mono hts
    have hr := t.revealed?_tearOff k.mem_all
    have hh : height f.roots = height (t.tearOff GroupKind.all).roots := by
      simp [height, hl, Transaction.tearOff, Transaction.roots]
    have ho := (hf.pad_openings_eq free ht hid hh hg hr).1
    obtain ⟨d, -, hd, -⟩ := hf.content hg
    rw [← RevealedContent.map_fst_openings hd, ← t.map_fst_openings]
    refine ⟨(prefix_of_pad_eq ho.symm (Transaction.nodup_openings free hts k)).map _, ?_⟩
    rw [← map_pad, ho, map_pad]

/-- The last of three inputs is shown twice. -/
def lastInputTwice : TearOff where
  id := Transaction.sample.id
  roots := Transaction.sample.roots
  groups := [⟨0, .components [[2], [3], [4], [4]] ([0, 1, 2, 2].map (componentNonce .sevens 0))⟩]

theorem verify_lastInputTwice : lastInputTwice.verify = .ok () := by
  refine verify_eq_ok.2 ⟨Transaction.sample.root?_roots, by decide, fun g hg => ?_⟩
  obtain rfl := List.mem_singleton.1 hg
  exact ⟨_, Transaction.sample.getElem?_roots .inputs, rfl⟩

theorem strings_lastInputTwice : lastInputTwice.strings ⊆ Transaction.sample.idStrings := by
  intro s hs
  rcases List.mem_append.1 hs with hs | hs
  · exact Transaction.sample.above hs
  · obtain ⟨g, hg, hs⟩ := List.mem_flatMap.1 hs
    obtain rfl := List.mem_singleton.1 hg
    apply Transaction.sample.strings_group .inputs
    apply List.mem_append_right
    rcases List.mem_append.1 hs with hs | hs
    · apply List.mem_append_left
      change s ∈ [leafString [2] (componentNonce .sevens 0 0),
        leafString [3] (componentNonce .sevens 0 1), leafString [4] (componentNonce .sevens 0 2)]
      simpa [RevealedContent.leafStrings] using hs
    · exact List.mem_append_right _ hs

theorem components_prefix_shown_lastInputTwice :
    lastInputTwice.verify = .ok () ∧ lastInputTwice.id = Transaction.sample.id ∧
      lastInputTwice.roots.length = Transaction.sample.groups.length ∧
      ∃ g, lastInputTwice.revealed? .inputs = some g ∧
        (((Transaction.sample.group .inputs).components <+: g.content.shown ∧
          pad g.content.shown = pad (Transaction.sample.group .inputs).components) ∨
        Collision (Transaction.sample.idStrings ++ lastInputTwice.strings)) :=
  ⟨verify_lastInputTwice, rfl, rfl, _, rfl,
    components_prefix_shown (k := .inputs) verify_lastInputTwice rfl rfl rfl⟩

/-- So the components shown need not be those of the group. -/
theorem shown_lastInputTwice_ne :
    lastInputTwice.verify = .ok () ∧ lastInputTwice.id = Transaction.sample.id ∧
      lastInputTwice.roots.length = Transaction.sample.groups.length ∧
      ∃ g, lastInputTwice.revealed? .inputs = some g ∧
        ¬ (g.content.shown = (Transaction.sample.group .inputs).components ∨
          Collision (Transaction.sample.idStrings ++ lastInputTwice.strings)) := by
  refine ⟨verify_lastInputTwice, rfl, rfl, _, rfl, not_or.2 ⟨by decide, fun hc => ?_⟩⟩
  exact Transaction.not_collision_sample
    (hc.mono (List.append_subset.2 ⟨List.Subset.refl _, strings_lastInputTwice⟩))

end TearOff

/-! Which group a component belongs to that a verified tear-off shows.

The roots in a tear-off need not be those of the groups: with fewer rounds above them, nodes of the
transaction's own tree pass for roots, and the components of several groups for those of one. A
tear-off shows each component in its own group when its roots are as high as the transaction's, and
only then. -/

namespace RevealedContent

theorem tree_eq (free : ¬ Collision ss) {c : RevealedContent} (hc : c.strings ⊆ ss) {T : HashTree}
    (hT : T.strings ⊆ ss) (hl : ∀ d ∈ T.leaves, Sealed ss d) (h : c.root = .ok T.root) :
    c.tree = T :=
  HashTree.eq_of_sealed free (strings_tree h hc) hT (fun _ => sealed_of_mem_tree h hc) hl
    (root_tree h)

end RevealedContent

namespace Transaction

def trees (t : Transaction) : List HashTree := (Group.allDisclosed t.groups t.salt).map (·.tree)

theorem map_root_trees (t : Transaction) : t.trees.map HashTree.root = t.roots := by
  rw [trees, List.map_map]
  exact Group.map_root_allDisclosed t.groups t.salt

theorem height_allDisclosed (t : Transaction) :
    height (Group.allDisclosed t.groups t.salt) = height t.roots := by
  have hm := congrArg height (Group.map_root_allDisclosed t.groups t.salt)
  rwa [height_map] at hm

theorem length_trees (t : Transaction) : t.trees.length = t.groups.length := by
  simp [trees, Group.allDisclosed]

theorem getElem?_trees {t : Transaction} {j : Nat} {T : HashTree} (h : t.trees[j]? = some T) :
    ∃ g, t.groups[j]? = some g ∧ (g.disclosed t.salt (UInt32.ofNat j)).tree = T := by
  rw [trees, Group.allDisclosed, List.map_map, List.getElem?_map, Option.map_eq_some_iff] at h
  obtain ⟨⟨g, i⟩, hg, hT⟩ := h
  simp only [List.getElem?_zipIdx, Option.map_eq_some_iff, Prod.mk.injEq] at hg
  obtain ⟨g', hg', rfl, rfl⟩ := hg
  exact ⟨g', hg', by simpa using hT⟩

end Transaction

namespace TearOff

variable {t : Transaction} {f : TearOff} {k : GroupKind} {g : RevealedGroup}

/-- A notary group has one leaf at most, so no tear-off has more rounds above its roots. -/
theorem Verified.height_le_roots (free : ¬ Collision ss) (ht : t.idStrings ⊆ ss)
    (hf : f.Verified ss) (hid : f.id = t.id) : height f.roots ≤ height t.roots := by
  have hl : (t.reveal .notary).content.leafStrings.length = 1 := by
    have hn := t.length_components_le (k := .notary) rfl
    rw [t.content_reveal, Group.length_leafStrings_disclosed]
    omega
  exact ((t.verified_tearOff GroupKind.all).mono ht).height_le free hf hid.symm
    (t.revealed?_tearOff (GroupKind.mem_all .notary)) hl

/-- A root with fewer rounds above it is that of a tree over groups of the transaction. -/
theorem Verified.exists_tree (free : ¬ Collision ss) (ht : t.idStrings ⊆ ss) (hf : f.Verified ss)
    (hid : f.id = t.id) {n : Nat} (hn : height t.roots = height f.roots + n) {d : Digest}
    (hd : d ∈ f.roots) : ∃ T ∈ rise HashTree.node n t.trees, T.root = d := by
  have hp := pad_eq_pad_rise free (List.ne_nil_of_mem hd) hf.above
    (List.Subset.trans t.above ht) (by omega) (by rw [hf.root, t.root?_roots, hid])
  have hm : d ∈ rise parent n t.roots := by
    rwa [← mem_pad, ← Nat.sub_eq_of_eq_add' hn, ← hp, mem_pad]
  rw [← t.map_root_trees, ← map_rise HashTree.root HashTree.node parent (fun _ _ => rfl)] at hm
  exact List.mem_map.1 hm

/-- With fewer rounds above its roots a tear-off opens leaves of another group. -/
theorem Verified.exists_foreign (free : ¬ Collision ss) (ht : t.idStrings ⊆ ss)
    (hf : f.Verified ss) (hid : f.id = t.id) (hg : f.revealed? k = some g)
    (hh : height f.roots < height t.roots) :
    ∃ p, Place.Of t.groups p ∧ p.group ≠ k.index.toNat ∧
      p.string t.salt ∈ g.content.leafStrings := by
  obtain ⟨d, hd, hr, hs⟩ := hf.content hg
  obtain ⟨n, hn⟩ := Nat.exists_eq_add_of_lt hh
  obtain ⟨T, hT, rfl⟩ := hf.exists_tree free ht hid (n := n + 1) hn (List.mem_of_getElem? hd)
  have hall := Group.rooted_allDisclosed ht
  have hle : n + 1 ≤ height (Group.allDisclosed t.groups t.salt) := by
    have ha := t.height_allDisclosed
    omega
  obtain ⟨hTs, hTl⟩ := hall.of_mem_rise hle hT
  have htree : g.content.tree = T := RevealedContent.tree_eq free hs hTs hTl hr
  -- Some group below that root is not the one revealed.
  have hi : t.trees.length % 2 = 1 → k.index.toNat + 1 ≠ t.trees.length := by
    have hl : 6 ≤ t.groups.length := t.checked.2
    have hk : k.index.toNat < 6 := k.index_lt
    rw [t.length_trees]
    omega
  obtain ⟨j, U, hj, hU, hsub⟩ := HashTree.exists_leaves_subset_of_mem_rise hi hT
  obtain ⟨g', hg', rfl⟩ := Transaction.getElem?_trees hU
  have hpos : 0 < (g'.disclosed t.salt (UInt32.ofNat j)).leafStrings.length := by
    rw [Group.length_leafStrings_disclosed]
    omega
  obtain ⟨s, hsj⟩ := List.exists_mem_of_length_pos hpos
  obtain ⟨p, hp, rfl, rfl⟩ := (Place.mem_leafStrings_disclosed hg').1 hsj
  refine ⟨p, hp, hj, ?_⟩
  -- A leaf below the root that the tear-off gives for the group is one that it opens.
  have hm : Blake3.hash (p.string t.salt) ∈ g.content.leaves := by
    rw [← mem_pad, ← RevealedContent.leaves_tree hr, htree]
    apply hsub
    rw [RevealedContent.leaves_tree (Group.root_disclosed _ _ _), mem_pad]
    exact List.mem_map_of_mem hsj
  have hps : p.string t.salt ∈ ss := by
    have hz : (g', p.group) ∈ t.groups.zipIdx := List.mem_zipIdx_iff_getElem?.2 hg'
    exact hall.strings _ (List.mem_map_of_mem hz) (List.mem_append_left _ hsj)
  exact RevealedContent.mem_leafStrings_of_hash free hs hps hm

theorem Verified.height_eq_of_empty (free : ¬ Collision ss) (ht : t.idStrings ⊆ ss)
    (hf : f.Verified ss) (hid : f.id = t.id) (hg : f.revealed? k = some g) {n : Digest}
    (hn : g.content = .empty n) : height f.roots = height t.roots := by
  have hl : g.content.leafStrings.length = 1 := by rw [hn]; rfl
  have hle := hf.height_le free ((t.verified_tearOff GroupKind.all).mono ht) hid hg hl
  exact Nat.le_antisymm (hf.height_le_roots free ht hid) hle

theorem Verified.openings_subset (free : ¬ Collision ss) (ht : t.idStrings ⊆ ss)
    (hf : f.Verified ss) (hid : f.id = t.id) (hg : f.revealed? k = some g)
    (hh : height f.roots = height t.roots) :
    g.content.openings ⊆ (t.reveal k).content.openings := by
  have hp := (hf.pad_openings_eq free ((t.verified_tearOff GroupKind.all).mono ht) hid hh hg
    (t.revealed?_tearOff k.mem_all)).1
  intro o ho
  rwa [← mem_pad, ← hp, mem_pad]

theorem Verified.not_openings_subset (free : ¬ Collision ss) (ht : t.idStrings ⊆ ss)
    (hf : f.Verified ss) (hid : f.id = t.id) (hg : f.revealed? k = some g)
    (hh : height f.roots < height t.roots) :
    ¬ g.content.openings ⊆ (t.reveal k).content.openings := by
  intro hsub
  obtain ⟨p, hp, hpk, hm⟩ := hf.exists_foreign free ht hid hg hh
  rcases RevealedContent.exists_opening hm with ⟨o, ho, he⟩ | ⟨n, hn⟩
  · have hok := RevealedContent.leafString_mem (hsub ho)
    rw [he, t.content_reveal, ← UInt32.ofNat_toNat (x := k.index)] at hok
    obtain ⟨q, hq, hqk, hqp⟩ := (Place.mem_leafStrings_disclosed (t.getElem?_groups k)).1 hok
    obtain ⟨rfl, -⟩ := Place.eq_of_string_eq free ht ht t.checked.1 t.checked.1 hq hp hqp
    exact hpk hqk
  · exact absurd (hf.height_eq_of_empty free ht hid hg hn) hh.ne

/-- A verified tear-off opens under a kind nothing but the components of that kind, each with the
nonce of its place, exactly if its roots are as high as those of the transaction. A group that is
opened as empty is empty in any case. -/
theorem openings_subset_iff {t : Transaction} {f : TearOff} {k : GroupKind} {g : RevealedGroup}
    (hv : f.verify = .ok ()) (hid : f.id = t.id) (hg : f.revealed? k = some g) :
    ((g.content.openings ⊆ (t.reveal k).content.openings ↔ height f.roots = height t.roots) ∧
      (height f.roots = height t.roots → g.content.shown ⊆ (t.group k).components) ∧
      ∀ n, g.content = .empty n → (t.group k).components = []) ∨
    Collision (t.idStrings ++ f.strings) := by
  by_cases free : Collision (t.idStrings ++ f.strings)
  · exact Or.inr free
  · refine Or.inl ?_
    have ht := List.subset_append_left t.idStrings f.strings
    have hf : f.Verified (t.idStrings ++ f.strings) := ⟨hv, List.subset_append_right _ _⟩
    have hle := hf.height_le_roots free ht hid
    refine ⟨⟨fun hsub => ?_, hf.openings_subset free ht hid hg⟩, fun hh => ?_, fun n hn => ?_⟩
    · by_contra hne
      exact hf.not_openings_subset free ht hid hg (by omega) hsub
    · obtain ⟨d, -, hd, -⟩ := hf.content hg
      rw [← RevealedContent.map_fst_openings hd, ← t.map_fst_openings]
      exact List.map_subset _ (hf.openings_subset free ht hid hg hh)
    · have hh := hf.height_eq_of_empty free ht hid hg hn
      have he := (hf.pad_openings_eq free ((t.verified_tearOff GroupKind.all).mono ht) hid hh hg
        (t.revealed?_tearOff k.mem_all)).2 n
      rw [← t.map_fst_openings, he.1 hn]
      rfl

/-- Nodes above the roots of two groups each are given for roots of groups, so that a command and
an attachment show under outputs. -/
def mergedGroups : TearOff where
  id := Transaction.sample.id
  roots := nextLevel Transaction.sample.roots
  groups := [⟨1, .components [[6], [7]] [componentNonce .sevens 2 0, componentNonce .sevens 3 0]⟩]

theorem verify_mergedGroups : mergedGroups.verify = .ok () := by
  refine verify_eq_ok.2 ⟨rfl, by decide, fun g hg => ?_⟩
  obtain rfl := List.mem_singleton.1 hg
  exact ⟨_, rfl, rfl⟩

theorem strings_mergedGroups : mergedGroups.strings ⊆ Transaction.sample.idStrings := by
  intro s hs
  rcases List.mem_append.1 hs with hs | hs
  · apply Transaction.sample.above
    apply rootStrings_rise (h := 1) (by decide)
    rwa [rise, rise, pairUp_parent]
  · obtain ⟨g, hg, hs⟩ := List.mem_flatMap.1 hs
    obtain rfl := List.mem_singleton.1 hg
    have hc := Transaction.sample.strings_group .commands
    have ha := Transaction.sample.strings_group .attachments
    rcases List.mem_append.1 hs with hs | hs
    · rcases List.mem_cons.1 hs with rfl | hs
      · exact hc (List.mem_append_right _ (List.mem_append_left _ List.mem_cons_self))
      · obtain rfl := List.mem_singleton.1 hs
        exact ha (List.mem_append_right _ (List.mem_append_left _ List.mem_cons_self))
    · obtain rfl := List.mem_singleton.1 hs
      have hm : nodeString (componentLeaf [6] (componentNonce .sevens 2 0))
          (componentLeaf [7] (componentNonce .sevens 3 0)) ∈
          levelStrings Transaction.sample.roots := List.mem_cons_of_mem _ List.mem_cons_self
      exact Transaction.sample.above (List.mem_append_left _ hm)

theorem openings_subset_iff_mergedGroups :
    mergedGroups.verify = .ok () ∧ mergedGroups.id = Transaction.sample.id ∧
      ∃ g, mergedGroups.revealed? .outputs = some g ∧
        (((g.content.openings ⊆ (Transaction.sample.reveal .outputs).content.openings ↔
            height mergedGroups.roots = height Transaction.sample.roots) ∧
          (height mergedGroups.roots = height Transaction.sample.roots →
            g.content.shown ⊆ (Transaction.sample.group .outputs).components) ∧
          ∀ n, g.content = .empty n → (Transaction.sample.group .outputs).components = []) ∨
        Collision (Transaction.sample.idStrings ++ mergedGroups.strings)) :=
  ⟨verify_mergedGroups, rfl, _, rfl, openings_subset_iff verify_mergedGroups rfl rfl⟩

/-- So the components shown need not be of the group under which they are shown. -/
theorem shown_mergedGroups_not_subset :
    mergedGroups.verify = .ok () ∧ mergedGroups.id = Transaction.sample.id ∧
      ∃ g, mergedGroups.revealed? .outputs = some g ∧
        ¬ (g.content.shown ⊆ (Transaction.sample.group .outputs).components ∨
          Collision (Transaction.sample.idStrings ++ mergedGroups.strings)) := by
  refine ⟨verify_mergedGroups, rfl, _, rfl, not_or.2 ⟨by decide, fun hc => ?_⟩⟩
  exact Transaction.not_collision_sample
    (hc.mono (List.append_subset.2 ⟨List.Subset.refl _, strings_mergedGroups⟩))

end TearOff

end LedgerNotary
