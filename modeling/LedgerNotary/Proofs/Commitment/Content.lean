import LedgerNotary.Proofs.Merkle.Tree
import LedgerNotary.Transaction

/-! The content of a group as it is opened: components with their nonces, or the nonce of a group
without components.

Without a collision, contents with one root show the same openings, up to the repetitions by which
a tree fills its levels. -/

namespace LedgerNotary

open Merkle Commitment Outcome

variable {ss : List Bytes}

theorem eq_of_map_eq {α β : Type} {f : α → β} {l m : List α}
    (hf : ∀ a ∈ l, ∀ b ∈ m, f a = f b → a = b) (h : l.map f = m.map f) : l = m := by
  induction l generalizing m with
  | nil => exact (List.map_eq_nil_iff.1 h.symm).symm
  | cons a l ih =>
    cases m with
    | nil => simp at h
    | cons b m =>
      simp only [List.map_cons, List.cons.injEq] at h
      have hab := hf a (by simp) b (by simp) h.1
      rw [hab, ih (fun x hx y hy => hf x (by simp [hx]) y (by simp [hy])) h.2]

/-- Strings without a collision are known by their digests, in any number and order. -/
theorem pad_eq_of_map_hash (free : ¬ Collision ss) {ls ms : List Bytes} (hl : ls ⊆ ss)
    (hm : ms ⊆ ss) (h : pad (ls.map Blake3.hash) = pad (ms.map Blake3.hash)) : pad ls = pad ms := by
  rw [← map_pad, ← map_pad] at h
  exact eq_of_map_eq (fun a ha b hb =>
    eq_of_hash_eq free (hl (mem_pad.1 ha)) (hm (mem_pad.1 hb))) h

namespace RevealedContent

def openings : RevealedContent → List (Bytes × Digest)
  | .components cs nonces => cs.zip nonces
  | .empty _ => []

/-- What is hashed at the foot of the group's tree. -/
def leafStrings : RevealedContent → List Bytes
  | .components cs nonces => (cs.zip nonces).map fun o => leafString o.1 o.2
  | .empty nonce => [emptyString nonce]

def leaves (c : RevealedContent) : List Digest := c.leafStrings.map Blake3.hash

def strings (c : RevealedContent) : List Bytes := c.leafStrings ++ rootStrings c.leaves

theorem leafString_mem {c : RevealedContent} {o : Bytes × Digest} (h : o ∈ c.openings) :
    leafString o.1 o.2 ∈ c.leafStrings := by
  cases c with
  | components cs nonces => exact List.mem_map_of_mem (f := fun o => leafString o.1 o.2) h
  | empty nonce => cases h

theorem exists_opening {c : RevealedContent} {s : Bytes} (h : s ∈ c.leafStrings) :
    (∃ o ∈ c.openings, leafString o.1 o.2 = s) ∨ ∃ n, c = .empty n := by
  cases c with
  | components cs nonces => exact Or.inl (List.mem_map.1 h)
  | empty nonce => exact Or.inr ⟨nonce, rfl⟩

theorem leaf_not_node {c : RevealedContent} {s : Bytes} (h : s ∈ c.leafStrings) (l r : Digest) :
    s ≠ nodeString l r := by
  rintro rfl
  cases c with
  | components cs nonces =>
    obtain ⟨o, -, ho⟩ := List.mem_map.1 h
    exact absurd (Domain.eq_of_string_eq ho) (by decide)
  | empty nonce =>
    exact absurd (Domain.eq_of_string_eq (List.mem_singleton.1 h)) (by decide)

theorem mem_leafStrings_of_hash (free : ¬ Collision ss) {c : RevealedContent} (hc : c.strings ⊆ ss)
    {s : Bytes} (hs : s ∈ ss) (h : Blake3.hash s ∈ c.leaves) : s ∈ c.leafStrings := by
  obtain ⟨s', hs', he⟩ := List.mem_map.1 h
  have hss := eq_of_hash_eq free (hc (List.mem_append_left _ hs')) hs he
  rwa [← hss]

theorem root_components {cs : List Bytes} {ns : List Digest} {d : Digest} :
    (RevealedContent.components cs ns).root = .ok d ↔ cs ≠ [] ∧ cs.length = ns.length ∧
      root? (RevealedContent.components cs ns).leaves = some d := by
  have hl : (RevealedContent.components cs ns).leaves =
      (cs.zip ns).map fun o => componentLeaf o.1 o.2 := List.map_map
  rw [root, hl]
  split
  · next hc => simp [List.isEmpty_iff.1 hc]
  · next hc =>
    split
    · next hn => simp [hn]
    · next hn =>
      split
      · next r hr =>
        have hr' : root? ((cs.zip ns).map fun o => componentLeaf o.1 o.2) = some r := hr
        simp_all
      · next hr =>
        have hr' : root? ((cs.zip ns).map fun o => componentLeaf o.1 o.2) = none := hr
        simp_all

theorem root?_leaves {c : RevealedContent} {d : Digest} (h : c.root = .ok d) :
    root? c.leaves = some d := by
  cases c with
  | components cs nonces => exact (root_components.1 h).2.2
  | empty nonce =>
    cases h
    rfl

theorem map_fst_openings {c : RevealedContent} {d : Digest} (h : c.root = .ok d) :
    c.openings.map Prod.fst = c.shown := by
  cases c with
  | components cs nonces => exact List.map_fst_zip (root_components.1 h).2.1.le
  | empty nonce => rfl

theorem length_leafStrings {c : RevealedContent} {d : Digest} (h : c.root = .ok d) :
    c.leafStrings.length = max 1 c.shown.length := by
  cases c with
  | components cs nonces =>
    obtain ⟨hne, hl, -⟩ := root_components.1 h
    have hpos := List.length_pos_iff.2 hne
    simp only [leafStrings, shown, List.length_map, List.length_zip]
    omega
  | empty nonce => rfl

def tree (c : RevealedContent) : HashTree := (HashTree.over? c.leaves).getD (.leaf (Octets.zero 32))

section HashTree

variable {c : RevealedContent} {d : Digest} (h : c.root = .ok d)

include h

theorem over?_leaves : HashTree.over? c.leaves = some c.tree := by
  have hne : c.leaves ≠ [] := by
    intro he
    have hr := root?_leaves h
    rw [he] at hr
    cases hr
  obtain ⟨T, hT⟩ := HashTree.exists_over? hne
  rw [tree, hT, Option.getD_some]

theorem root_tree : c.tree.root = d := by
  have hr := HashTree.root?_of_over? (over?_leaves h)
  rw [root?_leaves h, Option.some.injEq] at hr
  exact hr.symm

theorem leaves_tree : c.tree.leaves = pad c.leaves := HashTree.leaves_of_over? (over?_leaves h)

theorem strings_tree (hc : c.strings ⊆ ss) : c.tree.strings ⊆ ss :=
  fun _ hs => hc (List.mem_append_right _ (HashTree.strings_of_over? (over?_leaves h) hs))

theorem sealed_of_mem_tree (hc : c.strings ⊆ ss) {d : Digest} (hd : d ∈ c.tree.leaves) :
    Sealed ss d := by
  rw [leaves_tree h, mem_pad] at hd
  obtain ⟨s, hs, rfl⟩ := List.mem_map.1 hd
  exact ⟨s, hc (List.mem_append_left _ hs), rfl, leaf_not_node hs⟩

end HashTree

/-- Contents with one root stand on the same strings, up to the repetitions of their trees. -/
theorem pad_leafStrings_eq (free : ¬ Collision ss) {c e : RevealedContent} (hc : c.strings ⊆ ss)
    (he : e.strings ⊆ ss) {d : Digest} (hcd : c.root = .ok d) (hed : e.root = .ok d) :
    pad c.leafStrings = pad e.leafStrings := by
  have ht : c.tree = e.tree := HashTree.eq_of_sealed free (strings_tree hcd hc)
    (strings_tree hed he) (fun _ => sealed_of_mem_tree hcd hc) (fun _ => sealed_of_mem_tree hed he)
    ((root_tree hcd).trans (root_tree hed).symm)
  have hp : pad c.leaves = pad e.leaves := by rw [← leaves_tree hcd, ht, leaves_tree hed]
  exact pad_eq_of_map_hash free (fun s hs => hc (List.mem_append_left _ hs))
    (fun s hs => he (List.mem_append_left _ hs)) hp

/-- Contents with one root open the same components under the same nonces, up to repetitions, and
if one is that of an empty group, so is the other. -/
theorem pad_openings_eq (free : ¬ Collision ss) {c e : RevealedContent} (hc : c.strings ⊆ ss)
    (he : e.strings ⊆ ss) {d : Digest} (hcd : c.root = .ok d) (hed : e.root = .ok d) :
    pad c.openings = pad e.openings ∧ ∀ n, c = .empty n ↔ e = .empty n := by
  have hp := pad_leafStrings_eq free hc he hcd hed
  have hmem : ∀ s, s ∈ c.leafStrings ↔ s ∈ e.leafStrings := fun s => by
    rw [← mem_pad, hp, mem_pad]
  have hleaf : ∀ {cs ns n}, ¬ emptyString n ∈ (RevealedContent.components cs ns).leafStrings := by
    rintro cs ns n h
    obtain ⟨o, -, ho⟩ := List.mem_map.1 h
    exact absurd (Domain.eq_of_string_eq ho) (by decide)
  cases c with
  | components cs ns =>
    cases e with
    | components cs' ns' =>
      refine ⟨?_, by simp⟩
      rw [leafStrings, leafStrings, ← map_pad, ← map_pad] at hp
      exact eq_of_map_eq (fun a _ b _ h => Prod.ext (leafString_inj h).1 (leafString_inj h).2) hp
    | empty n => exact absurd ((hmem (emptyString n)).2 (by simp [leafStrings])) hleaf
  | empty n =>
    cases e with
    | components cs' ns' => exact absurd ((hmem (emptyString n)).1 (by simp [leafStrings])) hleaf
    | empty n' =>
      have hn := emptyString_inj (by simpa [leafStrings] using hmem (emptyString n))
      exact ⟨rfl, by simp [hn]⟩

end RevealedContent

end LedgerNotary
