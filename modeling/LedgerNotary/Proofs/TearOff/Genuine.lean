import LedgerNotary.Proofs.Commitment.Binding
import Mathlib.Data.List.Nodup

/-! What is known of a tear-off once it is verified.

Whoever made the tear-off chose its roots freely, and they may be nodes from further up in the
tree of the transaction. Two tear-offs with one identifier open a group alike when there are roots
for trees of one height, and a group that opens at a single leaf keeps any other from being
higher. -/

namespace LedgerNotary

open Merkle Commitment Outcome

variable {ss : List Bytes}

namespace RevealedContent

theorem sealed_root {c : RevealedContent} {d : Digest} (h : c.root = .ok d) (hc : c.strings ⊆ ss)
    (hl : c.leafStrings.length = 1) : Sealed ss d := by
  obtain ⟨s, hs⟩ := List.length_eq_one_iff.1 hl
  have hm : s ∈ c.leafStrings := hs ▸ List.mem_singleton_self s
  have hr := root?_leaves h
  rw [leaves, hs, List.map_singleton, root?_singleton, Option.some.injEq] at hr
  exact ⟨s, hc (List.mem_append_left _ hm), hr, leaf_not_node hm⟩

end RevealedContent

namespace TearOff

def strings (f : TearOff) : List Bytes :=
  rootStrings f.roots ++ f.groups.flatMap fun g => g.content.strings

theorem checkGroups_eq_ok {roots : List Digest} {seen : List UInt32} {gs : List RevealedGroup} :
    checkGroups roots seen gs = .ok () ↔
      (gs.map (·.index)).Nodup ∧ (∀ g ∈ gs, g.index ∉ seen) ∧
        ∀ g ∈ gs, ∃ d, roots[g.index.toNat]? = some d ∧ g.content.root = .ok d := by
  induction gs generalizing seen with
  | nil => simp [checkGroups]
  | cons g gs ih =>
    by_cases hs : g.index ∈ seen
    · simp [checkGroups, hs]
    · cases hr : roots[g.index.toNat]? with
      | none => simp [checkGroups, hs, hr]
      | some expected =>
        simp only [checkGroups, hs, if_false, hr, bind_eq_ok, throw_eq_error,
          ite_else_error_eq_ok, ih, List.map_cons, List.nodup_cons, List.mem_map, List.mem_cons,
          forall_eq_or_imp, not_false_eq_true, true_and, Option.some.injEq]
        grind

theorem verify_eq_ok {f : TearOff} : f.verify = .ok () ↔
    root? f.roots = some f.id ∧ (f.groups.map (·.index)).Nodup ∧
      ∀ g ∈ f.groups, ∃ d, f.roots[g.index.toNat]? = some d ∧ g.content.root = .ok d := by
  rw [verify]
  cases root? f.roots with
  | none => simp
  | some root => simp [ite_else_error_eq_ok, checkGroups_eq_ok]

theorem of_revealed? {f : TearOff} {k : GroupKind} {g : RevealedGroup}
    (h : f.revealed? k = some g) : g ∈ f.groups ∧ g.index = k.index :=
  ⟨List.mem_of_find?_eq_some h, by simpa using List.find?_some h⟩

/-- A tear-off that is verified, with all that is hashed for that. -/
structure Verified (ss : List Bytes) (f : TearOff) : Prop where
  ok : f.verify = .ok ()
  strings : f.strings ⊆ ss

theorem Verified.mono {ts : List Bytes} (h : ss ⊆ ts) {f : TearOff} (hf : f.Verified ss) :
    f.Verified ts :=
  ⟨hf.ok, List.Subset.trans hf.strings h⟩

variable {f e : TearOff} {k : GroupKind} {g h : RevealedGroup}

theorem Verified.root (hf : f.Verified ss) : root? f.roots = some f.id := (verify_eq_ok.1 hf.ok).1

theorem Verified.above (hf : f.Verified ss) : rootStrings f.roots ⊆ ss :=
  fun _ hs => hf.strings (List.mem_append_left _ hs)

theorem Verified.content (hf : f.Verified ss) (hg : f.revealed? k = some g) :
    ∃ d, f.roots[k.index.toNat]? = some d ∧ g.content.root = .ok d ∧ g.content.strings ⊆ ss := by
  obtain ⟨hm, hi⟩ := of_revealed? hg
  obtain ⟨d, hd, hr⟩ := (verify_eq_ok.1 hf.ok).2.2 g hm
  refine ⟨d, hi ▸ hd, hr, fun s hs => hf.strings (List.mem_append_right _ ?_)⟩
  exact List.mem_flatMap.2 ⟨g, hm, hs⟩

/-- If a tear-off opens a group at a single leaf, none with its identifier has a higher tree over
its roots. -/
theorem Verified.height_le (free : ¬ Collision ss) (hf : f.Verified ss) (he : e.Verified ss)
    (hid : f.id = e.id) (hg : f.revealed? k = some g) (hl : g.content.leafStrings.length = 1) :
    height e.roots ≤ height f.roots := by
  obtain ⟨d, hd, hr, hs⟩ := hf.content hg
  apply height_le_of_sealed free hf.above he.above (by rw [hf.root, he.root, hid])
    (List.mem_of_getElem? hd)
  exact RevealedContent.sealed_root hr hs hl

theorem Verified.pad_roots_eq (free : ¬ Collision ss) (hf : f.Verified ss) (he : e.Verified ss)
    (hid : f.id = e.id) (hh : height f.roots = height e.roots) : pad f.roots = pad e.roots := by
  have hne : f.roots ≠ [] := by
    intro h
    have hr := hf.root
    rw [h] at hr
    cases hr
  exact pad_eq_of_root?_eq free hne hf.above he.above hh (by rw [hf.root, he.root, hid])

/-- Tear-offs with one identifier and roots for trees of one height open a group alike, up to
repetitions at its end. -/
theorem Verified.pad_openings_eq (free : ¬ Collision ss) (hf : f.Verified ss) (he : e.Verified ss)
    (hid : f.id = e.id) (hh : height f.roots = height e.roots) (hg : f.revealed? k = some g)
    (hg' : e.revealed? k = some h) :
    pad g.content.openings = pad h.content.openings ∧
      ∀ n, g.content = .empty n ↔ h.content = .empty n := by
  obtain ⟨d, hd, hr, hs⟩ := hf.content hg
  obtain ⟨d', hd', hr', hs'⟩ := he.content hg'
  have hp := getElem?_eq_of_pad_eq (hf.pad_roots_eq free he hid hh)
    (List.getElem?_eq_some_iff.1 hd).1 (List.getElem?_eq_some_iff.1 hd').1
  rw [hd, hd', Option.some.injEq] at hp
  exact RevealedContent.pad_openings_eq free hs hs' hr (hp ▸ hr')

end TearOff

/-! The tear-offs that a transaction makes of itself. They verify, and what is hashed for that is
hashed for the identifier of the transaction too. -/

namespace GroupKind

theorem mem_all (k : GroupKind) : k ∈ all := by cases k <;> decide

theorem index_lt (k : GroupKind) : k.index.toNat < all.length := by cases k <;> decide

theorem index_inj {k l : GroupKind} (h : k.index = l.index) : k = l := by
  have ho := congrArg ofIndex? h
  rwa [ofIndex?_index, ofIndex?_index, Option.some.injEq] at ho

end GroupKind

namespace Transaction

theorem checkLayout_eq_ok {groups : List Group} {salt : Salt} :
    checkLayout groups salt = .ok () ↔ Group.checkShape groups = .ok () ∧
      GroupKind.all.length ≤ groups.length ∧
      (∀ k ∈ GroupKind.all, k.isSingleton →
        (groups.getD k.index.toNat ⟨[]⟩).components.length ≤ 1) ∧ salt.octets.isZero = false := by
  simp only [checkLayout, throw_eq_error, pure_eq_ok, error_bind, unit_bind_eq_ok,
    ite_error_eq_ok]
  simp

variable (t : Transaction)

theorem checked : Group.checkShape t.groups = .ok () ∧
    GroupKind.all.length ≤ t.groups.length := by
  obtain ⟨hs, hl, -⟩ := checkLayout_eq_ok.1 t.laidOut
  exact ⟨hs, hl⟩

theorem length_components_le {k : GroupKind} (hk : k.isSingleton) :
    (t.group k).components.length ≤ 1 := by
  obtain ⟨-, -, hc, -⟩ := checkLayout_eq_ok.1 t.laidOut
  exact hc k k.mem_all hk

def idStrings : List Bytes := Group.idStrings t.groups t.salt

theorem above : rootStrings t.roots ⊆ t.idStrings := List.subset_append_right _ _

theorem root?_roots : root? t.roots = some t.id := by
  have hne : t.roots ≠ [] := by
    intro h
    have hl := Group.length_roots t.groups t.salt
    rw [show Group.roots t.groups t.salt = [] from h] at hl
    exact (Group.checkShape_eq_ok.1 t.checked.1).1 (List.length_eq_zero_iff.1 hl.symm)
  obtain ⟨d, hd⟩ := exists_top? parent hne
  rw [← root?_eq_top?] at hd
  rw [id, hd, Option.getD_some]

theorem getElem?_groups (k : GroupKind) : t.groups[k.index.toNat]? = some (t.group k) := by
  have hl : k.index.toNat < t.groups.length := Nat.lt_of_lt_of_le k.index_lt t.checked.2
  rw [group, List.getD_eq_getElem?_getD, List.getElem?_eq_getElem hl, Option.getD_some]

theorem getElem?_roots (k : GroupKind) :
    t.roots[k.index.toNat]? = some ((t.group k).root t.salt k.index) := by
  simp [roots, Group.roots, List.getElem?_zipIdx, t.getElem?_groups k]

theorem length_components_lt (k : GroupKind) :
    (t.group k).components.length < UInt32.size := by
  obtain ⟨-, -, hc⟩ := Group.checkShape_eq_ok.1 t.checked.1
  exact hc _ (List.mem_of_getElem? (t.getElem?_groups k))

/-- What is revealed of a group is the group opened at its place. Since 32 bits count the components
of a group, each has its nonce. -/
theorem content_reveal (k : GroupKind) :
    (t.reveal k).content = (t.group k).disclosed t.salt k.index := by
  have hcount : (UInt32.ofNat (t.group k).components.length).toNat =
      (t.group k).components.length := UInt32.toNat_ofNat_of_lt' (t.length_components_lt k)
  simp only [reveal, hcount]
  rfl

theorem map_fst_openings (k : GroupKind) :
    (t.reveal k).content.openings.map Prod.fst = (t.group k).components := by
  rw [content_reveal, Group.openings_disclosed, List.map_map]
  exact List.zipIdx_map_fst _ _

theorem root_reveal (k : GroupKind) :
    (t.reveal k).content.root = .ok ((t.group k).root t.salt k.index) := by
  rw [content_reveal, Group.root_disclosed]

theorem shown_reveal (k : GroupKind) : (t.reveal k).content.shown = (t.group k).components := by
  rw [← RevealedContent.map_fst_openings (t.root_reveal k), t.map_fst_openings]

theorem strings_group (k : GroupKind) :
    (t.group k).strings t.salt k.index ⊆ t.idStrings := by
  intro s hs
  apply List.mem_append_left
  refine List.mem_flatMap.2 ⟨(t.group k, k.index.toNat), ?_, ?_⟩
  · exact List.mem_zipIdx_iff_getElem?.2 (t.getElem?_groups k)
  · simpa using hs

theorem revealed?_tearOff {kinds : List GroupKind} {k : GroupKind} (h : k ∈ kinds) :
    (t.tearOff kinds).revealed? k = some (t.reveal k) := by
  have key : ∀ ks : List GroupKind, k ∈ ks →
      (ks.map t.reveal).find? (·.index == k.index) = some (t.reveal k) := by
    intro ks hk
    induction ks with
    | nil => cases hk
    | cons l ks ih =>
      by_cases hl : l = k
      · simp [hl, reveal]
      · have hi : (t.reveal l).index ≠ k.index := fun e => hl (GroupKind.index_inj e)
        have hk' : k ∈ ks := (List.mem_cons.1 hk).resolve_left (Ne.symm hl)
        simpa [hi] using ih hk'
  exact key _ (by simpa using ⟨GroupKind.mem_all k, h⟩)

theorem verified_tearOff (kinds : List GroupKind) :
    (t.tearOff kinds).Verified t.idStrings where
  ok := by
    refine TearOff.verify_eq_ok.2 ⟨t.root?_roots, ?_, fun g hg => ?_⟩
    · have hn : (GroupKind.all.filter (· ∈ kinds)).Nodup := List.Nodup.filter _ (by decide)
      simpa [tearOff, reveal, Function.comp_def] using
        List.Nodup.map (fun _ _ h => GroupKind.index_inj h) hn
    · obtain ⟨k, -, rfl⟩ := List.mem_map.1 hg
      exact ⟨_, t.getElem?_roots k, t.root_reveal k⟩
  strings := by
    intro s hs
    rcases List.mem_append.1 hs with hs | hs
    · exact List.mem_append_right _ hs
    · obtain ⟨g, hg, hs⟩ := List.mem_flatMap.1 hs
      obtain ⟨k, -, rfl⟩ := List.mem_map.1 hg
      rw [content_reveal] at hs
      exact t.strings_group k (List.mem_append_right _ hs)

/-- A transaction for examples, with three inputs and one component of each other kind. -/
def sample : Transaction :=
  ⟨[⟨[[2], [3], [4]]⟩, ⟨[[5]]⟩, ⟨[[6]]⟩, ⟨[[7]]⟩, ⟨[[8]]⟩, ⟨[[9]]⟩], .sevens, rfl⟩

set_option maxRecDepth 100000 in
theorem not_collision_sample : ¬ Collision sample.idStrings := by decide +kernel

end Transaction

end LedgerNotary
