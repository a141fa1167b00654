import LedgerNotary.Proofs.Commitment.Content

/-! The groups of a transaction as they are opened in their places, and all that is hashed for
them. -/

namespace LedgerNotary

open Merkle Commitment

def Salt.sevens : Salt := ⟨⟨List.replicate 32 7, List.length_replicate⟩⟩

namespace Group

/-- A group opened at its place in a transaction. -/
def disclosed (g : Group) (salt : Salt) (index : UInt32) : RevealedContent :=
  if g.components.isEmpty then .empty (groupNonce salt index)
  else .components g.components ((List.range g.components.length).map fun i =>
    componentNonce salt index (UInt32.ofNat i))

def nonceStrings (g : Group) (salt : Salt) (index : UInt32) : List Bytes :=
  if g.components.isEmpty then [groupNonceString salt index]
  else (List.range g.components.length).map fun i =>
    componentNonceString salt index (UInt32.ofNat i)

def strings (g : Group) (salt : Salt) (index : UInt32) : List Bytes :=
  g.nonceStrings salt index ++ (g.disclosed salt index).strings

def allDisclosed (groups : List Group) (salt : Salt) : List RevealedContent :=
  groups.zipIdx.map fun (g, i) => g.disclosed salt (UInt32.ofNat i)

def idStrings (groups : List Group) (salt : Salt) : List Bytes :=
  (groups.zipIdx.flatMap fun (g, i) => g.strings salt (UInt32.ofNat i)) ++
    rootStrings (roots groups salt)

theorem openings_disclosed (g : Group) (salt : Salt) (index : UInt32) :
    (g.disclosed salt index).openings =
      g.components.zipIdx.map fun (c, i) => (c, componentNonce salt index (UInt32.ofNat i)) := by
  by_cases hg : g.components = []
  · simp [disclosed, hg, RevealedContent.openings]
  · have he : g.components.isEmpty = false := by simpa using hg
    rw [disclosed, he, List.zipIdx_eq_zip_range', ← List.range_eq_range']
    exact List.zip_map_right

theorem leafStrings_disclosed {g : Group} (hg : g.components ≠ []) (salt : Salt) (index : UInt32) :
    (g.disclosed salt index).leafStrings = g.components.zipIdx.map fun (c, i) =>
      leafString c (componentNonce salt index (UInt32.ofNat i)) := by
  have ho := congrArg (List.map fun o => leafString o.1 o.2) (openings_disclosed g salt index)
  have he : g.components.isEmpty = false := by simpa using hg
  rw [List.map_map] at ho
  rw [disclosed, he] at ho ⊢
  exact ho

theorem length_leafStrings_disclosed (g : Group) (salt : Salt) (index : UInt32) :
    (g.disclosed salt index).leafStrings.length = max 1 g.components.length := by
  by_cases hg : g.components = []
  · simp [disclosed, hg, RevealedContent.leafStrings]
  · have hl := List.length_pos_iff.2 hg
    rw [leafStrings_disclosed hg, List.length_map, List.length_zipIdx]
    omega

theorem root_disclosed (g : Group) (salt : Salt) (index : UInt32) :
    (g.disclosed salt index).root = .ok (g.root salt index) := by
  by_cases hg : g.components = []
  · simp [disclosed, hg, RevealedContent.root, root, leaves, root?, reduce]
  · have he : g.components.isEmpty = false := by simpa using hg
    have hl : (g.disclosed salt index).leaves = g.leaves salt index := by
      rw [RevealedContent.leaves, leafStrings_disclosed hg, List.map_map]
      rfl
    obtain ⟨r, hr⟩ := exists_top? parent (l := g.leaves salt index) (by simpa [leaves] using hg)
    rw [← root?_eq_top?] at hr
    rw [root, hr, Option.getD_some]
    rw [← hl] at hr
    rw [disclosed, he] at hr ⊢
    exact RevealedContent.root_components.2 ⟨hg, by simp, hr⟩

end Group

/-! A transaction's identifier fixes all of its groups and its salt.

The strings at the foot of the whole tree name the place of what they commit to: through its nonce
every component says in which group it stands and where, and every empty group says which one it
is. So it is enough that two trees with one root stand on the same strings. -/

open Merkle Commitment Outcome

variable {ss : List Bytes}

namespace RevealedContent

/-- Contents that have a root, with all that is hashed for them and over them. -/
structure Rooted (ss : List Bytes) (cs : List RevealedContent) : Prop where
  ok : ∀ c ∈ cs, ∃ d, c.root = .ok d
  strings : ∀ c ∈ cs, c.strings ⊆ ss
  above : rootStrings (cs.map (·.tree.root)) ⊆ ss

theorem Rooted.mem_leaves {cs : List RevealedContent} (h : Rooted ss cs) {c : RevealedContent}
    (hc : c ∈ cs) {d : Digest} : d ∈ c.tree.leaves ↔ d ∈ c.leaves := by
  obtain ⟨r, hr⟩ := h.ok c hc
  rw [leaves_tree hr, mem_pad]

/-- A tree that joins the trees of contents, if not beyond their root, ends in sealed leaves. -/
theorem Rooted.of_mem_rise {cs : List RevealedContent} (h : Rooted ss cs) {n : Nat}
    (hn : n ≤ height cs) {T : HashTree} (hT : T ∈ rise HashTree.node n (cs.map tree)) :
    T.strings ⊆ ss ∧ ∀ d ∈ T.leaves, Sealed ss d := by
  refine ⟨fun s hs => ?_, fun d hd => ?_⟩
  · rcases HashTree.strings_of_mem_rise hT hs with ⟨t, ht, hst⟩ | ⟨g, hg, hs⟩
    · obtain ⟨c, hc, rfl⟩ := List.mem_map.1 ht
      obtain ⟨r, hr⟩ := h.ok c hc
      exact strings_tree hr (h.strings c hc) hst
    · rw [List.map_map] at hs
      refine h.above (mem_rootStrings.2 ⟨g, ?_, hs⟩)
      rw [height_map]
      omega
  · obtain ⟨t, ht, hd⟩ := HashTree.mem_leaves_rise.1 ⟨T, hT, hd⟩
    obtain ⟨c, hc, rfl⟩ := List.mem_map.1 ht
    obtain ⟨r, hr⟩ := h.ok c hc
    exact sealed_of_mem_tree hr (h.strings c hc) hd

theorem Rooted.exists_tree {cs : List RevealedContent} (h : Rooted ss cs) (hne : cs ≠ []) :
    ∃ T : HashTree, root? (cs.map (·.tree.root)) = some T.root ∧ T.strings ⊆ ss ∧
      (∀ d ∈ T.leaves, Sealed ss d) ∧ ∀ d, d ∈ T.leaves ↔ ∃ c ∈ cs, d ∈ c.leaves := by
  have hroots : (cs.map tree).map HashTree.root = cs.map (·.tree.root) := List.map_map
  have hne' : cs.map tree ≠ [] := by simpa using hne
  obtain ⟨T, hT⟩ := exists_top? HashTree.node hne'
  have hrise := (top?_eq_some hne').1 hT
  rw [height_map] at hrise
  obtain ⟨hs, hl⟩ := h.of_mem_rise (T := T) (Nat.le_refl _) (by simp [hrise])
  refine ⟨T, hroots ▸ HashTree.root?_of_join? hT, hs, hl, fun d => ?_⟩
  have hm : (∃ T ∈ rise HashTree.node (height cs) (cs.map tree), d ∈ T.leaves) ↔
      ∃ t ∈ cs.map tree, d ∈ t.leaves := HashTree.mem_leaves_rise
  simp only [hrise, List.mem_singleton, exists_eq_left, List.mem_map,
    exists_exists_and_eq_and] at hm
  rw [hm]
  exact exists_congr fun c => and_congr_right fun hc => h.mem_leaves hc

/-- Lists of contents with one root over their roots stand on the same strings. -/
theorem Rooted.mem_leafStrings (free : ¬ Collision ss) {cs es : List RevealedContent}
    (hc : Rooted ss cs) (he : Rooted ss es) (hcs : cs ≠ []) (hes : es ≠ [])
    (hr : root? (cs.map (·.tree.root)) = root? (es.map (·.tree.root))) {s : Bytes}
    (h : ∃ c ∈ cs, s ∈ c.leafStrings) : ∃ e ∈ es, s ∈ e.leafStrings := by
  obtain ⟨T, hTr, hTs, hTl, hT⟩ := hc.exists_tree hcs
  obtain ⟨U, hUr, hUs, hUl, hU⟩ := he.exists_tree hes
  rw [hTr, hUr, Option.some.injEq] at hr
  have hTU := HashTree.eq_of_sealed free hTs hUs hTl hUl hr
  obtain ⟨c, hcm, hsc⟩ := h
  have hm : Blake3.hash s ∈ U.leaves := by
    rw [← hTU, hT]
    exact ⟨c, hcm, List.mem_map_of_mem hsc⟩
  obtain ⟨e, hem, hse⟩ := (hU _).1 hm
  have hs : s ∈ ss := hc.strings c hcm (List.mem_append_left _ hsc)
  exact ⟨e, hem, mem_leafStrings_of_hash free (he.strings e hem) hs hse⟩

end RevealedContent

namespace Group

theorem checkShape_eq_ok {groups : List Group} : checkShape groups = .ok () ↔
    groups ≠ [] ∧ groups.length < maxPositions ∧
      ∀ g ∈ groups, g.components.length < maxPositions := by
  simp [checkShape, throw_eq_error, pure_eq_ok, error_bind, ite_error_eq_ok]

theorem transactionId_eq_ok {groups : List Group} {salt : Salt} {id : Digest} :
    transactionId groups salt = .ok id ↔
      checkShape groups = .ok () ∧ root? (roots groups salt) = some id := by
  rw [transactionId, unit_bind_eq_ok]
  cases root? (roots groups salt) <;> simp [throw_eq_error, pure_eq_ok]

theorem map_root_allDisclosed (groups : List Group) (salt : Salt) :
    (allDisclosed groups salt).map (·.tree.root) = roots groups salt := by
  rw [allDisclosed, List.map_map, roots]
  apply List.map_congr_left fun a _ => ?_
  exact RevealedContent.root_tree (root_disclosed _ _ _)

theorem rooted_allDisclosed {groups : List Group} {salt : Salt} (h : idStrings groups salt ⊆ ss) :
    RevealedContent.Rooted ss (allDisclosed groups salt) where
  ok c hc := by
    obtain ⟨⟨g, i⟩, -, rfl⟩ := List.mem_map.1 hc
    exact ⟨_, root_disclosed g salt _⟩
  strings c hc s hs := by
    obtain ⟨⟨g, i⟩, hg, rfl⟩ := List.mem_map.1 hc
    refine h (List.mem_append_left _ (List.mem_flatMap.2 ⟨(g, i), hg, ?_⟩))
    exact List.mem_append_right _ hs
  above := by
    rw [map_root_allDisclosed]
    exact fun s hs => h (List.mem_append_right _ hs)

end Group

/-- What stands somewhere in a transaction: a component in a group, or no component in a group. -/
inductive Place
  | component (group position : Nat) (bytes : Bytes)
  | empty (group : Nat)

namespace Place

def group : Place → Nat
  | component i _ _ => i
  | empty i => i

def Of (groups : List Group) : Place → Prop
  | component i j c => ∃ g, groups[i]? = some g ∧ g.components[j]? = some c
  | empty i => groups[i]? = some ⟨[]⟩

def nonceString (salt : Salt) : Place → Bytes
  | component i j _ => componentNonceString salt (UInt32.ofNat i) (UInt32.ofNat j)
  | empty i => groupNonceString salt (UInt32.ofNat i)

/-- What is hashed at the foot of the whole tree for the place. -/
def string (salt : Salt) : Place → Bytes
  | component i j c => leafString c (componentNonce salt (UInt32.ofNat i) (UInt32.ofNat j))
  | empty i => emptyString (groupNonce salt (UInt32.ofNat i))

theorem groups_ext {groups groups' : List Group} (h : ∀ p, Of groups p ↔ Of groups' p) :
    groups = groups' := by
  have key : ∀ {gs gs' : List Group}, (∀ p, Of gs p ↔ Of gs' p) →
      ∀ {i : Nat} {g : Group}, gs[i]? = some g → gs'[i]? = some g := by
    intro gs gs' h i g hg
    by_cases hc : g.components = []
    · cases g
      cases hc
      exact (h (.empty i)).1 hg
    · obtain ⟨c, hc⟩ := List.exists_mem_of_ne_nil _ hc
      obtain ⟨j, hj⟩ := List.getElem?_of_mem hc
      obtain ⟨g', hg', -⟩ := (h (.component i j c)).1 ⟨g, hg, hj⟩
      have hgg : g.components = g'.components := by
        refine List.ext_getElem? fun j => Option.ext fun c => ⟨fun hj => ?_, fun hj => ?_⟩
        · obtain ⟨g'', hg'', hj⟩ := (h (.component i j c)).1 ⟨g, hg, hj⟩
          rw [hg', Option.some.injEq] at hg''
          rwa [hg'']
        · obtain ⟨g'', hg'', hj⟩ := (h (.component i j c)).2 ⟨g', hg', hj⟩
          rw [hg, Option.some.injEq] at hg''
          rwa [hg'']
      cases g
      cases g'
      cases hgg
      exact hg'
  exact List.ext_getElem? fun i => Option.ext fun g => ⟨key h, key fun p => (h p).symm⟩

theorem exists_of {groups : List Group} (h : groups ≠ []) : ∃ p, Of groups p := by
  obtain ⟨g, gs, rfl⟩ := List.exists_cons_of_ne_nil h
  cases g with
  | mk components =>
    cases components with
    | nil => exact ⟨.empty 0, rfl⟩
    | cons c cs => exact ⟨.component 0 0 c, _, rfl, rfl⟩

theorem exists_group {groups : List Group} {p : Place} (h : Of groups p) :
    ∃ g, groups[p.group]? = some g := by
  cases p with
  | component i j c => exact ⟨h.choose, h.choose_spec.1⟩
  | empty i => exact ⟨_, h⟩

theorem mem_leafStrings_disclosed {groups : List Group} {g : Group} {i : Nat}
    (hi : groups[i]? = some g) {salt : Salt} {s : Bytes} :
    s ∈ (g.disclosed salt (UInt32.ofNat i)).leafStrings ↔
      ∃ p, Of groups p ∧ p.group = i ∧ p.string salt = s := by
  constructor
  · intro hs
    by_cases he : g.components = []
    · cases g
      cases he
      exact ⟨.empty i, hi, rfl, (List.mem_singleton.1 hs).symm⟩
    · rw [Group.leafStrings_disclosed he] at hs
      obtain ⟨⟨c, j⟩, hc, rfl⟩ := List.mem_map.1 hs
      exact ⟨.component i j c, ⟨g, hi, List.mem_zipIdx_iff_getElem?.1 hc⟩, rfl, rfl⟩
  · rintro ⟨p, hp, rfl, rfl⟩
    cases p with
    | component i j c =>
      obtain ⟨g', hi', hj⟩ := hp
      obtain rfl := Option.some.inj (hi.symm.trans hi')
      have he : g.components ≠ [] := List.ne_nil_of_mem (List.mem_of_getElem? hj)
      rw [Group.leafStrings_disclosed he]
      exact List.mem_map_of_mem (a := (c, j)) (List.mem_zipIdx_iff_getElem?.2 hj)
    | empty i =>
      obtain rfl := Option.some.inj (hi.symm.trans hp)
      exact List.mem_singleton_self _

theorem mem_leafStrings_iff {groups : List Group} {salt : Salt} {s : Bytes} :
    (∃ c ∈ Group.allDisclosed groups salt, s ∈ c.leafStrings) ↔
      ∃ p, Of groups p ∧ p.string salt = s := by
  constructor
  · rintro ⟨c, hc, hs⟩
    obtain ⟨⟨g, i⟩, hg, rfl⟩ := List.mem_map.1 hc
    obtain ⟨p, hp, -, he⟩ := (mem_leafStrings_disclosed (List.mem_zipIdx_iff_getElem?.1 hg)).1 hs
    exact ⟨p, hp, he⟩
  · rintro ⟨p, hp, he⟩
    obtain ⟨g, hg⟩ := exists_group hp
    exact ⟨_, List.mem_map_of_mem (a := (g, p.group)) (List.mem_zipIdx_iff_getElem?.2 hg),
      (mem_leafStrings_disclosed hg).2 ⟨p, hp, rfl, he⟩⟩

theorem nonceString_mem {groups : List Group} {salt : Salt} {p : Place} (h : Of groups p) :
    p.nonceString salt ∈ Group.idStrings groups salt := by
  cases p with
  | component i j c =>
    obtain ⟨g, hi, hj⟩ := h
    apply List.mem_append_left
    refine List.mem_flatMap.2 ⟨(g, i), List.mem_zipIdx_iff_getElem?.2 hi, ?_⟩
    have he : g.components.isEmpty = false := by
      simpa using List.ne_nil_of_mem (List.mem_of_getElem? hj)
    have hl : j < g.components.length := (List.getElem?_eq_some_iff.1 hj).1
    apply List.mem_append_left
    rw [Group.nonceStrings, he]
    exact List.mem_map_of_mem (List.mem_range.2 hl)
  | empty i =>
    apply List.mem_append_left
    refine List.mem_flatMap.2 ⟨(⟨[]⟩, i), List.mem_zipIdx_iff_getElem?.2 h, ?_⟩
    exact List.mem_append_left _ (List.mem_singleton_self _)

theorem toUInt32_inj {m n : Nat} (hm : m < Group.maxPositions) (hn : n < Group.maxPositions)
    (h : UInt32.ofNat m = UInt32.ofNat n) : m = n := by
  have ht := congrArg UInt32.toNat h
  rwa [UInt32.toNat_ofNat_of_lt' hm, UInt32.toNat_ofNat_of_lt' hn] at ht

theorem bounds {groups : List Group} (hg : Group.checkShape groups = .ok ()) :
    ∀ {p : Place}, Of groups p → match p with
      | component i j _ => i < Group.maxPositions ∧ j < Group.maxPositions
      | empty i => i < Group.maxPositions := by
  obtain ⟨-, hl, hc⟩ := Group.checkShape_eq_ok.1 hg
  rintro (⟨i, j, c⟩ | i) hp
  · obtain ⟨g, hi, hj⟩ := hp
    have hi' := (List.getElem?_eq_some_iff.1 hi).1
    have hj' := (List.getElem?_eq_some_iff.1 hj).1
    exact ⟨by omega, Nat.lt_trans hj' (hc g (List.mem_of_getElem? hi))⟩
  · have hi' := (List.getElem?_eq_some_iff.1 hp).1
    exact Nat.lt_trans hi' hl

/-- Without a collision a string at the foot of the tree tells its place and the salt. -/
theorem eq_of_string_eq (free : ¬ Collision ss) {groups groups' : List Group} {salt salt' : Salt}
    (hs : Group.idStrings groups salt ⊆ ss) (hs' : Group.idStrings groups' salt' ⊆ ss)
    (hg : Group.checkShape groups = .ok ()) (hg' : Group.checkShape groups' = .ok ())
    {p p' : Place} (hp : Of groups p) (hp' : Of groups' p') (h : p.string salt = p'.string salt') :
    p = p' ∧ salt = salt' := by
  have hn := eq_of_hash_eq free (hs (nonceString_mem hp)) (hs' (nonceString_mem hp'))
  have hb := bounds hg hp
  have hb' := bounds hg' hp'
  cases p with
  | component i j c =>
    cases p' with
    | component i' j' c' =>
      obtain ⟨rfl, hd⟩ := leafString_inj h
      obtain ⟨rfl, hi, hj⟩ := componentNonceString_inj (hn hd)
      rw [toUInt32_inj hb.1 hb'.1 hi, toUInt32_inj hb.2 hb'.2 hj]
      exact ⟨rfl, rfl⟩
    | empty i' => exact absurd (Domain.eq_of_string_eq h) (by decide)
  | empty i =>
    cases p' with
    | component i' j' c' => exact absurd (Domain.eq_of_string_eq h) (by decide)
    | empty i' =>
      obtain ⟨rfl, hi⟩ := groupNonceString_inj (hn (emptyString_inj h))
      rw [toUInt32_inj hb hb' hi]
      exact ⟨rfl, rfl⟩

end Place

namespace Group

/-- Whatever stands in one of two transactions with one identifier stands in the other, and their
salts are the same. -/
theorem of_of_transactionId_eq (free : ¬ Collision ss) {groups groups' : List Group}
    {salt salt' : Salt} {id : Digest} (hs : idStrings groups salt ⊆ ss)
    (hs' : idStrings groups' salt' ⊆ ss) (h : transactionId groups salt = .ok id)
    (h' : transactionId groups' salt' = .ok id) {p : Place} (hp : Place.Of groups p) :
    Place.Of groups' p ∧ salt = salt' := by
  obtain ⟨hg, hr⟩ := transactionId_eq_ok.1 h
  obtain ⟨hg', hr'⟩ := transactionId_eq_ok.1 h'
  have hne : ∀ {gs : List Group} (s : Salt), checkShape gs = .ok () → allDisclosed gs s ≠ [] := by
    intro gs s hgs
    simpa [allDisclosed] using (checkShape_eq_ok.1 hgs).1
  have hroot : root? ((allDisclosed groups salt).map (·.tree.root)) =
      root? ((allDisclosed groups' salt').map (·.tree.root)) := by
    rw [map_root_allDisclosed, map_root_allDisclosed, hr, hr']
  obtain ⟨p', hp', he⟩ := Place.mem_leafStrings_iff.1 <|
    (rooted_allDisclosed hs).mem_leafStrings free (rooted_allDisclosed hs') (hne salt hg)
      (hne salt' hg') hroot (Place.mem_leafStrings_iff.2 ⟨p, hp, rfl⟩)
  obtain ⟨rfl, hsalt⟩ := Place.eq_of_string_eq free hs hs' hg hg' hp hp' he.symm
  exact ⟨hp', hsalt⟩

/-- The identifier fixes the groups and the salt. -/
theorem eq_of_transactionId_eq {groups groups' : List Group} {salt salt' : Salt} {id : Digest}
    (h : transactionId groups salt = .ok id) (h' : transactionId groups' salt' = .ok id) :
    (groups = groups' ∧ salt = salt') ∨
      Collision (idStrings groups salt ++ idStrings groups' salt') := by
  by_cases free : Collision (idStrings groups salt ++ idStrings groups' salt')
  · exact Or.inr free
  · have hs := List.subset_append_left (idStrings groups salt) (idStrings groups' salt')
    have hs' := List.subset_append_right (idStrings groups salt) (idStrings groups' salt')
    have key : ∀ {p}, Place.Of groups p → Place.Of groups' p ∧ salt = salt' :=
      of_of_transactionId_eq free hs hs' h h'
    have key' : ∀ {p}, Place.Of groups' p → Place.Of groups p ∧ salt' = salt :=
      of_of_transactionId_eq free hs' hs h' h
    refine Or.inl ⟨Place.groups_ext fun p => ⟨fun hp => (key hp).1, fun hp => (key' hp).1⟩, ?_⟩
    obtain ⟨hg, -⟩ := transactionId_eq_ok.1 h
    obtain ⟨p, hp⟩ := Place.exists_of (checkShape_eq_ok.1 hg).1
    exact (key hp).2

/-- A group of one component and one without components. -/
theorem eq_of_transactionId_eq_pair :
    let groups : List Group := [⟨[[1, 2]]⟩, ⟨[]⟩]
    let id := parent (componentLeaf [1, 2] (componentNonce .sevens 0 0))
      (emptyGroupRoot (groupNonce .sevens 1))
    transactionId groups .sevens = .ok id ∧ ((groups = groups ∧ Salt.sevens = .sevens) ∨
      Collision (idStrings groups .sevens ++ idStrings groups .sevens)) := by
  intro groups id
  have h : transactionId groups .sevens = .ok id := transactionId_eq_ok.2 ⟨by decide, rfl⟩
  exact ⟨h, eq_of_transactionId_eq h h⟩

end Group

end LedgerNotary
