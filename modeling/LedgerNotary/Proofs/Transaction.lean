import LedgerNotary.Proofs.Notary.Run
import LedgerNotary.Proofs.Time
import LedgerNotary.Proofs.Wire.Messages

/-! What is put into a transaction is read from it again.

A draft is written part by part, each component by itself. If its parts can be written, every one is
read back from its component, in the order in which it was given. -/

namespace LedgerNotary

open Outcome Wire

/-- The parts are values that can be written. References to states and to attachments, and time
windows, always can. -/
structure Draft.Writable (d : Draft) : Prop where
  outputs : ∀ o ∈ d.outputs, Fits o
  commands : ∀ c ∈ d.commands, Fits c
  notary : ∀ p ∈ d.notary, p.Writable

namespace Visible

theorem decodeAll_ofValues {α : Type} [Wire α] [Bounded α] {v : Visible} {k : GroupKind}
    {as : List α} (hv : v k = .ok (as.map pack)) (hf : ∀ a ∈ as, Fits a) :
    v.decodeAll α k = .ok as := by
  rw [decodeAll, hv, ok_bind, List.mapM_map]
  refine mapM_eq_ok_self fun a ha => ?_
  rw [Function.comp_apply, read_pack (hf a ha)]

end Visible

theorem Group.ofValues_eq_ok {α : Type} [Wire α] {as : List α} {g : Group} :
    ofValues as = .ok g ↔ (∀ a ∈ as, sized a = true) ∧ g = ⟨as.map pack⟩ := by
  have hmap : ∀ cs : List Bytes,
      as.mapM (fun a => (encode a).mapError ValueFault.malformed) = .ok cs ↔
        (∀ a ∈ as, sized a = true) ∧ cs = as.map pack := fun _ =>
    mapM_eq_ok_map fun _ _ => mapError_eq_ok.trans encode_eq_ok
  simp only [ofValues, bind_eq_ok, hmap, pure_eq_ok, Except.ok.injEq]
  constructor
  · rintro ⟨_, ⟨h, rfl⟩, rfl⟩
    exact ⟨h, rfl⟩
  · rintro ⟨h, rfl⟩
    exact ⟨_, ⟨h, rfl⟩, rfl⟩

namespace Draft

variable {d : Draft} {salt : Salt} {t : Transaction}

def packed (d : Draft) : List Group :=
  [⟨d.inputs.map pack⟩, ⟨d.outputs.map pack⟩, ⟨d.commands.map pack⟩, ⟨d.attachments.map pack⟩,
    ⟨d.notary.toList.map pack⟩, ⟨d.timeWindow.toList.map pack⟩]

theorem eq_packed {groups : List Group} (h : d.groups = .ok groups) : groups = d.packed := by
  simp only [Draft.groups, bind_eq_ok, Group.ofValues_eq_ok, pure_eq_ok, Except.ok.injEq] at h
  obtain ⟨_, ⟨-, rfl⟩, _, ⟨-, rfl⟩, _, ⟨-, rfl⟩, _, ⟨-, rfl⟩, _, ⟨-, rfl⟩, _, ⟨-, rfl⟩, rfl⟩ := h
  rfl

theorem groups_eq (hw : d.Writable) : d.groups = .ok d.packed := by
  have hnotary : ∀ p ∈ d.notary.toList, sized p = true := fun p hp =>
    sized_of_fits (hw.notary p (by simpa using hp)).fits
  have hwindow : ∀ w ∈ d.timeWindow.toList, sized w = true := fun w _ => sized_of_fits w.fits
  rw [Draft.groups, Group.ofValues_eq_ok.2 ⟨fun x _ => sized_of_fits x.fits, rfl⟩,
    Group.ofValues_eq_ok.2 ⟨fun o ho => sized_of_fits (hw.outputs o ho), rfl⟩,
    Group.ofValues_eq_ok.2 ⟨fun c hc => sized_of_fits (hw.commands c hc), rfl⟩,
    Group.ofValues_eq_ok.2 ⟨fun a _ => sized_of_fits a.fits, rfl⟩,
    Group.ofValues_eq_ok.2 ⟨hnotary, rfl⟩, Group.ofValues_eq_ok.2 ⟨hwindow, rfl⟩]
  rfl

theorem twins_eq_false {l : List StateRef} : twins l = false ↔ l.IsChain (· ≠ ·) := by
  fun_induction twins l with
  | case1 => simp
  | case2 => simp
  | case3 x y rest ih => simp [ih]

/-- In a sorted list nothing else stands between two places of the same state. -/
theorem nodup_of_isChain {l : List StateRef}
    (hs : l.Pairwise fun x y => (compare x y).isLE = true) (hc : l.IsChain (· ≠ ·)) : l.Nodup := by
  induction l with
  | nil => exact List.nodup_nil
  | cons x l ih =>
    obtain ⟨hx, hl⟩ := List.pairwise_cons.1 hs
    obtain ⟨hne, hc⟩ := List.isChain_cons.1 hc
    refine List.nodup_cons.2 ⟨fun hm => ?_, ih hl hc⟩
    cases l with
    | nil => cases hm
    | cons y l =>
      have hxy : x ≠ y := hne y rfl
      have hm : x ∈ l := (List.mem_cons.1 hm).resolve_left hxy
      have hyx := (List.pairwise_cons.1 hl).1 x hm
      have heq := Std.OrientedCmp.isLE_antisymm (hx y List.mem_cons_self) hyx
      exact hxy (Std.LawfulEqCmp.eq_of_compare heq)

theorem repeats_eq_false {inputs : List StateRef} : repeats inputs = false ↔ inputs.Nodup := by
  have hs : (inputs.mergeSort fun x y => (compare x y).isLE).Pairwise
      fun x y => (compare x y).isLE = true := by
    refine List.pairwise_mergeSort (fun _ _ _ => Std.TransCmp.isLE_trans) (fun x y => ?_) inputs
    have hswap : compare y x = (compare x y).swap := Std.OrientedCmp.eq_swap
    rw [hswap]
    cases compare x y <;> rfl
  rw [repeats, twins_eq_false, ← (List.mergeSort_perm inputs _).nodup_iff]
  exact ⟨nodup_of_isChain hs, List.Pairwise.isChain⟩

theorem check_eq_ok : d.check = .ok () ↔ (d.notary = none → d.inputs = []) ∧
    (d.notary = none → d.timeWindow = none) ∧ d.inputs.Nodup ∧
      ∀ w ∈ d.timeWindow, w.validate = .ok () := by
  simp only [check, throw_eq_error, pure_eq_ok, error_bind, ite_error_eq_ok, Bool.not_eq_true,
    repeats_eq_false]
  cases d.timeWindow with
  | none => cases d.notary <;> simp
  | some w => cases d.notary <;> cases hw : w.validate <;> simp [hw]

theorem build_eq_ok : d.build salt = .ok t ↔
    d.check = .ok () ∧ d.groups = .ok t.groups ∧ t.salt = salt := by
  rw [build, unit_bind_eq_ok]
  simp only [bind_eq_ok, mapError_eq_ok, Transaction.ofGroups_eq_ok]
  refine and_congr_right fun _ => ⟨?_, fun ⟨hg, hs⟩ => ⟨t.groups, hg, rfl, hs⟩⟩
  rintro ⟨groups, hg, rfl, hs⟩
  exact ⟨hg, hs⟩

theorem decodeAll_visible {α : Type} [Wire α] [Bounded α] (hg : t.groups = d.packed)
    {k : GroupKind} {as : List α} (hk : d.packed.getD k.index.toNat ⟨[]⟩ = ⟨as.map pack⟩)
    (hf : ∀ a ∈ as, Fits a) : t.visible.decodeAll α k = .ok as := by
  refine Visible.decodeAll_ofValues ?_ hf
  rw [Transaction.visible, Transaction.group, hg, hk]

theorem getLast?_toList {α : Type} (a? : Option α) : a?.toList.getLast? = a? := by
  cases a? <;> rfl

/-- The parts of a draft, as they are found in the transaction that is made of it. -/
structure Found (d : Draft) (t : Transaction) : Prop where
  inputs : t.visible.inputs = .ok d.inputs
  outputs : t.visible.outputs = .ok d.outputs
  commands : t.visible.commands = .ok d.commands
  attachments : t.visible.attachments = .ok d.attachments
  notary : t.notary = .ok d.notary
  timeWindow : t.timeWindow = .ok d.timeWindow

theorem found_of_build (hb : d.build salt = .ok t) (hw : d.Writable) : d.Found t := by
  obtain ⟨hcheck, hgroups, -⟩ := build_eq_ok.1 hb
  obtain ⟨-, -, -, hwindow⟩ := check_eq_ok.1 hcheck
  have hg := eq_packed hgroups
  have hparties : t.visible.decodeAll Party .notary = .ok d.notary.toList :=
    decodeAll_visible hg rfl fun p hp => (hw.notary p (by simpa using hp)).fits
  have hwindows : t.visible.decodeAll TimeWindow .timeWindow = .ok d.timeWindow.toList :=
    decodeAll_visible hg rfl fun w _ => w.fits
  exact {
    inputs := decodeAll_visible hg rfl fun x _ => x.fits
    outputs := decodeAll_visible hg rfl hw.outputs
    commands := decodeAll_visible hg rfl hw.commands
    attachments := decodeAll_visible hg rfl fun a _ => a.fits
    notary := by rw [Transaction.notary, hparties, ok_bind, getLast?_toList]; rfl
    timeWindow := by
      rw [Transaction.timeWindow, hwindows, ok_bind, getLast?_toList]
      cases hd : d.timeWindow with
      | none => rfl
      | some w => rw [Visible.validWindow, hwindow w hd] }

/-! Which parts make a transaction.

The parts are checked before anything is written, and the layout is checked again once they are
laid out in groups. Of what that second check asks, only a salt that is not zero is left to be seen
to. -/

/-- Whether the parts of a draft go together. -/
structure WellFormed (d : Draft) : Prop where
  notary : d.inputs ≠ [] ∨ d.timeWindow ≠ none → d.notary ≠ none
  inputs : d.inputs.Nodup
  timeWindow : ∀ w, d.timeWindow = some w → w.Sound

/-- Of no kind are there more parts than four bytes can count, and no part is longer, once it is
written, than they can tell. -/
structure Sized (d : Draft) : Prop where
  counts : ∀ g ∈ d.packed, g.components.length < UInt32.size
  lengths : ∀ g ∈ d.packed, ∀ c ∈ g.components, c.length < UInt32.size

theorem check_eq_ok_iff : d.check = .ok () ↔ d.WellFormed := by
  rw [check_eq_ok]
  constructor
  · rintro ⟨hi, hw, hn, hs⟩
    refine ⟨?_, hn, fun w h => TimeWindow.validate_eq_ok.1 (hs w h)⟩
    rintro (h | h) hnone
    · exact h (hi hnone)
    · exact h (hw hnone)
  · rintro ⟨hp, hn, hs⟩
    refine ⟨fun hnone => ?_, fun hnone => ?_, hn, fun w h => TimeWindow.validate_eq_ok.2 (hs w h)⟩
    · exact of_not_not fun h => hp (Or.inl h) hnone
    · exact of_not_not fun h => hp (Or.inr h) hnone

/-- The groups of a draft are always laid out as they should be, so the salt decides. -/
theorem checkLayout_packed (hd : d.Sized) :
    Transaction.checkLayout d.packed salt = .ok () ↔ salt.octets ≠ .zero 32 := by
  have hshape : Group.checkShape d.packed = .ok () :=
    Group.checkShape_eq_ok.2 ⟨nofun, by simp [packed, Group.maxPositions], hd.counts⟩
  have hsingle : ∀ k ∈ GroupKind.all, k.isSingleton →
      (d.packed.getD k.index.toNat ⟨[]⟩).components.length ≤ 1 := by
    intro k _ hk
    cases k with
    | notary => cases h : d.notary <;> simp [packed, GroupKind.index, h]
    | timeWindow => cases h : d.timeWindow <;> simp [packed, GroupKind.index, h]
    | _ => cases hk
  rw [Transaction.checkLayout_eq_ok, ← Bool.not_eq_true, Octets.isZero_iff]
  exact ⟨fun h => h.2.2.2, fun h => ⟨hshape, le_rfl, hsingle, h⟩⟩

theorem exists_build (hw : d.Writable) :
    (∃ t, d.build salt = .ok t) ↔
      d.check = .ok () ∧ Transaction.checkLayout d.packed salt = .ok () := by
  simp only [build_eq_ok, exists_and_left, groups_eq hw, Except.ok.injEq]
  refine and_congr_right fun _ => ⟨?_, fun h => ⟨⟨d.packed, salt, h⟩, rfl, rfl⟩⟩
  rintro ⟨t, hg, hs⟩
  exact hg ▸ hs ▸ t.laidOut

/-- A transaction is built from exactly the parts that go together, with a salt that is not zero. It
holds these parts in their order, and so does what is read from its encoding, which is the same
transaction. -/
theorem build_exact (hw : d.Writable) (hd : d.Sized) (salt : Salt) :
    ((∃ t, d.build salt = .ok t) ↔ d.WellFormed ∧ salt.octets ≠ .zero 32) ∧
    ∀ t, d.build salt = .ok t → d.Found t ∧ RoundTrips t := by
  refine ⟨by rw [exists_build hw, check_eq_ok_iff, checkLayout_packed hd], fun t ht => ?_⟩
  obtain ⟨-, hg, -⟩ := build_eq_ok.1 ht
  have hf : Fits t := (fits_groups t.checked.1).2 (eq_packed hg ▸ hd.lengths)
  exact ⟨found_of_build ht hw, roundTrips hf⟩

/-- Parts of every kind, some of them given twice. -/
def ample : Draft where
  inputs := [⟨.zero 32, 1⟩, ⟨.zero 32, 0⟩]
  outputs := [⟨"cash", [1, 2]⟩, ⟨"cash", [1, 2]⟩]
  commands := [⟨[], [.single ⟨.zero 33⟩, .single ⟨.zero 33⟩]⟩]
  attachments := [.zero 32, .zero 32]
  notary := some ⟨"notary", .single ⟨.zero 33⟩⟩
  timeWindow := some ⟨none, some ⟨10⟩⟩

theorem build_exact_ample : ample.Writable ∧ ample.Sized ∧ ∃ t, ample.build .sevens = .ok t ∧
    ample.Found t ∧ RoundTrips t := by
  have hcash : Fits "cash" := fits_bytes.2 (by decide)
  have hkey : Fits (Key.single ⟨.zero 33⟩) := Key.Built.single _
  have hsigners : ∀ k ∈ [Key.single ⟨.zero 33⟩, .single ⟨.zero 33⟩], Fits k := by simp [hkey]
  have hw : ample.Writable := by
    refine ⟨fun o ho => ?_, fun c hc => ?_, ?_⟩
    · have ho : o = ⟨"cash", [1, 2]⟩ := by simpa [ample] using ho
      exact ho ▸ ⟨hcash, fits_bytes.2 (by decide)⟩
    · obtain rfl := List.mem_singleton.1 hc
      exact ⟨fits_bytes.2 (by decide), by decide, hsigners⟩
    · rintro p ⟨⟩
      exact ⟨by decide, .single _⟩
  have hd : ample.Sized := ⟨by decide, by decide⟩
  have hf : ample.WellFormed := by
    refine ⟨nofun, by decide, ?_⟩
    rintro w ⟨⟩
    exact ⟨by simp, nofun⟩
  obtain ⟨hbuild, hread⟩ := build_exact hw hd .sevens
  obtain ⟨t, ht⟩ := hbuild.2 ⟨hf, by decide⟩
  exact ⟨hw, hd, t, ht, hread t ht⟩

end Draft

end LedgerNotary
