import LedgerNotary.Proofs.Notary.Run
import LedgerNotary.Proofs.Wire.Messages

/-! A tear-off shows of its transaction what was asked for, and nothing else of it.

Whatever is read of one group is read of the components that are visible for its kind. So it is the
same in the transaction and in a tear-off that reveals the kind, also where it cannot be read. -/

namespace LedgerNotary

open Outcome Wire

/-- A tear-off that verifies for a transaction, reveals the kinds asked for, and lets read of them
what can be read in the transaction. -/
structure TearOff.Faithful (f : TearOff) (t : Transaction) (kinds : List GroupKind) : Prop where
  verified : f.verify = .ok ()
  id : f.id = t.id
  revealed (k : GroupKind) : (f.revealed? k).isSome ↔ k ∈ kinds
  inputs : f.visible.inputs =
    if .inputs ∈ kinds then t.visible.inputs else .error (.hidden .inputs)
  outputs : f.visible.outputs =
    if .outputs ∈ kinds then t.visible.outputs else .error (.hidden .outputs)
  commands : f.visible.commands =
    if .commands ∈ kinds then t.visible.commands else .error (.hidden .commands)
  notary : f.visible.notary = if .notary ∈ kinds then t.notary else .error (.hidden .notary)
  timeWindow : f.visible.timeWindow =
    if .timeWindow ∈ kinds then t.timeWindow else .error (.hidden .timeWindow)

namespace Visible

/-- A reading that looks at the group of one kind only. -/
def Reads {α : Type} (k : GroupKind) (accessor : Visible → Except TransactionFault α) : Prop :=
  ∃ g : List Bytes → Except TransactionFault α, ∀ v, accessor v = v k >>= g

variable {α β : Type} {k : GroupKind}

theorem Reads.decodeAll (α : Type) [Wire α] (k : GroupKind) :
    Reads k fun v => v.decodeAll α k := ⟨_, fun _ => rfl⟩

theorem Reads.bind {accessor : Visible → Except TransactionFault α} (h : Reads k accessor)
    (f : α → Except TransactionFault β) : Reads k fun v => accessor v >>= f := by
  obtain ⟨g, hg⟩ := h
  exact ⟨fun cs => g cs >>= f, fun v => by simp only [hg, bind_assoc]⟩

theorem Reads.decodeOne (α : Type) [Wire α] (k : GroupKind) :
    Reads k fun v => v.decodeOne α k := (Reads.decodeAll α k).bind _

end Visible

namespace Transaction

variable (t : Transaction) {kinds : List GroupKind} {k : GroupKind}

theorem revealed?_tearOff_of_notMem (h : k ∉ kinds) : (t.tearOff kinds).revealed? k = none := by
  refine List.find?_eq_none.2 fun g hg => ?_
  obtain ⟨l, hl, rfl⟩ := List.mem_map.1 hg
  have hlk : l ∈ kinds := by simpa using (List.mem_filter.1 hl).2
  intro hi
  obtain rfl := GroupKind.index_inj (beq_iff_eq.1 hi)
  exact h hlk

theorem isSome_revealed?_tearOff : ((t.tearOff kinds).revealed? k).isSome ↔ k ∈ kinds := by
  by_cases h : k ∈ kinds
  · simp [t.revealed?_tearOff h, h]
  · simp [t.revealed?_tearOff_of_notMem h, h]

theorem visible_tearOff_of_notMem (h : k ∉ kinds) :
    (t.tearOff kinds).visible k = .error (.hidden k) := by
  rw [TearOff.visible, t.revealed?_tearOff_of_notMem h]

theorem reads_tearOff {α : Type} {accessor : Visible → Except TransactionFault α}
    (h : Visible.Reads k accessor) : accessor (t.tearOff kinds).visible =
      if k ∈ kinds then accessor t.visible else .error (.hidden k) := by
  obtain ⟨g, hg⟩ := h
  by_cases hk : k ∈ kinds
  · rw [if_pos hk, hg, hg, t.visible_tearOff hk]
  · rw [if_neg hk, hg, t.visible_tearOff_of_notMem hk, error_bind]

theorem faithful_tearOff (kinds : List GroupKind) : (t.tearOff kinds).Faithful t kinds where
  verified := (t.verified_tearOff kinds).ok
  id := rfl
  revealed _ := t.isSome_revealed?_tearOff
  inputs := t.reads_tearOff (.decodeAll StateRef .inputs)
  outputs := t.reads_tearOff (.decodeAll OutputState .outputs)
  commands := t.reads_tearOff (.decodeAll Command .commands)
  notary := by
    rw [← t.visible_notary]
    exact t.reads_tearOff (.decodeOne Party .notary)
  timeWindow := by
    rw [← t.visible_timeWindow]
    exact t.reads_tearOff ((Visible.Reads.decodeOne TimeWindow .timeWindow).bind _)

variable {t}

theorem fits_reveal (h : ∀ c ∈ (t.group k).components, c.length < UInt32.size) :
    Fits (t.reveal k) := by
  have hcount := t.length_components_lt k
  have hcontent : Fits (t.reveal k).content := by
    rw [content_reveal, Group.disclosed]
    split
    · exact (Commitment.groupNonce t.salt k.index).fits
    · have hnonces : ((List.range (t.group k).components.length).map fun i =>
          Commitment.componentNonce t.salt k.index (UInt32.ofNat i)).length < UInt32.size := by
        simpa using hcount
      exact ⟨⟨hcount, fun c hc => fits_bytes.2 (h c hc)⟩, hnonces, fun _ _ => Octets.fits _⟩
  exact ⟨trivial, hcontent⟩

theorem fits_tearOff (h : ∀ k ∈ kinds, ∀ c ∈ (t.group k).components, c.length < UInt32.size) :
    Fits (t.tearOff kinds) := by
  obtain ⟨-, hl, -⟩ := Group.checkShape_eq_ok.1 t.checked.1
  have hroots : Fits t.roots :=
    ⟨by rw [roots, Group.length_roots]; exact hl, fun _ _ => Octets.fits _⟩
  have hcount : (t.tearOff kinds).groups.length < UInt32.size := by
    have hle : (GroupKind.all.filter (· ∈ kinds)).length ≤ GroupKind.all.length :=
      List.length_filter_le _ _
    rw [tearOff, List.length_map]
    exact Nat.lt_of_le_of_lt hle (by decide)
  refine ⟨Octets.fits _, hroots, hcount, fun g hg => ?_⟩
  obtain ⟨k, hk, rfl⟩ := List.mem_map.1 hg
  exact fits_reveal (h k (by simpa using (List.mem_filter.1 hk).2))

/-- The tear-off for any kinds, in whatever order and however often they are named, is a faithful
one, and it is read back from its encoding as it was written. -/
theorem tearOff_faithful_and_read (t : Transaction) (kinds : List GroupKind) :
    (t.tearOff kinds).Faithful t kinds ∧
      ((∀ k ∈ kinds, ∀ c ∈ (t.group k).components, c.length < UInt32.size) →
        RoundTrips (t.tearOff kinds)) :=
  ⟨t.faithful_tearOff kinds, fun h => roundTrips (fits_tearOff h)⟩

/-- A transaction with a seventh group, and with components that are no values of their kinds. -/
def trailing : Transaction :=
  ⟨[⟨[[2], [3]]⟩, ⟨[]⟩, ⟨[[6]]⟩, ⟨[]⟩, ⟨[]⟩, ⟨[[9]]⟩, ⟨[[1]]⟩], .sevens, rfl⟩

theorem tearOff_faithful_and_read_trailing :
    let kinds : List GroupKind := [.timeWindow, .inputs, .notary, .inputs]
    let f := trailing.tearOff kinds
    (∀ k ∈ kinds, ∀ c ∈ (trailing.group k).components, c.length < UInt32.size) ∧
      f.Faithful trailing kinds ∧ RoundTrips f ∧
      f.visible.inputs = trailing.visible.inputs ∧ f.visible.notary = .ok none ∧
      f.visible.commands = .error (.hidden .commands) := by
  intro kinds f
  have hshort : ∀ k ∈ kinds, ∀ c ∈ (trailing.group k).components, c.length < UInt32.size := by
    decide
  obtain ⟨hf, hread⟩ := trailing.tearOff_faithful_and_read kinds
  exact ⟨hshort, hf, hread hshort, hf.inputs, hf.notary, hf.commands⟩

end Transaction

end LedgerNotary
