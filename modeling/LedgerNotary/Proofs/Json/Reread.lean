import LedgerNotary.Proofs.Json.Messages
import LedgerNotary.Proofs.Json.Printed

/-! Keys, parties and profiles are read from the text that is printed for them.

The reader of JSON text hands on the members of an object in order, whatever order they were
written in. None is lost if their names differ, and a record finds its fields by name. -/

namespace LedgerNotary

open Json Wire

namespace Json

section Members

variable {name : String} {v : Json} {ms acc : List (String × Json)}

theorem insertMember_perm (h : name ∉ ms.map Prod.fst) :
    (insertMember name v ms).Perm ((name, v) :: ms) := by
  induction ms with
  | nil => exact .refl _
  | cons m ms ih =>
    obtain ⟨other, w⟩ := m
    obtain ⟨hne, hms⟩ := not_or.1 (mt List.mem_cons.2 h)
    rw [insertMember, if_neg hne]
    split_ifs
    · exact .refl _
    · exact ((ih hms).cons _).trans (.swap ..)

theorem foldl_insertMember_perm (h : ((acc ++ ms).map Prod.fst).Nodup) :
    (ms.foldl (fun ms (name, v) => insertMember name v ms) acc).Perm (acc ++ ms) := by
  induction ms generalizing acc with
  | nil => rw [List.append_nil, List.foldl_nil]
  | cons m ms ih =>
    have hmove : (acc ++ m :: ms).Perm (m :: acc ++ ms) := List.perm_middle
    have hnodup : (m.1 :: (acc ++ ms).map Prod.fst).Nodup := (hmove.map Prod.fst).nodup_iff.1 h
    have hfresh : m.1 ∉ acc.map Prod.fst := fun hm =>
      (List.nodup_cons.1 hnodup).1 (by simp [List.map_append, List.mem_append.2 (.inl hm)])
    have hinsert : (insertMember m.1 m.2 acc ++ ms).Perm (m :: acc ++ ms) :=
      (insertMember_perm hfresh).append_right ms
    rw [List.foldl_cons]
    exact (ih ((hinsert.map Prod.fst).nodup_iff.2 hnodup)).trans (hinsert.trans hmove.symm)

theorem exists_ofMembers_eq (h : (ms.map Prod.fst).Nodup) :
    ∃ ordered, ofMembers ms = .obj ordered ∧ ordered.Perm ms :=
  ⟨_, rfl, foldl_insertMember_perm h⟩

/-- A value stands under a name, wherever it is looked for. -/
def Parts.Holds (parts : Parts) (name : String) (v : Json) : Prop :=
  ∀ place, ∃ p, parts.find? place name = some (p, v)

theorem Parts.Holds.is_fieldBy {α : Type} {parts : Parts} {read : Json → Except Fault α} {a : α}
    (h : parts.Holds name v) (hr : read v = .ok a) (place : Nat) :
    (parts.fieldBy read place name).Is a := by
  obtain ⟨p, hp⟩ := h place
  exact Parts.is_fieldBy.2 ⟨p, v, hp, hr⟩

theorem sorted_singleton : (Json.obj [(name, v)]).sorted = .obj [(name, v.sorted)] := by
  rw [sorted_obj]
  rfl

theorem depth_sorted_lt_of_mem {m : String × Json} (hn : (ms.map Prod.fst).Nodup) (h : m ∈ ms) :
    m.2.sorted.depth < (Json.obj ms).sorted.depth := by
  have hnames : ((ms.map fun m => (m.1, m.2.sorted)).map Prod.fst).Nodup := by
    simpa [Function.comp_def] using hn
  obtain ⟨ordered, ho, hperm⟩ := exists_ofMembers_eq hnames
  rw [sorted_obj, ho]
  exact depth_lt_of_mem_obj (hperm.mem_iff.2 (List.mem_map_of_mem h))

theorem record_sorted {α : Type} {count : Nat} {build : Parts → Reading α} {a : α}
    (hn : (ms.map Prod.fst).Nodup)
    (hb : ∀ parts : Parts, (∀ m ∈ ms, parts.Holds m.1 m.2.sorted) → (build parts).Is a) :
    record count build (Json.obj ms).sorted = .ok a := by
  have hnames : ((ms.map fun m => (m.1, m.2.sorted)).map Prod.fst).Nodup := by
    simpa [Function.comp_def] using hn
  obtain ⟨ordered, ho, hperm⟩ := exists_ofMembers_eq hnames
  rw [sorted_obj, ho, record_obj]
  refine hb _ fun m hm place => Parts.find?_named ((hperm.map Prod.fst).nodup_iff.2 hnames) ?_ place
  exact hperm.mem_iff.2 (List.mem_map.2 ⟨m, hm, rfl⟩)

end Members

section Classes

variable {α : Type}

/-- A type whose values are read from what is printed for them. -/
class Reread (α : Type) [JsonForm α] [Wire α] [Bounded α] : Prop where
  plain (a : α) : Plain (toJson a)
  sorted : ∀ {a : α}, Fits a → fromJson (toJson a).sorted = .ok a

instance : Reread UInt32 where
  plain n := .int (by omega) (by have := n.toNat_lt; omega)
  sorted h := SameValues.written h

instance : Reread UInt64 where
  plain n := .int (by omega) (by have := n.toNat_lt; omega)
  sorted h := SameValues.written h

instance : Reread String where
  plain text := .str text
  sorted h := SameValues.written h

instance : Reread PointCode where
  plain a := .str a.toHex
  sorted h := SameValues.written h

variable [JsonForm α] [Wire α] [Bounded α] [Reread α]

instance : Reread (List α) where
  plain as := .arr (List.forall_mem_map.2 fun a _ => Reread.plain a)
  sorted {as} h := by
    have hsorted : (toJson as).sorted = .arr (as.map fun a => (toJson a).sorted) := by
      change (Json.arr (as.map toJson)).sorted = _
      rw [sorted_arr, List.map_map]
      rfl
    rw [hsorted]
    exact mapM_map_eq_ok fun a ha => Reread.sorted (h.2 a ha)

theorem exists_parse?_pretty {a : α} {blanks : String} (h : Fits a)
    (hb : ∀ c ∈ blanks.toList, isBlank c = true) :
    ∃ v, parse? ((toJson a).pretty ++ blanks) = some v ∧ fromJson v = .ok a :=
  ⟨_, parse?_write (Reread.plain a) hb, Reread.sorted h⟩

end Classes

end Json

namespace Key

variable {t : UInt32} {cs : List Child} {k : Key} {c : Child} {n : Nat}

theorem plain_formOf (k : Key) : Plain (formOf k) := by
  induction k using induction with
  | single a =>
    rw [formOf]
    exact .obj (List.forall_mem_singleton.2 (Reread.plain a))
  | composite t cs ih =>
    have hitems : Plain (.arr (formsOfChildren cs)) := by
      rw [formsOfChildren_eq]
      refine .arr (List.forall_mem_map.2 fun c hc => .obj (List.forall_mem_cons.2 ⟨ih c hc, ?_⟩))
      exact List.forall_mem_singleton.2 (Reread.plain c.2)
    rw [formOf_composite]
    refine .obj (List.forall_mem_singleton.2 (.obj (List.forall_mem_cons.2 ⟨Reread.plain t, ?_⟩)))
    exact List.forall_mem_singleton.2 hitems

theorem childOfForm_sorted {node : Json → Except Json.Fault Key}
    (h : node (formOf c.1).sorted = .ok c.1) : childOfForm node (formOfChild c).sorted = .ok c := by
  refine record_sorted (by simp) fun parts hp => ?_
  obtain ⟨hnode, hweight⟩ := List.forall_mem_cons.1 hp
  have hw : fromJson (toJson c.2).sorted = .ok c.2 := Reread.sorted trivial
  refine Reading.is_seq.2 ⟨Prod.mk c.1, Reading.is_map.2 ⟨c.1, ?_, rfl⟩, c.2, ?_, rfl⟩
  · exact hnode.is_fieldBy h 0
  · exact (List.forall_mem_singleton.1 hweight).is_fieldBy hw 1

theorem bodyOfForm_sorted {node : Json → Except Json.Fault Key} (hk : Built (.composite t cs))
    (h : ∀ c ∈ cs, node (formOf c.1).sorted = .ok c.1) :
    bodyOfForm node (formOfBody t cs).sorted = .ok (.composite t cs) := by
  have ht : fromJson (toJson t).sorted = .ok t := Reread.sorted trivial
  have hcs : itemsBy (childOfForm node) (Json.arr (formsOfChildren cs)).sorted = .ok cs := by
    rw [sorted_arr, formsOfChildren_eq, List.map_map]
    exact mapM_map_eq_ok fun c hc => childOfForm_sorted (h c hc)
  refine bodyOfForm_of_record hk (record_sorted (by simp) fun parts hp => ?_)
  obtain ⟨hthreshold, hchildren⟩ := List.forall_mem_cons.1 hp
  refine Reading.is_seq.2 ⟨Prod.mk t, Reading.is_map.2 ⟨t, ?_, rfl⟩, cs, ?_, rfl⟩
  · exact hthreshold.is_fieldBy ht 0
  · exact (List.forall_mem_singleton.1 hchildren).is_fieldBy hcs 1

theorem depth_sorted_lt (h : c ∈ cs) :
    (formOf c.1).sorted.depth < (formOfBody t cs).sorted.depth := by
  have hnode : (formOf c.1).sorted.depth < (formOfChild c).sorted.depth :=
    depth_sorted_lt_of_mem (by simp) (List.mem_cons_self : ("node", formOf c.1) ∈ _)
  have hchild : (formOfChild c).sorted.depth < (Json.arr (formsOfChildren cs)).sorted.depth := by
    rw [sorted_arr]
    refine depth_lt_of_mem_arr (List.mem_map_of_mem ?_)
    rw [formsOfChildren_eq]
    exact List.mem_map_of_mem h
  have hitems : (Json.arr (formsOfChildren cs)).sorted.depth < (formOfBody t cs).sorted.depth :=
    depth_sorted_lt_of_mem (by simp)
      (by simp : ("children", Json.arr (formsOfChildren cs)) ∈ [("threshold", toJson t), _])
  omega

/-- A key that can be built is read by a reader of as many levels as its form in order has. -/
theorem ofForm_sorted (h : Built k) (hn : (formOf k).sorted.depth ≤ n) :
    ofForm n (formOf k).sorted = .ok k := by
  -- The reader counts the levels of the form in order, so the bound goes through that one.
  induction k using induction generalizing n with
  | single a =>
    have ha : fromJson (toJson a).sorted = .ok a := Reread.sorted trivial
    rw [formOf, sorted_singleton] at hn ⊢
    obtain ⟨m, rfl⟩ : ∃ m, n = m + 1 := ⟨n - 1, by rw [depth] at hn; omega⟩
    rw [ofForm_single, ha]
    rfl
  | composite t cs ih =>
    rw [formOf_composite, sorted_singleton] at hn ⊢
    obtain ⟨m, rfl⟩ : ∃ m, n = m + 1 := ⟨n - 1, by rw [depth] at hn; omega⟩
    have hbody : (formOfBody t cs).sorted.depth ≤ m :=
      Nat.le_of_lt_succ (Nat.lt_of_lt_of_le (depth_lt_of_mem_obj
        (List.mem_cons_self : ("Composite", (formOfBody t cs).sorted) ∈ _)) hn)
    rw [ofForm_composite]
    refine bodyOfForm_sorted h fun c hc => ih c hc (h.children c hc) ?_
    exact Nat.le_of_lt (Nat.lt_of_lt_of_le (depth_sorted_lt hc) hbody)

instance : Reread Key where
  plain := plain_formOf
  sorted h := ofForm_sorted h (Nat.le_refl _)

end Key

instance : Reread Party where
  plain p := .obj (List.forall_mem_cons.2
    ⟨Reread.plain p.name, List.forall_mem_singleton.2 (Reread.plain p.key)⟩)
  sorted {p} h := by
    refine record_sorted (by simp) fun parts hp => ?_
    obtain ⟨hname, hkey⟩ := List.forall_mem_cons.1 hp
    refine Reading.is_seq.2 ⟨_, Reading.is_map.2 ⟨p.name, ?_, rfl⟩, p.key, ?_, rfl⟩
    · exact hname.is_fieldBy (Reread.sorted h.1) 0
    · exact (List.forall_mem_singleton.1 hkey).is_fieldBy (Reread.sorted h.2) 1

instance : Reread Profile where
  plain p := .obj (List.forall_mem_cons.2 ⟨Reread.plain p.addresses, List.forall_mem_cons.2
    ⟨Reread.plain p.identities, List.forall_mem_cons.2 ⟨Reread.plain p.platformVersion,
      List.forall_mem_singleton.2 (Reread.plain p.serial)⟩⟩⟩)
  sorted {p} h := by
    obtain ⟨haddresses, hidentities, hversion, hserial⟩ := h
    refine record_sorted (by simp) fun parts hp => ?_
    simp only [List.forall_mem_cons] at hp
    obtain ⟨hp₀, hp₁, hp₂, hp₃, -⟩ := hp
    refine Reading.is_seq.2 ⟨_, Reading.is_seq.2 ⟨_, Reading.is_seq.2 ⟨_, Reading.is_map.2
      ⟨p.addresses, ?_, rfl⟩, p.identities, ?_, rfl⟩, p.platformVersion, ?_, rfl⟩,
      p.serial, ?_, rfl⟩
    · exact hp₀.is_fieldBy (Reread.sorted haddresses) 0
    · exact hp₁.is_fieldBy (Reread.sorted hidentities) 1
    · exact hp₂.is_fieldBy (Reread.sorted hversion) 2
    · exact hp₃.is_fieldBy (Reread.sorted hserial) 3

end LedgerNotary
