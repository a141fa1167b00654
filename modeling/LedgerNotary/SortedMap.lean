/-! Finite maps as lists that ascend by key. -/

namespace LedgerNotary

structure SortedMap (κ ν : Type) [Ord κ] where
  entries : List (κ × ν)
  ascending : entries.Pairwise fun a b => compare a.1 b.1 = .lt
deriving DecidableEq

namespace SortedMap

variable {κ ν : Type} [Ord κ]

def empty : SortedMap κ ν := ⟨[], .nil⟩

def size (m : SortedMap κ ν) : Nat := m.entries.length

def lookup (k : κ) : List (κ × ν) → Option ν
  | [] => none
  | (l, v) :: rest => if compare k l = .eq then some v else lookup k rest

def find? (m : SortedMap κ ν) (k : κ) : Option ν := lookup k m.entries

/-- Puts an entry in its place, instead of one with its key. -/
def insertEntry (k : κ) (v : ν) : List (κ × ν) → List (κ × ν)
  | [] => [(k, v)]
  | (l, w) :: rest =>
    match compare k l with
    | .lt => (k, v) :: (l, w) :: rest
    | .eq => (k, v) :: rest
    | .gt => (l, w) :: insertEntry k v rest

theorem mem_insertEntry {k : κ} {v : ν} {a : κ × ν} {m : List (κ × ν)}
    (h : a ∈ insertEntry k v m) : a = (k, v) ∨ a ∈ m := by
  fun_induction insertEntry k v m <;> grind

theorem lookup_insertEntry_self [Std.LawfulEqOrd κ] (k : κ) (v : ν) (m : List (κ × ν)) :
    lookup k (insertEntry k v m) = some v := by
  fun_induction insertEntry k v m <;> simp_all [lookup, Std.ReflCmp.compare_self]

theorem lookup_insertEntry_of_ne [Std.LawfulEqOrd κ] {k l : κ} (v : ν) (m : List (κ × ν))
    (h : k ≠ l) : lookup l (insertEntry k v m) = lookup l m := by
  have hl : compare l k ≠ .eq := fun e => h (Std.LawfulEqCmp.eq_of_compare e).symm
  fun_induction insertEntry k v m with
  | case1 => simp [lookup, hl]
  | case2 => simp [lookup, hl]
  | case3 l' w rest hc =>
    obtain rfl := Std.LawfulEqCmp.eq_of_compare hc
    simp [lookup, hl]
  | case4 l' w rest hc ih => simp [lookup, ih]

theorem length_insertEntry {k : κ} (v : ν) {m : List (κ × ν)} (h : lookup k m = none) :
    (insertEntry k v m).length = m.length + 1 := by
  fun_induction insertEntry k v m with
  | case1 => rfl
  | case2 => rfl
  | case3 l w rest hc => simp [lookup, hc] at h
  | case4 l w rest hc ih =>
    simp only [lookup, hc, reduceCtorEq, if_false] at h
    simp [ih h]

@[simp] theorem find?_empty (k : κ) : (empty : SortedMap κ ν).find? k = none := rfl

/-- Since no key occurs twice, a value is found exactly where it stands with its key. -/
theorem lookup_eq_some [Std.LawfulEqOrd κ] {k : κ} {v : ν} {m : List (κ × ν)}
    (h : m.Pairwise fun a b => compare a.1 b.1 = .lt) : lookup k m = some v ↔ (k, v) ∈ m := by
  induction m with
  | nil => simp [lookup]
  | cons a rest ih =>
    obtain ⟨l, w⟩ := a
    obtain ⟨hl, hrest⟩ := List.pairwise_cons.1 h
    by_cases hk : compare k l = .eq
    · obtain rfl := Std.LawfulEqCmp.eq_of_compare hk
      have hn : (k, v) ∉ rest := fun hv => by
        simpa [Std.ReflCmp.compare_self] using hl _ hv
      simp [lookup, hn, eq_comm]
    · have hne : k ≠ l := fun he => hk (he ▸ Std.ReflCmp.compare_self)
      simp [lookup, hk, hne, ih hrest]

theorem find?_eq_some [Std.LawfulEqOrd κ] {m : SortedMap κ ν} {k : κ} {v : ν} :
    m.find? k = some v ↔ (k, v) ∈ m.entries := lookup_eq_some m.ascending

theorem nodup_entries [Std.LawfulEqOrd κ] (m : SortedMap κ ν) : m.entries.Nodup :=
  m.ascending.imp fun hlt he => by simp [he, Std.ReflCmp.compare_self] at hlt

variable [Std.TransOrd κ]

theorem ascending_insertEntry (k : κ) (v : ν) {m : List (κ × ν)}
    (h : m.Pairwise fun a b => compare a.1 b.1 = .lt) :
    (insertEntry k v m).Pairwise fun a b => compare a.1 b.1 = .lt := by
  fun_induction insertEntry k v m with
  | case1 => simp
  | case2 l w rest hc =>
    rw [List.pairwise_cons] at h ⊢
    refine ⟨fun a ha => ?_, List.pairwise_cons.2 h⟩
    rcases List.mem_cons.1 ha with rfl | ha
    · exact hc
    · exact Std.TransCmp.lt_trans hc (h.1 a ha)
  | case3 l w rest hc =>
    rw [List.pairwise_cons] at h ⊢
    exact ⟨fun a ha => Std.TransCmp.lt_of_eq_of_lt hc (h.1 a ha), h.2⟩
  | case4 l w rest hc ih =>
    rw [List.pairwise_cons] at h ⊢
    refine ⟨fun a ha => ?_, ih h.2⟩
    rcases mem_insertEntry ha with rfl | ha
    · exact Std.OrientedCmp.lt_of_gt hc
    · exact h.1 a ha

theorem ext_find? [Std.LawfulEqOrd κ] {m n : SortedMap κ ν} (h : ∀ k, m.find? k = n.find? k) :
    m = n := by
  have hmem : ∀ a, a ∈ m.entries ↔ a ∈ n.entries := fun (k, v) => by
    rw [← find?_eq_some, ← find?_eq_some, h]
  have hp := (List.perm_ext_iff_of_nodup m.nodup_entries n.nodup_entries).2 hmem
  have he : m.entries = n.entries := by
    refine hp.eq_of_pairwise (fun a b _ _ hab hba => ?_) m.ascending n.ascending
    rw [Std.OrientedCmp.gt_of_lt hab] at hba
    cases hba
  cases m
  cases n
  simpa using he

def insert (m : SortedMap κ ν) (k : κ) (v : ν) : SortedMap κ ν :=
  ⟨insertEntry k v m.entries, ascending_insertEntry k v m.ascending⟩

def insertAll (m : SortedMap κ ν) (as : List (κ × ν)) : SortedMap κ ν :=
  as.foldl (fun m (k, v) => m.insert k v) m

/-- The map of some entries; the last with a key counts. -/
def ofList (as : List (κ × ν)) : SortedMap κ ν := empty.insertAll as

@[simp] theorem find?_insert_self [Std.LawfulEqOrd κ] (m : SortedMap κ ν) (k : κ) (v : ν) :
    (m.insert k v).find? k = some v := lookup_insertEntry_self k v m.entries

theorem find?_insert_of_ne [Std.LawfulEqOrd κ] (m : SortedMap κ ν) {k l : κ} (v : ν) (h : k ≠ l) :
    (m.insert k v).find? l = m.find? l := lookup_insertEntry_of_ne v m.entries h

theorem size_insert {m : SortedMap κ ν} {k : κ} (v : ν) (h : m.find? k = none) :
    (m.insert k v).size = m.size + 1 := length_insertEntry v h

section insertAll

variable [Std.LawfulEqOrd κ] {m : SortedMap κ ν} {as : List (κ × ν)}

theorem find?_insertAll_of_notMem {k : κ} (h : k ∉ as.map Prod.fst) :
    (m.insertAll as).find? k = m.find? k := by
  induction as generalizing m with
  | nil => rfl
  | cons a as ih =>
    rw [List.map_cons, List.mem_cons, not_or] at h
    rw [insertAll, List.foldl_cons, ← insertAll, ih h.2, find?_insert_of_ne _ _ (Ne.symm h.1)]

theorem find?_insertAll_of_mem {k : κ} {v : ν} (hn : (as.map Prod.fst).Nodup)
    (h : (k, v) ∈ as) : (m.insertAll as).find? k = some v := by
  induction as generalizing m with
  | nil => cases h
  | cons a as ih =>
    rw [List.map_cons, List.nodup_cons] at hn
    rw [insertAll, List.foldl_cons, ← insertAll]
    rcases List.mem_cons.1 h with rfl | h
    · rw [find?_insertAll_of_notMem hn.1, find?_insert_self]
    · exact ih hn.2 h

theorem mem_entries_insertAll (hn : (as.map Prod.fst).Nodup)
    (hf : ∀ k ∈ as.map Prod.fst, m.find? k = none) {a : κ × ν} :
    a ∈ (m.insertAll as).entries ↔ a ∈ m.entries ∨ a ∈ as := by
  obtain ⟨k, v⟩ := a
  rw [← find?_eq_some, ← find?_eq_some]
  by_cases hk : k ∈ as.map Prod.fst
  · obtain ⟨⟨l, w⟩, hw, rfl⟩ := List.mem_map.1 hk
    have hm := find?_insertAll_of_mem (m := m) hn hw
    have hv : (l, v) ∈ as ↔ w = v :=
      ⟨fun hv => Option.some.inj (hm.symm.trans (find?_insertAll_of_mem hn hv)), fun e => e ▸ hw⟩
    simp [hm, hf l hk, hv]
  · have hv : (k, v) ∉ as := fun hv => hk (List.mem_map_of_mem (f := Prod.fst) hv)
    simp [find?_insertAll_of_notMem hk, hv]

theorem size_insertAll (hn : (as.map Prod.fst).Nodup)
    (hf : ∀ k ∈ as.map Prod.fst, m.find? k = none) :
    (m.insertAll as).size = m.size + as.length := by
  induction as generalizing m with
  | nil => rfl
  | cons a as ih =>
    rw [List.map_cons, List.nodup_cons] at hn
    rw [List.map_cons, List.forall_mem_cons] at hf
    have hne : ∀ k ∈ as.map Prod.fst, (m.insert a.1 a.2).find? k = none := fun k hk => by
      have hak : a.1 ≠ k := fun e => hn.1 (e ▸ hk)
      rw [find?_insert_of_ne _ _ hak, hf.2 k hk]
    rw [insertAll, List.foldl_cons, ← insertAll, ih hn.2 hne, size_insert _ hf.1]
    simp only [List.length_cons]
    omega

theorem insertAll_comm {bs : List (κ × ν)} (ha : (as.map Prod.fst).Nodup)
    (hb : (bs.map Prod.fst).Nodup) (h : ∀ k ∈ as.map Prod.fst, k ∉ bs.map Prod.fst) :
    (m.insertAll as).insertAll bs = (m.insertAll bs).insertAll as := by
  refine ext_find? fun k => ?_
  by_cases hka : k ∈ as.map Prod.fst
  · have hkb : k ∉ bs.map Prod.fst := h k hka
    obtain ⟨⟨l, v⟩, hv, rfl⟩ := List.mem_map.1 hka
    rw [find?_insertAll_of_notMem hkb, find?_insertAll_of_mem ha hv, find?_insertAll_of_mem ha hv]
  · rw [find?_insertAll_of_notMem hka]
    by_cases hkb : k ∈ bs.map Prod.fst
    · obtain ⟨⟨l, v⟩, hv, rfl⟩ := List.mem_map.1 hkb
      rw [find?_insertAll_of_mem hb hv, find?_insertAll_of_mem hb hv]
    · rw [find?_insertAll_of_notMem hkb, find?_insertAll_of_notMem hkb,
        find?_insertAll_of_notMem hka]

end insertAll

section ofList

theorem mem_of_mem_insertAll {m : SortedMap κ ν} {as : List (κ × ν)} {a : κ × ν}
    (h : a ∈ (m.insertAll as).entries) : a ∈ m.entries ∨ a ∈ as := by
  induction as generalizing m with
  | nil => exact Or.inl h
  | cons b as ih =>
    rw [insertAll, List.foldl_cons, ← insertAll] at h
    rcases ih h with hm | ha
    · rcases mem_insertEntry hm with rfl | hm
      · exact Or.inr List.mem_cons_self
      · exact Or.inl hm
    · exact Or.inr (List.mem_cons_of_mem _ ha)

theorem mem_of_mem_ofList {as : List (κ × ν)} {a : κ × ν} (h : a ∈ (ofList as).entries) :
    a ∈ as := (mem_of_mem_insertAll h).resolve_left nofun

theorem insertEntry_of_lt {k : κ} (v : ν) {m : List (κ × ν)}
    (h : ∀ a ∈ m, compare a.1 k = .lt) : insertEntry k v m = m ++ [(k, v)] := by
  induction m with
  | nil => rfl
  | cons a m ih =>
    obtain ⟨l, w⟩ := a
    obtain ⟨hl, hm⟩ := List.forall_mem_cons.1 h
    have hgt : compare k l = .gt := Std.OrientedCmp.gt_of_lt hl
    simp [insertEntry, hgt, ih hm]

theorem entries_insertAll_of_lt {m : SortedMap κ ν} {as : List (κ × ν)}
    (h : (m.entries ++ as).Pairwise fun a b => compare a.1 b.1 = .lt) :
    (m.insertAll as).entries = m.entries ++ as := by
  induction as generalizing m with
  | nil => simp [insertAll]
  | cons a as ih =>
    have ha : ∀ b ∈ m.entries, compare b.1 a.1 = .lt := fun b hb =>
      (List.pairwise_append.1 h).2.2 b hb a List.mem_cons_self
    have hi : (m.insert a.1 a.2).entries = m.entries ++ [a] := insertEntry_of_lt a.2 ha
    rw [insertAll, List.foldl_cons, ← insertAll, ih (by rw [hi]; simpa using h), hi]
    simp

theorem ofList_entries (m : SortedMap κ ν) : ofList m.entries = m := by
  have h : (ofList m.entries).entries = m.entries :=
    entries_insertAll_of_lt (m := empty) (by simpa [empty] using m.ascending)
  cases hm : ofList m.entries
  cases m
  simpa [hm] using h

end ofList

end SortedMap

end LedgerNotary
