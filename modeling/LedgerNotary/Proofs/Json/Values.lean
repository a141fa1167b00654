import LedgerNotary.Proofs.Wire.Format
import Mathlib.Data.List.Nodup

/-! What it takes to read a record, a variant or a list from JSON.

The faults that are met on the way are kept apart from the value, so a record is read if and only if
each of its fields is. -/

namespace LedgerNotary.Json

open Outcome

variable {α β : Type}

/-- No text and no array in a value is longer than a length of four bytes can say. -/
inductive Short : Json → Prop
  | null : Short .null
  | bool (value : Bool) : Short (.bool value)
  | int (value : Int) : Short (.int value)
  | real (literal : String) : Short (.real literal)
  | str {text : String} (length : (Bytes.ofString text).length < UInt32.size) : Short (.str text)
  | arr {items : List Json} (length : items.length < UInt32.size) (each : ∀ v ∈ items, Short v) :
    Short (.arr items)
  | obj {members : List (String × Json)} (each : ∀ m ∈ members, Short m.2) : Short (.obj members)

@[simp] theorem short_str {text : String} :
    Short (.str text) ↔ (Bytes.ofString text).length < UInt32.size :=
  ⟨fun | .str h => h, .str⟩

@[simp] theorem short_arr {items : List Json} :
    Short (.arr items) ↔ items.length < UInt32.size ∧ ∀ v ∈ items, Short v :=
  ⟨fun | .arr h h' => ⟨h, h'⟩, fun ⟨h, h'⟩ => .arr h h'⟩

@[simp] theorem short_obj {members : List (String × Json)} :
    Short (.obj members) ↔ ∀ m ∈ members, Short m.2 :=
  ⟨fun | .obj h => h, .obj⟩

section Reading

variable {r : Reading α} {a : α} {b : β}

/-- Everything was read, as this value. -/
def Reading.Is (r : Reading α) (a : α) : Prop := r.fault = none ∧ r.value = some a

theorem Reading.result_eq_ok : r.result = .ok a ↔ r.Is a := by
  obtain ⟨fault, value⟩ := r
  cases fault <;> cases value <;> simp [Reading.result, Reading.Is]

theorem earlier_eq_none {x y : Option (Nat × Fault)} :
    earlier x y = none ↔ x = none ∧ y = none := by
  cases x with
  | none => simp [earlier]
  | some p =>
    cases y with
    | none => simp [earlier]
    | some q =>
      by_cases hle : p.1 ≤ q.1 <;> simp [earlier, hle]

theorem Reading.is_map {f : α → β} : (f <$> r).Is b ↔ ∃ a, r.Is a ∧ f a = b := by
  change r.fault = none ∧ r.value.map f = some b ↔ _
  simp only [Option.map_eq_some_iff, Reading.Is, and_assoc, exists_and_left]

theorem Reading.is_seq {r : Reading (α → β)} {s : Reading α} :
    (r <*> s).Is b ↔ ∃ f, r.Is f ∧ ∃ a, s.Is a ∧ f a = b := by
  have hfault : (r <*> s).fault = none ↔ r.fault = none ∧ s.fault = none := earlier_eq_none
  have hvalue : (r <*> s).value = some b ↔
      ∃ f, r.value = some f ∧ ∃ a, s.value = some a ∧ f a = b := by
    obtain ⟨_, rv⟩ := r
    obtain ⟨_, sv⟩ := s
    cases rv <;> cases sv <;> simp [Seq.seq]
  simp only [Reading.Is, hfault, hvalue, ← exists_and_left, and_assoc, and_left_comm]

theorem Parts.is_fieldBy {parts : Parts} {read : Json → Except Fault α} {place : Nat}
    {name : String} : (parts.fieldBy read place name).Is a ↔
      ∃ p v, parts.find? place name = some (p, v) ∧ read v = .ok a := by
  unfold Parts.fieldBy
  cases hf : parts.find? place name with
  | none => simp [Reading.Is]
  | some q =>
    obtain ⟨p, v⟩ := q
    have hv : (∃ p' v', some (p, v) = some (p', v') ∧ read v' = .ok a) ↔ read v = .ok a :=
      ⟨fun ⟨_, _, he, h⟩ => by cases he; exact h, fun h => ⟨p, v, rfl, h⟩⟩
    rw [hv]
    cases hr : read v <;> simp [Reading.Is, hr]

theorem Parts.find?_named {members : List (String × Json)} (hn : (members.map Prod.fst).Nodup)
    {name : String} {v : Json} (h : (name, v) ∈ members) (place : Nat) :
    ∃ p, (Parts.named members).find? place name = some (p, v) := by
  have hsome : (members.zipIdx.find? (·.1.1 == name)).isSome := by
    obtain ⟨i, hi⟩ := List.mem_iff_getElem?.1 h
    exact List.find?_isSome.2 ⟨((name, v), i), List.mem_zipIdx_iff_getElem?.2 hi, by simp⟩
  obtain ⟨⟨⟨other, w⟩, p⟩, hfind⟩ := Option.isSome_iff_exists.1 hsome
  have hname : other = name := by simpa using List.find?_some hfind
  have hmem : (other, w) ∈ members :=
    List.mem_of_getElem? (List.mem_zipIdx_iff_getElem?.1 (List.mem_of_find?_eq_some hfind))
  have hsame : (other, w) = (name, v) := List.inj_on_of_nodup_map hn hmem h hname
  refine ⟨p, ?_⟩
  rw [Parts.find?, hfind, ← (Prod.mk.inj hsame).2]
  rfl

end Reading

section Shapes

variable {build : Parts → Reading α} {a : α} {count : Nat} {v : Json}

theorem of_record (h : record count build v = .ok a) : ∃ parts, (build parts).Is a := by
  cases v with
  | obj members => exact ⟨_, Reading.result_eq_ok.1 h⟩
  | arr items =>
    obtain ⟨b, hb, h⟩ := bind_eq_ok.1 h
    obtain ⟨-, h⟩ := ite_else_error_eq_ok.1 h
    cases h
    exact ⟨_, Reading.result_eq_ok.1 hb⟩
  | _ => cases h

theorem record_obj {members : List (String × Json)} :
    record count build (.obj members) = .ok a ↔ (build (.named members)).Is a :=
  Reading.result_eq_ok

theorem members_eq_ok : members build v = .ok a ↔
    ∃ ms, v = .obj ms ∧ (build (.named ms)).Is a := by
  cases v <;> simp [members, Reading.result_eq_ok]

theorem tuple_eq_ok : tuple count build v = .ok a ↔
    ∃ items, v = .arr items ∧ items.length = count ∧ (build (.placed items)).Is a := by
  cases v with
  | arr items =>
    constructor
    · intro h
      obtain ⟨b, hb, h⟩ := bind_eq_ok.1 h
      obtain ⟨hl, h⟩ := ite_else_error_eq_ok.1 h
      cases h
      exact ⟨items, rfl, hl, Reading.result_eq_ok.1 hb⟩
    · rintro ⟨_, ⟨⟩, hl, ha⟩
      exact bind_eq_ok.2 ⟨a, Reading.result_eq_ok.2 ha, if_pos hl⟩
  | _ => simp [tuple]

theorem of_variant {alternative : String → Option Json → Except Fault α}
    (h : variant alternative v = .ok a) : ∃ name content, alternative name content = .ok a := by
  unfold variant at h
  split at h
  · exact ⟨_, _, h⟩
  · exact ⟨_, _, h⟩
  · cases h

theorem held_eq_ok {read : Json → Except Fault α} {content : Option Json} :
    held read content = .ok a ↔ ∃ v, content = some v ∧ read v = .ok a := by
  cases content <;> simp [held]

theorem itemsBy_eq_ok {read : Json → Except Fault α} {as : List α} :
    itemsBy read v = .ok as ↔ ∃ items, v = .arr items ∧ items.mapM read = .ok as := by
  cases v <;> simp [itemsBy]

end Shapes

/-! The same values in JSON and in the binary format.

What is read from JSON can be written in the binary format, unless one of its lengths is too great
for that; and what can be written there is read from its JSON form. Both pass from the fields of a
record to the record. -/

open Wire

/-- A type that has the same values in JSON as in the binary format. -/
class SameValues (α : Type) [JsonForm α] [Wire α] [Bounded α] : Prop where
  fits : ∀ {v : Json} {a : α}, fromJson v = .ok a → Short (toJson a) → Fits a
  written : ∀ {a : α}, Fits a → fromJson (toJson a) = .ok a

section Plain

theorem map_intBetween {n m : Nat} {ofNat : Nat → α} {a : α} (h : n < m + 1) (ha : ofNat n = a) :
    (intBetween 0 m (.int n)).map (fun i => ofNat i.toNat) = .ok a := by
  have hn : intBetween 0 m (.int n) = .ok (n : Int) :=
    if_pos ⟨Int.natCast_nonneg n, Int.ofNat_le.2 (Nat.le_of_lt_succ h)⟩
  rw [hn, Except.map, Int.toNat_natCast, ha]

instance : SameValues UInt8 where
  fits _ _ := trivial
  written {n} _ := map_intBetween n.toNat_lt UInt8.ofNat_toNat

instance : SameValues UInt32 where
  fits _ _ := trivial
  written {n} _ := map_intBetween n.toNat_lt UInt32.ofNat_toNat

instance : SameValues UInt64 where
  fits _ _ := trivial
  written {n} _ := map_intBetween n.toNat_lt UInt64.ofNat_toNat

instance : SameValues Int64 where
  fits _ _ := trivial
  written {n} _ := by
    have hmin := n.le_toInt
    have hmax := n.toInt_lt
    have hn : intBetween (-9223372036854775808) 9223372036854775807 (.int n.toInt) = .ok n.toInt :=
      if_pos ⟨by omega, by omega⟩
    change (intBetween (-9223372036854775808) 9223372036854775807 (.int n.toInt)).map _ = _
    rw [hn, Except.map, Int64.ofInt_toInt]

instance : SameValues String where
  fits _ hs := fits_bytes.2 (short_str.1 hs)
  written _ := rfl

end Plain

section Lists

theorem mapM_map_eq_ok {read : β → Except Fault α} {write : α → β} {as : List α}
    (h : ∀ a ∈ as, read (write a) = .ok a) : (as.map write).mapM read = .ok as := by
  rw [List.mapM_map]
  exact mapM_eq_ok_self h

variable [JsonForm α]

theorem fromJson_list {as : List α} (h : ∀ a ∈ as, fromJson (toJson a) = .ok a) :
    fromJson (toJson as) = .ok as := mapM_map_eq_ok h

theorem of_fromJson_list {v : Json} {as : List α} (h : fromJson v = .ok as) {a : α}
    (ha : a ∈ as) : ∃ item, fromJson item = .ok a := by
  obtain ⟨items, -, hm⟩ := itemsBy_eq_ok.1 h
  obtain ⟨item, -, hitem⟩ := (mem_of_mapM hm).1 ha
  exact ⟨item, hitem⟩

theorem short_list {as : List α} :
    Short (toJson as) ↔ as.length < UInt32.size ∧ ∀ a ∈ as, Short (toJson a) := by
  change Short (.arr (as.map toJson)) ↔ _
  simp

instance [Wire α] [Bounded α] [SameValues α] : SameValues (List α) where
  fits {v as} h hs := by
    obtain ⟨hl, heach⟩ := short_list.1 hs
    refine ⟨hl, fun a ha => ?_⟩
    obtain ⟨item, hitem⟩ := of_fromJson_list h ha
    exact SameValues.fits hitem (heach a ha)
  written h := fromJson_list fun a ha => SameValues.written (h.2 a ha)

instance {n : Nat} : SameValues (Octets n) where
  fits _ _ := trivial
  written {a} _ := by
    have hbytes : fromJson (toJson a.bytes) = .ok a.bytes :=
      fromJson_list fun b _ => SameValues.written (a := b) trivial
    change (fromJson (toJson a.bytes) >>= _) = _
    rw [hbytes, ok_bind]
    simp only [Octets.ofBytes?_bytes]
    rfl

instance [Wire α] [Bounded α] [SameValues α] [JsonForm β] [Wire β] [Bounded β] [SameValues β] :
    SameValues (α × β) where
  fits {v p} h hs := by
    obtain ⟨items, -, -, hp⟩ := tuple_eq_ok.1 h
    obtain ⟨f, hf, b, hb, rfl⟩ := Reading.is_seq.1 hp
    obtain ⟨a, ha, rfl⟩ := Reading.is_map.1 hf
    obtain ⟨-, v₁, -, ha⟩ := Parts.is_fieldBy.1 ha
    obtain ⟨-, v₂, -, hb⟩ := Parts.is_fieldBy.1 hb
    have hs : Short (toJson a) ∧ Short (toJson b) := by
      have hitems := (short_arr.1 hs).2
      exact ⟨hitems _ List.mem_cons_self, hitems _ (List.mem_cons_of_mem _ List.mem_cons_self)⟩
    exact ⟨SameValues.fits ha hs.1, SameValues.fits hb hs.2⟩
  written {p} h := by
    refine tuple_eq_ok.2 ⟨[toJson p.1, toJson p.2], rfl, rfl, Reading.is_seq.2 ?_⟩
    refine ⟨Prod.mk p.1, Reading.is_map.2 ⟨p.1, ?_, rfl⟩, p.2, ?_, rfl⟩
    · exact Parts.is_fieldBy.2 ⟨_, _, rfl, SameValues.written h.1⟩
    · exact Parts.is_fieldBy.2 ⟨_, _, rfl, SameValues.written h.2⟩

end Lists

section Options

variable [JsonForm α] [Wire α] [Bounded α] [SameValues α]

/-- A value that is never written as null is told apart from its lack. -/
theorem SameValues.option (h : ∀ a : α, toJson a ≠ .null) : SameValues (Option α) where
  fits {v a?} hv hs := by
    rintro a rfl
    have hread : (fromJson v).map some = .ok (some a) := by
      cases v <;> first | exact hv | cases hv
    obtain ⟨b, hb, hba⟩ := map_eq_ok.1 hread
    obtain rfl := Option.some.inj hba
    exact SameValues.fits hb hs
  written {a?} hf := by
    cases a? with
    | none => rfl
    | some a =>
      have hread : (fromJson (toJson a)).map some = .ok (some a) :=
        map_eq_ok.2 ⟨a, SameValues.written (hf a rfl), rfl⟩
      change fromJson (toJson a) = _
      cases hv : toJson a with
      | null => exact absurd hv (h a)
      | _ => rwa [hv] at hread

end Options

section Records

/-- A field of a record: how it is written, when it is read from the parts of a record, and which
records it lets into the binary format. -/
structure Field (α : Type) where
  name : String
  write : α → Json
  Reads : Parts → Nat → α → Prop
  Fits : α → Prop
  fits : ∀ {parts place a}, Reads parts place a → Short (write a) → Fits a
  written : ∀ {parts place p a}, Fits a → parts.find? place name = some (p, write a) →
    Reads parts place a

def Field.of [JsonForm β] [Wire β] [Bounded β] [SameValues β] (name : String) (get : α → β) :
    Field α where
  name := name
  write a := toJson (get a)
  Reads parts place a := (parts.field place name).Is (get a)
  Fits a := Wire.Fits (get a)
  fits h hs := by
    obtain ⟨-, v, -, hv⟩ := Parts.is_fieldBy.1 h
    exact SameValues.fits hv hs
  written hf hp := Parts.is_fieldBy.2 ⟨_, _, hp, SameValues.written hf⟩

section Optional

variable [JsonForm β] {parts : Parts} {place : Nat} {name : String}

theorem Parts.is_field_of_optional {b : β} (h : (parts.optional place name).Is (some b)) :
    (parts.field place name).Is (some b) := by
  unfold Parts.optional at h
  split at h
  · cases h.2
  · exact h

theorem Parts.optional_of_find? {q : Nat × Json} (h : parts.find? place name = some q) :
    (parts.optional place name : Reading (Option β)) = parts.field place name := by
  unfold Parts.optional
  split
  · next hnone =>
    rw [h] at hnone
    cases hnone
  · rfl

end Optional

def Field.optional [JsonForm β] [Wire β] [Bounded β] [SameValues (Option β)] (name : String)
    (get : α → Option β) : Field α where
  name := name
  write a := toJson (get a)
  Reads parts place a := (parts.optional place name).Is (get a)
  Fits a := Wire.Fits (get a)
  fits {parts place a} h hs := by
    cases hb : get a with
    | none => exact nofun
    | some b =>
      rw [hb] at h hs
      obtain ⟨-, v, -, hv⟩ := Parts.is_fieldBy.1 (Parts.is_field_of_optional h)
      exact SameValues.fits hv hs
  written hf hp := by
    rw [Parts.optional_of_find? hp]
    exact Parts.is_fieldBy.2 ⟨_, _, hp, SameValues.written hf⟩

def Found (parts : Parts) : Nat → List (Field α) → α → Prop
  | _, [], _ => True
  | place, f :: fs, a => f.Reads parts place a ∧ Found parts (place + 1) fs a

variable {parts : Parts} {fields : List (Field α)} {a : α}

theorem Found.fits {place : Nat} (h : Found parts place fields a)
    (hs : ∀ f ∈ fields, Short (f.write a)) : ∀ f ∈ fields, f.Fits a := by
  induction fields generalizing place with
  | nil => nofun
  | cons f fs ih =>
    obtain ⟨hf, hfs⟩ := List.forall_mem_cons.1 hs
    exact List.forall_mem_cons.2 ⟨f.fits h.1 hf, ih h.2 hfs⟩

theorem found_of_find? (hf : ∀ f ∈ fields, f.Fits a)
    (hp : ∀ f ∈ fields, ∀ place, ∃ p, parts.find? place f.name = some (p, f.write a))
    (place : Nat) : Found parts place fields a := by
  induction fields generalizing place with
  | nil => trivial
  | cons f fs ih =>
    obtain ⟨hf, hfs⟩ := List.forall_mem_cons.1 hf
    obtain ⟨hp, hps⟩ := List.forall_mem_cons.1 hp
    obtain ⟨p, hp⟩ := hp place
    exact ⟨f.written hf hp, ih hfs hps (place + 1)⟩

theorem found_named (hn : (fields.map Field.name).Nodup) (hf : ∀ f ∈ fields, f.Fits a) :
    Found (.named (fields.map fun f => (f.name, f.write a))) 0 fields a := by
  refine found_of_find? hf (fun f hm place => ?_) 0
  have hnames : ((fields.map fun f => (f.name, f.write a)).map Prod.fst).Nodup := by
    simpa [Function.comp_def] using hn
  exact Parts.find?_named hnames (List.mem_map.2 ⟨f, hm, rfl⟩) place

theorem SameValues.wrapped [JsonForm α] [Wire α] [JsonForm β] [Wire β] [Bounded β] [SameValues β]
    [Fields α β]
    (hread : ∀ v, (fromJson v : Except Fault α) = (fromJson v).map Fields.ofFields := by
      intro; rfl)
    (hwrite : ∀ a : α, toJson a = toJson (Fields.toFields a) := by intro; rfl) :
    SameValues α where
  fits {v a} h hs := by
    rw [hread] at h
    obtain ⟨b, hb, rfl⟩ := map_eq_ok.1 h
    rw [hwrite, Fields.toFields_ofFields] at hs
    change Wire.Fits (Fields.toFields (Fields.ofFields b : α))
    rw [Fields.toFields_ofFields]
    exact SameValues.fits hb hs
  written {a} h := by
    rw [hread, hwrite]
    exact map_eq_ok.2 ⟨_, SameValues.written h, Fields.ofFields_toFields a⟩

/-- A record has the same values in both forms if its fields have. -/
theorem SameValues.record [JsonForm α] [Wire α] [Bounded α] {count : Nat}
    {build : Parts → Reading α} (fields : List (Field α))
    (hread : ∀ v, (fromJson v : Except Fault α) = Json.record count build v)
    (hwrite : ∀ a : α, toJson a = .obj (fields.map fun f => (f.name, f.write a)) := by
      intro; rfl)
    (hnames : (fields.map Field.name).Nodup := by decide)
    (hfound : ∀ parts a, (build parts).Is a ↔ Found parts 0 fields a := by
      intro parts a; cases a
      simp [Found, Field.of, Field.optional, Reading.is_seq, Reading.is_map, and_assoc])
    (hfits : ∀ a : α, Wire.Fits a ↔ ∀ f ∈ fields, f.Fits a := by
      intro a; simp only [List.forall_mem_cons, List.not_mem_nil, false_imp_iff, implies_true,
        and_true]; exact Iff.rfl) :
    SameValues α where
  fits {v a} h hs := by
    obtain ⟨parts, hp⟩ := of_record (hread v ▸ h)
    have hshort : ∀ f ∈ fields, Short (f.write a) := fun f hf => by
      rw [hwrite] at hs
      exact short_obj.1 hs _ (List.mem_map.2 ⟨f, hf, rfl⟩)
    exact (hfits a).2 (((hfound parts a).1 hp).fits hshort)
  written {a} h := by
    rw [hread, hwrite, record_obj, hfound]
    exact found_named hnames ((hfits a).1 h)

/-- An alternative of a variant that holds fields under their names. -/
structure Alternative [Wire β] [Bounded β] (make : β → α) (fields : List (Field β))
    (build : Parts → Reading α) : Prop where
  names : (fields.map Field.name).Nodup := by decide
  found : ∀ parts a, (build parts).Is a ↔ ∃ b, Found parts 0 fields b ∧ make b = a := by
    intro parts a; simp [Found, Field.of, Reading.is_seq, Reading.is_map, and_assoc]
  fits : ∀ b, Wire.Fits b ↔ ∀ f ∈ fields, f.Fits b := by
    intro b; simp only [List.forall_mem_cons, List.not_mem_nil, false_imp_iff, implies_true,
      and_true]; exact Iff.rfl

namespace Alternative

variable [Wire β] [Bounded β] {make : β → α} {fields : List (Field β)} {build : Parts → Reading α}

theorem of_held (h : Alternative make fields build) {content : Option Json} {a : α}
    (hc : held (members build) content = .ok a) : ∃ b, make b = a ∧
      (Short (.obj (fields.map fun f => (f.name, f.write b))) → Wire.Fits b) := by
  obtain ⟨v, -, hv⟩ := held_eq_ok.1 hc
  obtain ⟨ms, -, hp⟩ := members_eq_ok.1 hv
  obtain ⟨b, hb, hmake⟩ := (h.found _ _).1 hp
  refine ⟨b, hmake, fun hs => (h.fits b).2 (hb.fits fun f hf => ?_)⟩
  exact short_obj.1 hs _ (List.mem_map.2 ⟨f, hf, rfl⟩)

theorem written (h : Alternative make fields build) {b : β} (hf : Wire.Fits b) :
    members build (.obj (fields.map fun f => (f.name, f.write b))) = .ok (make b) :=
  members_eq_ok.2 ⟨_, rfl, (h.found _ _).2 ⟨b, found_named h.names ((h.fits b).1 hf), rfl⟩⟩

end Alternative

theorem fits_of_held [JsonForm β] [Wire β] [Bounded β] [SameValues β] {make : β → α}
    {content : Option Json} {a : α} (h : (held fromJson content).map make = .ok a) :
    ∃ b, make b = a ∧ (Short (toJson b) → Wire.Fits b) := by
  obtain ⟨b, hb, hmake⟩ := map_eq_ok.1 h
  obtain ⟨v, -, hv⟩ := held_eq_ok.1 hb
  exact ⟨b, hmake, SameValues.fits hv⟩

end Records

end LedgerNotary.Json

namespace LedgerNotary

open Json

instance : SameValues StateRef :=
  .record [.of "txhash" StateRef.tx, .of "index" StateRef.index] fun _ => rfl

end LedgerNotary
