import LedgerNotary.Proofs.Json.Values
import LedgerNotary.Proofs.Key.Canonical

/-! Keys in JSON.

Children may stand in any order there, and are put in order when a key is built. Each level is built
from keys that were built before, so the rules are checked on all levels below it once more. The
reader goes down no more levels than the value is deep, and the form of a key is deeper than the
forms of its children. -/

namespace LedgerNotary

open Json Outcome Wire

theorem PointCode.fromJson_str (text : String) :
    (fromJson (.str text) : Except Json.Fault PointCode) =
      match Hex.decode text with
      | .error _ => .error .shape
      | .ok s => match Octets.ofBytes? 33 s with
        | some a => .ok ⟨a⟩
        | none => .error .keyLength := rfl

instance : SameValues PointCode where
  fits _ _ := trivial
  written {a} _ := by
    have hhex : Hex.decode a.toHex = .ok a.octets.bytes := by
      rw [Hex.decode, Bytes.ofString, PointCode.toHex, Hex.encode, String.toList_ofList,
        Hex.decodeBytes_encodeChars]
    have hform : toJson a = .str a.toHex := rfl
    rw [hform, PointCode.fromJson_str, hhex]
    simp only [Octets.ofBytes?_bytes]

namespace Json

theorem depth_lt_of_mem_arr {v : Json} {items : List Json} (h : v ∈ items) :
    v.depth < (Json.arr items).depth := by
  have hle : v.depth ≤ depthOfItems items := by
    induction items with
    | nil => cases h
    | cons w items ih =>
      rw [depthOfItems]
      rcases List.mem_cons.1 h with rfl | h
      · exact Nat.le_max_left _ _
      · exact Nat.le_trans (ih h) (Nat.le_max_right _ _)
  rw [depth]
  omega

theorem depth_lt_of_mem_obj {m : String × Json} {members : List (String × Json)}
    (h : m ∈ members) : m.2.depth < (Json.obj members).depth := by
  have hle : m.2.depth ≤ depthOfMembers members := by
    induction members with
    | nil => cases h
    | cons l members ih =>
      obtain ⟨name, v⟩ := l
      rw [depthOfMembers]
      rcases List.mem_cons.1 h with rfl | h
      · exact Nat.le_max_left _ _
      · exact Nat.le_trans (ih h) (Nat.le_max_right _ _)
  rw [depth]
  omega

end Json

namespace Key

variable {t : UInt32} {cs : List Child} {k : Key} {c : Child} {v : Json} {n : Nat}

def formOfChild (c : Child) : Json := .obj [("node", formOf c.1), ("weight", toJson c.2)]

theorem formsOfChildren_eq (cs : List Child) : formsOfChildren cs = cs.map formOfChild := by
  induction cs with
  | nil => rfl
  | cons c cs ih =>
    obtain ⟨k, w⟩ := c
    rw [formsOfChildren, ih]
    rfl

theorem formOf_composite : formOf (.composite t cs) = .obj [("Composite", formOfBody t cs)] := by
  rw [formOf, formOfBody]

theorem ofForm_single : ofForm (n + 1) (.obj [("Secp256k1", v)]) = (fromJson v).map .single := by
  simp [ofForm, variant, held]

theorem ofForm_composite :
    ofForm (n + 1) (.obj [("Composite", v)]) = bodyOfForm (ofForm n) v := by
  simp [ofForm, variant, held]

theorem decodeNode_one (body : Bytes → Except Wire.Fault (Key × Bytes)) (s : Bytes) :
    decodeNode body (1 :: s) = body s := rfl

theorem Built.children (h : Built (.composite t cs)) : ∀ c ∈ cs, Built c.1 := by
  cases h with
  | @composite _ ds _ children short made =>
    obtain ⟨hk, -⟩ := ofChildren_eq_ok.1 made
    cases hk
    exact fun c hc => children c ((sortChildren_perm ds).mem_iff.1 hc)

section Written

theorem childOfForm_formOfChild {node : Json → Except Json.Fault Key}
    (h : node (formOf c.1) = .ok c.1) : childOfForm node (formOfChild c) = .ok c := by
  have hw : fromJson (toJson c.2) = .ok c.2 := SameValues.written trivial
  refine record_obj.2 (Reading.is_seq.2
    ⟨Prod.mk c.1, Reading.is_map.2 ⟨c.1, ?_, rfl⟩, c.2, ?_, rfl⟩)
  · exact Parts.is_fieldBy.2 ⟨0, _, rfl, h⟩
  · exact Parts.is_fieldBy.2 ⟨1, _, rfl, hw⟩

theorem bodyOfForm_of_record {node : Json → Except Json.Fault Key} (hk : Built (.composite t cs))
    (h : record 2 (fun r => Prod.mk <$> r.field 0 "threshold"
      <*> r.fieldBy (itemsBy (childOfForm node)) 1 "children") v = .ok (t, cs)) :
    bodyOfForm node v = .ok (.composite t cs) := by
  obtain _ | ⟨-, -, ascends⟩ := hk.canonical
  have hmade : ofChildren t cs = .ok (.composite t cs) := by
    rw [ofChildren_eq_ok, (Ascends.sorted ascends).sortChildren]
    exact ⟨rfl, hk.check_eq_ok⟩
  rw [bodyOfForm, h, ok_bind]
  simp only [hmade]
  rfl

theorem bodyOfForm_formOfBody {node : Json → Except Json.Fault Key}
    (hk : Built (.composite t cs)) (h : ∀ c ∈ cs, node (formOf c.1) = .ok c.1) :
    bodyOfForm node (formOfBody t cs) = .ok (.composite t cs) := by
  have ht : fromJson (toJson t) = .ok t := SameValues.written trivial
  have hcs : itemsBy (childOfForm node) (.arr (formsOfChildren cs)) = .ok cs := by
    rw [formsOfChildren_eq]
    exact mapM_map_eq_ok fun c hc => childOfForm_formOfChild (h c hc)
  refine bodyOfForm_of_record hk (record_obj.2 (Reading.is_seq.2 ⟨Prod.mk t, ?_, cs, ?_, rfl⟩))
  · exact Reading.is_map.2 ⟨t, Parts.is_fieldBy.2 ⟨0, _, rfl, ht⟩, rfl⟩
  · exact Parts.is_fieldBy.2 ⟨1, _, rfl, hcs⟩

theorem depth_formOf_lt (h : c ∈ cs) : (formOf c.1).depth < (formOfBody t cs).depth := by
  have hnode : (formOf c.1).depth < (formOfChild c).depth :=
    depth_lt_of_mem_obj (m := ("node", formOf c.1)) List.mem_cons_self
  have hchild : (formOfChild c).depth < (Json.arr (formsOfChildren cs)).depth := by
    refine depth_lt_of_mem_arr ?_
    rw [formsOfChildren_eq]
    exact List.mem_map_of_mem h
  have hitems : (Json.arr (formsOfChildren cs)).depth < (formOfBody t cs).depth :=
    depth_lt_of_mem_obj (m := ("children", .arr (formsOfChildren cs))) (by simp)
  omega

/-- A key that can be built is read by a reader of as many levels as its form has. -/
theorem ofForm_formOf (h : Built k) (hn : (formOf k).depth ≤ n) :
    ofForm n (formOf k) = .ok k := by
  induction k using induction generalizing n with
  | single a =>
    obtain ⟨m, rfl⟩ : ∃ m, n = m + 1 := ⟨n - 1, by rw [formOf, depth] at hn; omega⟩
    have ha : fromJson (toJson a) = .ok a := SameValues.written trivial
    rw [formOf, ofForm_single, ha]
    rfl
  | composite t cs ih =>
    have hbody : (formOfBody t cs).depth < (formOf (.composite t cs)).depth := by
      rw [formOf_composite]
      exact depth_lt_of_mem_obj (m := ("Composite", formOfBody t cs)) List.mem_cons_self
    obtain ⟨m, rfl⟩ : ∃ m, n = m + 1 := ⟨n - 1, by omega⟩
    rw [formOf_composite, ofForm_composite]
    refine bodyOfForm_formOfBody h fun c hc => ih c hc (h.children c hc) ?_
    have hc := depth_formOf_lt (t := t) hc
    omega

/-- The only lengths in the form of a key are the numbers of its children. -/
theorem short_formOf (h : Canonical k) : Short (formOf k) := by
  induction h with
  | single a =>
    have hl : (Bytes.ofString a.toHex).length = 66 := by
      rw [PointCode.toHex, Hex.encode, Bytes.ofString, String.toList_ofList,
        Hex.length_utf8_encodeChars, a.octets.length_eq]
    refine short_obj.2 (List.forall_mem_singleton.2 (short_str.2 ?_))
    rw [hl]
    decide
  | @composite t cs children short ascends ih =>
    have hitems : Short (.arr (formsOfChildren cs)) := by
      rw [formsOfChildren_eq, short_arr, List.length_map]
      refine ⟨short, List.forall_mem_map.2 fun c hc => short_obj.2 ?_⟩
      exact List.forall_mem_cons.2 ⟨ih c hc, List.forall_mem_singleton.2 (.int _)⟩
    refine short_obj.2 (List.forall_mem_singleton.2 (short_obj.2 ?_))
    exact List.forall_mem_cons.2 ⟨.int _, List.forall_mem_singleton.2 hitems⟩

end Written

section Read

theorem of_childOfForm {node : Json → Except Json.Fault Key} (h : childOfForm node v = .ok c) :
    ∃ w, node w = .ok c.1 := by
  obtain ⟨parts, hp⟩ := of_record h
  obtain ⟨f, hf, w, -, rfl⟩ := Reading.is_seq.1 hp
  obtain ⟨k, hk, rfl⟩ := Reading.is_map.1 hf
  obtain ⟨-, u, -, hu⟩ := Parts.is_fieldBy.1 hk
  exact ⟨u, hu⟩

theorem of_bodyOfForm {node : Json → Except Json.Fault Key} (h : bodyOfForm node v = .ok k) :
    ∃ t cs, ofChildren t cs = .ok k ∧ ∀ c ∈ cs, ∃ w, node w = .ok c.1 := by
  obtain ⟨⟨t, cs⟩, hbody, h⟩ := bind_eq_ok.1 h
  refine ⟨t, cs, ?_, fun c hc => ?_⟩
  · cases hmade : ofChildren t cs with
    | error defect =>
      simp only [hmade] at h
      cases h
    | ok k' =>
      simp only [hmade] at h
      cases h
      rfl
  · obtain ⟨parts, hp⟩ := of_record hbody
    obtain ⟨f, hf, ds, hds, heq⟩ := Reading.is_seq.1 hp
    obtain ⟨t', -, rfl⟩ := Reading.is_map.1 hf
    cases heq
    obtain ⟨-, u, -, hu⟩ := Parts.is_fieldBy.1 hds
    obtain ⟨items, -, hm⟩ := itemsBy_eq_ok.1 hu
    obtain ⟨item, -, hitem⟩ := (mem_of_mapM hm).1 hc
    exact of_childOfForm hitem

theorem short_formOfChild (h : Short (formOfChild c)) : Short (formOf c.1) :=
  short_obj.1 h ("node", formOf c.1) List.mem_cons_self

theorem short_formOfBody (h : Short (formOfBody t cs)) :
    cs.length < UInt32.size ∧ ∀ c ∈ cs, Short (formOf c.1) := by
  have hitems : Short (.arr (formsOfChildren cs)) :=
    short_obj.1 h ("children", .arr (formsOfChildren cs)) (by simp)
  rw [formsOfChildren_eq, short_arr, List.length_map] at hitems
  exact ⟨hitems.1, fun c hc => short_formOfChild (hitems.2 _ (List.mem_map_of_mem hc))⟩

theorem built_of_bodyOfForm {node : Json → Except Json.Fault Key}
    (hnode : ∀ {w k}, node w = .ok k → Short (formOf k) → Built k)
    (h : bodyOfForm node v = .ok k) (hs : Short (formOf k)) : Built k := by
  obtain ⟨t, cs, made, hcs⟩ := of_bodyOfForm h
  obtain ⟨rfl, -⟩ := ofChildren_eq_ok.1 made
  have hp := sortChildren_perm cs
  rw [formOf_composite] at hs
  obtain ⟨short, heach⟩ := short_formOfBody (short_obj.1 hs _ List.mem_cons_self)
  refine .composite (fun c hc => ?_) (hp.length_eq ▸ short) made
  obtain ⟨w, hw⟩ := hcs c hc
  exact hnode hw (heach c (hp.mem_iff.2 hc))

theorem built_of_ofForm (h : ofForm n v = .ok k) (hs : Short (formOf k)) : Built k := by
  induction n generalizing v k with
  | zero => cases h
  | succ n ih =>
    obtain ⟨name, content, h⟩ := of_variant h
    by_cases hname : name = "Secp256k1"
    · rw [if_pos hname] at h
      obtain ⟨a, -, rfl⟩ := map_eq_ok.1 h
      exact .single a
    · obtain ⟨-, h⟩ := ite_else_error_eq_ok.1 ((if_neg hname).symm.trans h)
      obtain ⟨w, -, h⟩ := held_eq_ok.1 h
      exact built_of_bodyOfForm ih h hs

end Read

theorem body_interchangeable (h : bodyOfForm (ofForm v.depth) v = .ok k) :
    ∃ t cs, k = .composite t cs ∧ (Short (formOfBody t cs) →
      bodyOfForm (ofForm (formOfBody t cs).depth) (formOfBody t cs) = .ok k ∧
        decodeBody maxDepth (packBody t cs) = .ok (k, [])) := by
  obtain ⟨t, cs, made, -⟩ := of_bodyOfForm h
  obtain ⟨rfl, -⟩ := ofChildren_eq_ok.1 made
  refine ⟨_, _, rfl, fun hs => ?_⟩
  have hform : Short (formOf (.composite t (sortChildren cs))) := by
    rw [formOf_composite]
    exact short_obj.2 (by simpa using hs)
  have hk := built_of_bodyOfForm built_of_ofForm h hform
  refine ⟨bodyOfForm_formOfBody hk fun c hc => ?_, ?_⟩
  · exact ofForm_formOf (hk.children c hc) (Nat.le_of_lt (depth_formOf_lt hc))
  · have hb : decodeNode (decodeBody maxDepth) (pack (.composite t (sortChildren cs)) ++ []) =
        .ok (_, []) := hk.readsBack []
    rwa [List.append_nil, pack, decodeNode_one] at hb

theorem child_interchangeable (h : childOfForm (ofForm v.depth) v = .ok c)
    (hs : Short (formOfChild c)) :
    childOfForm (ofForm (formOfChild c).depth) (formOfChild c) = .ok c ∧
      RoundTrips c := by
  obtain ⟨w, hw⟩ := of_childOfForm h
  have hk : Built c.1 := built_of_ofForm hw (short_formOfChild hs)
  have hdepth : (formOf c.1).depth < (formOfChild c).depth :=
    depth_lt_of_mem_obj (m := ("node", formOf c.1)) List.mem_cons_self
  have hf : Fits c := ⟨hk, trivial⟩
  exact ⟨childOfForm_formOfChild (ofForm_formOf hk (Nat.le_of_lt hdepth)), roundTrips hf⟩

/-- The keys that come in through JSON are the ones that keep the rules on each of at most eight
levels, with their children in order. -/
theorem exists_fromJson_iff_wellFormed :
    (∃ v, fromJson v = .ok k) ∧ Short (toJson k) ↔ WellFormed maxDepth k := by
  rw [← built_iff_wellFormed]
  constructor
  · rintro ⟨⟨v, hv⟩, hs⟩
    exact built_of_ofForm hv hs
  · intro h
    exact ⟨⟨formOf k, ofForm_formOf h (Nat.le_refl _)⟩, short_formOf h.canonical⟩

instance : SameValues Key where
  fits := built_of_ofForm
  written h := ofForm_formOf h (Nat.le_refl _)

end Key

end LedgerNotary
