import LedgerNotary.Proofs.Key.Order
import LedgerNotary.Proofs.Wire.Format

/-! Every key that can be built is read back from its encoding, and so is what names a party.

The reader is stricter than the writer: it wants the rules kept and the children ascending on every
level. Building a key sorts its children, and since no child is there twice, they ascend. -/

namespace LedgerNotary

open Outcome Wire

namespace Key

/-- Keys that are made level by level, of no more children than a length of four bytes counts. -/
inductive Built : Key → Prop
  | single (a : PointCode) : Built (.single a)
  | composite {t : UInt32} {cs : List Child} {k : Key} (children : ∀ c ∈ cs, Built c.1)
    (short : cs.length < UInt32.size) (made : ofChildren t cs = .ok k) : Built k

/-- Keys whose children ascend on every level. -/
inductive Canonical : Key → Prop
  | single (a : PointCode) : Canonical (.single a)
  | composite {t : UInt32} {cs : List Child} (children : ∀ c ∈ cs, Canonical c.1)
    (short : cs.length < UInt32.size) (ascends : Ascends cs) : Canonical (.composite t cs)

theorem ofChildren_eq_ok {t : UInt32} {cs : List Child} {k : Key} :
    ofChildren t cs = .ok k ↔
      k = .composite t (sortChildren cs) ∧ check (.composite t (sortChildren cs)) = .ok () := by
  rw [ofChildren, unit_bind_eq_ok, pure_eq_ok, Except.ok.injEq, and_comm, eq_comm]

theorem Built.check_eq_ok {k : Key} (h : Built k) : check k = .ok () := by
  cases h with
  | single a => rfl
  | composite children short made =>
    obtain ⟨rfl, hc⟩ := ofChildren_eq_ok.1 made
    exact hc

theorem Built.canonical {k : Key} (h : Built k) : Canonical k := by
  induction h with
  | single a => exact .single a
  | @composite t cs k children short made ih =>
    obtain ⟨rfl, hc⟩ := ofChildren_eq_ok.1 made
    obtain ⟨_, -, hl, -⟩ := checkBelow_composite_eq_ok.1 hc
    obtain ⟨-, -, -, hn, -⟩ := checkLevel_eq_ok.1 hl
    have hp := sortChildren_perm cs
    refine .composite (fun c hm => ih c (hp.mem_iff.1 hm)) ?_ ((sorted_sortChildren cs).ascends hn)
    rw [hp.length_eq]
    exact short

theorem decodeChildren_pack {node : Bytes → Except Fault (Key × Bytes)} {cs : List Child}
    (hn : ∀ c ∈ cs, ∀ s, node (pack c.1 ++ s) = .ok (c.1, s)) (ha : Ascends cs)
    (done : List Child) (hd : ∀ c ∈ cs.head?, follows done c = true) (s : Bytes) :
    decodeChildren node cs.length done (packChildren cs ++ s) = .ok (done.reverse ++ cs, s) := by
  induction cs generalizing done with
  | nil => simp [decodeChildren, packChildren]
  | cons c cs ih =>
    obtain ⟨k, w⟩ := c
    obtain ⟨hk, hcs⟩ := List.forall_mem_cons.1 hn
    obtain ⟨hnext, hascends⟩ := List.isChain_cons.1 ha
    have hf : follows done (k, w) = true := hd _ rfl
    have hrest := ih hcs hascends ((k, w) :: done) fun d hm => beq_iff_eq.2 (hnext d hm)
    change (node ((pack k ++ (Wire.pack w ++ packChildren cs)) ++ s) >>= _) = _
    rw [List.append_assoc, hk, ok_bind]
    change (Wire.decode ((Wire.pack w ++ packChildren cs) ++ s) >>= _) = _
    rw [List.append_assoc, (readsBack_uint32 w).bind]
    simp only [if_pos hf, hrest]
    simp

/-- A canonical key is read back by a reader of as many levels as it has. -/
theorem Canonical.decode_pack {k : Key} (h : Canonical k) {levels : Nat}
    (hc : checkBelow levels k = .ok ()) (s : Bytes) :
    decodeNode (decodeBody levels) (pack k ++ s) = .ok (k, s) := by
  induction h generalizing levels s with
  | single a => exact (Bounded.readsBack a.fits).bind s _
  | @composite t cs children short ascends ih =>
    obtain ⟨below, rfl, hl, hbelow⟩ := checkBelow_composite_eq_ok.1 hc
    have hcs := decodeChildren_pack (fun c hm => ih c hm (hbelow c hm)) ascends []
      (fun _ _ => rfl) s
    rw [List.reverse_nil, List.nil_append] at hcs
    change decodeBody (below + 1)
      ((Wire.pack t ++ (Bytes.ofNatLE 4 cs.length ++ packChildren cs)) ++ s) = _
    rw [List.append_assoc, List.append_assoc, decodeBody, (readsBack_uint32 t).bind]
    simp only [takeNat_length short, ok_bind, hcs, hl]
    rfl

theorem Built.readsBack {k : Key} (h : Built k) : ReadsBack k := fun s =>
  h.canonical.decode_pack h.check_eq_ok s

theorem sizedChildren_eq_true {cs : List Child} :
    sizedChildren cs = true ↔ ∀ c ∈ cs, sized c.1 = true := by
  induction cs with
  | nil => exact iff_of_true rfl nofun
  | cons c cs ih => rw [sizedChildren, Bool.and_eq_true_iff, ih, List.forall_mem_cons]

theorem Canonical.sized_eq_true {k : Key} (h : Canonical k) : sized k = true := by
  induction h with
  | single a => rfl
  | composite children short ascends ih =>
    rw [sized, Bool.and_eq_true_iff, decide_eq_true_iff, sizedChildren_eq_true]
    exact ⟨short, ih⟩

instance : Bounded Key where
  Fits := Built
  sized_of_fits h := h.canonical.sized_eq_true
  readsBack := Built.readsBack

end Key

instance : Fields Party (String × Key) where
  toFields p := (p.name, p.key)
  ofFields := fun (name, key) => ⟨name, key⟩

instance : Fields Consumption (Digest × UInt32 × Party) where
  toFields c := (c.txId, c.inputIndex, c.party)
  ofFields := fun (txId, inputIndex, party) => ⟨txId, inputIndex, party⟩

/-- A party that can be written: its name is short enough, and its key can be built. -/
structure Party.Writable (p : Party) : Prop where
  name : (Bytes.ofString p.name).length < UInt32.size
  key : p.key.Built

theorem Party.Writable.fits {p : Party} (h : p.Writable) : Fits p :=
  ⟨fits_bytes.2 h.name, h.key⟩

theorem Consumption.fits {r : Consumption} (h : r.party.Writable) : Fits r :=
  ⟨r.txId.fits, trivial, h.fits⟩

/-! The keys that are read are the keys that can be built.

The reader meets the rules one level at a time while it goes down, each level with the depth that
is left for it. Building checks the whole tree again on every level, so the depth of the outermost
level is what counts. Both come to the same: the rules on every level, the children in ascending
order, and at most as many levels as there may be. -/

namespace Key

/-- A key of at most so many levels that keeps the rules on each of them, with its children in
ascending order. -/
inductive WellFormed : Nat → Key → Prop
  | single {levels : Nat} (a : PointCode) : WellFormed levels (.single a)
  | composite {levels : Nat} {t : UInt32} {cs : List Child} (positive : t ≠ 0)
    (weights : ∀ c ∈ cs, c.2 ≠ 0) (distinct : (cs.map Prod.fst).Nodup)
    (reachable : t.toNat ≤ totalWeight cs) (ascends : Ascends cs)
    (short : cs.length < UInt32.size) (children : ∀ c ∈ cs, WellFormed levels c.1) :
    WellFormed (levels + 1) (.composite t cs)

/-- The same threshold tree: on every level the same children, in whatever order. -/
inductive SameTree : Key → Key → Prop
  | single (a : PointCode) : SameTree (.single a) (.single a)
  | composite {t : UInt32} {cs ds es : List Child} (reordered : cs.Perm ds)
    (weights : ds.map Prod.snd = es.map Prod.snd)
    (children : ∀ p ∈ ds.zip es, SameTree p.1.1 p.2.1) :
    SameTree (.composite t cs) (.composite t es)

section Rules

variable {levels : Nat} {k l : Key}

theorem WellFormed.checkBelow_eq_ok (h : WellFormed levels k) : checkBelow levels k = .ok () := by
  induction h with
  | single a => rfl
  | @composite levels t cs positive weights distinct reachable ascends short children ih =>
    have hne : cs ≠ [] := by
      rintro rfl
      have ht : t.toNat = 0 := by simpa [totalWeight] using reachable
      exact positive (UInt32.toNat_inj.1 ht)
    exact checkBelow_composite_eq_ok.2
      ⟨levels, rfl, checkLevel_eq_ok.2 ⟨positive, hne, weights, distinct, reachable⟩, ih⟩

/-- What obeys the rules can be built, since sorting leaves ascending children as they are. -/
theorem WellFormed.built (h : WellFormed levels k) (hle : levels ≤ maxDepth) : Built k := by
  induction h with
  | single a => exact .single a
  | @composite levels t cs positive weights distinct reachable ascends short children ih =>
    have hk : WellFormed (levels + 1) (.composite t cs) :=
      .composite positive weights distinct reachable ascends short children
    have hc : check (.composite t cs) = .ok () := checkBelow_mono hk.checkBelow_eq_ok hle
    have made : ofChildren t cs = .ok (.composite t cs) := by
      rw [ofChildren_eq_ok, ascends.sorted.sortChildren]
      exact ⟨rfl, hc⟩
    exact .composite (fun c hm => ih c hm (by omega)) short made

theorem Canonical.wellFormed (h : Canonical k) (hc : checkBelow levels k = .ok ()) :
    WellFormed levels k := by
  induction h generalizing levels with
  | single a => exact .single a
  | @composite t cs children short ascends ih =>
    obtain ⟨below, rfl, hl, hbelow⟩ := checkBelow_composite_eq_ok.1 hc
    obtain ⟨positive, -, weights, distinct, reachable⟩ := checkLevel_eq_ok.1 hl
    exact .composite positive weights distinct reachable ascends short
      fun c hm => ih c hm (hbelow c hm)

theorem built_iff_wellFormed : Built k ↔ WellFormed maxDepth k :=
  ⟨fun h => h.canonical.wellFormed h.check_eq_ok, fun h => h.built (Nat.le_refl maxDepth)⟩

/-- Any order of the children makes the same key, or fails for the same reason. -/
theorem ofChildren_congr {cs ds : List Child} (h : cs.Perm ds) (t : UInt32) :
    ofChildren t cs = ofChildren t ds := by
  rw [ofChildren, ofChildren, sortChildren_congr h]

theorem eq_of_zip {cs ds : List Child} (hw : cs.map Prod.snd = ds.map Prod.snd)
    (hk : ∀ p ∈ cs.zip ds, p.1.1 = p.2.1) : cs = ds := by
  induction cs generalizing ds with
  | nil =>
    rw [List.map_nil, eq_comm, List.map_eq_nil_iff] at hw
    exact hw.symm
  | cons c cs ih =>
    cases ds with
    | nil => simp at hw
    | cons d ds =>
      simp only [List.map_cons, List.cons.injEq] at hw
      obtain ⟨hcd, hcs⟩ := List.forall_mem_cons.1 hk
      have heq : c = d := Prod.ext hcd hw.1
      rw [heq, ih hw.2 hcs]

/-- One tree has one key with ascending children. -/
theorem SameTree.eq (h : SameTree k l) (hk : Canonical k) (hl : Canonical l) : k = l := by
  induction h with
  | single a => rfl
  | @composite t cs ds es reordered weights children ih =>
    obtain _ | ⟨hcs, -, ha⟩ := hk
    obtain _ | ⟨hes, -, hb⟩ := hl
    have hde : ds = es := by
      refine eq_of_zip weights fun p hp => ih p hp ?_ ?_
      · exact hcs p.1 (reordered.mem_iff.2 (List.of_mem_zip hp).1)
      · exact hes p.2 (List.of_mem_zip hp).2
    subst hde
    rw [Sorted.eq_of_perm (Ascends.sorted ha) (Ascends.sorted hb) reordered]

end Rules

section Reader

variable {s rest : Bytes}

/-- What is read as children of a key ascends behind the children before it, and what was taken from
the bytes is the encoding of these children. -/
theorem of_decodeChildren {node : Bytes → Except Fault (Key × Bytes)} {P : Key → Prop}
    (hn : ∀ {s k rest}, node s = .ok (k, rest) → P k ∧ s = pack k ++ rest) {n : Nat}
    {done cs : List Child} (h : decodeChildren node n done s = .ok (cs, rest)) :
    ∃ ds, cs = done.reverse ++ ds ∧ ds.length = n ∧ (∀ d ∈ ds, P d.1) ∧ Ascends ds ∧
      (∀ d ∈ ds.head?, follows done d = true) ∧ s = packChildren ds ++ rest := by
  induction n generalizing done s with
  | zero =>
    cases h
    exact ⟨[], by simp, rfl, nofun, List.isChain_nil, nofun, rfl⟩
  | succ n ih =>
    obtain ⟨⟨k, t⟩, hk, hrest⟩ := bind_eq_ok.1 h
    obtain ⟨⟨w, u⟩, hw, hrest⟩ := bind_eq_ok.1 hrest
    obtain ⟨hf, hcs⟩ := ite_else_error_eq_ok.1 hrest
    obtain ⟨hP, rfl⟩ := hn hk
    obtain ⟨-, rfl⟩ := Exact.of_decode hw
    obtain ⟨ds, rfl, rfl, hds, ha, hnext, rfl⟩ := ih hcs
    refine ⟨(k, w) :: ds, by simp, rfl, List.forall_mem_cons.2 ⟨hP, hds⟩, ?_, ?_, ?_⟩
    · exact List.isChain_cons.2 ⟨fun d hd => beq_iff_eq.1 (hnext d hd), ha⟩
    · rintro d ⟨⟩
      exact hf
    · change _ = (pack k ++ (Wire.pack w ++ packChildren ds)) ++ rest
      rw [List.append_assoc, List.append_assoc]

theorem of_decodeNode {body : Bytes → Except Fault (Key × Bytes)} {levels : Nat} {k : Key}
    (hb : ∀ {t}, body t = .ok (k, rest) → WellFormed levels k ∧ 1 :: t = pack k ++ rest)
    (h : decodeNode body s = .ok (k, rest)) : WellFormed levels k ∧ s = pack k ++ rest := by
  obtain ⟨tag, t, rfl, ht⟩ := of_decodeVariant h
  by_cases h0 : tag = 0
  · rw [if_pos h0] at ht
    obtain ⟨a, rfl, -, rfl⟩ := of_decodeAs ht
    exact ⟨.single a, by rw [h0]; rfl⟩
  · obtain ⟨h1, hk⟩ := ite_else_error_eq_ok.1 ((if_neg h0).symm.trans ht)
    rw [h1]
    exact hb hk

/-- With fewer levels left for every level further in, the rules are met on each of them. -/
theorem of_decodeBody {levels : Nat} {k : Key} (h : decodeBody levels s = .ok (k, rest)) :
    WellFormed levels k ∧ 1 :: s = pack k ++ rest := by
  induction levels generalizing s k rest with
  | zero => cases h
  | succ levels ih =>
    rw [decodeBody] at h
    obtain ⟨⟨t, s₁⟩, ht, h₁⟩ := bind_eq_ok.1 h
    obtain ⟨⟨n, s₂⟩, hn, h₂⟩ := bind_eq_ok.1 h₁
    obtain ⟨⟨cs, s₃⟩, hcs, h₃⟩ := bind_eq_ok.1 h₂
    obtain ⟨-, rfl⟩ := Exact.of_decode ht
    obtain ⟨short, rfl⟩ := of_takeNat hn
    obtain ⟨ds, hds, rfl, children, ascends, -, rfl⟩ :=
      of_decodeChildren (fun hd => of_decodeNode ih hd) hcs
    obtain rfl : cs = ds := hds
    cases hl : checkLevel t cs with
    | error defect =>
      simp only [hl] at h₃
      cases h₃
    | ok u =>
      simp only [hl] at h₃
      cases h₃
      obtain ⟨positive, -, weights, distinct, reachable⟩ := checkLevel_eq_ok.1 hl
      refine ⟨.composite positive weights distinct reachable ascends short children, ?_⟩
      change _ = (1 :: (Wire.pack t ++ (Bytes.ofNatLE 4 cs.length ++ packChildren cs))) ++ rest
      rw [List.cons_append, List.append_assoc, List.append_assoc]

instance : Exact Key where
  of_decode h := by
    obtain ⟨hk, hs⟩ := of_decodeNode of_decodeBody h
    exact ⟨built_iff_wellFormed.2 hk, hs⟩

end Reader

/-- A byte string is read as a key if and only if it is the encoding of that key and the key can be
built level by level, that is, keeps the rules on each of at most eight levels with its children in
ascending order. The order in which children are handed over does not matter, and so two keys that
can be built and are the same tree are the same key. -/
theorem read_exactly_built :
    (∀ (s : Bytes) (k : Key), Wire.read s = .ok k ↔ s = Wire.pack k ∧ Built k) ∧
    (∀ k : Key, Built k ↔ WellFormed maxDepth k) ∧
    (∀ (t : UInt32) (cs ds : List Child), cs.Perm ds → ofChildren t cs = ofChildren t ds) ∧
    ∀ k l : Key, Built k → Built l → SameTree k l → k = l := by
  refine ⟨fun _ _ => ?_, fun _ => built_iff_wellFormed, fun t _ _ h => ofChildren_congr h t, ?_⟩
  · rw [read_eq_ok_iff, and_comm]
    rfl
  · intro k l hk hl h
    exact h.eq hk.canonical hl.canonical

theorem read_exactly_built_swapped :
    let a : Key := .single ⟨Octets.zero 33⟩
    let b : Key := .single ⟨⟨List.replicate 33 1, rfl⟩⟩
    let k : Key := .composite 2 [(a, 1), (b, 1)]
    [(b, 1), (a, 1)].Perm [(a, (1 : UInt32)), (b, 1)] ∧ Built k ∧
      Wire.read (Wire.pack k) = .ok k ∧
      ofChildren 2 [(b, 1), (a, 1)] = ofChildren 2 [(a, 1), (b, 1)] := by
  intro a b k
  obtain ⟨hread, -, hperm, -⟩ := read_exactly_built
  have hswap : [(b, 1), (a, 1)].Perm [(a, (1 : UInt32)), (b, 1)] := .swap _ _ _
  have hk : Built k := .composite (by simp [a, b, Built.single]) (by decide)
    (by decide : ofChildren 2 [(a, 1), (b, 1)] = .ok k)
  exact ⟨hswap, hk, (hread _ _).2 ⟨rfl, hk⟩, hperm _ _ _ hswap⟩

end Key

end LedgerNotary
