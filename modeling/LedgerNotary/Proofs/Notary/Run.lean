import LedgerNotary.Notary
import LedgerNotary.Proofs.Index.Commit
import LedgerNotary.Proofs.TearOff.Genuine

/-! What a notary reads in the evidence of either kind, and that nothing but the transaction is
blamed where it cannot. -/

namespace LedgerNotary

open Outcome

theorem TearOff.visible_eq_ok {f : TearOff} {k : GroupKind} {cs : List Bytes} :
    f.visible k = .ok cs ↔ ∃ g, f.revealed? k = some g ∧ g.content.shown = cs := by
  unfold visible
  cases f.revealed? k <;> simp

namespace Visible

theorem decodeAll_eq_ok {α : Type} [Wire α] {v : Visible} {k : GroupKind} {as : List α}
    (h : v.decodeAll α k = .ok as) : ∃ cs, v k = .ok cs ∧ as.length = cs.length ∧
      ∀ a, a ∈ as ↔ ∃ c ∈ cs, Wire.read c = .ok a := by
  obtain ⟨cs, hc, hm⟩ := bind_eq_ok.1 h
  refine ⟨cs, hc, length_of_mapM hm, fun a => (mem_of_mapM hm).trans ?_⟩
  refine exists_congr fun c => and_congr_right fun _ => ?_
  cases Wire.read (α := α) c <;> simp

end Visible

namespace Transaction

/-- A transaction has one component of such a kind at most, so counting them changes nothing. -/
theorem decodeOne_visible {α : Type} [Wire α] (t : Transaction) {k : GroupKind}
    (hk : k.isSingleton) :
    t.visible.decodeOne α k = (t.visible.decodeAll α k >>= fun as => .ok as.getLast?) := by
  rw [Visible.decodeOne]
  cases h : t.visible.decodeAll α k with
  | error e => rfl
  | ok as =>
    obtain ⟨cs, hc, hl, -⟩ := Visible.decodeAll_eq_ok h
    have hone : ¬ 1 < as.length := by
      rw [hl, ← Except.ok.inj hc]
      exact Nat.not_lt.2 (t.length_components_le hk)
    rw [ok_bind, ok_bind, if_neg hone]
    rfl

theorem visible_notary (t : Transaction) : t.visible.notary = t.notary :=
  t.decodeOne_visible rfl

theorem visible_timeWindow (t : Transaction) : t.visible.timeWindow = t.timeWindow := by
  rw [Visible.timeWindow, t.decodeOne_visible rfl, timeWindow]
  cases t.visible.decodeAll TimeWindow .timeWindow <;> rfl

theorem visible_tearOff (t : Transaction) {kinds : List GroupKind} {k : GroupKind} (h : k ∈ kinds) :
    (t.tearOff kinds).visible k = t.visible k :=
  TearOff.visible_eq_ok.2 ⟨_, t.revealed?_tearOff h, t.shown_reveal k⟩

theorem read_tearOff (t : Transaction) :
    (t.tearOff Submission.revealedKinds).visible.inputs = t.visible.inputs ∧
      (t.tearOff Submission.revealedKinds).visible.notary = t.notary ∧
      (t.tearOff Submission.revealedKinds).visible.timeWindow = t.timeWindow := by
  have hv : ∀ k ∈ Submission.revealedKinds,
      (t.tearOff Submission.revealedKinds).visible k = t.visible k := fun _ => t.visible_tearOff
  rw [← t.visible_notary, ← t.visible_timeWindow]
  refine ⟨?_, ?_, ?_⟩
  · simp only [Visible.inputs, Visible.decodeAll, hv .inputs (by decide)]
  · simp only [Visible.notary, Visible.decodeOne, Visible.decodeAll, hv .notary (by decide)]
  · simp only [Visible.timeWindow, Visible.decodeOne, Visible.decodeAll,
      hv .timeWindow (by decide)]

end Transaction

/-- What a notary of a mode finds in evidence of the kind that it asks for. -/
inductive Evidence.Shows : Mode → Evidence → Summary → Prop
  | whole {t : Transaction} {u : Summary} (outputs : ∃ os, t.visible.outputs = .ok os)
      (commands : ∃ cs, t.visible.commands = .ok cs)
      (attachments : ∃ ds, t.visible.attachments = .ok ds) (id : u.id = t.id)
      (inputs : t.visible.inputs = .ok u.inputs) (notary : t.notary = .ok u.notary)
      (timeWindow : t.timeWindow = .ok u.timeWindow) : Shows .validating (.whole t) u
  | tornOff {f : TearOff} {u : Summary} (verified : f.verify = .ok ())
      (revealed : ∀ k ∈ Submission.revealedKinds, ∃ g, f.revealed? k = some g) (id : u.id = f.id)
      (inputs : f.visible.inputs = .ok u.inputs) (notary : f.visible.notary = .ok u.notary)
      (timeWindow : f.visible.timeWindow = .ok u.timeWindow) : Shows .nonValidating (.tornOff f) u

namespace Notary

theorem invalid_eq_ok {α : Type} {x : Except TransactionFault α} {a : α} :
    invalid x = .ok a ↔ x = .ok a := by
  cases x <;> simp [invalid]

theorem summarise_eq_ok {id : Digest} {inputs : Except TransactionFault (List StateRef)}
    {notary : Except TransactionFault (Option Party)}
    {timeWindow : Except TransactionFault (Option TimeWindow)} {u : Summary} :
    summarise id inputs notary timeWindow = .ok u ↔ u.id = id ∧ inputs = .ok u.inputs ∧
      notary = .ok u.notary ∧ timeWindow = .ok u.timeWindow := by
  simp only [summarise, bind_eq_ok, invalid_eq_ok, pure_eq_ok, Except.ok.injEq]
  constructor
  · rintro ⟨_, hi, _, hn, _, hw, rfl⟩
    exact ⟨rfl, hi, hn, hw⟩
  · rintro ⟨rfl, hi, hn, hw⟩
    exact ⟨_, hi, _, hn, _, hw, rfl⟩

theorem summariseWhole_eq_ok {t : Transaction} {u : Summary} : summariseWhole t = .ok u ↔
    (∃ os, t.visible.outputs = .ok os) ∧ (∃ cs, t.visible.commands = .ok cs) ∧
      (∃ ds, t.visible.attachments = .ok ds) ∧
      summarise t.id t.visible.inputs t.notary t.timeWindow = .ok u := by
  simp only [summariseWhole, bind_eq_ok, invalid_eq_ok, exists_and_right]

theorem summariseTearOff_eq_ok {f : TearOff} {u : Summary} : summariseTearOff f = .ok u ↔
    f.verify = .ok () ∧ (∀ k ∈ Submission.revealedKinds, ∃ g, f.revealed? k = some g) ∧
      summarise f.id f.visible.inputs f.visible.notary f.visible.timeWindow = .ok u := by
  rw [summariseTearOff, unit_bind_eq_ok, unit_bind_eq_ok, invalid_eq_ok, mapError_eq_ok, forM_eq_ok]
  refine and_congr_right fun _ => and_congr_left fun _ => forall₂_congr fun k _ => ?_
  simp [bind_eq_ok, invalid_eq_ok, TearOff.visible_eq_ok, pure_eq_ok]

theorem extract_eq_ok {mode : Mode} {e : Evidence} {u : Summary} :
    extract mode e = .ok u ↔ e.Shows mode u := by
  constructor
  · intro h
    cases mode <;> cases e
    case validating.whole t =>
      obtain ⟨ho, hc, ha, hs⟩ := summariseWhole_eq_ok.1 h
      obtain ⟨hid, hi, hn, hw⟩ := summarise_eq_ok.1 hs
      exact .whole ho hc ha hid hi hn hw
    case nonValidating.tornOff f =>
      obtain ⟨hv, hk, hs⟩ := summariseTearOff_eq_ok.1 h
      obtain ⟨hid, hi, hn, hw⟩ := summarise_eq_ok.1 hs
      exact .tornOff hv hk hid hi hn hw
    all_goals cases h
  · rintro (⟨ho, hc, ha, hid, hi, hn, hw⟩ | ⟨hv, hk, hid, hi, hn, hw⟩)
    · exact summariseWhole_eq_ok.2 ⟨ho, hc, ha, summarise_eq_ok.2 ⟨hid, hi, hn, hw⟩⟩
    · exact summariseTearOff_eq_ok.2 ⟨hv, hk, summarise_eq_ok.2 ⟨hid, hi, hn, hw⟩⟩

section Blame

variable {α β : Type}

/-- A failure is the fault of the transaction. -/
def BlamesTransaction (x : Except Refusal α) : Prop :=
  ∀ e, x = .error e → ∃ reason, e = .invalidTransaction reason

theorem BlamesTransaction.ok (a : α) : BlamesTransaction (.ok a) := nofun

theorem BlamesTransaction.invalid (x : Except TransactionFault α) :
    BlamesTransaction (invalid x) := by
  intro e h
  cases x <;> cases h
  exact ⟨_, rfl⟩

theorem BlamesTransaction.bind {x : Except Refusal α} {f : α → Except Refusal β}
    (hx : BlamesTransaction x) (hf : ∀ a, BlamesTransaction (f a)) :
    BlamesTransaction (x >>= f) := by
  intro e h
  rcases bind_eq_error.1 h with h | ⟨a, -, h⟩
  · exact hx e h
  · exact hf a e h

theorem BlamesTransaction.forM {f : α → Except Refusal Unit} (hf : ∀ a, BlamesTransaction (f a))
    (as : List α) : BlamesTransaction (as.forM f) := by
  induction as with
  | nil => exact .ok ()
  | cons a as ih => exact (hf a).bind fun _ => ih

theorem BlamesTransaction.summarise (id : Digest)
    (inputs : Except TransactionFault (List StateRef))
    (notary : Except TransactionFault (Option Party))
    (timeWindow : Except TransactionFault (Option TimeWindow)) :
    BlamesTransaction (summarise id inputs notary timeWindow) :=
  (invalid _).bind fun _ => (invalid _).bind fun _ => (invalid _).bind fun _ => .ok _

theorem BlamesTransaction.extract (mode : Mode) (e : Evidence) :
    BlamesTransaction (extract mode e) := by
  have other : ∀ r, BlamesTransaction (.error (.invalidTransaction r) : Except Refusal Summary) :=
    fun r e h => ⟨r, (Except.error.inj h).symm⟩
  cases mode <;> cases e
  case validating.whole t =>
    exact (invalid _).bind fun _ => (invalid _).bind fun _ => (invalid _).bind fun _ =>
      summarise _ _ _ _
  case nonValidating.tornOff f =>
    exact (invalid _).bind fun _ =>
      (forM (fun _ => (invalid _).bind fun _ => .ok ()) _).bind fun _ => summarise _ _ _ _
  all_goals exact other _

end Blame

end Notary

/-! Calls of notaries, one after another, on one index. -/

namespace Request

variable {r : Request}

theorem signingBytes_eq_ok {m : Bytes} :
    r.signingBytes = .ok m ↔ Wire.sized r = true ∧ m = framed (Wire.pack r) := by
  simp only [signingBytes, map_eq_ok, mapError_eq_ok, Wire.encode_eq_ok]
  constructor
  · rintro ⟨s, ⟨h, rfl⟩, rfl⟩
    exact ⟨h, rfl⟩
  · rintro ⟨h, rfl⟩
    exact ⟨_, ⟨h, rfl⟩, rfl⟩

def signed (r : Request) (key : KeyPair) (platformVersion : UInt32) : SignedRequest :=
  ⟨r, key.sign (framed (Wire.pack r)), platformVersion⟩

theorem sign_eq_ok {key : KeyPair} {platformVersion : UInt32} {s : SignedRequest} :
    r.sign key platformVersion = .ok s ↔
      Wire.sized r = true ∧ s = r.signed key platformVersion := by
  simp only [sign, bind_eq_ok, signingBytes_eq_ok, pure_eq_ok, Except.ok.injEq]
  constructor
  · rintro ⟨m, ⟨h, rfl⟩, rfl⟩
    exact ⟨h, rfl⟩
  · rintro ⟨h, rfl⟩
    exact ⟨_, ⟨h, rfl⟩, rfl⟩

end Request

namespace Notary

variable {n : Notary} {now : Instant} {i : Index} {s : Submission} {requester : Party}

theorem checkMatches_eq_ok {u : Summary} {request : Request} :
    n.checkMatches u request = .ok () ↔
      u.notary = some n.identity ∧ request.txId = u.id ∧ request.states = u.inputs := by
  unfold checkMatches
  cases u.notary with
  | none => simp
  | some other => simp [ite_else_error_eq_ok]

theorem accept_eq_ok {u : Summary} : n.accept now s requester = .ok u ↔
    extract n.settings.mode s.evidence = .ok u ∧ n.checkMatches u s.request.request = .ok () ∧
      n.checkWindow now u.timeWindow = .ok () ∧ s.request.verify requester = .ok () := by
  simp only [accept, bind_eq_ok, mapError_eq_ok, pure_eq_ok, Except.ok.injEq]
  constructor
  · rintro ⟨v, he, ⟨⟩, hm, ⟨⟩, hw, ⟨⟩, hv, rfl⟩
    exact ⟨he, hm, hw, hv⟩
  · rintro ⟨he, hm, hw, hv⟩
    exact ⟨u, he, (), hm, (), hw, (), hv, rfl⟩

theorem process_of_halt {halt : Halt} (h : n.accept now s requester = .error halt) :
    n.process now i s requester = (halt.reply, i) := by
  simp only [process, h]

theorem process_of_committed {u : Summary} {i' : Index} (h : n.accept now s requester = .ok u)
    (hc : i.commit u.inputs u.id requester = (.ok (), i')) :
    n.process now i s requester = (some (.signed (n.sign u.id)), i') := by
  simp only [process, h, hc]

theorem process_of_not_committed {u : Summary} {e : IndexFault}
    (h : n.accept now s requester = .ok u)
    (hc : i.commit u.inputs u.id requester = (.error e, i)) :
    n.process now i s requester = (some (.rejected (.ofIndexFault u.id e)), i) := by
  simp only [process, h, hc]

theorem process_cases (n : Notary) (now : Instant) (i : Index) (s : Submission)
    (requester : Party) :
    (∃ reply, (∀ r, reply ≠ some (.signed r)) ∧ n.process now i s requester = (reply, i)) ∨
      ∃ u i', n.accept now s requester = .ok u ∧
        i.commit u.inputs u.id requester = (.ok (), i') ∧
        n.process now i s requester = (some (.signed (n.sign u.id)), i') := by
  cases ha : n.accept now s requester with
  | error halt =>
    refine Or.inl ⟨halt.reply, fun r => ?_, process_of_halt ha⟩
    cases halt <;> exact nofun
  | ok u =>
    generalize hc : i.commit u.inputs u.id requester = c
    cases hc ▸ i.committed_commit u.inputs u.id requester with
    | granted => exact Or.inr ⟨u, _, rfl, hc, process_of_committed ha hc⟩
    | corrupt | contested | unwritable =>
      exact Or.inl ⟨_, by simp, process_of_not_committed ha hc⟩

end Notary

theorem Reply.exists_of_isOk {p? : Option Reply} (h : p?.any (·.toExcept.isOk) = true) :
    ∃ r, p? = some (.signed r) := by
  match p? with
  | some (.signed r) => exact ⟨r, rfl⟩
  | some (.rejected e) | none => cases h

structure Call where
  notary : Notary
  now : Instant
  submission : Submission
  requester : Party

namespace Call

def summary (c : Call) : Except Refusal Summary :=
  Notary.extract c.notary.settings.mode c.submission.evidence

def serveOne (i : Index) (c : Call) : Option Reply × Index :=
  c.notary.process c.now i c.submission c.requester

def serve : Index → List Call → List (Option Reply) × Index
  | i, [] => ([], i)
  | i, c :: cs => ((serveOne i c).1 :: (serve (serveOne i c).2 cs).1, (serve (serveOne i c).2 cs).2)

variable {i : Index} {cs : List Call} {c : Call}

theorem serve_cons_fst (i : Index) (c : Call) (cs : List Call) :
    (serve i (c :: cs)).1 = (serveOne i c).1 :: (serve (serveOne i c).2 cs).1 := rfl

theorem serve_cons_snd (i : Index) (c : Call) (cs : List Call) :
    (serve i (c :: cs)).2 = (serve (serveOne i c).2 cs).2 := rfl

theorem of_serveOne_signed {r : Response} (h : (serveOne i c).1 = some (.signed r)) :
    ∃ u, c.notary.accept c.now c.submission c.requester = .ok u ∧
      i.commit u.inputs u.id c.requester = (.ok (), (serveOne i c).2) ∧
      r = c.notary.sign u.id := by
  rcases c.notary.process_cases c.now i c.submission c.requester with
    ⟨reply, hr, he⟩ | ⟨u, i', ha, hc, hp⟩
  · exact absurd ((congrArg Prod.fst he).symm.trans h) (hr r)
  · obtain rfl := Reply.signed.inj (Option.some.inj ((congrArg Prod.fst hp).symm.trans h))
    exact ⟨u, ha, hc.trans (congrArg _ (congrArg Prod.snd hp).symm), rfl⟩

theorem holds_serveOne {x : StateRef} {id : Digest} (h : i.Holds x id) (c : Call) :
    (serveOne i c).2.Holds x id := by
  rcases c.notary.process_cases c.now i c.submission c.requester with
    ⟨reply, -, he⟩ | ⟨u, i', -, hc, hp⟩
  · rwa [serveOne, he]
  · rw [serveOne, hp]
    exact h.commit hc

/-- A signed call was accepted, and is for the transaction for which its inputs are held if there
was any before. -/
theorem exists_of_signed {place : Nat} {r : Response}
    (h : (serve i cs).1[place]? = some (some (.signed r))) (hc : cs[place]? = some c) :
    ∃ u, c.notary.accept c.now c.submission c.requester = .ok u ∧ r = c.notary.sign u.id ∧
      ∀ x id, i.Holds x id → x ∈ u.inputs → id = u.id := by
  induction cs generalizing i place with
  | nil => cases hc
  | cons d cs ih =>
    cases place with
    | zero =>
      obtain rfl := Option.some.inj hc
      obtain ⟨u, ha, hi, hr⟩ := of_serveOne_signed (Option.some.inj h)
      exact ⟨u, ha, hr, fun x id hx hm => hx.eq_of_commit hi hm⟩
    | succ place =>
      obtain ⟨u, ha, hr, hu⟩ := ih h hc
      exact ⟨u, ha, hr, fun x id hx => hu x id (holds_serveOne hx d)⟩

/-- Of two signed calls with an input in common, the later one is for the same transaction. -/
theorem id_eq_of_signed {place later : Nat} (hl : place < later) {r s : Response}
    (hr : (serve i cs).1[place]? = some (some (.signed r)))
    (hs : (serve i cs).1[later]? = some (some (.signed s))) {c d : Call}
    (hc : cs[place]? = some c) (hd : cs[later]? = some d) {u v : Summary}
    (hu : c.notary.accept c.now c.submission c.requester = .ok u)
    (hv : d.notary.accept d.now d.submission d.requester = .ok v) {x : StateRef}
    (hx : x ∈ u.inputs) (hx' : x ∈ v.inputs) : u.id = v.id := by
  induction cs generalizing i place later with
  | nil => cases hc
  | cons b cs ih =>
    obtain ⟨later, rfl⟩ := Nat.exists_eq_succ_of_ne_zero (Nat.ne_zero_of_lt hl)
    cases place with
    | zero =>
      obtain rfl := Option.some.inj hc
      obtain ⟨u', ha, hi, -⟩ := of_serveOne_signed (Option.some.inj hr)
      obtain rfl := Except.ok.inj (ha.symm.trans hu)
      obtain ⟨v', hv', -, hh⟩ := exists_of_signed (i := (serveOne i b).2) hs hd
      obtain rfl := Except.ok.inj (hv'.symm.trans hv)
      exact hh x _ (Index.holds_of_commit hi hx) hx'
    | succ place => exact ih (Nat.lt_of_succ_lt_succ hl) hr hs hc hd

/-- A party that is both notary and requester, with the number one for its secret. -/
def soleKey : KeyPair := ⟨1, by decide, by decide⟩

def soleParty : Party := ⟨"N", soleKey.publicKey⟩

def soleNotary (mode : Mode) : Notary where
  identity := soleParty
  keys := [soleKey]
  settings := ⟨mode, 1, none⟩
  fulfilled := by
    simp [soleParty, KeyPair.publicKey, Key.fulfilledBy, Key.check, Key.checkBelow, Key.metBelow]

def soleInput : StateRef := ⟨Salt.sevens.octets, 0⟩

def oneInput : Transaction :=
  ⟨[⟨[Wire.pack soleInput]⟩, ⟨[]⟩, ⟨[]⟩, ⟨[]⟩, ⟨[Wire.pack soleParty]⟩, ⟨[]⟩],
    Salt.sevens, rfl⟩

def oneInputRequest : SignedRequest := Request.signed ⟨[soleInput], oneInput.id⟩ soleKey 1

def oneInputTornOff : Submission :=
  ⟨.tornOff (oneInput.tearOff Submission.revealedKinds), oneInputRequest⟩

end Call

end LedgerNotary
