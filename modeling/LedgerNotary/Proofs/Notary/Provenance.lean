import LedgerNotary.Proofs.Index.FirstWriter
import LedgerNotary.Proofs.Index.Refinement
import LedgerNotary.Proofs.Notary.Decision

/-! Behind every record in the index stands a call that was signed.

A call that is rejected leaves the index as it was, and one that is signed makes records only where
there were none. So whatever a run leaves of a state was put there by one call of the run, and what
that call had to pass can be told. -/

namespace LedgerNotary

open Plan

def FirstAt (states : List StateRef) (x : StateRef) (place : Nat) : Prop :=
  states[place]? = some x ∧ ∀ m < place, states[m]? ≠ some x

theorem firstAt_idxOf {states : List StateRef} {x : StateRef} (hx : x ∈ states) :
    FirstAt states x (states.idxOf x) := by
  refine ⟨List.getElem?_idxOf hx, fun m hm he => ?_⟩
  obtain ⟨hl, rfl⟩ := List.getElem?_eq_some_iff.1 he
  have hne := List.not_of_lt_findIdx (p := (· == states[m])) hm
  simp at hne

theorem Key.built_of_verify {k : Key} {message : Bytes} {signature : Signature}
    (h : k.verify message signature = .ok ()) : k.Built := by
  cases k with
  | single a => exact .single a
  | composite t cs => cases h

theorem SignedRequest.SignedBy.built {s : SignedRequest} {sender : Party} (h : s.SignedBy sender) :
    sender.key.Built := by
  obtain ⟨hk, m, -, hv⟩ := h
  exact hk ▸ Key.built_of_verify hv

namespace Index

variable {i : Index}

theorem Keeps.recalls {p : Party} (h : i.Keeps p) (hk : p.key.Built) : i.Recalls p := by
  cases i with
  | volatile m => trivial
  | durable d =>
    exact ⟨(Wire.fits_of_sized (Bool.and_eq_true_iff.1 h).1).1, hk⟩

end Index

namespace Call

/-- Whether a call is what a record of a state goes back to. -/
structure Backs (c : Call) (x : StateRef) (r : Consumption) : Prop where
  requester : c.requester = r.party
  txId : c.submission.request.request.txId = r.txId
  place : ∃ n, FirstAt c.submission.request.request.states x n ∧
    r.inputIndex = UInt32.ofNat n ∧ (n < UInt32.size → r.inputIndex.toNat = n)
  taken : ∃ u, c.notary.Takes c.submission u ∧ c.notary.OpenAt c.now u.timeWindow
  signer : c.submission.request.signature.endorsement.signer = r.party.key
  signature : ∃ message, c.submission.request.request.signingBytes = .ok message ∧
    r.party.key.verify message c.submission.request.signature.endorsement.signature = .ok ()

variable {i : Index} {c : Call} {cs : List Call} {x : StateRef}

/-- What an accepted call asks for is backed by it. -/
theorem backs_of_accept {u : Summary} (h : c.notary.accept c.now c.submission c.requester = .ok u)
    (hx : x ∈ u.inputs) :
    c.Backs x ⟨u.id, UInt32.ofNat (u.inputs.idxOf x), c.requester⟩ := by
  obtain ⟨ht, ho, hs⟩ := Notary.accept_iff.1 h
  have hp : FirstAt c.submission.request.request.states x (u.inputs.idxOf x) := by
    rw [ht.states]
    exact firstAt_idxOf hx
  exact {
    requester := rfl
    txId := ht.txId
    place := ⟨_, hp, rfl, fun hl => UInt32.toNat_ofNat_of_lt' hl⟩
    taken := ⟨u, ht, ho⟩
    signer := hs.1
    signature := by
      obtain ⟨hk, m, hm, hv⟩ := hs
      exact ⟨m, hm, hk ▸ hv⟩ }

theorem Backs.built {r : Consumption} (h : c.Backs x r) : r.party.key.Built := by
  obtain ⟨m, -, hv⟩ := h.signature
  exact Key.built_of_verify hv

theorem serve_singleton_snd (i : Index) (c : Call) : (serve i [c]).2 = (serveOne i c).2 := rfl

/-- One call leaves of a state what there was, or is signed and makes its first record. -/
theorem lookup_serveOne (i : Index) (c : Call) (x : StateRef) :
    (serveOne i c).2.lookup x = i.lookup x ∨
      i.lookup x = .ok none ∧ ∃ r s, (serveOne i c).1 = some (.signed s) ∧ c.Backs x r ∧
        (serveOne i c).2.lookup x = .ok (some r) := by
  rcases c.notary.process_cases c.now i c.submission c.requester with
    ⟨reply, -, he⟩ | ⟨u, i', ha, hc, hp⟩
  · exact Or.inl (by rw [serveOne, he])
  · obtain ⟨-, hw, rfl⟩ := Index.commit_eq_ok.1 hc
    rw [serveOne, hp]
    by_cases hm : x ∈ (entries i.lookup u.inputs u.id c.requester).map Prod.fst
    · obtain ⟨hx, hn⟩ := mem_map_entries.1 hm
      have hb := backs_of_accept ha hx
      have hk : i.Recalls c.requester := (hw x hx hn).recalls hb.built
      refine Or.inr ⟨hn, _, _, rfl, hb, ?_⟩
      rw [Index.lookup_record_of_mem (nodup_entries _) (mem_entries.2 ⟨hx, hn, rfl⟩)]
      exact Index.Recalls.stored_eq hk
    · exact Or.inl (Index.lookup_record_of_notMem hm)

theorem lookup_serve (i : Index) (cs : List Call) (x : StateRef) :
    (serve i cs).2.lookup x = i.lookup x ∨
      ∃ (r : Consumption) (m : Nat) (c : Call) (s : Response), cs[m]? = some c ∧
        (serve i cs).1[m]? = some (some (.signed s)) ∧ c.Backs x r ∧
        (serve i cs).2.lookup x = .ok (some r) := by
  induction cs generalizing i with
  | nil => exact Or.inl rfl
  | cons c cs ih =>
    rw [serve_cons_snd, serve_cons_fst]
    rcases ih (serveOne i c).2 with hrest | ⟨r, m, d, s, hd, hs, hb, hl⟩
    · rw [hrest]
      rcases lookup_serveOne i c x with hone | ⟨-, r, s, hs, hb, hl⟩
      · exact Or.inl hone
      · exact Or.inr ⟨r, 0, c, s, rfl, congrArg some hs, hb, hl⟩
    · exact Or.inr ⟨r, m + 1, d, s, hd, hs, hb, hl⟩

/-- On an index that was empty, every record goes back to a call that was signed: the request is
its requester's own, for that transaction and with the state first at that place, and the
transaction names the notary and was in time. -/
theorem recorded_backed {i : Index} (h : i.size = 0) {cs : List Call} {x : StateRef}
    (hx : (serve i cs).2.lookup x ≠ .ok none) :
    ∃ (r : Consumption) (m : Nat) (c : Call) (s : Response),
      (serve i cs).2.lookup x = .ok (some r) ∧ cs[m]? = some c ∧
      (serve i cs).1[m]? = some (some (.signed s)) ∧ c.Backs x r := by
  have hempty : i.lookup x = .ok none := (Index.follows_nil h).absent x rfl
  rcases lookup_serve i cs x with hl | ⟨r, m, c, s, hc, hs, hb, hl⟩
  · exact absurd (hl.trans hempty) hx
  · exact ⟨r, m, c, s, hl, hc, hs, hb⟩

/-- The notary is asked by itself for a transaction with one input. -/
def soleCall : Call := ⟨soleNotary .nonValidating, ⟨0⟩, oneInputTornOff, soleParty⟩

set_option maxRecDepth 100000 in
theorem serveOne_soleCall : (serveOne (.durable .empty) soleCall).1.any (·.toExcept.isOk) = true ∧
    (serveOne (.durable .empty) soleCall).2.lookup soleInput =
      .ok (some ⟨oneInput.id, 0, soleParty⟩) := by
  decide +kernel

theorem recorded_backed_soleCall : (Index.durable .empty).size = 0 ∧
    (serve (.durable .empty) [soleCall]).2.lookup soleInput =
      .ok (some ⟨oneInput.id, 0, soleParty⟩) ∧
    soleCall.Backs soleInput ⟨oneInput.id, 0, soleParty⟩ := by
  have hl : (serve (.durable .empty) [soleCall]).2.lookup soleInput =
      .ok (some ⟨oneInput.id, 0, soleParty⟩) := by
    rw [serve_singleton_snd]
    exact serveOne_soleCall.2
  have hne : (serve (.durable .empty) [soleCall]).2.lookup soleInput ≠ .ok none := by simp [hl]
  obtain ⟨r, m, c, s, hr, hc, -, hb⟩ := recorded_backed rfl hne
  have hm : m = 0 := by
    have := (List.getElem?_eq_some_iff.1 hc).1
    simpa using this
  subst hm
  obtain rfl := Option.some.inj hc
  obtain rfl := Option.some.inj (Except.ok.inj (hl.symm.trans hr))
  exact ⟨rfl, hl, hb⟩

end Call

/-! What was signed once is signed again.

Signing a transaction leaves each of its inputs with a record of it that can be read. Records are
never touched again, so whatever happens in between, a retry finds nothing to dispute and nothing to
write, and the signature depends on the identifier alone. -/

namespace Index

variable {i i' : Index} {states : List StateRef} {txId : Digest} {party : Party} {x : StateRef}

/-- Whether a state has a record of the transaction that can be read. -/
def Settled (i : Index) (txId : Digest) (x : StateRef) : Prop :=
  ∃ r, i.lookup x = .ok (some r) ∧ r.txId = txId

theorem Settled.lookup_ne_none (h : i.Settled txId x) : i.lookup x ≠ .ok none := by
  obtain ⟨r, hr, -⟩ := h
  simp [hr]

theorem settled_record (hg : i.Grants states txId) (hw : i.Writes states party)
    (hb : party.key.Built) (hx : x ∈ states) :
    (i.record (entries i.lookup states txId party)).Settled txId x := by
  obtain ⟨r?, hr, hid⟩ := hg x hx
  cases r? with
  | none =>
    have hm : (x, ⟨txId, UInt32.ofNat (states.idxOf x), party⟩) ∈
        entries i.lookup states txId party := mem_entries.2 ⟨hx, hr, rfl⟩
    have hk : i.Recalls party := (hw x hx hr).recalls hb
    have hl := lookup_record_of_mem (i := i) (nodup_entries states) hm
    exact ⟨_, hl.trans (Recalls.stored_eq hk), rfl⟩
  | some r =>
    refine ⟨r, ?_, hid r rfl⟩
    rw [lookup_record_of_notMem, hr]
    intro hm
    have hn := (mem_map_entries.1 hm).2
    cases hr.symm.trans hn

theorem commit_of_settled (h : ∀ x ∈ states, i.Settled txId x) (party : Party) :
    i.commit states txId party = (.ok (), i) := by
  have hnil : entries i.lookup states txId party = [] := by
    refine List.eq_nil_iff_forall_not_mem.2 ?_
    rintro ⟨x, r⟩ hm
    obtain ⟨hx, hn, -⟩ := mem_entries.1 hm
    exact (h x hx).lookup_ne_none hn
  refine commit_eq_ok.2 ⟨fun x hx => ?_, fun x hx hn => absurd hn (h x hx).lookup_ne_none,
    by rw [hnil, record_nil]⟩
  obtain ⟨r, hr, hid⟩ := h x hx
  refine ⟨some r, hr, fun s hs => ?_⟩
  obtain rfl := Option.some.inj hs
  exact hid

end Index

namespace Notary

variable {n : Notary} {now : Instant} {i : Index} {s : Submission} {requester : Party}

/-- A submission that passes the steps before the index is signed if its inputs are settled, and
leaves the index as it is. -/
theorem process_of_settled {u : Summary} (ht : n.Takes s u) (ho : n.OpenAt now u.timeWindow)
    (hs : s.request.SignedBy requester) (hi : ∀ x ∈ u.inputs, i.Settled u.id x) :
    n.process now i s requester = (some (.signed (n.sign u.id)), i) :=
  process_of_committed (accept_iff.2 ⟨ht, ho, hs⟩) (Index.commit_of_settled hi requester)

end Notary

namespace Call

variable {i : Index} {cs : List Call} {c : Call}

theorem settled_serveOne {txId : Digest} {x : StateRef}
    (h : i.Settled txId x) (c : Call) : (serveOne i c).2.Settled txId x := by
  obtain ⟨r, hr, hid⟩ := h
  refine ⟨r, ?_, hid⟩
  rcases lookup_serveOne i c x with hl | ⟨hn, -⟩
  · exact hl.trans hr
  · cases hr.symm.trans hn

theorem settled_serve {txId : Digest} {x : StateRef} (h : i.Settled txId x) (cs : List Call) :
    (serve i cs).2.Settled txId x := by
  induction cs generalizing i with
  | nil => exact h
  | cons c cs ih => exact ih (settled_serveOne h c)

theorem settled_of_signed {m : Nat} {r : Response}
    (hr : (serve i cs).1[m]? = some (some (.signed r))) (hc : cs[m]? = some c) :
    ∃ u, c.notary.accept c.now c.submission c.requester = .ok u ∧ r = c.notary.sign u.id ∧
      ∀ x ∈ u.inputs, (serve i cs).2.Settled u.id x := by
  induction cs generalizing i m with
  | nil => cases hc
  | cons d cs ih =>
    cases m with
    | zero =>
      obtain rfl := Option.some.inj hc
      obtain ⟨u, ha, hi, hsign⟩ := of_serveOne_signed (Option.some.inj hr)
      obtain ⟨hg, hw, hi'⟩ := Index.commit_eq_ok.1 hi
      refine ⟨u, ha, hsign, fun x hx => settled_serve ?_ cs⟩
      rw [hi']
      exact Index.settled_record hg hw (Notary.accept_iff.1 ha).2.2.built hx
    | succ m => exact ih hr hc

/-- A call that was signed can be repeated at any time when the window is open: whatever came in
between, the reply is the same and the index stays as it is. So it is for any other request for that
transaction, signed by whoever makes it. -/
theorem signed_again {m : Nat} {r : Response}
    (hr : (serve i cs).1[m]? = some (some (.signed r))) (hc : cs[m]? = some c) :
    ∃ u, c.notary.Takes c.submission u ∧
      (∀ now, c.notary.OpenAt now u.timeWindow →
        c.notary.process now (serve i cs).2 c.submission c.requester =
          (some (.signed r), (serve i cs).2)) ∧
      ∀ s v now requester, c.notary.Takes s v → v.id = u.id → v.inputs ⊆ u.inputs →
        c.notary.OpenAt now v.timeWindow → s.request.SignedBy requester →
        c.notary.process now (serve i cs).2 s requester = (some (.signed r), (serve i cs).2) := by
  obtain ⟨u, ha, rfl, hsettled⟩ := settled_of_signed hr hc
  obtain ⟨ht, -, hs⟩ := Notary.accept_iff.1 ha
  refine ⟨u, ht, fun now ho => Notary.process_of_settled ht ho hs hsettled, ?_⟩
  intro s v now requester htv hid hsub hov hsv
  rw [← hid]
  exact Notary.process_of_settled htv hov hsv fun x hx => hid ▸ hsettled x (hsub hx)

theorem signed_again_soleCall : ∃ r u,
    (serve (.durable .empty) [soleCall]).1[0]? = some (some (.signed r)) ∧
      soleCall.notary.Takes soleCall.submission u ∧ ∀ now, soleCall.notary.OpenAt now u.timeWindow →
        soleCall.notary.process now (serve (.durable .empty) [soleCall]).2 soleCall.submission
          soleCall.requester = (some (.signed r), (serve (.durable .empty) [soleCall]).2) := by
  obtain ⟨r, hr⟩ := Reply.exists_of_isOk serveOne_soleCall.1
  have hs : (serve (.durable .empty) [soleCall]).1[0]? = some (some (.signed r)) := by
    rw [serve_cons_fst, hr]
    rfl
  obtain ⟨u, ht, hagain, -⟩ := signed_again (c := soleCall) hs rfl
  exact ⟨r, u, hs, ht, hagain⟩

end Call

end LedgerNotary
