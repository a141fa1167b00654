import LedgerNotary.Proofs.Curve
import LedgerNotary.Proofs.Key.Fulfilment
import LedgerNotary.Proofs.Notary.Provenance
import LedgerNotary.Proofs.Wire.Messages
import Mathlib.Data.Finset.Card

/-! How many points stand behind a response that a threshold key accepts.

Children are told apart by their bytes and signatures are checked under points. So a point counts
twice when the key lists it in the compact form beside the form with an even tag, and once
otherwise. -/

namespace LedgerNotary

open Outcome

namespace Key

theorem map_single_leavesOfChildren {cs : List Child} (hc : ∀ c ∈ cs, ∃ a, c = (.single a, 1)) :
    (leavesOfChildren cs).map .single = cs.map Prod.fst := by
  induction cs with
  | nil => rfl
  | cons c cs ih =>
    obtain ⟨⟨a, rfl⟩, hcs⟩ := List.forall_mem_cons.1 hc
    rw [leavesOfChildren, List.map_append, ih hcs]
    rfl

theorem totalWeight_filter_eq {cs : List Child} (hc : ∀ c ∈ cs, ∃ a, c = (.single a, 1))
    (keys : List Key) : totalWeight (cs.filter fun c => c.1.fulfilledBy keys) =
      ((leavesOfChildren cs).filter fun a => .single a ∈ keys).length := by
  induction cs with
  | nil => rfl
  | cons c cs ih =>
    obtain ⟨⟨a, rfl⟩, hcs⟩ := List.forall_mem_cons.1 hc
    have hrest := ih hcs
    rw [leavesOfChildren, leaves, List.singleton_append, List.filter_cons, List.filter_cons]
    by_cases ha : Key.single a ∈ keys
    · rw [if_pos (fulfilledBy_single.2 ha), if_pos (decide_eq_true ha), totalWeight, hrest,
        List.length_cons, Nat.add_comm]
      rfl
    · rw [if_neg (fun h => ha (fulfilledBy_single.1 h)), if_neg (fun h => ha (of_decide_eq_true h)),
        hrest]

end Key

namespace PointCode

variable {codes : Finset PointCode}

theorem verify_eq_ok {a : PointCode} {message : Bytes} {signature : Signature} :
    a.verify message signature = .ok () ↔
      ∃ q, a.point? = some q ∧ Curve.verify q message signature.bytes = true := by
  unfold verify point?
  cases Curve.Point.parse? a.octets.bytes with
  | none => simp
  | some q => simp

def points (codes : Finset PointCode) : Finset Curve.Point := codes.biUnion (·.point?.toFinset)

theorem mem_points {q : Curve.Point} : q ∈ points codes ↔ ∃ a ∈ codes, a.point? = some q := by
  simp [points]

/-- The compact codes that stand beside the other code of their point. -/
def twins (codes : Finset PointCode) : Finset PointCode :=
  codes.filter fun a => a.IsCompact ∧ a.evenForm ∈ codes

theorem mem_twins {a : PointCode} :
    a ∈ twins codes ↔ a ∈ codes ∧ a.IsCompact ∧ a.evenForm ∈ codes := by
  simp [twins]

theorem card_sdiff_twins (h : ∀ a ∈ codes, ∃ q, a.point? = some q) :
    (codes \ twins codes).card = (points codes).card := by
  have only : ∀ {a b : PointCode}, a ∈ codes \ twins codes → b ∈ codes →
      ¬ (a.IsCompact ∧ a.evenForm = b) := by
    rintro a b ha hb ⟨hca, rfl⟩
    rw [Finset.mem_sdiff] at ha
    exact ha.2 (mem_twins.2 ⟨ha.1, hca, hb⟩)
  refine Finset.card_bij (fun a _ => a.point?.getD Curve.base) ?_ ?_ ?_
  · intro a ha
    obtain ⟨q, hq⟩ := h a (Finset.sdiff_subset ha)
    exact mem_points.2 ⟨a, Finset.sdiff_subset ha, by simp [hq]⟩
  -- of two codes of one point, the compact one would be a twin
  · intro a ha b hb hab
    obtain ⟨q, hq⟩ := h a (Finset.sdiff_subset ha)
    obtain ⟨q', hq'⟩ := h b (Finset.sdiff_subset hb)
    obtain rfl : q = q' := by simpa [hq, hq'] using hab
    rcases eq_or_evenForm_eq hq hq' with he | he | he
    · exact he
    · exact absurd he (only ha (Finset.sdiff_subset hb))
    · exact absurd he (only hb (Finset.sdiff_subset ha))
  -- the point of a twin is that of its even form, which is not compact
  · intro q hq
    obtain ⟨a, ha, hqa⟩ := mem_points.1 hq
    by_cases ht : a ∈ twins codes
    · obtain ⟨-, hca, he⟩ := mem_twins.1 ht
      have hn : a.evenForm ∉ twins codes := fun hm =>
        a.not_isCompact_evenForm (mem_twins.1 hm).2.1
      exact ⟨a.evenForm, Finset.mem_sdiff.2 ⟨he, hn⟩, by simp [point?_evenForm hca, hqa]⟩
    · exact ⟨a, Finset.mem_sdiff.2 ⟨ha, ht⟩, by simp [hqa]⟩

theorem card_eq (h : ∀ a ∈ codes, ∃ q, a.point? = some q) :
    codes.card = (points codes).card + (twins codes).card := by
  rw [← card_sdiff_twins h]
  exact (Finset.card_sdiff_add_card_eq_card (Finset.filter_subset _ _)).symm

end PointCode

open PointCode

/-- A signature is accepted if a single key is said to have made it and it holds under the point of
that key. -/
theorem Endorsement.verify_eq_ok {e : Endorsement} {message : Bytes} :
    e.verify message = .ok () ↔ ∃ a q, e.signer = .single a ∧ a.point? = some q ∧
      Curve.verify q message e.signature.bytes = true := by
  unfold verify
  cases e.signer with
  | single a => simp [Key.verify, PointCode.verify_eq_ok]
  | composite s ds => simp [Key.verify]

namespace Response

/-- The codes among a threshold key's children under which a response is signed. -/
def signedCodes (r : Response) (cs : List Key.Child) : Finset PointCode :=
  ((Key.leavesOfChildren cs).filter fun a => .single a ∈ r.signers).toFinset

variable {r : Response} {txId : Digest} {notary : Party} {t : UInt32} {cs : List Key.Child}

theorem validate_eq_ok : r.validate txId notary = .ok () ↔
    notary.key.fulfilledBy r.signers = true ∧
      ∀ e ∈ r.signatures, e.verify txId.bytes = .ok () := by
  rw [validate, ite_else_error_eq_ok, forM_eq_ok]

theorem of_mem_signedCodes {a : PointCode} (h : a ∈ r.signedCodes cs) :
    ∃ e ∈ r.signatures, e.signer = .single a := by
  rw [signedCodes, List.mem_toFinset, List.mem_filter, decide_eq_true_iff] at h
  exact List.mem_map.1 h.2

theorem card_signedCodes (hc : ∀ c ∈ cs, ∃ a, c = (.single a, 1)) (hn : (cs.map Prod.fst).Nodup) :
    (r.signedCodes cs).card =
      Key.totalWeight (cs.filter fun c => c.1.fulfilledBy r.signers) := by
  have hleaves : (Key.leavesOfChildren cs).Nodup := by
    rw [← Key.map_single_leavesOfChildren hc] at hn
    exact hn.of_map _
  rw [signedCodes, Key.totalWeight_filter_eq hc, List.toFinset_card_of_nodup (hleaves.filter _)]

/-- A response is accepted for a threshold key over single keys of weight one only if as many of
them as the threshold signed it. Of their points each counts once, but for those listed in the
compact form and with an even tag, which count twice. -/
theorem threshold_le_signedCodes (hk : notary.key = .composite t cs)
    (hc : ∀ c ∈ cs, ∃ a, c = (.single a, 1)) (h : r.validate txId notary = .ok ()) :
    (∀ e ∈ r.signatures, ∃ a q, e.signer = .single a ∧ a.point? = some q ∧
      Curve.verify q txId.bytes e.signature.bytes = true) ∧
    t.toNat ≤ (r.signedCodes cs).card ∧
    (r.signedCodes cs).card =
      (points (r.signedCodes cs)).card + (twins (r.signedCodes cs)).card ∧
    ((∀ a ∈ r.signedCodes cs, ¬ a.IsCompact) →
      t.toNat ≤ (points (r.signedCodes cs)).card) := by
  obtain ⟨hf, hv⟩ := validate_eq_ok.1 h
  obtain ⟨hcheck, ht⟩ := Key.fulfilledBy_composite.1 (hk ▸ hf)
  obtain ⟨-, -, hl, -⟩ := Key.checkBelow_composite_eq_ok.1 hcheck
  obtain ⟨-, -, -, hn, -⟩ := Key.checkLevel_eq_ok.1 hl
  have hle : t.toNat ≤ (r.signedCodes cs).card := by rwa [card_signedCodes hc hn]
  have hpoint : ∀ a ∈ r.signedCodes cs, ∃ q, a.point? = some q := by
    intro a ha
    obtain ⟨e, he, hs⟩ := of_mem_signedCodes ha
    obtain ⟨b, q, hb, hq, -⟩ := Endorsement.verify_eq_ok.1 (hv e he)
    obtain rfl := Key.single.inj (hs.symm.trans hb)
    exact ⟨q, hq⟩
  refine ⟨fun e he => Endorsement.verify_eq_ok.1 (hv e he), hle, card_eq hpoint, fun hcompact => ?_⟩
  have hnone : twins (r.signedCodes cs) = ∅ :=
    Finset.filter_eq_empty_iff.2 fun a ha hac => hcompact a ha hac.1
  rw [card_eq hpoint, hnone, Finset.card_empty] at hle
  exact hle

def baseCode : PointCode := ⟨Curve.base.compressed⟩

def compactBaseCode : PointCode := ⟨⟨5 :: Bytes.ofNatBE 32 Curve.base.x, by simp⟩⟩

/-- Two of two, both of which are the base point. -/
def doubledKey : Key := .composite 2 [(.single baseCode, 1), (.single compactBaseCode, 1)]

/-- Signed with the number one for a secret, for either of the two keys. -/
def signedTwice : Response :=
  let signature := Call.soleKey.signRaw (Octets.zero 32).bytes
  ⟨[⟨.single baseCode, signature⟩, ⟨.single compactBaseCode, signature⟩]⟩

set_option maxRecDepth 100000 in
theorem validate_signedTwice : signedTwice.validate (.zero 32) ⟨"N", doubledKey⟩ = .ok () := by
  decide +kernel

theorem threshold_le_signedCodes_signedTwice :
    (∀ c ∈ [(Key.single baseCode, (1 : UInt32)), (.single compactBaseCode, 1)],
      ∃ a, c = (.single a, 1)) ∧
    signedTwice.validate (.zero 32) ⟨"N", doubledKey⟩ = .ok () ∧
    2 ≤ (signedTwice.signedCodes [(.single baseCode, 1), (.single compactBaseCode, 1)]).card := by
  have hc : ∀ c ∈ [(Key.single baseCode, (1 : UInt32)), (.single compactBaseCode, 1)],
      ∃ a, c = (.single a, 1) := by
    simp
  obtain ⟨-, hle, -⟩ := threshold_le_signedCodes rfl hc validate_signedTwice
  exact ⟨hc, validate_signedTwice, hle⟩

/-- One secret meets a threshold of two: both keys are accepted beside each other, and both
signatures are checked under the same point. -/
theorem signedTwice_under_one_point :
    Key.ofKeys 2 [.single baseCode, .single compactBaseCode] = .ok doubledKey ∧
    Wire.read (Wire.pack doubledKey) = .ok doubledKey ∧
    signedTwice.validate (.zero 32) ⟨"N", doubledKey⟩ = .ok () ∧
    ∀ e ∈ signedTwice.signatures,
      ∃ a, e.signer = .single a ∧ a.point? = some Curve.base := by
  have hbase : baseCode.point? = some Curve.base := by decide +kernel
  have hcompact : compactBaseCode.point? = some Curve.base := by decide +kernel
  refine ⟨by decide +kernel, by decide +kernel, validate_signedTwice, ?_⟩
  simp [signedTwice, hbase, hcompact]

end Response

/-! The signatures of a notary suffice for its identity.

That its keys stand for the identity is checked once, when the notary is set up. A response is
signed with all of them, so its signers do too, in whatever order they are listed; and whoever the
response is sent to reads the same signatures. -/

open Outcome Wire

/-- The signature that a key pair makes on a message is verified under the pair's own key. -/
def KeyPair.Signs (k : KeyPair) (message : Bytes) : Prop :=
  (k.sign message).verify message = .ok ()

instance (k : KeyPair) (message : Bytes) : Decidable (k.Signs message) :=
  inferInstanceAs (Decidable ((k.sign message).verify message = .ok ()))

theorem KeyPair.fits_sign (k : KeyPair) (message : Bytes) : Fits (k.sign message) := by
  have hsigner : Fits k.publicKey := Key.Built.single k.code
  have hlength : (k.signRaw message).bytes.length < UInt32.size := by
    change (Curve.sign k.secret message).bytes.length < UInt32.size
    rw [(Curve.sign k.secret message).length_eq]
    decide
  exact ⟨hsigner, fits_bytes.2 hlength⟩

namespace Notary

variable {n : Notary} {txId : Digest}

theorem ofKeys_eq_ok {identity : Party} {keys : List KeyPair} {settings : Settings} :
    ofKeys identity keys settings = .ok n ↔
      n.identity = identity ∧ n.keys = keys ∧ n.settings = settings := by
  unfold ofKeys
  constructor
  · intro h
    split at h
    · cases h
      exact ⟨rfl, rfl, rfl⟩
    · cases h
  · rintro ⟨rfl, rfl, rfl⟩
    rw [dif_pos n.fulfilled]

theorem signers_sign (n : Notary) (txId : Digest) :
    (n.sign txId).signers = n.keys.map (·.publicKey) := by
  rw [Response.signers, sign, List.map_map]
  rfl

theorem fulfilledBy_of_perm {r : Response} (h : r.signatures.Perm (n.sign txId).signatures) :
    n.identity.key.fulfilledBy r.signers = true := by
  rw [← n.fulfilled, ← n.signers_sign txId]
  exact Key.fulfilledBy_congr fun _ _ => (h.map (·.signer)).mem_iff

theorem validate_of_perm {r : Response} (hk : ∀ k ∈ n.keys, k.Signs txId.bytes)
    (h : r.signatures.Perm (n.sign txId).signatures) : r.validate txId n.identity = .ok () := by
  refine Response.validate_eq_ok.2 ⟨fulfilledBy_of_perm h, fun e he => ?_⟩
  obtain ⟨k, hm, rfl⟩ := List.mem_map.1 (h.mem_iff.1 he)
  exact hk k hm

theorem fits_of_perm {r : Response} (hl : n.keys.length < UInt32.size)
    (h : r.signatures.Perm (n.sign txId).signatures) : Fits r := by
  have hlength : r.signatures.length = n.keys.length := by
    rw [h.length_eq, sign, List.length_map]
  refine ⟨hlength ▸ hl, fun e he => ?_⟩
  obtain ⟨k, -, rfl⟩ := List.mem_map.1 (h.mem_iff.1 he)
  exact k.fits_sign txId.bytes

end Notary

namespace Call

variable {i : Index} {cs : List Call} {c : Call}

theorem eq_sign_of_signed {m : Nat} {r : Response} (hc : cs[m]? = some c)
    (hr : (serve i cs).1[m]? = some (some (.signed r))) :
    r = c.notary.sign c.submission.request.request.txId := by
  obtain ⟨u, ha, hsign, -⟩ := exists_of_signed hr hc
  obtain ⟨-, hm, -⟩ := Notary.accept_eq_ok.1 ha
  obtain ⟨-, hid, -⟩ := Notary.checkMatches_eq_ok.1 hm
  rw [hid, hsign]

/-- Every response of a notary is accepted for the identity with which the notary was set up,
whatever calls there were before it. It is so in any order of its signatures, and what is read from
the encoding of the reply is the reply. -/
theorem signed_validates {identity : Party} {keys : List KeyPair} {settings : Settings}
    (hn : Notary.ofKeys identity keys settings = .ok c.notary) {m : Nat} {r : Response}
    (hc : cs[m]? = some c) (hr : (serve i cs).1[m]? = some (some (.signed r)))
    (hk : ∀ k ∈ keys, k.Signs c.submission.request.request.txId.bytes) :
    ∀ s : Response, s.signatures.Perm r.signatures →
      s.validate c.submission.request.request.txId identity = .ok () ∧
      (keys.length < UInt32.size → RoundTrips (Reply.signed s)) := by
  intro s hs
  obtain ⟨rfl, rfl, -⟩ := Notary.ofKeys_eq_ok.1 hn
  rw [eq_sign_of_signed hc hr] at hs
  refine ⟨Notary.validate_of_perm hk hs, fun hl => ?_⟩
  have hf : Fits (Reply.signed s) := Notary.fits_of_perm hl hs
  exact roundTrips hf

set_option maxRecDepth 100000 in
theorem soleKey_signs : soleKey.Signs oneInput.id.bytes := by decide +kernel

theorem signed_validates_soleCall : ∃ r,
    Notary.ofKeys soleParty [soleKey] ⟨.nonValidating, 1, none⟩ = .ok soleCall.notary ∧
      (serve (.durable .empty) [soleCall]).1[0]? = some (some (.signed r)) ∧
      soleKey.Signs oneInput.id.bytes ∧ r.validate oneInput.id soleParty = .ok () ∧
      RoundTrips (Reply.signed r) := by
  have hn : Notary.ofKeys soleParty [soleKey] ⟨.nonValidating, 1, none⟩ = .ok soleCall.notary :=
    Notary.ofKeys_eq_ok.2 ⟨rfl, rfl, rfl⟩
  obtain ⟨r, hr⟩ := Reply.exists_of_isOk serveOne_soleCall.1
  have hs : (serve (.durable .empty) [soleCall]).1[0]? = some (some (.signed r)) := by
    rw [serve_cons_fst, hr]
    rfl
  have hk : ∀ k ∈ [soleKey], k.Signs oneInput.id.bytes := by simpa using soleKey_signs
  obtain ⟨hv, hread⟩ := signed_validates (c := soleCall) hn rfl hs hk r (.refl _)
  exact ⟨r, hn, hs, soleKey_signs, hv, hread (by decide)⟩

end Call

end LedgerNotary
