import LedgerNotary.Message
import LedgerNotary.Proofs.Key.Canonical
import LedgerNotary.Proofs.TearOff.Genuine

/-! What is sent between a requester and a notary, and what is stored in a transaction, has one
encoding.

A record is known by its fields, a variant by its tag. Two readers check what they have read: that
of salts refuses zeros, that of transactions a layout that no transaction has. Replies are read back
as they were sent; a conflict in one is read from its entries in any order, so more than one byte
string may be read as the same reply. -/

namespace LedgerNotary

open Outcome Wire

section Records

instance : Fields Instant Int64 where
  toFields := Instant.millis
  ofFields := Instant.mk

instance : Fields TimeWindow (Option Instant × Option Instant) where
  toFields w := (w.fromTime, w.untilTime)
  ofFields := fun (a, b) => ⟨a, b⟩

instance : Fields OutputState (String × Bytes) where
  toFields o := (o.contract, o.data)
  ofFields := fun (contract, data) => ⟨contract, data⟩

instance : Fields Command (Bytes × List Key) where
  toFields c := (c.value, c.signers)
  ofFields := fun (value, signers) => ⟨value, signers⟩

instance : Fields Group (List Bytes) where
  toFields := Group.components
  ofFields := Group.mk

instance : Fields RevealedGroup (UInt32 × RevealedContent) where
  toFields g := (g.index, g.content)
  ofFields := fun (index, content) => ⟨index, content⟩

instance : Fields TearOff (Digest × List Digest × List RevealedGroup) where
  toFields f := (f.id, f.roots, f.groups)
  ofFields := fun (id, roots, groups) => ⟨id, roots, groups⟩

instance : Fields Signature Bytes where
  toFields := Signature.bytes
  ofFields := Signature.mk

instance : Fields Endorsement (Key × Signature) where
  toFields e := (e.signer, e.signature)
  ofFields := fun (signer, signature) => ⟨signer, signature⟩

instance : Fields Request (List StateRef × Digest) where
  toFields r := (r.states, r.txId)
  ofFields := fun (states, txId) => ⟨states, txId⟩

instance : Fields RequestSignature (Endorsement × UInt32) where
  toFields s := (s.endorsement, s.platformVersion)
  ofFields := fun (endorsement, platformVersion) => ⟨endorsement, platformVersion⟩

instance : Fields SignedRequest (Request × RequestSignature) where
  toFields s := (s.request, s.signature)
  ofFields := fun (request, signature) => ⟨request, signature⟩

instance : Fields Submission (Evidence × SignedRequest) where
  toFields s := (s.evidence, s.request)
  ofFields := fun (evidence, request) => ⟨evidence, request⟩

instance : Fields Response (List Endorsement) where
  toFields := Response.signatures
  ofFields := Response.mk

instance : Fields Profile (List String × List Party × UInt32 × UInt64) where
  toFields p := (p.addresses, p.identities, p.platformVersion, p.serial)
  ofFields := fun (addresses, identities, platformVersion, serial) =>
    ⟨addresses, identities, platformVersion, serial⟩

instance : Fields SignedProfile (Bytes × List Signature) where
  toFields p := (p.raw, p.signatures)
  ofFields := fun (raw, signatures) => ⟨raw, signatures⟩

theorem TimeWindow.fits (w : TimeWindow) : Fits w := ⟨fun _ _ => trivial, fun _ _ => trivial⟩

theorem Request.fits {r : Request} (h : r.states.length < UInt32.size) : Fits r :=
  ⟨⟨h, fun x _ => x.fits⟩, r.txId.fits⟩

end Records

section Transactions

instance : Bounded Salt where
  Fits salt := salt.octets.isZero = false
  sized_of_fits _ := rfl
  readsBack {salt} h s := by
    change (decode (pack salt.octets ++ s) >>= _) = _
    rw [(readsBack_octets salt.octets).bind]
    simp only [h]
    rfl

instance : Exact Salt where
  of_decode {s salt rest} h := by
    obtain ⟨⟨a, t⟩, ha, h⟩ := bind_eq_ok.1 h
    obtain ⟨hz, h⟩ := ite_error_eq_ok.1 h
    cases h
    obtain ⟨-, rfl⟩ := Exact.of_decode ha
    have hf : a.isZero = false := by simpa using hz
    exact ⟨hf, rfl⟩

theorem Transaction.ofGroups_eq_ok {groups : List Group} {salt : Salt} {t : Transaction} :
    ofGroups groups salt = .ok t ↔ t.groups = groups ∧ t.salt = salt := by
  unfold ofGroups
  constructor
  · intro h
    split at h
    · cases h
      exact ⟨rfl, rfl⟩
    · cases h
  · rintro ⟨rfl, rfl⟩
    split
    · rfl
    · next defect h =>
      rw [t.laidOut] at h
      cases h

/-- The layout rules out a salt of zeros, so only lengths are left to be bounded. -/
theorem Transaction.fits_salt (t : Transaction) : Fits t.salt := by
  obtain ⟨-, -, -, hz⟩ := checkLayout_eq_ok.1 t.laidOut
  exact hz

instance : Bounded Transaction where
  Fits t := Fits t.groups
  sized_of_fits {t} h := by
    change sized t.groups = true
    exact sized_of_fits h
  readsBack {t} h s := by
    have ht : Transaction.ofGroups t.groups t.salt = .ok t :=
      Transaction.ofGroups_eq_ok.2 ⟨rfl, rfl⟩
    change (decode ((pack t.groups ++ pack t.salt) ++ s) >>= _) = _
    rw [List.append_assoc, (Bounded.readsBack h).bind]
    change (decode (pack t.salt ++ s) >>= _) = _
    rw [(Bounded.readsBack t.fits_salt).bind]
    change (match Transaction.ofGroups t.groups t.salt with
      | .ok t => Except.ok (t, s)
      | .error defect => .error (Fault.badLayout defect)) = _
    rw [ht]

instance : Exact Transaction where
  of_decode {s t rest} h := by
    obtain ⟨⟨groups, s₁⟩, hg, h₁⟩ := bind_eq_ok.1 h
    obtain ⟨⟨salt, s₂⟩, hs, h₂⟩ := bind_eq_ok.1 h₁
    obtain ⟨hf, rfl⟩ := Exact.of_decode hg
    obtain ⟨-, rfl⟩ := Exact.of_decode hs
    cases ht : Transaction.ofGroups groups salt with
    | error defect =>
      simp only [ht] at h₂
      cases h₂
    | ok u =>
      simp only [ht] at h₂
      cases h₂
      obtain ⟨rfl, rfl⟩ := Transaction.ofGroups_eq_ok.1 ht
      refine ⟨hf, ?_⟩
      change _ = (pack t.groups ++ pack t.salt) ++ rest
      rw [List.append_assoc]

end Transactions

section Variants

variable {α β γ : Type} {s rest : Bytes}

theorem Wire.of_decodeEither [Wire β] [Wire γ] [Bounded β] [Bounded γ] [Exact β] [Exact γ]
    {left : β → α} {right : γ → α} {a : α}
    (h : decodeVariant (fun tag s =>
      if tag = 0 then decodeAs left s
      else if tag = 1 then decodeAs right s
      else .error (.badVariant tag)) s = .ok (a, rest)) :
    (∃ b, a = left b ∧ Fits b ∧ s = 0 :: (pack b ++ rest)) ∨
      ∃ c, a = right c ∧ Fits c ∧ s = 1 :: (pack c ++ rest) := by
  obtain ⟨tag, t, rfl, ht⟩ := of_decodeVariant h
  by_cases h0 : tag = 0
  · rw [if_pos h0] at ht
    obtain ⟨b, ha, hb, rfl⟩ := of_decodeAs ht
    exact Or.inl ⟨b, ha, hb, by rw [h0]⟩
  · rw [if_neg h0, ite_else_error_eq_ok] at ht
    obtain ⟨c, ha, hc, rfl⟩ := of_decodeAs ht.2
    exact Or.inr ⟨c, ha, hc, by rw [ht.1]⟩

instance : Bounded RevealedContent where
  Fits
    | .components cs nonces => Fits (cs, nonces)
    | .empty nonce => Fits nonce
  sized_of_fits {c} h := by
    cases c with
    | components cs nonces => exact sized_of_fits (α := List Bytes × List Digest) h
    | empty nonce => rfl
  readsBack {c} h := by
    cases c with
    | components cs nonces =>
      have hp : Fits (cs, nonces) := h
      exact (Bounded.readsBack hp).alternative
        (fun (cs, nonces) => RevealedContent.components cs nonces) rfl fun _ => rfl
    | empty nonce =>
      exact (readsBack_octets nonce).alternative RevealedContent.empty rfl fun _ => rfl

instance : Exact RevealedContent where
  of_decode h := by
    rcases of_decodeEither h with ⟨p, rfl, hf, rfl⟩ | ⟨nonce, rfl, hf, rfl⟩
    · exact ⟨hf, rfl⟩
    · exact ⟨hf, rfl⟩

instance : Bounded Evidence where
  Fits
    | .whole tx => Fits tx
    | .tornOff f => Fits f
  sized_of_fits {e} h := by
    cases e with
    | whole tx => exact sized_of_fits (α := Transaction) h
    | tornOff f => exact sized_of_fits (α := TearOff) h
  readsBack {e} h := by
    cases e with
    | whole tx =>
      have ht : Fits tx := h
      exact (Bounded.readsBack ht).alternative Evidence.whole rfl fun _ => rfl
    | tornOff f =>
      have hf : Fits f := h
      exact (Bounded.readsBack hf).alternative Evidence.tornOff rfl fun _ => rfl

instance : Exact Evidence where
  of_decode h := by
    rcases of_decodeEither h with ⟨tx, rfl, hf, rfl⟩ | ⟨f, rfl, hf, rfl⟩
    · exact ⟨hf, rfl⟩
    · exact ⟨hf, rfl⟩

/-- Entries are written in ascending order, in which they are put together to the same map. -/
instance : Bounded Conflict where
  Fits c := Fits c.history.entries
  sized_of_fits h := sized_of_fits (α := List (StateRef × Consumption)) h
  readsBack {c} h s := by
    have hc : Conflict.ofEntries c.history.entries = c := by
      rw [Conflict.ofEntries, SortedMap.ofList_entries]
    have hd := decodeAs_pack (Bounded.readsBack h) Conflict.ofEntries s
    rw [hc] at hd
    exact hd

instance : Bounded Refusal where
  Fits
    | .conflict txId contested => Fits (txId, contested)
    | .outsideWindow now window => Fits (now, window)
    | .invalidTransaction reason => Fits reason
    | .invalidRequestSignature reason => Fits reason
    | .failure reason => Fits reason
  sized_of_fits {e} h := by
    cases e with
    | conflict txId contested => exact sized_of_fits (α := Digest × Conflict) h
    | outsideWindow now window => exact sized_of_fits (α := Instant × TimeWindow) h
    | invalidTransaction reason => exact sized_of_fits (α := String) h
    | invalidRequestSignature reason => exact sized_of_fits (α := String) h
    | failure reason => exact sized_of_fits (α := String) h
  readsBack {e} h := by
    cases e with
    | conflict txId contested =>
      have hp : Fits (txId, contested) := h
      exact (Bounded.readsBack hp).alternative
        (fun (txId, contested) => Refusal.conflict txId contested) rfl fun _ => rfl
    | outsideWindow now window =>
      have hp : Fits (now, window) := h
      exact (Bounded.readsBack hp).alternative
        (fun (now, window) => Refusal.outsideWindow now window) rfl fun _ => rfl
    | invalidTransaction reason =>
      have hr : Fits reason := h
      exact (Bounded.readsBack hr).alternative Refusal.invalidTransaction rfl fun _ => rfl
    | invalidRequestSignature reason =>
      have hr : Fits reason := h
      exact (Bounded.readsBack hr).alternative Refusal.invalidRequestSignature rfl fun _ => rfl
    | failure reason =>
      have hr : Fits reason := h
      exact (Bounded.readsBack hr).alternative Refusal.failure rfl fun _ => rfl

instance : Bounded Reply where
  Fits
    | .signed r => Fits r
    | .rejected e => Fits e
  sized_of_fits {r} h := by
    cases r with
    | signed r => exact sized_of_fits (α := Response) h
    | rejected e => exact sized_of_fits (α := Refusal) h
  readsBack {r} h := by
    cases r with
    | signed r =>
      have hr : Fits r := h
      exact (Bounded.readsBack hr).alternative Reply.signed rfl fun _ => rfl
    | rejected e =>
      have he : Fits e := h
      exact (Bounded.readsBack he).alternative Reply.rejected rfl fun _ => rfl

end Variants

namespace Wire

/-- Every value of lengths below four bytes, keys that can be built and salts that are not zero is
read back from its encoding. -/
def Lossless (α : Type) [Wire α] [Bounded α] : Prop :=
  ∀ a : α, Fits a → RoundTrips a

/-- A byte string that is read as a value is the encoding of that value, and the only one that is
read as it. -/
def OneForm (α : Type) [Wire α] : Prop :=
  ∀ (s : Bytes) (a : α), read s = .ok a → encode a = .ok s ∧ ∀ s', read s' = .ok a → s' = s

variable {α : Type} [Wire α] [Bounded α]

theorem lossless : Lossless α := fun _ => roundTrips

theorem oneForm [Exact α] : OneForm α := by
  intro s a h
  obtain ⟨hf, rfl⟩ := read_eq_ok_iff.1 h
  exact ⟨encode_eq hf, fun s' h' => (read_eq_ok_iff.1 h').2⟩

/-- Groups in a layout that is checked are few enough and short enough; what is left to be bounded
is the length of each component. -/
theorem fits_groups {groups : List Group} (h : Group.checkShape groups = .ok ()) :
    Fits groups ↔ ∀ g ∈ groups, ∀ c ∈ g.components, c.length < UInt32.size := by
  obtain ⟨-, hl, hc⟩ := Group.checkShape_eq_ok.1 h
  constructor
  · intro hf g hg c hm
    exact fits_bytes.1 ((hf.2 g hg).2 c hm)
  · intro hb
    exact ⟨hl, fun g hg => ⟨hc g hg, fun c hm => fits_bytes.2 (hb g hg c hm)⟩⟩

/-- What the groups of a transaction are encoded as, with its salt: they fit, being laid out. -/
theorem encode_groups_eq_ok {t : Transaction} {s : Bytes} :
    encode (t.groups, t.salt) = .ok s ↔
      (∀ g ∈ t.groups, ∀ c ∈ g.components, c.length < UInt32.size) ∧
        s = pack (t.groups, t.salt) := by
  rw [encode_eq_ok]
  refine and_congr_left fun _ => ⟨fun h g hg c hc => ?_, fun h => ?_⟩
  · have hgroups : sized t.groups = true := (Bool.and_eq_true_iff.1 h).1
    have hcs := List.all_eq_true.1 (Bool.and_eq_true_iff.1 hgroups).2 g hg
    have hbytes : sized c = true :=
      List.all_eq_true.1 (Bool.and_eq_true_iff.1 (show sized g.components = true from hcs)).2 c hc
    exact of_decide_eq_true (Bool.and_eq_true_iff.1 hbytes).1
  · have hf : Fits (t.groups, t.salt) := ⟨(fits_groups t.checked.1).2 h, t.fits_salt⟩
    exact sized_of_fits hf

/-- The messages are read back as they were written. What is read of a message to the notary, of a
profile or of a part of a transaction has one form; and the forms of transactions are the encodings
of the groups and salts that make one. -/
theorem lossless_one_form :
    (Lossless Submission ∧ Lossless Reply ∧ Lossless Profile ∧ Lossless SignedProfile) ∧
    (OneForm Submission ∧ OneForm Transaction ∧ OneForm TearOff ∧ OneForm SignedRequest ∧
      OneForm Profile ∧ OneForm SignedProfile) ∧
    (OneForm StateRef ∧ OneForm OutputState ∧ OneForm Command ∧ OneForm Digest ∧ OneForm Party ∧
      OneForm TimeWindow) ∧
    ∀ (s : Bytes) (t : Transaction), read s = .ok t ↔
      ∃ groups salt, Transaction.ofGroups groups salt = .ok t ∧ encode (groups, salt) = .ok s := by
  refine ⟨⟨lossless, lossless, lossless, lossless⟩,
    ⟨oneForm, oneForm, oneForm, oneForm, oneForm, oneForm⟩,
    ⟨oneForm, oneForm, oneForm, oneForm, oneForm, oneForm⟩, fun s t => ?_⟩
  rw [read_eq_ok_iff]
  constructor
  · rintro ⟨hf, rfl⟩
    exact ⟨t.groups, t.salt, Transaction.ofGroups_eq_ok.2 ⟨rfl, rfl⟩,
      encode_groups_eq_ok.2 ⟨(fits_groups t.checked.1).1 hf, rfl⟩⟩
  · rintro ⟨groups, salt, ht, hs⟩
    obtain ⟨rfl, rfl⟩ := Transaction.ofGroups_eq_ok.1 ht
    obtain ⟨hc, rfl⟩ := encode_groups_eq_ok.1 hs
    exact ⟨(fits_groups t.checked.1).2 hc, rfl⟩

theorem lossless_one_form_sample :
    let m : Submission := ⟨.whole .sample, ⟨⟨[], .zero 32⟩, ⟨⟨.single ⟨.zero 33⟩, ⟨[]⟩⟩, 1⟩⟩⟩
    Fits m ∧ (∃ s, encode m = .ok s ∧ read s = .ok m ∧ ∀ s', read s' = .ok m → s' = s) ∧
      ∃ s, encode (Transaction.sample.groups, Transaction.sample.salt) = .ok s ∧
        read s = .ok Transaction.sample := by
  intro m
  obtain ⟨⟨hread, -⟩, ⟨hform, -⟩, -, htx⟩ := lossless_one_form
  have hg : ∀ g ∈ Transaction.sample.groups, ∀ c ∈ g.components, c.length < UInt32.size := by
    decide
  have hf : Fits m := by
    have htx : Fits Transaction.sample := (fits_groups Transaction.sample.checked.1).2 hg
    have hsigner : Fits (Key.single ⟨.zero 33⟩) := Key.Built.single _
    exact ⟨htx, ⟨⟨by decide, nofun⟩, trivial⟩, ⟨hsigner, fits_bytes.2 (by decide)⟩, trivial⟩
  obtain ⟨s, he, hs⟩ := hread m hf
  have hsample := encode_groups_eq_ok.2 ⟨hg, rfl⟩
  exact ⟨hf, ⟨s, he, hs, (hform s m hs).2⟩, _, hsample,
    (htx _ _).2 ⟨_, _, Transaction.ofGroups_eq_ok.2 ⟨rfl, rfl⟩, hsample⟩⟩

end Wire

end LedgerNotary
