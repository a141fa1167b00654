import LedgerNotary.Proofs.Profile

/-! What is signed says one thing.

The same keys sign identifiers of transactions, requests and profiles, and only a request is tagged.
The three are told apart all the same: an identifier is shorter than the others, and read as a
number, the front of the tag is more than the addresses of any profile can come to. -/

namespace LedgerNotary

open Outcome Wire

/-- What a signature is made for: that a notary accepts a transaction, that its sender asks for a
request, or that a node has a profile. -/
inductive Signable
  | acceptance (txId : Digest)
  | request (r : Request)
  | profile (p : Profile)

namespace Signable

def bytes : Signable → Except ValueFault Bytes
  | .acceptance txId => .ok txId.bytes
  | .request r => r.signingBytes
  | .profile p => (encode p).mapError .malformed

def message : Signable → Bytes
  | .acceptance txId => txId.bytes
  | .request r => Request.framed (pack r)
  | .profile p => pack p

/-- Whether what is signed can be written and, if it is a profile, has an identity to sign it and
fewer than 2 ^ 30 addresses. -/
def Proper : Signable → Prop
  | .acceptance _ => True
  | .request r => r.states.length < UInt32.size
  | .profile p => Fits p ∧ p.signers ≠ [] ∧ p.addresses.length < 2 ^ 30

end Signable

/-- A signature that is found to be made with a key, over a message, for what is signed. -/
inductive Accepted : Bytes → Key → Signature → Signable → Prop
  | acceptance {r : Response} {txId : Digest} {notary : Party} {e : Endorsement}
    (valid : r.validate txId notary = .ok ()) (mem : e ∈ r.signatures) :
    Accepted txId.bytes e.signer e.signature (.acceptance txId)
  | request {s : SignedRequest} {sender : Party} {message : Bytes}
    (valid : s.verify sender = .ok ()) (written : s.request.signingBytes = .ok message) :
    Accepted message sender.key s.signature.endorsement.signature (.request s.request)
  | profile {p : SignedProfile} {info : Profile} {i : Nat} {party : Party} {signature : Signature}
    (valid : p.verified = .ok info) (owed : info.signers[i]? = some party)
    (made : p.signatures[i]? = some signature) :
    Accepted p.raw party.key signature (.profile info)

theorem Request.framed_inj {r s : Request} (hr : r.states.length < UInt32.size)
    (hs : s.states.length < UInt32.size) (h : framed (pack r) = framed (pack s)) : r = s :=
  pack_inj (fits hr) (fits hs) (List.append_cancel_left (List.append_cancel_left h))

theorem Request.lt_length_framed (body : Bytes) : 32 < (framed body).length := by
  have htag : Domain.request.tag.length = 34 := by decide
  rw [framed, List.length_append, htag]
  omega

theorem Party.lt_length_pack {p : Party} (h : p.key.isComposite = false) :
    32 < (pack p).length := by
  obtain ⟨name, key⟩ := p
  cases key with
  | composite t cs => cases h
  | single a =>
    have he : pack (Party.mk name (.single a)) = pack name ++ (0 :: a.octets.bytes) := rfl
    rw [he, List.length_append, List.length_cons, a.octets.length_eq]
    omega

namespace Profile

variable {p : Profile}

theorem pack_eq (p : Profile) : ∃ rest, pack p = Bytes.ofNatLE 4 p.addresses.length ++ rest :=
  ⟨_, List.append_assoc ..⟩

theorem lt_length_pack (h : p.signers ≠ []) : 32 < (pack p).length := by
  obtain ⟨q, hq⟩ := List.exists_mem_of_ne_nil _ h
  obtain ⟨hm, hk⟩ := List.mem_filter.1 hq
  have hlt := Party.lt_length_pack (p := q) (by simpa using hk)
  obtain ⟨before, after, hi⟩ := List.append_of_mem hm
  have he : pack p = pack p.addresses ++ ((Bytes.ofNatLE 4 p.identities.length ++
      p.identities.flatMap pack) ++ (pack p.platformVersion ++ pack p.serial)) := rfl
  rw [he, hi, List.flatMap_append, List.flatMap_cons]
  simp only [List.length_append]
  omega

/-- The tag of a request begins with a number of addresses that no profile has. -/
theorem pack_ne_framed (h : p.addresses.length < 2 ^ 30) (body : Bytes) :
    pack p ≠ Request.framed body := by
  intro he
  obtain ⟨rest, hp⟩ := pack_eq p
  -- the letters "NOTA", of which the last weighs most
  have htag : Domain.request.tag = Bytes.ofNatLE 4 0x41544F4E ++ Domain.request.tag.drop 4 := by
    decide
  rw [hp, Request.framed, htag, List.append_assoc] at he
  have hfront := congrArg Bytes.toNatLE (List.append_inj he (by simp)).1
  rw [Bytes.toNatLE_ofNatLE, Bytes.toNatLE_ofNatLE] at hfront
  change _ % 4294967296 = _ % 4294967296 at hfront
  omega

end Profile

namespace Signable

variable {m n : Signable}

theorem bytes_eq (h : m.Proper) : m.bytes = .ok m.message := by
  cases m with
  | acceptance id => rfl
  | request r => exact Request.signingBytes_eq_ok.2 ⟨sized_of_fits (Request.fits h), rfl⟩
  | profile p => exact mapError_eq_ok.2 (encode_eq h.1)

theorem message_inj (hm : m.Proper) (hn : n.Proper) (h : m.message = n.message) : m = n := by
  have hl := congrArg List.length h
  cases m with
  | acceptance id =>
    have hid : (acceptance id).message.length = 32 := id.length_eq
    cases n with
    | acceptance id' => exact congrArg acceptance (Octets.ext h)
    | request r => exact absurd (hl.symm.trans hid) (Request.lt_length_framed _).ne'
    | profile p => exact absurd (hl.symm.trans hid) (Profile.lt_length_pack hn.2.1).ne'
  | request r =>
    cases n with
    | acceptance id => exact absurd (hl.trans id.length_eq) (Request.lt_length_framed _).ne'
    | request s => exact congrArg request (Request.framed_inj hm hn h)
    | profile p => exact absurd h.symm (Profile.pack_ne_framed hn.2.2 _)
  | profile p =>
    cases n with
    | acceptance id =>
      exact absurd (hl.trans id.length_eq) (Profile.lt_length_pack hm.2.1).ne'
    | request r => exact absurd h (Profile.pack_ne_framed hm.2.2 _)
    | profile q => exact congrArg profile (pack_inj hm.1 hn.1 h)

theorem bytes_inj (hm : m.Proper) (hn : n.Proper) (h : m.bytes = n.bytes) : m = n := by
  rw [bytes_eq hm, bytes_eq hn] at h
  exact message_inj hm hn (Except.ok.inj h)

end Signable

theorem Accepted.verify {s : Bytes} {k : Key} {signature : Signature} {m : Signable}
    (h : Accepted s k signature m) (hm : m.Proper) :
    m.bytes = .ok s ∧ k.verify s signature = .ok () := by
  cases h with
  | acceptance valid mem => exact ⟨rfl, (Response.validate_eq_ok.1 valid).2 _ mem⟩
  | request valid written =>
    obtain ⟨hk, _, hmessage, hv⟩ := SignedRequest.verify_eq_ok.1 valid
    obtain rfl := Except.ok.inj (written.symm.trans hmessage)
    exact ⟨written, hk ▸ hv⟩
  | profile valid owed made =>
    obtain ⟨-, hraw, -, hsigned⟩ := SignedProfile.verified_eq_ok.1 valid
    rw [Signable.bytes_eq hm]
    exact ⟨congrArg _ hraw.symm, hsigned _ _ _ owed made⟩

/-- Two messages are the same only if they are of the same kind and for the same value. So a
signature that is accepted for a value was made over a message that stands for nothing else. -/
theorem signed_messages_distinct :
    (∀ m : Signable, m.Proper → ∃ s, m.bytes = .ok s) ∧
    (∀ m n : Signable, m.Proper → n.Proper → m.bytes = n.bytes → m = n) ∧
    ∀ s k signature m, Accepted s k signature m → m.Proper →
      m.bytes = .ok s ∧ k.verify s signature = .ok () ∧
        ∀ n : Signable, n.Proper → n.bytes = .ok s → n = m := by
  refine ⟨fun m hm => ⟨_, Signable.bytes_eq hm⟩, fun m n => Signable.bytes_inj,
    fun s k signature m h hm => ?_⟩
  obtain ⟨hs, hv⟩ := h.verify hm
  exact ⟨hs, hv, fun n hn he => Signable.bytes_inj hn hm (he.trans hs.symm)⟩

theorem signed_messages_distinct_sharedProfile :
    let raw := pack SignedProfile.sharedProfile
    (Signable.profile SignedProfile.sharedProfile).Proper ∧
      Accepted raw Call.soleKey.publicKey (Call.soleKey.signRaw raw)
        (.profile SignedProfile.sharedProfile) ∧
      (∀ n : Signable, n.Proper → n.bytes = .ok raw →
        n = .profile SignedProfile.sharedProfile) ∧
      (Signable.request ⟨[], .zero 32⟩).bytes ≠ .ok raw := by
  intro raw
  obtain ⟨-, -, hone⟩ := signed_messages_distinct
  have hv := SignedProfile.verified_sharedProfile
  have howed : SignedProfile.sharedProfile.signers[0]? = some Call.soleParty := rfl
  have hp : (Signable.profile SignedProfile.sharedProfile).Proper :=
    ⟨(SignedProfile.verified_eq_ok.1 hv).1, List.ne_nil_of_mem (List.mem_of_getElem? howed),
      by decide⟩
  have ha : Accepted raw Call.soleKey.publicKey (Call.soleKey.signRaw raw)
      (.profile SignedProfile.sharedProfile) :=
    .profile hv howed rfl
  have hunique := (hone _ _ _ _ ha hp).2.2
  refine ⟨hp, ha, hunique, fun he => ?_⟩
  have hr : (Signable.request ⟨[], .zero 32⟩).Proper := by
    change 0 < UInt32.size
    decide
  cases hunique _ hr he

end LedgerNotary
