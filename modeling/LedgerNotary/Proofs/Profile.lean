import LedgerNotary.Command.Run
import LedgerNotary.Proofs.Json.Reread
import LedgerNotary.Proofs.Notary.Signatures

/-! When a signed profile is accepted, and what it is refused for.

The signatures are taken in the order of the identities that owe one, each for the identity at its
own place. The check stops at the first that does not hold, so a refusal names that identity. -/

namespace LedgerNotary

def Profile.signed (p : Profile) (keys : List KeyPair) : SignedProfile :=
  ⟨Wire.pack p, keys.map (·.signRaw (Wire.pack p))⟩

namespace SignedProfile

open Outcome Wire

variable {raw : Bytes} {ps : List (Party × Signature)} {p : SignedProfile} {info : Profile}

def Made (raw : Bytes) (q : Party × Signature) : Prop := q.1.key.verify raw q.2 = .ok ()

theorem checkInTurn_cons_of_made {q : Party × Signature} (h : Made raw q) :
    checkInTurn raw (q :: ps) = checkInTurn raw ps := by
  have hq : q.1.key.verify raw q.2 = .ok () := h
  rw [checkInTurn, hq]

theorem checkInTurn_cons_of_not_made {q : Party × Signature} (h : ¬ Made raw q) :
    checkInTurn raw (q :: ps) = .error (.badSignature q.1.name) := by
  cases hq : q.1.key.verify raw q.2 with
  | ok u => exact absurd hq h
  | error e => rw [checkInTurn, hq]

theorem checkInTurn_eq_ok : checkInTurn raw ps = .ok () ↔ ∀ q ∈ ps, Made raw q := by
  induction ps with
  | nil => exact iff_of_true rfl nofun
  | cons q ps ih =>
    rw [List.forall_mem_cons]
    by_cases hq : Made raw q
    · rw [checkInTurn_cons_of_made hq, ih]
      exact (and_iff_right hq).symm
    · rw [checkInTurn_cons_of_not_made hq]
      exact iff_of_false nofun fun h => hq h.1

/-- A refusal is for the first signature that does not hold. -/
theorem checkInTurn_eq_error {e : ProfileFault} : checkInTurn raw ps = .error e ↔
    ∃ (i : Nat) (q : Party × Signature), ps[i]? = some q ∧ e = .badSignature q.1.name ∧
      ¬ Made raw q ∧ ∀ j < i, ∀ r, ps[j]? = some r → Made raw r := by
  induction ps with
  | nil => exact iff_of_false nofun (by simp)
  | cons q ps ih =>
    by_cases hq : Made raw q
    · rw [checkInTurn_cons_of_made hq, ih]
      constructor
      · rintro ⟨i, r, hr, he, hn, hbefore⟩
        refine ⟨i + 1, r, hr, he, hn, fun j hj r' hr' => ?_⟩
        cases j with
        | zero => exact Option.some.inj hr' ▸ hq
        | succ j => exact hbefore j (Nat.lt_of_succ_lt_succ hj) r' hr'
      · rintro ⟨i, r, hr, he, hn, hbefore⟩
        cases i with
        | zero => exact absurd (Option.some.inj hr ▸ hq) hn
        | succ i =>
          exact ⟨i, r, hr, he, hn, fun j hj r' hr' => hbefore (j + 1) (Nat.succ_lt_succ hj) r' hr'⟩
    · rw [checkInTurn_cons_of_not_made hq, Except.error.injEq]
      constructor
      · rintro rfl
        exact ⟨0, q, rfl, rfl, hq, nofun⟩
      · rintro ⟨i, r, hr, rfl, -, hbefore⟩
        cases i with
        | zero => rw [Option.some.inj hr]
        | succ i => exact absurd (hbefore 0 (Nat.succ_pos i) q rfl) hq

/-- The signature at a place holds under the key of the identity that owes the one at this place. -/
def SignedAt (p : SignedProfile) (info : Profile) (i : Nat) : Prop :=
  ∀ party signature, info.signers[i]? = some party → p.signatures[i]? = some signature →
    party.key.verify p.raw signature = .ok ()

theorem signedAt_iff {i : Nat} : p.SignedAt info i ↔
    ∀ q, (info.signers.zip p.signatures)[i]? = some q → Made p.raw q := by
  simp only [SignedAt, Made, List.getElem?_zip_eq_some, Prod.forall, and_imp]

theorem checkInTurn_zip_eq_ok :
    checkInTurn p.raw (info.signers.zip p.signatures) = .ok () ↔ ∀ i, p.SignedAt info i := by
  simp only [checkInTurn_eq_ok, signedAt_iff, List.mem_iff_getElem?, forall_exists_index]
  exact forall_comm

theorem checkInTurn_zip_eq_error {e : ProfileFault}
    (hl : p.signatures.length = info.signers.length) :
    checkInTurn p.raw (info.signers.zip p.signatures) = .error e ↔
      ∃ (i : Nat) (party : Party), info.signers[i]? = some party ∧ e = .badSignature party.name ∧
        ¬ p.SignedAt info i ∧ ∀ j < i, p.SignedAt info j := by
  simp only [checkInTurn_eq_error, ← signedAt_iff]
  constructor
  · rintro ⟨i, ⟨party, signature⟩, hq, rfl, hn, hbefore⟩
    obtain ⟨hparty, -⟩ := List.getElem?_zip_eq_some.1 hq
    exact ⟨i, party, hparty, rfl, fun h => hn (signedAt_iff.1 h _ hq), hbefore⟩
  · rintro ⟨i, party, hparty, rfl, hn, hbefore⟩
    have hi : i < p.signatures.length := hl ▸ (List.getElem?_eq_some_iff.1 hparty).1
    have hq : (info.signers.zip p.signatures)[i]? = some (party, p.signatures[i]) :=
      List.getElem?_zip_eq_some.2 ⟨hparty, List.getElem?_eq_getElem hi⟩
    refine ⟨i, _, hq, rfl, fun hm => hn (signedAt_iff.2 fun q h => ?_), hbefore⟩
    exact Option.some.inj (hq.symm.trans h) ▸ hm

/-- What the encoding of a profile is refused for: another number of signatures than are owed, or
else the first one that does not hold. -/
inductive Refused (p : SignedProfile) (info : Profile) : ProfileFault → Prop
  | extra (more : info.signers.length < p.signatures.length) :
    Refused p info (.extraSignatures p.signatures.length info.signers.length)
  | missing (fewer : p.signatures.length < info.signers.length) :
    Refused p info (.missingSignatures p.signatures.length info.signers.length)
  | badSignature {i : Nat} {party : Party} (count : p.signatures.length = info.signers.length)
    (owed : info.signers[i]? = some party) (fails : ¬ p.SignedAt info i)
    (before : ∀ j < i, p.SignedAt info j) : Refused p info (.badSignature party.name)

theorem verified_of_read (h : read p.raw = .ok info) : p.verified =
    if info.signers.length < p.signatures.length then
      .error (.extraSignatures p.signatures.length info.signers.length)
    else if p.signatures.length < info.signers.length then
      .error (.missingSignatures p.signatures.length info.signers.length)
    else checkInTurn p.raw (info.signers.zip p.signatures) >>= fun _ => .ok info := by
  rw [verified, h]
  rfl

theorem verified_of_not_read {fault : Fault}
    (h : (read p.raw : Except Fault Profile) = .error fault) :
    p.verified = .error (.malformed (.malformed fault)) := by
  rw [verified, h]

theorem verified_eq_error_of_read (h : read p.raw = .ok info) {e : ProfileFault} :
    p.verified = .error e ↔ p.Refused info e := by
  rw [verified_of_read h]
  rcases Nat.lt_trichotomy info.signers.length p.signatures.length with hl | hl | hl
  · rw [if_pos hl, Except.error.injEq]
    constructor
    · rintro rfl
      exact .extra hl
    · rintro (_ | hfewer | hcount)
      · rfl
      all_goals omega
  · rw [if_neg (by omega), if_neg (by omega), bind_eq_error, checkInTurn_zip_eq_error hl.symm]
    constructor
    · rintro (⟨i, party, howed, rfl, hfails, hbefore⟩ | ⟨_, _, hnever⟩)
      · exact .badSignature hl.symm howed hfails hbefore
      · cases hnever
    · rintro (hmore | hfewer | ⟨-, howed, hfails, hbefore⟩)
      · omega
      · omega
      · exact Or.inl ⟨_, _, howed, rfl, hfails, hbefore⟩
  · rw [if_neg (by omega), if_pos hl, Except.error.injEq]
    constructor
    · rintro rfl
      exact .missing hl
    · rintro (hmore | _ | hcount)
      · omega
      · rfl
      · omega

theorem verified_eq_ok : p.verified = .ok info ↔ Fits info ∧ p.raw = pack info ∧
    p.signatures.length = info.signers.length ∧ ∀ i, p.SignedAt info i := by
  rw [← and_assoc, ← read_eq_ok_iff]
  cases hread : (read p.raw : Except Fault Profile) with
  | error fault =>
    rw [verified_of_not_read hread]
    exact iff_of_false nofun fun h => nomatch h.1
  | ok info' =>
    rw [verified_of_read hread, ite_error_eq_ok, ite_error_eq_ok, unit_bind_eq_ok,
      Except.ok.injEq, Except.ok.injEq, checkInTurn_zip_eq_ok]
    constructor
    · rintro ⟨hextra, hmissing, hsigned, rfl⟩
      exact ⟨rfl, by omega, hsigned⟩
    · rintro ⟨rfl, hcount, hsigned⟩
      exact ⟨by omega, by omega, hsigned, rfl⟩

theorem verified_eq_malformed : (∃ e, p.verified = .error (.malformed e)) ↔
    ∀ info : Profile, Fits info → p.raw ≠ pack info := by
  cases hread : (read p.raw : Except Fault Profile) with
  | error fault =>
    refine iff_of_true ⟨_, verified_of_not_read hread⟩ fun info hf hr => ?_
    have hok : read p.raw = .ok info := read_eq_ok_iff.2 ⟨hf, hr⟩
    rw [hread] at hok
    cases hok
  | ok info =>
    obtain ⟨hf, hr⟩ := read_eq_ok_iff.1 hread
    refine iff_of_false (fun ⟨e, he⟩ => ?_) fun h => h info hf hr
    cases (verified_eq_error_of_read hread).1 he

/-- A signed profile is accepted exactly if its bytes are the encoding of a profile and every
identity that owes a signature made the one at its place, with none left over. It is malformed
exactly if its bytes are the encoding of no profile; otherwise a refusal says how many signatures
are there and are owed if these differ, and else names the first identity whose signature fails. -/
theorem verified_exact (p : SignedProfile) :
    (∀ info, p.verified = .ok info ↔ Fits info ∧ p.raw = pack info ∧
      p.signatures.length = info.signers.length ∧ ∀ i, p.SignedAt info i) ∧
    ((∃ e, p.verified = .error (.malformed e)) ↔
      ∀ info : Profile, Fits info → p.raw ≠ pack info) ∧
    ∀ info : Profile, Fits info → p.raw = pack info →
      ∀ e, p.verified = .error e ↔ p.Refused info e := by
  refine ⟨fun _ => verified_eq_ok, verified_eq_malformed, fun info hf hr e => ?_⟩
  exact verified_eq_error_of_read (read_eq_ok_iff.2 ⟨hf, hr⟩)

/-- A node with an identity of its own behind one that it shares. -/
def sharedProfile : Profile :=
  ⟨["n:1"], [⟨"S", .composite 1 [(Call.soleKey.publicKey, 1)]⟩, Call.soleParty], 1, 1⟩

set_option maxRecDepth 100000 in
theorem verified_sharedProfile :
    (sharedProfile.signed [Call.soleKey]).verified = .ok sharedProfile := by
  decide +kernel

theorem verified_exact_sharedProfile :
    let raw := pack sharedProfile
    Fits sharedProfile ∧
      (SignedProfile.mk raw [Call.soleKey.signRaw raw]).verified = .ok sharedProfile ∧
      (SignedProfile.mk raw []).verified = .error (.missingSignatures 0 1) ∧
      (SignedProfile.mk raw [⟨[]⟩]).verified = .error (.badSignature "N") := by
  intro raw
  obtain ⟨hok, -, -⟩ := verified_exact (sharedProfile.signed [Call.soleKey])
  obtain ⟨hf, -⟩ := (hok _).1 verified_sharedProfile
  obtain ⟨-, -, hmissing⟩ := verified_exact ⟨raw, []⟩
  obtain ⟨-, -, hbad⟩ := verified_exact ⟨raw, [⟨[]⟩]⟩
  refine ⟨hf, verified_sharedProfile, ?_, ?_⟩
  · exact (hmissing _ hf rfl _).2 (.missing Nat.one_pos)
  · have howed : sharedProfile.signers[0]? = some Call.soleParty := rfl
    have hfails : Call.soleParty.key.verify raw ⟨[]⟩ ≠ .ok () := by decide +kernel
    refine (hbad _ hf rfl _).2 (.badSignature rfl howed (fun h => hfails ?_) nofun)
    exact h _ _ howed rfl

end SignedProfile

/-! A profile that is signed and stored is shown again as it was.

The keys have to be those of the identities that owe a signature, in their order. What they sign is
the encoded profile, and the same bytes stand in the file, so each signature is checked over what it
was made on. -/

namespace Profile

open Command Json Wire

variable {p : Profile} {keys : List KeyPair}

/-- The keys are those of the identities that owe a signature, in their order. -/
def OwedBy (p : Profile) (keys : List KeyPair) : Prop :=
  p.signers.map (·.key) = keys.map (·.publicKey)

theorem OwedBy.length_eq (h : p.OwedBy keys) : keys.length = p.signers.length := by
  have hl := congrArg List.length h
  rw [List.length_map, List.length_map] at hl
  exact hl.symm

theorem OwedBy.key_eq (h : p.OwedBy keys) {i : Nat} {party : Party} {k : KeyPair}
    (hi : p.signers[i]? = some party) (hk : keys[i]? = some k) : party.key = k.publicKey := by
  have hkeys : (p.signers.map (·.key))[i]? = (keys.map (·.publicKey))[i]? := congrArg (·[i]?) h
  rw [List.getElem?_map, List.getElem?_map, hi, hk] at hkeys
  exact Option.some.inj hkeys

theorem signWith_eq (hf : Fits p) (keys : List KeyPair) :
    p.signWith keys = .ok (p.signed keys) := by
  rw [signWith, encode_eq hf]
  rfl

theorem verified_signed (hf : Fits p) (hk : p.OwedBy keys)
    (hs : ∀ k ∈ keys, k.Signs (pack p)) : (p.signed keys).verified = .ok p := by
  refine SignedProfile.verified_eq_ok.2 ⟨hf, rfl, ?_, fun i party signature hi hm => ?_⟩
  · rw [signed, List.length_map, hk.length_eq]
  · have hm : (keys[i]?).map (·.signRaw (pack p)) = some signature := by
      rw [← List.getElem?_map]
      exact hm
    obtain ⟨k, hki, rfl⟩ := Option.map_eq_some_iff.1 hm
    rw [hk.key_eq hi hki]
    exact hs k (List.mem_of_getElem? hki)

theorem fits_signed (hf : Fits p) (hk : p.OwedBy keys)
    (hl : (pack p).length < UInt32.size) : Fits (p.signed keys) := by
  obtain ⟨-, ⟨hidentities, -⟩, -⟩ := hf
  have hcount : keys.length ≤ p.identities.length := by
    rw [hk.length_eq]
    exact List.length_filter_le _ _
  have hsignatures : (keys.map (·.signRaw (pack p))).length < UInt32.size := by
    rw [List.length_map]
    exact Nat.lt_of_le_of_lt hcount hidentities
  refine ⟨fits_bytes.2 hl, hsignatures, fun s hs => ?_⟩
  obtain ⟨k, -, rfl⟩ := List.mem_map.1 hs
  exact (k.fits_sign (pack p)).2

theorem readProfile_pack {signed : SignedProfile} (hf : Fits signed)
    (hv : signed.verified = .ok p) : readProfile (pack signed) = .ok p := by
  rw [readProfile, read_pack hf]
  change signed.verified.mapError profileFailure = .ok p
  rw [hv]
  rfl

theorem inspectProfile_of_fetch {m : Type → Type} [Monad m] [LawfulMonad m] {host : Host m}
    {file : String} {s : Bytes} (hs : host.fetch file = pure (.ok s))
    (hp : readProfile s = .ok p) :
    (inspectProfile host file).run = pure (.ok (printed (toJson p))) := by
  simp [inspectProfile, hs, hp]

/-- What the keys of a profile's identities sign is read from the file as it was written and is
accepted, and what is then printed stands for the profile, also as text. -/
theorem file_reads_back (hf : Fits p) (hk : p.OwedBy keys)
    (hs : ∀ k ∈ keys, k.Signs (pack p)) (hl : (pack p).length < UInt32.size) :
    ∃ signed s, p.signWith keys = .ok signed ∧ encode signed = .ok s ∧ read s = .ok signed ∧
      signed.verified = .ok p ∧
      (∀ (m : Type → Type) [Monad m] [LawfulMonad m] (host : Host m) (file : String),
        host.fetch file = pure (.ok s) →
          (inspectProfile host file).run = pure (.ok (printed (toJson p)))) ∧
      fromJson (toJson p) = .ok p ∧
      ∃ v, parse? (printed (toJson p)).output = some v ∧ fromJson v = .ok p := by
  have hsigned := fits_signed hf hk hl
  have hverified := verified_signed hf hk hs
  refine ⟨_, _, signWith_eq hf keys, encode_eq hsigned, read_pack hsigned, hverified,
    fun m _ _ host file hfetch => ?_, SameValues.written hf,
    exists_parse?_pretty hf (by simp [isBlank])⟩
  exact inspectProfile_of_fetch hfetch (readProfile_pack hsigned hverified)

/-- A system on which every file holds these bytes. -/
def shelf (s : Bytes) : Host Id where
  environment _ := none
  fetch _ := .ok s
  store _ _ := .ok ()
  openIndex _ := .ok .empty
  saveIndex _ _ := ()
  random n := .zero n
  now := ⟨0⟩

/-- The node has a threshold key in front of the key that signs. -/
theorem file_reads_back_sharedProfile :
    let p := SignedProfile.sharedProfile
    let keys := [Call.soleKey]
    Fits p ∧ p.OwedBy keys ∧ (∀ k ∈ keys, k.Signs (pack p)) ∧
      (pack p).length < UInt32.size ∧
      (∃ signed s, p.signWith keys = .ok signed ∧ encode signed = .ok s ∧
        (inspectProfile (shelf s) "n").run = pure (.ok (printed (toJson p)))) ∧
      ∃ v, parse? (printed (toJson p)).output = some v ∧ fromJson v = .ok p := by
  intro p keys
  obtain ⟨hf, -, -, hsigned⟩ := SignedProfile.verified_eq_ok.1 SignedProfile.verified_sharedProfile
  have hk : p.OwedBy keys := rfl
  have hs : ∀ k ∈ keys, k.Signs (pack p) := List.forall_mem_singleton.2
    (hsigned 0 Call.soleParty (Call.soleKey.signRaw (pack p)) rfl rfl)
  have hl : (pack p).length < UInt32.size := by decide +kernel
  obtain ⟨signed, s, hsign, he, -, -, hinspect, -, hprinted⟩ := file_reads_back hf hk hs hl
  exact ⟨hf, hk, hs, hl, ⟨signed, s, hsign, he, hinspect Id _ "n" rfl⟩, hprinted⟩

end Profile

end LedgerNotary
