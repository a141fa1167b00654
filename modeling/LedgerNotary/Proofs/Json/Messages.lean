import LedgerNotary.Proofs.Json.Key
import LedgerNotary.Proofs.Wire.Messages

/-! All that has both forms admits the same values in them. -/

namespace LedgerNotary

open Json Outcome Wire

section Records

instance : SameValues Party :=
  .record [.of "name" Party.name, .of "owning_key" Party.key] fun _ => rfl

instance : SameValues Signature := .wrapped

instance : SameValues Endorsement :=
  .record [.of "by" Endorsement.signer, .of "bytes" Endorsement.signature] fun _ => rfl

instance : SameValues Profile :=
  .record [.of "addresses" Profile.addresses, .of "legal_identities" Profile.identities,
    .of "platform_version" Profile.platformVersion, .of "serial" Profile.serial] fun _ => rfl

instance : SameValues SignedProfile :=
  .record [.of "raw" SignedProfile.raw, .of "signatures" SignedProfile.signatures] fun _ => rfl

instance : SameValues Instant := .wrapped

instance : SameValues (Option Instant) := .option fun t h => by cases h

instance : SameValues TimeWindow :=
  .record [.optional "from_time" TimeWindow.fromTime, .optional "until_time" TimeWindow.untilTime]
    fun _ => rfl

instance : SameValues Group := .record [.of "components" Group.components] fun _ => rfl

instance : SameValues OutputState :=
  .record [.of "contract" OutputState.contract, .of "data" OutputState.data] fun _ => rfl

instance : SameValues Command :=
  .record [.of "value" Command.value, .of "signers" Command.signers] fun _ => rfl

instance : SameValues Request :=
  .record [.of "states" Request.states, .of "tx_id" Request.txId] fun _ => rfl

instance : SameValues RequestSignature :=
  .record [.of "digital_signature" RequestSignature.endorsement,
    .of "platform_version" RequestSignature.platformVersion] fun _ => rfl

instance : SameValues SignedRequest :=
  .record [.of "request" SignedRequest.request, .of "signature" SignedRequest.signature]
    fun _ => rfl

instance : SameValues Response :=
  .record [.of "signatures" Response.signatures] fun _ => rfl

instance : SameValues Consumption :=
  .record [.of "id" Consumption.txId, .of "input_index" Consumption.inputIndex,
    .of "requesting_party" Consumption.party] fun _ => rfl

theorem isZero_of_fromJson {v : Json} {salt : Salt} (h : fromJson v = .ok salt) :
    salt.octets.isZero = false := by
  obtain ⟨a, -, h⟩ := bind_eq_ok.1 h
  obtain ⟨hz, h⟩ := ite_error_eq_ok.1 h
  cases h
  simpa using hz

instance : SameValues Salt where
  fits h _ := isZero_of_fromJson h
  written {salt} h := by
    have ha : fromJson (toJson salt.octets) = .ok salt.octets := SameValues.written trivial
    have hz : salt.octets.isZero = false := h
    change (fromJson (toJson salt.octets) >>= _) = _
    rw [ha, ok_bind]
    simp only [hz]
    rfl

/-- Entries are put in order when they are read, so the ones that are kept are among them. -/
instance : SameValues Conflict where
  fits {v c} h hs := by
    obtain ⟨parts, hp⟩ := of_record h
    obtain ⟨as, has, rfl⟩ := Reading.is_map.1 hp
    obtain ⟨-, w, -, hw⟩ := Parts.is_fieldBy.1 has
    obtain ⟨hl, heach⟩ := short_list.1 (short_obj.1 hs _ List.mem_cons_self)
    refine ⟨hl, fun a ha => ?_⟩
    obtain ⟨item, hitem⟩ := of_fromJson_list hw (SortedMap.mem_of_mem_ofList ha)
    exact SameValues.fits hitem (heach a ha)
  written {c} h := by
    have hentries : fromJson (toJson c.history.entries) = .ok c.history.entries :=
      SameValues.written (α := List (StateRef × Consumption)) h
    refine record_obj.2 (Reading.is_map.2 ⟨c.history.entries, ?_, ?_⟩)
    · exact Parts.is_fieldBy.2 ⟨0, _, rfl, hentries⟩
    · rw [Conflict.ofEntries, SortedMap.ofList_entries]

end Records

section Variants

namespace RevealedContent

theorem componentsAlternative :
    Alternative (fun (cs, nonces) => RevealedContent.components cs nonces)
      [.of "components" Prod.fst, .of "nonces" Prod.snd]
      fun r => RevealedContent.components <$> r.field 0 "components" <*> r.field 1 "nonces" where

theorem emptyAlternative :
    Alternative RevealedContent.empty [.of "group_nonce" id]
      fun r => RevealedContent.empty <$> r.field 0 "group_nonce" where

instance : SameValues RevealedContent where
  fits h hs := by
    obtain ⟨name, content, h⟩ := of_variant h
    split_ifs at h
    · obtain ⟨⟨cs, nonces⟩, rfl, hfit⟩ := componentsAlternative.of_held h
      exact hfit (short_obj.1 hs _ List.mem_cons_self)
    · obtain ⟨nonce, rfl, hfit⟩ := emptyAlternative.of_held h
      exact hfit (short_obj.1 hs _ List.mem_cons_self)
  written {a} h := by
    cases a with
    | components cs nonces => exact componentsAlternative.written (b := (cs, nonces)) h
    | empty nonce => exact emptyAlternative.written (b := nonce) h

end RevealedContent

instance : SameValues RevealedGroup :=
  .record [.of "group_index" RevealedGroup.index, .of "content" RevealedGroup.content] fun _ => rfl

instance : SameValues TearOff :=
  .record [.of "id" TearOff.id, .of "group_roots" TearOff.roots, .of "groups" TearOff.groups]
    fun _ => rfl

namespace Refusal

theorem conflictAlternative :
    Alternative (fun (txId, contested) => Refusal.conflict txId contested)
      [.of "tx_id" Prod.fst, .of "conflict" Prod.snd]
      fun r => Refusal.conflict <$> r.field 0 "tx_id" <*> r.field 1 "conflict" where

theorem outsideWindowAlternative :
    Alternative (fun (now, window) => Refusal.outsideWindow now window)
      [.of "current_time" Prod.fst, .of "time_window" Prod.snd]
      fun r => Refusal.outsideWindow <$> r.field 0 "current_time" <*> r.field 1 "time_window" where

instance : SameValues Refusal where
  fits h hs := by
    obtain ⟨name, content, h⟩ := of_variant h
    split_ifs at h
    · obtain ⟨⟨txId, contested⟩, rfl, hfit⟩ := conflictAlternative.of_held h
      exact hfit (short_obj.1 hs _ List.mem_cons_self)
    · obtain ⟨⟨now, window⟩, rfl, hfit⟩ := outsideWindowAlternative.of_held h
      exact hfit (short_obj.1 hs _ List.mem_cons_self)
    all_goals
      obtain ⟨reason, rfl, hfit⟩ := fits_of_held h
      exact hfit (short_obj.1 hs _ List.mem_cons_self)
  written {e} h := by
    cases e with
    | conflict txId contested => exact conflictAlternative.written (b := (txId, contested)) h
    | outsideWindow now window => exact outsideWindowAlternative.written (b := (now, window)) h
    | _ => rfl

end Refusal

instance : SameValues Reply where
  fits h hs := by
    obtain ⟨name, content, h⟩ := of_variant h
    split_ifs at h
    all_goals
      obtain ⟨answer, rfl, hfit⟩ := fits_of_held h
      exact hfit (short_obj.1 hs _ List.mem_cons_self)
  written {r} h := by
    cases r with
    | signed r =>
      have hr : fromJson (toJson r) = .ok r := SameValues.written h
      exact map_eq_ok.2 ⟨r, hr, rfl⟩
    | rejected e =>
      have he : fromJson (toJson e) = .ok e := SameValues.written h
      exact map_eq_ok.2 ⟨e, he, rfl⟩

instance : Bounded Mode where
  Fits _ := True
  sized_of_fits _ := rfl
  readsBack {m} _ s := by cases m <;> rfl

instance : SameValues Mode where
  fits _ _ := trivial
  written {m} _ := by cases m <;> rfl

end Variants

namespace Json

/-- What is read from JSON comes back from both forms, unless one of its lengths does not fit the
binary one; and what can be written in binary comes back from JSON. -/
def Interchangeable (α : Type) [JsonForm α] [Wire α] [Bounded α] : Prop :=
  (∀ (v : Json) (a : α), fromJson v = .ok a → Short (toJson a) →
    fromJson (toJson a) = .ok a ∧ RoundTrips a) ∧
  ∀ a : α, Fits a → fromJson (toJson a) = .ok a

theorem interchangeable {α : Type} [JsonForm α] [Wire α] [Bounded α] [SameValues α] :
    Interchangeable α := by
  refine ⟨fun v a h hs => ?_, fun a => SameValues.written⟩
  have hf : Fits a := SameValues.fits h hs
  exact ⟨SameValues.written hf, roundTrips hf⟩

/-- What has both forms is read alike from both. So no key comes in through JSON that breaks a rule
on some level or is too deep, and no salt of zeros. -/
theorem json_and_binary_interchangeable :
    (Interchangeable Digest ∧ Interchangeable Salt ∧ Interchangeable StateRef ∧
      Interchangeable PointCode ∧ Interchangeable Key ∧ Interchangeable Party ∧
      Interchangeable Signature ∧ Interchangeable Endorsement ∧ Interchangeable Instant ∧
      Interchangeable TimeWindow ∧ Interchangeable Profile ∧ Interchangeable SignedProfile) ∧
    (Interchangeable Group ∧ Interchangeable OutputState ∧ Interchangeable Command ∧
      Interchangeable RevealedContent ∧ Interchangeable RevealedGroup ∧ Interchangeable TearOff) ∧
    (Interchangeable Request ∧ Interchangeable RequestSignature ∧ Interchangeable SignedRequest ∧
      Interchangeable Response ∧ Interchangeable Consumption ∧ Interchangeable Conflict ∧
      Interchangeable Refusal ∧ Interchangeable Reply ∧ Interchangeable Mode) ∧
    (∀ (v : Json) (k : Key), Key.bodyOfForm (Key.ofForm v.depth) v = .ok k →
      ∃ t cs, k = .composite t cs ∧ (Short (Key.formOfBody t cs) →
        Key.bodyOfForm (Key.ofForm (Key.formOfBody t cs).depth) (Key.formOfBody t cs) = .ok k ∧
          Key.decodeBody Key.maxDepth (Key.packBody t cs) = .ok (k, []))) ∧
    (∀ (v : Json) (c : Key.Child), Key.childOfForm (Key.ofForm v.depth) v = .ok c →
      Short (Key.formOfChild c) →
        Key.childOfForm (Key.ofForm (Key.formOfChild c).depth) (Key.formOfChild c) = .ok c ∧
          RoundTrips c) ∧
    (∀ k : Key, (∃ v, fromJson v = .ok k) ∧ Short (toJson k) ↔ Key.WellFormed Key.maxDepth k) ∧
    ∀ (v : Json) (salt : Salt), fromJson v = .ok salt → salt.octets.isZero = false := by
  refine ⟨⟨interchangeable, interchangeable, interchangeable, interchangeable, interchangeable,
      interchangeable, interchangeable, interchangeable, interchangeable, interchangeable,
      interchangeable, interchangeable⟩,
    ⟨interchangeable, interchangeable, interchangeable, interchangeable, interchangeable,
      interchangeable⟩,
    ⟨interchangeable, interchangeable, interchangeable, interchangeable, interchangeable,
      interchangeable, interchangeable, interchangeable, interchangeable⟩,
    fun _ _ => Key.body_interchangeable, fun _ _ => Key.child_interchangeable,
    fun _ => Key.exists_fromJson_iff_wellFormed, fun _ _ => isZero_of_fromJson⟩

/-- A command that a shared key has to sign, whose children stand in the wrong order. -/
theorem json_and_binary_interchangeable_unsorted :
    let a : Key := .single ⟨Octets.zero 33⟩
    let b : Key := .single ⟨⟨List.replicate 33 1, rfl⟩⟩
    let k : Key := .composite 2 [(a, 1), (b, 1)]
    let v : Json := .obj [("value", .arr [.int 7]),
      ("signers", .arr [.obj [("Composite", Key.formOfBody 2 [(b, 1), (a, 1)])]])]
    let c : Command := ⟨[7], [k]⟩
    fromJson v = .ok c ∧ Short (toJson c) ∧ fromJson (toJson c) = .ok c ∧
      RoundTrips c := by
  intro a b k v c
  have hv : fromJson v = .ok c := by decide +kernel
  have hk : Key.Built k := .composite (by simp [a, b, Key.Built.single]) (by decide)
    (by decide : Key.ofChildren 2 [(b, 1), (a, 1)] = .ok k)
  obtain ⟨-, ⟨-, -, ⟨hcommand, -⟩, -⟩, -⟩ := json_and_binary_interchangeable
  have hs : Short (toJson c) := by
    have hvalue : Short (toJson c.value) := short_list.2 ⟨by decide, fun _ _ => .int _⟩
    have hsigners : Short (toJson c.signers) :=
      short_list.2 ⟨by decide, List.forall_mem_singleton.2 (Key.short_formOf hk.canonical)⟩
    exact short_obj.2 (List.forall_mem_cons.2 ⟨hvalue, List.forall_mem_singleton.2 hsigners⟩)
  exact ⟨hv, hs, hcommand v c hv hs⟩

end Json

end LedgerNotary
