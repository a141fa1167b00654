import LedgerNotary.Proofs.Notary.Run
import LedgerNotary.Proofs.Time

/-! What a notary decides on a submission.

Four steps have to be passed, and the first that is not decides for what the submission is rejected.
Only the last one looks at the index, and nothing is written unless it is passed too. Two things can
come in between. A window with a beginning cannot be widened by a tolerance that has no opposite,
and then there is no reply at all; and a request or a record may hold more than can be written. -/

namespace LedgerNotary

open Outcome

def Index.Uncontested (i : Index) (states : List StateRef) (txId : Digest) : Prop :=
  ∀ x ∈ states, ∀ r, i.lookup x = .ok (some r) → r.txId = txId

namespace SignedRequest

variable {s : SignedRequest} {sender : Party}

/-- Whether a request carries a signature under the sender's own key that holds for it. -/
def SignedBy (s : SignedRequest) (sender : Party) : Prop :=
  s.signature.endorsement.signer = sender.key ∧
    ∃ m, s.request.signingBytes = .ok m ∧ s.signature.endorsement.verify m = .ok ()

/-- Whether the sender's own key is named under a request that nobody can sign. -/
def Unsignable (s : SignedRequest) (sender : Party) : Prop :=
  s.signature.endorsement.signer = sender.key ∧ Wire.sized s.request = false

theorem SignedBy.not_unsignable (h : s.SignedBy sender) : ¬ s.Unsignable sender := by
  rintro ⟨-, hsized⟩
  obtain ⟨m, hm, -⟩ := h.2
  simpa [hsized] using (Request.signingBytes_eq_ok.1 hm).1

theorem verify_cases (s : SignedRequest) (sender : Party) :
    (s.SignedBy sender ∧ s.verify sender = .ok ()) ∨
    (s.Unsignable sender ∧ ∃ e, s.verify sender = .error (.unwritable e)) ∨
    (¬ s.SignedBy sender ∧ ¬ s.Unsignable sender ∧ ∃ d, s.verify sender = .error d ∧
      Refusal.ofRequestDefect d = .invalidRequestSignature d.message) := by
  unfold verify SignedBy Unsignable
  by_cases hk : s.signature.endorsement.signer = sender.key
  · by_cases hsized : Wire.sized s.request = true
    · have hm := Request.signingBytes_eq_ok.2 ⟨hsized, rfl⟩
      cases hv : s.signature.endorsement.verify (Request.framed (Wire.pack s.request)) with
      | ok u => simp [hk, hm, hv, Except.mapError, ok_bind]
      | error e => simp [hk, hsized, hm, hv, Except.mapError, ok_bind, Refusal.ofRequestDefect]
    · have hm : s.request.signingBytes = .error (.malformed .longLength) := by
        rw [Request.signingBytes, Wire.encode, if_neg hsized]
        rfl
      simp [hk, hsized, hm, Except.mapError, error_bind]
  · simp [hk, throw_eq_error, error_bind, Refusal.ofRequestDefect]

theorem verify_eq_ok : s.verify sender = .ok () ↔ s.SignedBy sender := by
  rcases s.verify_cases sender with ⟨hs, hv⟩ | ⟨hu, e, hv⟩ | ⟨hs, -, d, hv, -⟩
  · exact iff_of_true hv hs
  · exact iff_of_false (by simp [hv]) fun hs => hs.not_unsignable hu
  · exact iff_of_false (by simp [hv]) hs

end SignedRequest

namespace Notary

variable {n : Notary} {now : Instant} {i : Index} {s : Submission} {u : Summary}

/-- Whether a submission shows a transaction for this notary, and the request is for it. -/
structure Takes (n : Notary) (s : Submission) (u : Summary) : Prop where
  shows : s.evidence.Shows n.settings.mode u
  notary : u.notary = some n.identity
  txId : s.request.request.txId = u.id
  states : s.request.request.states = u.inputs

theorem takes_iff : n.Takes s u ↔ extract n.settings.mode s.evidence = .ok u ∧
    n.checkMatches u s.request.request = .ok () := by
  rw [extract_eq_ok, checkMatches_eq_ok]
  exact ⟨fun h => ⟨h.shows, h.notary, h.txId, h.states⟩, fun ⟨hs, hn, ht, hx⟩ => ⟨hs, hn, ht, hx⟩⟩

theorem not_takes_of_extract {e : Refusal} (he : extract n.settings.mode s.evidence = .error e) :
    ¬ ∃ u, n.Takes s u := by
  rintro ⟨u, hu⟩
  cases he.symm.trans (takes_iff.1 hu).1

theorem not_takes_of_checkMatches {e : Refusal} (he : extract n.settings.mode s.evidence = .ok u)
    (hm : n.checkMatches u s.request.request = .error e) : ¬ ∃ v, n.Takes s v := by
  rintro ⟨v, hv⟩
  obtain ⟨hev, hmv⟩ := takes_iff.1 hv
  obtain rfl := Except.ok.inj (he.symm.trans hev)
  cases hm.symm.trans hmv

theorem Takes.exists (hu : n.Takes s u) : ∃ v, n.Takes s v := ⟨u, hu⟩

theorem Takes.exists_and_iff (hu : n.Takes s u) {p : Summary → Prop} :
    (∃ v, n.Takes s v ∧ p v) ↔ p u := by
  refine ⟨?_, fun h => ⟨u, hu, h⟩⟩
  rintro ⟨v, hv, h⟩
  obtain rfl := Except.ok.inj ((takes_iff.1 hu).1.symm.trans (takes_iff.1 hv).1)
  exact h

/-- Whether the clock lies in the window, or near enough where a tolerance is set. -/
def OpenAt (n : Notary) (now : Instant) (window : Option TimeWindow) : Prop :=
  ∀ w, window = some w →
    match n.settings.tolerance with
    | none => w.contains now = true
    | some tolerance => w.containsWithin tolerance now = some true

/-- Whether the notary cannot go on: the window begins at some instant, and the tolerance has the
lowest number of seconds. -/
def Stops (n : Notary) (window : Option TimeWindow) : Prop :=
  ∃ d w a, n.settings.tolerance = some d ∧ d.wholeSeconds = -9223372036854775808 ∧
    window = some w ∧ w.fromTime = some a

theorem OpenAt.not_stops {window : Option TimeWindow} (h : n.OpenAt now window) :
    ¬ n.Stops window := by
  rintro ⟨d, w, a, ht, hd, hw, ha⟩
  have hopen := h w hw
  simp [ht, TimeWindow.containsWithin_eq_none.2 ⟨hd, a, ha⟩] at hopen

theorem checkWindow_cases (n : Notary) (now : Instant) (window : Option TimeWindow) :
    (n.OpenAt now window ∧ n.checkWindow now window = .ok ()) ∨
    (n.Stops window ∧ n.checkWindow now window = .error .stopped) ∨
    (¬ n.OpenAt now window ∧ ¬ n.Stops window ∧
      ∃ w, n.checkWindow now window = .error (.refused (.outsideWindow now w))) := by
  unfold OpenAt Stops checkWindow
  cases window with
  | none =>
    cases n.settings.tolerance <;>
      simp [TimeWindow.checkStrictly, TimeWindow.checkWithin, Except.mapError]
  | some w =>
    cases n.settings.tolerance with
    | none =>
      by_cases h : w.contains now = true <;> simp [TimeWindow.checkStrictly, h, Except.mapError]
    | some d =>
      have hnone : w.containsWithin d now = none ↔ _ := TimeWindow.containsWithin_eq_none
      cases h : w.containsWithin d now with
      | none => simpa [TimeWindow.checkWithin, h] using hnone
      | some inside =>
        cases inside with
        | true => simp [TimeWindow.checkWithin, h]
        | false => simpa [TimeWindow.checkWithin, h] using hnone

theorem BlamesTransaction.checkMatches (n : Notary) (u : Summary) (request : Request) :
    BlamesTransaction (n.checkMatches u request) := by
  unfold Notary.checkMatches
  intro e h
  split at h
  · cases h
    exact ⟨_, rfl⟩
  · split_ifs at h <;> cases h <;> exact ⟨_, rfl⟩

/-- What the steps before the index come to, by the first that is not passed. -/
inductive Judged (n : Notary) (now : Instant) (s : Submission) (requester : Party) :
    Except Halt Summary → Prop
  | untaken (reason : String) (ht : ¬ ∃ u, n.Takes s u) :
    Judged n now s requester (.error (.refused (.invalidTransaction reason)))
  | stopped {u : Summary} (ht : n.Takes s u) (hw : n.Stops u.timeWindow) :
    Judged n now s requester (.error .stopped)
  | closed {u : Summary} (w : TimeWindow) (ht : n.Takes s u) (hw : ¬ n.Stops u.timeWindow)
    (ho : ¬ n.OpenAt now u.timeWindow) :
    Judged n now s requester (.error (.refused (.outsideWindow now w)))
  | unsignable {u : Summary} (reason : String) (ht : n.Takes s u) (ho : n.OpenAt now u.timeWindow)
    (hs : s.request.Unsignable requester) :
    Judged n now s requester (.error (.refused (.failure reason)))
  | unsigned {u : Summary} (reason : String) (ht : n.Takes s u) (ho : n.OpenAt now u.timeWindow)
    (hu : ¬ s.request.Unsignable requester) (hs : ¬ s.request.SignedBy requester) :
    Judged n now s requester (.error (.refused (.invalidRequestSignature reason)))
  | accepted {u : Summary} (ht : n.Takes s u) (ho : n.OpenAt now u.timeWindow)
    (hs : s.request.SignedBy requester) : Judged n now s requester (.ok u)

theorem judged_accept (n : Notary) (now : Instant) (s : Submission) (requester : Party) :
    Judged n now s requester (n.accept now s requester) := by
  unfold accept
  cases he : extract n.settings.mode s.evidence with
  | error e =>
    obtain ⟨reason, rfl⟩ := BlamesTransaction.extract _ _ e he
    exact .untaken reason (not_takes_of_extract he)
  | ok u =>
    cases hm : n.checkMatches u s.request.request with
    | error e =>
      obtain ⟨reason, rfl⟩ := BlamesTransaction.checkMatches n u _ e hm
      simp only [Except.mapError, ok_bind, hm, error_bind]
      exact .untaken reason (not_takes_of_checkMatches he hm)
    | ok v =>
      have ht : n.Takes s u := takes_iff.2 ⟨he, hm⟩
      simp only [Except.mapError, ok_bind, hm]
      rcases n.checkWindow_cases now u.timeWindow with ⟨ho, hw⟩ | ⟨hstop, hw⟩ | ⟨ho, hstop, w, hw⟩
      · rw [hw, ok_bind]
        rcases s.request.verify_cases requester with
          ⟨hs, hv⟩ | ⟨hs, e, hv⟩ | ⟨hs, hu, d, hv, hd⟩
        · rw [hv]
          exact .accepted ht ho hs
        · rw [hv]
          exact .unsignable e.message ht ho hs
        · simp only [hv, hd]
          exact .unsigned d.message ht ho hu hs
      · rw [hw]
        exact .stopped ht hstop
      · rw [hw]
        exact .closed w ht hstop ho

theorem accept_iff {requester : Party} : n.accept now s requester = .ok u ↔
    n.Takes s u ∧ n.OpenAt now u.timeWindow ∧ s.request.SignedBy requester := by
  have hw : n.checkWindow now u.timeWindow = .ok () ↔ n.OpenAt now u.timeWindow := by
    rcases n.checkWindow_cases now u.timeWindow with ⟨ho, hw⟩ | ⟨hs, hw⟩ | ⟨ho, -, w, hw⟩
    · exact iff_of_true hw ho
    · exact iff_of_false (by simp [hw]) fun ho => ho.not_stops hs
    · exact iff_of_false (by simp [hw]) ho
  rw [accept_eq_ok, takes_iff, hw, SignedRequest.verify_eq_ok, and_assoc]

/-- A reply with the index after it, by the first step that is not passed. -/
inductive Decision (n : Notary) (now : Instant) (i : Index) (s : Submission) (requester : Party) :
    Option Reply × Index → Prop
  | halted {halt : Halt} (h : Judged n now s requester (.error halt)) :
    Decision n now i s requester (halt.reply, i)
  | contested {u : Summary} (k : Conflict) (ht : n.Takes s u) (ho : n.OpenAt now u.timeWindow)
    (hs : s.request.SignedBy requester) (hc : ¬ i.Uncontested u.inputs u.id) :
    Decision n now i s requester (some (.rejected (.conflict u.id k)), i)
  | unwritable {u : Summary} (reason : String) (ht : n.Takes s u) (ho : n.OpenAt now u.timeWindow)
    (hs : s.request.SignedBy requester) (hc : i.Uncontested u.inputs u.id)
    (hw : ¬ i.Writes u.inputs requester) :
    Decision n now i s requester (some (.rejected (.failure reason)), i)
  | signed {u : Summary} (i' : Index) (ht : n.Takes s u) (ho : n.OpenAt now u.timeWindow)
    (hs : s.request.SignedBy requester) (hc : i.Uncontested u.inputs u.id)
    (hw : i.Writes u.inputs requester) :
    Decision n now i s requester (some (.signed (n.sign u.id)), i')

theorem decision_process (hi : ∀ x, ∃ r?, i.lookup x = .ok r?) (n : Notary) (now : Instant)
    (s : Submission) (requester : Party) :
    Decision n now i s requester (n.process now i s requester) := by
  generalize ha : n.accept now s requester = x
  cases ha ▸ n.judged_accept now s requester with
  | @accepted u ht ho hs =>
    generalize hc : i.commit u.inputs u.id requester = c
    cases hc ▸ i.committed_commit u.inputs u.id requester with
    | corrupt x reason hx he =>
      obtain ⟨r?, hr⟩ := hi x
      cases he.symm.trans hr
    | contested hl hd =>
      rw [process_of_not_committed ha hc]
      exact .contested _ ht ho hs (mt Plan.disputes_eq_nil.2 hd)
    | unwritable hg hw =>
      rw [process_of_not_committed ha hc]
      exact .unwritable _ ht ho hs (Plan.disputes_eq_nil.1 hg.disputes_eq_nil) hw
    | granted hg hw =>
      rw [process_of_committed ha hc]
      exact .signed _ ht ho hs (Plan.disputes_eq_nil.1 hg.disputes_eq_nil) hw
  | _ =>
    rw [process_of_halt ha]
    exact .halted (ha ▸ n.judged_accept now s requester)

/-- A submission is signed exactly if it passes all steps and its records can be written, and
otherwise rejected for the first step that it does not pass. There is no reply exactly where the
notary cannot go on at the window. Unless it is signed, the index stays as it was. -/
theorem process_decides {i : Index} (hi : ∀ x, ∃ r?, i.lookup x = .ok r?) (n : Notary)
    (now : Instant) (s : Submission) (requester : Party) :
    (∀ r, (n.process now i s requester).1 = some (.signed r) ↔ ∃ u, n.Takes s u ∧
      n.OpenAt now u.timeWindow ∧ s.request.SignedBy requester ∧ i.Uncontested u.inputs u.id ∧
      i.Writes u.inputs requester ∧ r = n.sign u.id) ∧
    ((∃ reason, (n.process now i s requester).1 = some (.rejected (.invalidTransaction reason))) ↔
      ¬ ∃ u, n.Takes s u) ∧
    ((n.process now i s requester).1 = none ↔ ∃ u, n.Takes s u ∧ n.Stops u.timeWindow) ∧
    ((∃ t w, (n.process now i s requester).1 = some (.rejected (.outsideWindow t w))) ↔
      ∃ u, n.Takes s u ∧ ¬ n.Stops u.timeWindow ∧ ¬ n.OpenAt now u.timeWindow) ∧
    ((∃ reason,
        (n.process now i s requester).1 = some (.rejected (.invalidRequestSignature reason))) ↔
      ∃ u, n.Takes s u ∧ n.OpenAt now u.timeWindow ∧ ¬ s.request.Unsignable requester ∧
        ¬ s.request.SignedBy requester) ∧
    ((∃ id k, (n.process now i s requester).1 = some (.rejected (.conflict id k))) ↔
      ∃ u, n.Takes s u ∧ n.OpenAt now u.timeWindow ∧ s.request.SignedBy requester ∧
        ¬ i.Uncontested u.inputs u.id) ∧
    ((∃ reason, (n.process now i s requester).1 = some (.rejected (.failure reason))) ↔
      ∃ u, n.Takes s u ∧ n.OpenAt now u.timeWindow ∧ (s.request.Unsignable requester ∨
        s.request.SignedBy requester ∧ i.Uncontested u.inputs u.id ∧
          ¬ i.Writes u.inputs requester)) ∧
    ((∀ r, (n.process now i s requester).1 ≠ some (.signed r)) →
      (n.process now i s requester).2 = i) := by
  have hd := decision_process hi n now s requester
  -- each way to decide gives one kind of reply, and settles all conditions on the transaction taken
  generalize n.process now i s requester = p at hd ⊢
  cases hd with
  | halted h =>
    cases h with
    | untaken reason ht =>
      have hn : ∀ q : Summary → Prop, ¬ ∃ u, n.Takes s u ∧ q u := fun q ⟨u, hu, _⟩ => ht ⟨u, hu⟩
      simp [Halt.reply, ht, hn]
    | stopped ht hw =>
      simp [Halt.reply, ht.exists_and_iff, ht.exists, hw, mt OpenAt.not_stops (not_not_intro hw)]
    | closed w ht hw ho => simp [Halt.reply, ht.exists_and_iff, ht.exists, hw, ho]
    | unsignable reason ht ho hs =>
      have hn : ¬ s.request.SignedBy requester := fun h => h.not_unsignable hs
      simp [Halt.reply, ht.exists_and_iff, ht.exists, ho, ho.not_stops, hs, hn]
    | unsigned reason ht ho hu hs =>
      simp [Halt.reply, ht.exists_and_iff, ht.exists, ho, ho.not_stops, hu, hs]
  | contested k ht ho hs hc =>
    simp [ht.exists_and_iff, ht.exists, ho, ho.not_stops, hs, hs.not_unsignable, hc]
  | unwritable reason ht ho hs hc hw =>
    simp [ht.exists_and_iff, ht.exists, ho, ho.not_stops, hs, hs.not_unsignable, hc, hw]
  | signed i' ht ho hs hc hw =>
    simp [ht.exists_and_iff, ht.exists, ho, ho.not_stops, hs, hs.not_unsignable, hc, hw, eq_comm]

set_option maxRecDepth 100000 in
theorem process_decides_oneInput :
    (∀ x, ∃ r?, (Index.volatile .empty).lookup x = .ok r?) ∧ ∃ r u,
      ((Call.soleNotary .nonValidating).process ⟨0⟩ (.volatile .empty) Call.oneInputTornOff
        Call.soleParty).1 = some (.signed r) ∧
      (Call.soleNotary .nonValidating).Takes Call.oneInputTornOff u ∧
      Call.oneInputTornOff.request.SignedBy Call.soleParty ∧
      r = (Call.soleNotary .nonValidating).sign u.id := by
  have hi : ∀ x, ∃ r?, (Index.volatile .empty).lookup x = .ok r? := fun x => ⟨none, rfl⟩
  have hok : ((Call.soleNotary .nonValidating).process ⟨0⟩ (.volatile .empty)
      Call.oneInputTornOff Call.soleParty).1.any (·.toExcept.isOk) = true := by
    decide +kernel
  obtain ⟨hsigned, -⟩ := process_decides hi (Call.soleNotary .nonValidating) ⟨0⟩
    Call.oneInputTornOff Call.soleParty
  obtain ⟨r, hr⟩ := Reply.exists_of_isOk hok
  obtain ⟨u, ht, -, hs, -, -, hru⟩ := (hsigned r).1 hr
  exact ⟨hi, r, u, hr, ht, hs, hru⟩

def unyielding : Notary := { Call.soleNotary .validating with
  settings := ⟨.validating, 1, some Instant.lowest⟩ }

/-- Spends one input, from the epoch on. -/
def sinceEpoch : Transaction :=
  ⟨[⟨[Wire.pack Call.soleInput]⟩, ⟨[]⟩, ⟨[]⟩, ⟨[]⟩, ⟨[Wire.pack Call.soleParty]⟩,
    ⟨[Wire.pack (TimeWindow.fromOnly ⟨0⟩)]⟩], Salt.sevens, rfl⟩

/-- The signature on the request does not matter. -/
def sinceEpochSubmission : Submission :=
  ⟨.whole sinceEpoch,
    ⟨⟨[Call.soleInput], sinceEpoch.id⟩, ⟨⟨Call.soleKey.publicKey, ⟨[]⟩⟩, 1⟩⟩⟩

theorem takes_sinceEpoch : unyielding.Takes sinceEpochSubmission
    ⟨sinceEpoch.id, [Call.soleInput], some Call.soleParty, some (.fromOnly ⟨0⟩)⟩ where
  shows := .whole ⟨[], rfl⟩ ⟨[], rfl⟩ ⟨[], rfl⟩ rfl (by decide +kernel) (by decide +kernel)
    (by decide +kernel)
  notary := rfl
  txId := rfl
  states := rfl

/-- The transaction is for the notary and the request for the transaction, and there is no reply. -/
theorem no_reply_sinceEpoch :
    (∃ u, unyielding.Takes sinceEpochSubmission u) ∧
      (unyielding.process ⟨0⟩ (.volatile .empty) sinceEpochSubmission Call.soleParty).1 = none := by
  obtain ⟨he, hm⟩ := takes_iff.1 takes_sinceEpoch
  have hw : unyielding.checkWindow ⟨0⟩ (some (.fromOnly ⟨0⟩)) = .error .stopped := rfl
  have ha : unyielding.accept ⟨0⟩ sinceEpochSubmission Call.soleParty = .error .stopped := by
    simp only [accept, he, hm, hw, Except.mapError, ok_bind, error_bind]
  exact ⟨takes_sinceEpoch.exists, congrArg Prod.fst (process_of_halt ha)⟩

end Notary

end LedgerNotary
