import LedgerNotary.Proofs.Notary.Run
import LedgerNotary.Proofs.Time

/-! Notaries of either mode treat an honest requester alike.

One is sent the whole transaction and reads it from its groups, the other computes their roots again
from a tear-off. Of a transaction that can be read both learn the same, and all that follows depends
on that alone. -/

namespace LedgerNotary

open Outcome

def Notary.inMode (n : Notary) (mode : Mode) : Notary :=
  { n with settings := { n.settings with mode := mode } }

namespace Notary

theorem extract_whole {t : Transaction} (ho : ∃ os, t.visible.outputs = .ok os)
    (hc : ∃ cs, t.visible.commands = .ok cs) (ha : ∃ ds, t.visible.attachments = .ok ds) :
    extract .validating (.whole t) =
      summarise t.id t.visible.inputs t.notary t.timeWindow := by
  obtain ⟨os, ho⟩ := ho
  obtain ⟨cs, hc⟩ := hc
  obtain ⟨ds, ha⟩ := ha
  simp only [extract, summariseWhole, ho, hc, ha, invalid, ok_bind]

theorem extract_tornOff {f : TearOff} (hv : f.verify = .ok ())
    (hk : ∀ k ∈ Submission.revealedKinds, ∃ g, f.revealed? k = some g) :
    extract .nonValidating (.tornOff f) =
      summarise f.id f.visible.inputs f.visible.notary f.visible.timeWindow := by
  have hv' : invalid (f.verify.mapError .tearOff) = .ok () := invalid_eq_ok.2 (mapError_eq_ok.2 hv)
  have hk' : (Submission.revealedKinds.forM fun k => do
      let _ ← invalid (f.visible k)) = .ok () := by
    refine forM_eq_ok.2 fun k hm => ?_
    obtain ⟨g, hg⟩ := hk k hm
    rw [TearOff.visible_eq_ok.2 ⟨g, hg, rfl⟩]
    rfl
  rw [extract, summariseTearOff, hv', ok_bind, hk', ok_bind]

theorem extract_tearOff {t : Transaction} (ho : ∃ os, t.visible.outputs = .ok os)
    (hc : ∃ cs, t.visible.commands = .ok cs) (ha : ∃ ds, t.visible.attachments = .ok ds) :
    extract .nonValidating (.tornOff (t.tearOff Submission.revealedKinds)) =
      extract .validating (.whole t) := by
  obtain ⟨hi, hn, hw⟩ := t.read_tearOff
  have hk : ∀ k ∈ Submission.revealedKinds,
      ∃ g, (t.tearOff Submission.revealedKinds).revealed? k = some g := fun _ h =>
    ⟨_, t.revealed?_tearOff h⟩
  rw [extract_whole ho hc ha, extract_tornOff (t.verified_tearOff _).ok hk, hi, hn, hw]
  rfl

theorem process_inMode (n : Notary) (now : Instant) (i : Index) {modeOfS modeOfF : Mode}
    {s f : Submission} (he : extract modeOfS s.evidence = extract modeOfF f.evidence)
    (hr : s.request = f.request) (requester : Party) :
    (n.inMode modeOfS).process now i s requester =
      (n.inMode modeOfF).process now i f requester := by
  have ha : (n.inMode modeOfS).accept now s requester =
      (n.inMode modeOfF).accept now f requester := by
    change ((extract modeOfS s.evidence).mapError Halt.refused >>= _) =
      ((extract modeOfF f.evidence).mapError Halt.refused >>= _)
    rw [he, hr]
    rfl
  unfold process
  rw [ha]
  rfl

/-- What a requester prepares of a transaction for either mode fails alike, or is answered alike and
leaves the same index behind. -/
theorem process_agree (n : Notary) (now : Instant) (i : Index) {t : Transaction}
    (ho : ∃ os, t.visible.outputs = .ok os) (hc : ∃ cs, t.visible.commands = .ok cs)
    (ha : ∃ ds, t.visible.attachments = .ok ds) (key : KeyPair) (platformVersion : UInt32)
    (requester : Party) :
    (∃ e, ∀ mode, Submission.prepare t mode key platformVersion = .error e) ∨
    ∃ s f, Submission.prepare t .validating key platformVersion = .ok s ∧
      Submission.prepare t .nonValidating key platformVersion = .ok f ∧
      (n.inMode .validating).process now i s requester =
        (n.inMode .nonValidating).process now i f requester := by
  cases hi : t.visible.inputs with
  | error e => exact Or.inl ⟨_, fun _ => by rw [Submission.prepare, hi]⟩
  | ok inputs =>
    cases hr : Request.sign ⟨inputs, t.id⟩ key platformVersion with
    | error e =>
      exact Or.inl ⟨.failure e.message, fun _ => by simp only [Submission.prepare, hi, hr]⟩
    | ok request =>
      refine Or.inr ⟨⟨.whole t, request⟩, ⟨.tornOff (t.tearOff Submission.revealedKinds), request⟩,
        by simp only [Submission.prepare, hi, hr], by simp only [Submission.prepare, hi, hr], ?_⟩
      have he := (extract_tearOff ho hc ha).symm
      exact n.process_inMode (s := ⟨_, request⟩) (f := ⟨_, request⟩) now i he rfl requester

def oneOutput : Transaction :=
  ⟨[⟨[Wire.pack Call.soleInput]⟩, ⟨[Wire.pack (⟨"C", [1]⟩ : OutputState)]⟩, ⟨[]⟩,
    ⟨[Wire.pack Salt.sevens.octets]⟩, ⟨[Wire.pack Call.soleParty]⟩, ⟨[]⟩], Salt.sevens, rfl⟩

theorem process_agree_oneOutput :
    (∃ os, oneOutput.visible.outputs = .ok os) ∧ (∃ cs, oneOutput.visible.commands = .ok cs) ∧
    (∃ ds, oneOutput.visible.attachments = .ok ds) ∧
    ∃ s f, Submission.prepare oneOutput .validating Call.soleKey 1 = .ok s ∧
      Submission.prepare oneOutput .nonValidating Call.soleKey 1 = .ok f ∧
      ((Call.soleNotary .validating).inMode .validating).process ⟨0⟩ (.volatile .empty) s
          Call.soleParty =
        ((Call.soleNotary .validating).inMode .nonValidating).process ⟨0⟩ (.volatile .empty) f
          Call.soleParty := by
  have ho : ∃ os, oneOutput.visible.outputs = .ok os := ⟨[⟨"C", [1]⟩], by decide +kernel⟩
  have hc : ∃ cs, oneOutput.visible.commands = .ok cs := ⟨[], rfl⟩
  have ha : ∃ ds, oneOutput.visible.attachments = .ok ds :=
    ⟨[Salt.sevens.octets], by decide +kernel⟩
  refine ⟨ho, hc, ha, ?_⟩
  rcases process_agree (Call.soleNotary .validating) ⟨0⟩ (.volatile .empty) ho hc ha Call.soleKey 1
    Call.soleParty with ⟨e, he⟩ | h
  · have hi : oneOutput.visible.inputs = .ok [Call.soleInput] := by decide +kernel
    have hr : Request.sign ⟨[Call.soleInput], oneOutput.id⟩ Call.soleKey 1 = .ok _ :=
      Request.sign_eq_ok.2 ⟨rfl, rfl⟩
    have he' := he .validating
    simp [Submission.prepare, hi, hr] at he'
  · exact h

end Notary

/-! What a notary lets through under one tolerance it lets through under any greater one.

No tolerance is the same as one of zero, so notaries with the one and with the other give the same
replies to the same calls. -/

namespace TimeWindow

variable {a b d : Duration} {now : Instant} {window : Option TimeWindow}

theorem checkWithin_eq_ok :
    checkWithin d now window = .ok () ↔ ∀ w ∈ window, w.containsWithin d now = some true := by
  cases window with
  | none => simp [checkWithin]
  | some w =>
    cases h : w.containsWithin d now with
    | none => simp [checkWithin, h]
    | some inside => cases inside <;> simp [checkWithin, h]

theorem checkWithin_mono (hab : a.nanos ≤ b.nanos) (h : checkWithin a now window = .ok ()) :
    checkWithin b now window = .ok () :=
  checkWithin_eq_ok.2 fun w hw => containsWithin_mono hab (checkWithin_eq_ok.1 h w hw)

theorem checkWithin_of_brief (h : d.Brief) (now : Instant) (window : Option TimeWindow) :
    checkWithin d now window = (checkStrictly now window).mapError .refused := by
  cases window with
  | none => rfl
  | some w =>
    simp only [checkWithin, checkStrictly, containsWithin_of_brief h]
    cases w.contains now <;> rfl

theorem checkWithin_zero_eq_ok :
    checkWithin .zero now window = .ok () ↔ checkStrictly now window = .ok () := by
  rw [checkWithin_of_brief Duration.brief_zero, mapError_eq_ok]

end TimeWindow

open TimeWindow

def Notary.tolerating (n : Notary) (tolerance : Option Duration) : Notary :=
  { n with settings := { n.settings with tolerance := tolerance } }

def Call.tolerating (tolerance : Option Duration) (c : Call) : Call :=
  { c with notary := c.notary.tolerating tolerance }

theorem Notary.process_tolerating_brief (n : Notary) {d : Duration} (h : d.Brief) :
    (n.tolerating (some d)).process = (n.tolerating none).process := by
  have hw : (n.tolerating (some d)).checkWindow = (n.tolerating none).checkWindow := by
    funext now window
    exact checkWithin_of_brief h now window
  have ha : (n.tolerating (some d)).accept = (n.tolerating none).accept := by
    unfold accept
    rw [hw]
    rfl
  unfold process
  rw [ha]
  rfl

namespace Call

theorem serve_tolerating_brief {d : Duration} (h : d.Brief) (i : Index) (cs : List Call) :
    serve i (cs.map (tolerating (some d))) = serve i (cs.map (tolerating none)) := by
  induction cs generalizing i with
  | nil => rfl
  | cons c cs ih =>
    have hp : (c.tolerating (some d)).notary.process = (c.tolerating none).notary.process :=
      c.notary.process_tolerating_brief h
    have hone : serveOne i (c.tolerating (some d)) = serveOne i (c.tolerating none) := by
      rw [serveOne, hp]
      rfl
    rw [List.map_cons, List.map_cons, serve, serve, hone, ih]

/-- Whatever the window and the clock, what is accepted under a tolerance is accepted under every
greater one. One of less than a millisecond either way is as good as none, so one that is not
negative accepts all that is accepted without, and a negative one nothing else; and calls of
notaries with a tolerance of zero are answered like calls of notaries with none. -/
theorem tolerance_only_widens :
    (∀ (a b : Duration) (now : Instant) (window : Option TimeWindow), a.nanos ≤ b.nanos →
      checkWithin a now window = .ok () → checkWithin b now window = .ok ()) ∧
    (∀ (d : Duration) (now : Instant) (window : Option TimeWindow), d.nanos.natAbs < 1000000 →
      checkWithin d now window = (checkStrictly now window).mapError .refused) ∧
    (∀ (d : Duration) (now : Instant) (window : Option TimeWindow), 0 ≤ d.nanos →
      checkStrictly now window = .ok () → checkWithin d now window = .ok ()) ∧
    (∀ (d : Duration) (now : Instant) (window : Option TimeWindow), d.nanos < 0 →
      checkWithin d now window = .ok () → checkStrictly now window = .ok ()) ∧
    (∀ n : Notary, (n.tolerating (some .zero)).process = (n.tolerating none).process) ∧
    ∀ (i : Index) (cs : List Call),
      serve i (cs.map (tolerating (some .zero))) = serve i (cs.map (tolerating none)) := by
  refine ⟨fun _ _ _ _ => checkWithin_mono, fun _ now window h => ?_,
    fun _ _ _ hd h => checkWithin_mono hd (checkWithin_zero_eq_ok.2 h),
    fun _ _ _ hd h => checkWithin_zero_eq_ok.1 (checkWithin_mono (Int.le_of_lt hd) h),
    fun n => ?_, fun i cs => ?_⟩
  · exact checkWithin_of_brief h now window
  · exact n.process_tolerating_brief Duration.brief_zero
  · exact serve_tolerating_brief Duration.brief_zero i cs

/-- A window of two milliseconds at the end of time, the clock half a second too late for it, and
tolerances on both sides of what is cut off. -/
theorem tolerance_only_widens_endOfTime :
    let w : TimeWindow := ⟨some ⟨9223372036854775000⟩, some ⟨9223372036854775002⟩⟩
    let now : Instant := ⟨9223372036854775502⟩
    let a : Duration := .ofMillis 501
    let b : Duration := .ofSeconds Int64.maxValue
    checkWithin a now w = .ok () ∧ a.nanos ≤ b.nanos ∧ checkWithin b now w = .ok () ∧
      checkWithin ⟨-999999, by decide⟩ now w = (checkStrictly now w).mapError .refused ∧
      checkWithin ⟨-1000000, by decide⟩ ⟨9223372036854775001⟩ w ≠ .ok () := by
  intro w now a b
  obtain ⟨hmono, hbrief, -⟩ := tolerance_only_widens
  have ha : checkWithin a now w = .ok () := by decide
  have hab : a.nanos ≤ b.nanos := by decide
  exact ⟨ha, hab, hmono a b now w hab ha, hbrief ⟨-999999, by decide⟩ now w (by decide),
    by decide⟩

end Call

end LedgerNotary
