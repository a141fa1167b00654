import LedgerNotary.Proofs.Notary.Run

/-! No state is spent by two transactions that notaries on one index have signed.

Transactions with different identifiers are kept apart by the index. Under one identifier a
malicious requester may submit tear-offs of their own making. But the notary group opens at a single
leaf, so the tear-offs agree on how high the tree over the group roots is, and then on the
inputs. -/

namespace LedgerNotary

open Merkle Commitment Outcome

variable {ss : List Bytes}

namespace Visible

theorem notary_eq_some {v : Visible} {p : Party} (h : v.notary = .ok (some p)) :
    ∃ cs, v .notary = .ok cs ∧ cs.length = 1 := by
  obtain ⟨as, ha, hl⟩ := bind_eq_ok.1 h
  obtain ⟨cs, hc, hlen, -⟩ := decodeAll_eq_ok ha
  simp only [throw_eq_error, pure_eq_ok, error_bind, ite_error_eq_ok, Except.ok.injEq] at hl
  have hpos : 0 < as.length := List.length_pos_iff.2 fun h => by simp [h] at hl
  exact ⟨cs, hc, by omega⟩

end Visible

namespace Evidence

/-- The tear-off that an evidence amounts to, if only a non-validating notary looks at it. -/
def tearOff : Evidence → TearOff
  | .whole tx => tx.tearOff Submission.revealedKinds
  | .tornOff f => f

def strings : Evidence → List Bytes
  | .whole tx => tx.idStrings
  | .tornOff f => f.strings

theorem of_extract {mode : Mode} {e : Evidence} {u : Summary}
    (h : Notary.extract mode e = .ok u) : e.tearOff.Verified e.strings ∧ u.id = e.tearOff.id ∧
      e.tearOff.visible.inputs = .ok u.inputs ∧ e.tearOff.visible.notary = .ok u.notary := by
  cases Notary.extract_eq_ok.1 h with
  | @whole t _ _ _ _ hid hi hn _ =>
    obtain ⟨hi', hn', -⟩ := t.read_tearOff
    exact ⟨t.verified_tearOff _, hid, hi'.trans hi, hn'.trans hn⟩
  | tornOff hv _ hid hi hn _ => exact ⟨⟨hv, List.Subset.refl _⟩, hid, hi, hn⟩

end Evidence

namespace TearOff

theorem Verified.inputs_eq (free : ¬ Collision ss) {f e : TearOff} (hf : f.Verified ss)
    (he : e.Verified ss) (hid : f.id = e.id) {p q : Party} (hfn : f.visible.notary = .ok (some p))
    (hen : e.visible.notary = .ok (some q)) {as bs : List StateRef}
    (ha : f.visible.inputs = .ok as) (hb : e.visible.inputs = .ok bs) :
    ∀ x, x ∈ as ↔ x ∈ bs := by
  have single : ∀ {h : TearOff} {r : Party}, h.Verified ss → h.visible.notary = .ok (some r) →
      ∃ g, h.revealed? .notary = some g ∧ g.content.leafStrings.length = 1 := by
    intro h r hh hn
    obtain ⟨cs, hc, hl⟩ := Visible.notary_eq_some hn
    obtain ⟨g, hg, rfl⟩ := visible_eq_ok.1 hc
    obtain ⟨d, -, hd, -⟩ := hh.content hg
    exact ⟨g, hg, by rw [RevealedContent.length_leafStrings hd, hl]; rfl⟩
  obtain ⟨g, hg, hgl⟩ := single hf hfn
  obtain ⟨g', hg', hgl'⟩ := single he hen
  have hh := Nat.le_antisymm (he.height_le free hf hid.symm hg' hgl')
    (hf.height_le free he hid hg hgl)
  obtain ⟨cs, hc, -, hca⟩ := Visible.decodeAll_eq_ok ha
  obtain ⟨ds, hd, -, hdb⟩ := Visible.decodeAll_eq_ok hb
  obtain ⟨i, hi, rfl⟩ := visible_eq_ok.1 hc
  obtain ⟨j, hj, rfl⟩ := visible_eq_ok.1 hd
  have hshown : ∀ c, c ∈ i.content.shown ↔ c ∈ j.content.shown := by
    obtain ⟨_, -, hri, -⟩ := hf.content hi
    obtain ⟨_, -, hrj, -⟩ := he.content hj
    have hp := (hf.pad_openings_eq free he hid hh hi hj).1
    intro c
    rw [← RevealedContent.map_fst_openings hri, ← RevealedContent.map_fst_openings hrj,
      ← mem_pad, ← map_pad, hp, map_pad, mem_pad]
  intro x
  rw [hca, hdb]
  exact exists_congr fun c => and_congr_left fun _ => hshown c

end TearOff

namespace Call

/-- Two signed calls on one index, whatever it held at first: for different transactions they have
no input in common, and for one transaction they have the same inputs. -/
theorem no_double_spend {i : Index} {cs : List Call} {m n : Nat} {c d : Call} {r s : Response}
    (hc : cs[m]? = some c) (hd : cs[n]? = some d)
    (hr : (serve i cs).1[m]? = some (some (.signed r)))
    (hs : (serve i cs).1[n]? = some (some (.signed s))) :
    ∃ u v, c.summary = .ok u ∧ d.summary = .ok v ∧ r = c.notary.sign u.id ∧
      s = d.notary.sign v.id ∧ (u.id ≠ v.id → u.inputs.Disjoint v.inputs) ∧
      (u.id = v.id → (∀ x, x ∈ u.inputs ↔ x ∈ v.inputs) ∨
        Collision (c.submission.evidence.strings ++ d.submission.evidence.strings)) := by
  obtain ⟨u, hu, hru, -⟩ := exists_of_signed hr hc
  obtain ⟨v, hv, hsv, -⟩ := exists_of_signed hs hd
  obtain ⟨hue, hum, -, -⟩ := Notary.accept_eq_ok.1 hu
  obtain ⟨hve, hvm, -, -⟩ := Notary.accept_eq_ok.1 hv
  refine ⟨u, v, hue, hve, hru, hsv, fun hne x hx hx' => ?_, fun hid => ?_⟩
  · rcases Nat.lt_trichotomy m n with hmn | rfl | hmn
    · exact hne (id_eq_of_signed hmn hr hs hc hd hu hv hx hx')
    · obtain rfl := Option.some.inj (hc.symm.trans hd)
      exact hne (congrArg Summary.id (Except.ok.inj (hu.symm.trans hv)))
    · exact hne (id_eq_of_signed hmn hs hr hd hc hv hu hx' hx).symm
  · by_cases free : Collision
        (c.submission.evidence.strings ++ d.submission.evidence.strings)
    · exact Or.inr free
    · obtain ⟨hcV, hci, hcin, hcn⟩ := Evidence.of_extract hue
      obtain ⟨hdV, hdi, hdin, hdn⟩ := Evidence.of_extract hve
      rw [(Notary.checkMatches_eq_ok.1 hum).1] at hcn
      rw [(Notary.checkMatches_eq_ok.1 hvm).1] at hdn
      exact Or.inl ((hcV.mono (List.subset_append_left _ _)).inputs_eq free
        (hdV.mono (List.subset_append_right _ _)) (by rw [← hci, ← hdi, hid]) hcn hdn hcin hdin)

/-- The transaction is sent whole to a validating notary, then torn off to another one. -/
def wholeThenTornOff : List Call :=
  [⟨soleNotary .validating, ⟨0⟩, ⟨.whole oneInput, oneInputRequest⟩, soleParty⟩,
    ⟨soleNotary .nonValidating, ⟨0⟩, oneInputTornOff, soleParty⟩]

set_option maxRecDepth 100000 in
theorem no_double_spend_wholeThenTornOff : ∃ r s c d u v,
    (serve (.volatile .empty) wholeThenTornOff).1 = [some (.signed r), some (.signed s)] ∧
      wholeThenTornOff = [c, d] ∧ c.summary = .ok u ∧ d.summary = .ok v ∧
      (u.id ≠ v.id → u.inputs.Disjoint v.inputs) ∧
      (u.id = v.id → (∀ x, x ∈ u.inputs ↔ x ∈ v.inputs) ∨
        Collision (c.submission.evidence.strings ++ d.submission.evidence.strings)) := by
  have hok : ∀ p? ∈ (serve (.volatile .empty) wholeThenTornOff).1,
      p?.any (·.toExcept.isOk) = true := by
    decide +kernel
  obtain ⟨hr, hs, -⟩ : _ ∧ _ ∧ _ := by
    simpa only [wholeThenTornOff, serve_cons_fst, List.forall_mem_cons] using hok
  obtain ⟨r, hr⟩ := Reply.exists_of_isOk hr
  obtain ⟨s, hs⟩ := Reply.exists_of_isOk hs
  have hrs : (serve (.volatile .empty) wholeThenTornOff).1 =
      [some (.signed r), some (.signed s)] := by
    rw [wholeThenTornOff, serve_cons_fst, serve_cons_fst, hr, hs]
    rfl
  obtain ⟨u, v, hu, hv, -, -, h⟩ := no_double_spend (m := 0) (n := 1) rfl rfl
    (by rw [hrs]; rfl) (by rw [hrs]; rfl)
  exact ⟨r, s, _, _, u, v, hrs, rfl, hu, hv, h⟩

end Call

end LedgerNotary
