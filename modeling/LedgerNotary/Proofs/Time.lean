import LedgerNotary.Time

/-! Where a shift by a duration leads.

The milliseconds of a shift are cut to 64 bits before they are added, and the sum is cut again. That
is as good as to cut the exact sum, except for a shift that is too long for 64 bits and leads across
the epoch: it falls short by what was cut off, or ends within the range where it should reach its
end. A shift backwards goes by the opposite duration, which the lowest durations do not have. -/

namespace LedgerNotary

def FitsInt128 (n : Int) : Prop :=
  -170141183460469231731687303715884105728 ≤ n ∧ n ≤ 170141183460469231731687303715884105727

/-- The number of 64 bits that is nearest. -/
def nearestInt64 (n : Int) : Int := max (-9223372036854775808) (min n 9223372036854775807)

theorem fitsInt64_toInt (n : Int64) : FitsInt64 n.toInt := by
  have hmin := n.le_toInt
  have hmax := n.toInt_lt
  exact ⟨by omega, by omega⟩

/-- What is cut before it is added to a number ends where the exact sum does, unless it is too long
and the two have different signs. -/
theorem nearestInt64_add_nearestInt64 {t m : Int} (ht : FitsInt64 t) :
    nearestInt64 (t + nearestInt64 m) = nearestInt64 (t + m) ↔
      FitsInt64 m ∨ (0 ≤ t ∧ 0 ≤ m) ∨ (t ≤ 0 ∧ m ≤ 0) := by
  obtain ⟨hmin, hmax⟩ := ht
  -- What is cut off only shows if the sum comes back from beyond the end toward which it was cut.
  unfold nearestInt64 FitsInt64
  omega

namespace Duration

variable {d e : Duration} {n : Int}

theorem ofNanos?_eq_some : ofNanos? n = some d ↔ d.nanos = n := by
  unfold ofNanos?
  split
  · next h =>
    cases d
    simp [eq_comm]
  · next h =>
    refine iff_of_false nofun ?_
    rintro rfl
    exact h d.fits

theorem neg?_eq_some : d.neg? = some e ↔ e.nanos = -d.nanos := ofNanos?_eq_some

theorem wholeMillis_of_neg? (h : d.neg? = some e) : e.wholeMillis = -d.wholeMillis := by
  rw [wholeMillis, neg?_eq_some.1 h]
  exact Int.neg_tdiv ..

theorem exists_neg?_iff : (∃ e, d.neg? = some e) ↔ d.wholeSeconds ≠ -9223372036854775808 := by
  have hneg : (-d.nanos).tdiv 1000000000 = -d.wholeSeconds := Int.neg_tdiv ..
  have hfits : FitsInt64 d.wholeSeconds := d.fits
  constructor
  · rintro ⟨e, he⟩ hs
    have hmax := e.fits.2
    rw [neg?_eq_some.1 he, hneg, hs] at hmax
    exact absurd hmax (by decide)
  · intro hs
    unfold FitsInt64 at hfits
    exact ⟨⟨-d.nanos, by rw [hneg]; exact ⟨by omega, by omega⟩⟩, neg?_eq_some.2 rfl⟩

theorem fitsInt128_wholeMillis (d : Duration) : FitsInt128 d.wholeMillis := by
  have hs : d.wholeSeconds.natAbs = d.nanos.natAbs / 1000000000 := Int.natAbs_tdiv ..
  have hm : d.wholeMillis.natAbs = d.nanos.natAbs / 1000000 := Int.natAbs_tdiv ..
  obtain ⟨hmin, hmax⟩ : FitsInt64 d.wholeSeconds := d.fits
  unfold FitsInt128
  omega

end Duration

namespace Instant

variable {s t : Instant} {d : Duration}

theorem le_iff {a b : Instant} : a ≤ b ↔ a.millis.toInt ≤ b.millis.toInt := Int64.le_iff_toInt_le

theorem lt_iff {a b : Instant} : a < b ↔ a.millis.toInt < b.millis.toInt := Int64.lt_iff_toInt_lt

theorem not_le {a b : Instant} : ¬ b ≤ a ↔ a < b := by rw [le_iff, lt_iff, Int.not_le]

theorem toInt_later (t : Instant) (d : Duration) : (t.later d).millis.toInt =
    nearestInt64 (t.millis.toInt + nearestInt64 d.wholeMillis) := by
  rw [later, addSaturating, toInt_saturate, toInt_saturate]
  rfl

theorem earlier_eq_some : t.earlier d = some s ↔ ∃ e, d.neg? = some e ∧ t.later e = s :=
  Option.map_eq_some_iff

theorem toInt_of_earlier (h : t.earlier d = some s) : s.millis.toInt =
    nearestInt64 (t.millis.toInt + nearestInt64 (-d.wholeMillis)) := by
  obtain ⟨e, he, rfl⟩ := earlier_eq_some.1 h
  rw [toInt_later, Duration.wholeMillis_of_neg? he]

theorem exists_earlier_iff :
    (∃ s, t.earlier d = some s) ↔ d.wholeSeconds ≠ -9223372036854775808 := by
  rw [← Duration.exists_neg?_iff]
  constructor
  · rintro ⟨s, hs⟩
    obtain ⟨e, he, -⟩ := earlier_eq_some.1 hs
    exact ⟨e, he⟩
  · rintro ⟨e, he⟩
    exact ⟨t.later e, earlier_eq_some.2 ⟨e, he, rfl⟩⟩

/-- The milliseconds can be gone from an instant in one step: they fit 64 bits, or they do not lead
across the epoch. -/
def InReach (t : Instant) (m : Int) : Prop :=
  FitsInt64 m ∨ (0 ≤ t.millis.toInt ∧ 0 ≤ m) ∨ (t.millis.toInt ≤ 0 ∧ m ≤ 0)

theorem later_exact_iff :
    (t.later d).millis.toInt = nearestInt64 (t.millis.toInt + d.wholeMillis) ↔
      t.InReach d.wholeMillis := by
  rw [toInt_later]
  exact nearestInt64_add_nearestInt64 (fitsInt64_toInt t.millis)

theorem earlier_exact_iff (h : t.earlier d = some s) :
    s.millis.toInt = nearestInt64 (t.millis.toInt - d.wholeMillis) ↔
      t.InReach (-d.wholeMillis) := by
  rw [toInt_of_earlier h, Int.sub_eq_add_neg]
  exact nearestInt64_add_nearestInt64 (fitsInt64_toInt t.millis)

/-- A shift ends at the exact sum, or at the end of the range that is nearest to it, exactly if its
milliseconds are in reach. Those of any duration fit 128 bits; and an instant can be set back by any
duration but those with the lowest number of seconds. -/
theorem shift_exact_iff (t : Instant) (d : Duration) :
    FitsInt128 d.wholeMillis ∧
    (t.later d).millis.toInt = nearestInt64 (t.millis.toInt + nearestInt64 d.wholeMillis) ∧
    ((t.later d).millis.toInt = nearestInt64 (t.millis.toInt + d.wholeMillis) ↔
      t.InReach d.wholeMillis) ∧
    ((∃ s, t.earlier d = some s) ↔ d.wholeSeconds ≠ -9223372036854775808) ∧
    ∀ s, t.earlier d = some s →
      s.millis.toInt = nearestInt64 (t.millis.toInt + nearestInt64 (-d.wholeMillis)) ∧
      (s.millis.toInt = nearestInt64 (t.millis.toInt - d.wholeMillis) ↔
        t.InReach (-d.wholeMillis)) :=
  ⟨d.fitsInt128_wholeMillis, toInt_later t d, later_exact_iff, exists_earlier_iff,
    fun _ h => ⟨toInt_of_earlier h, earlier_exact_iff h⟩⟩

/-- One millisecond more than 64 bits hold. -/
def overlong : Duration := ⟨9223372036854775808000000, by decide⟩

def lowest : Duration := .ofSeconds Int64.minValue

theorem shift_exact_iff_overlong :
    (later ⟨-1⟩ overlong).millis.toInt = 9223372036854775806 ∧
      ¬ InReach ⟨-1⟩ overlong.wholeMillis ∧
      ∃ s, earlier ⟨-1⟩ overlong = some s ∧
        s.millis.toInt = nearestInt64 (-1 - overlong.wholeMillis) := by
  obtain ⟨-, hlater, hreach, hback, hearlier⟩ := shift_exact_iff ⟨-1⟩ overlong
  have hvalue : (later ⟨-1⟩ overlong).millis.toInt = 9223372036854775806 := by
    rw [hlater]
    decide
  obtain ⟨s, hs⟩ := hback.2 (by decide)
  refine ⟨hvalue, fun h => ?_, s, hs, (hearlier s hs).2.2 (.inl (by decide))⟩
  have hexact := hreach.2 h
  rw [hvalue] at hexact
  exact absurd hexact (by decide)

/-- From just before the epoch a shift that is too long ends one millisecond before the end of the
range, which the exact sum reaches; and no instant can be set back by the lowest duration. -/
theorem later_overlong_ne :
    (later ⟨-1⟩ overlong).millis.toInt ≠ nearestInt64 (-1 + overlong.wholeMillis) ∧
      earlier ⟨-1⟩ lowest = none := by
  decide

end Instant

/-! The greater the tolerance, the wider the window, also where the sum would leave the range of 64
bits and is cut off. A tolerance of less than a millisecond either way leaves the window as it
is. -/

namespace Duration

variable {d e : Duration}

theorem wholeMillis_le (h : d.nanos ≤ e.nanos) : d.wholeMillis ≤ e.wholeMillis :=
  Int.tdiv_le_tdiv (by decide) h

theorem exists_neg?_of_le (h : d.nanos ≤ e.nanos) {d' : Duration} (hd : d.neg? = some d') :
    ∃ e', e.neg? = some e' := by
  have hs : d.wholeSeconds ≤ e.wholeSeconds := Int.tdiv_le_tdiv (by decide) h
  have hne := exists_neg?_iff.1 ⟨d', hd⟩
  obtain ⟨hmin, -⟩ : FitsInt64 d.wholeSeconds := d.fits
  exact exists_neg?_iff.2 (by omega)

/-- Less than a millisecond, forward or backward. -/
def Brief (d : Duration) : Prop := d.nanos.natAbs < 1000000

theorem brief_zero : Brief zero := Nat.zero_lt_succ _

theorem Brief.wholeMillis_eq (h : d.Brief) : d.wholeMillis = 0 := by
  have hm : d.wholeMillis.natAbs = d.nanos.natAbs / 1000000 := Int.natAbs_tdiv ..
  rwa [Nat.div_eq_of_lt h, Int.natAbs_eq_zero] at hm

theorem Brief.exists_neg? (h : d.Brief) : ∃ e, d.neg? = some e ∧ e.Brief := by
  have hs : d.wholeSeconds.natAbs = d.nanos.natAbs / 1000000000 := Int.natAbs_tdiv ..
  unfold Brief at h ⊢
  obtain ⟨e, he⟩ : ∃ e, d.neg? = some e := exists_neg?_iff.2 (by omega)
  exact ⟨e, he, by rwa [neg?_eq_some.1 he, Int.natAbs_neg]⟩

end Duration

namespace Instant

variable {d e : Duration}

theorem later_mono (t : Instant) (h : d.wholeMillis ≤ e.wholeMillis) : t.later d ≤ t.later e := by
  rw [le_iff, toInt_later, toInt_later]
  unfold nearestInt64
  omega

theorem later_of_brief (t : Instant) (h : d.Brief) : t.later d = t := by
  obtain ⟨hmin, hmax⟩ := fitsInt64_toInt t.millis
  have hm : (t.later d).millis = t.millis := by
    rw [← Int64.toInt_inj, toInt_later, h.wholeMillis_eq]
    unfold nearestInt64
    omega
  cases t
  exact congrArg Instant.mk hm

theorem earlier_of_brief (t : Instant) (h : d.Brief) : t.earlier d = some t := by
  obtain ⟨e, he, hbrief⟩ := h.exists_neg?
  exact earlier_eq_some.2 ⟨e, he, t.later_of_brief hbrief⟩

end Instant

namespace TimeWindow

variable {a b tolerance : Duration} {w : TimeWindow} {t : Instant}

theorem containsWithin_eq_true : w.containsWithin tolerance t = some true ↔
    (∀ a, w.fromTime = some a → ∃ s, a.earlier tolerance = some s ∧ s ≤ t) ∧
      ∀ b, w.untilTime = some b → t < b.later tolerance := by
  obtain ⟨_ | a, b?⟩ := w
  · simp [containsWithin, Option.all_eq_true]
  · cases hs : a.earlier tolerance <;> simp [containsWithin, hs, Option.all_eq_true]

theorem containsWithin_mono (hab : a.nanos ≤ b.nanos) (h : w.containsWithin a t = some true) :
    w.containsWithin b t = some true := by
  obtain ⟨hstart, hend⟩ := containsWithin_eq_true.1 h
  refine containsWithin_eq_true.2 ⟨fun u hu => ?_, fun u hu => ?_⟩
  · obtain ⟨s, hs, hst⟩ := hstart u hu
    obtain ⟨a', ha, rfl⟩ := Instant.earlier_eq_some.1 hs
    obtain ⟨b', hb⟩ := Duration.exists_neg?_of_le hab ha
    have hmillis : b'.wholeMillis ≤ a'.wholeMillis := by
      have hle := Duration.wholeMillis_le hab
      rw [Duration.wholeMillis_of_neg? ha, Duration.wholeMillis_of_neg? hb]
      omega
    have hle := Instant.le_iff.1 (u.later_mono hmillis)
    exact ⟨u.later b', Instant.earlier_eq_some.2 ⟨b', hb, rfl⟩,
      Instant.le_iff.2 (Int.le_trans hle (Instant.le_iff.1 hst))⟩
  · have hle := Instant.le_iff.1 (u.later_mono (Duration.wholeMillis_le hab))
    exact Instant.lt_iff.2 (Int.lt_of_lt_of_le (Instant.lt_iff.1 (hend u hu)) hle)

theorem containsWithin_of_brief (h : tolerance.Brief) (w : TimeWindow) (t : Instant) :
    w.containsWithin tolerance t = some (w.contains t) := by
  obtain ⟨_ | a, b?⟩ := w <;>
    simp only [containsWithin, contains, Instant.later_of_brief _ h, Instant.earlier_of_brief _ h,
      Option.map_some] <;>
    rfl

/-- Only a window that begins at some instant can fail to be widened. -/
theorem containsWithin_eq_none : w.containsWithin tolerance t = none ↔
    tolerance.wholeSeconds = -9223372036854775808 ∧ ∃ a, w.fromTime = some a := by
  obtain ⟨_ | a, b?⟩ := w
  · simp [containsWithin]
  · have hback := Instant.exists_earlier_iff (t := a) (d := tolerance)
    cases hs : a.earlier tolerance with
    | none => simpa [containsWithin, hs] using hback
    | some s => simpa [containsWithin, hs] using hback

end TimeWindow

/-! Which windows are accepted, and where the middle of a window lies.

The middle is cut off toward zero: after the epoch that is toward the beginning of a window, before
the epoch toward its end, which is not part of the window. A window of two milliseconds or more has
room for that. So a window contains its middle unless it is a single millisecond long and ends at
the epoch or before. -/

/-- Half of the sum of two numbers, cut off toward zero, lies between them; it is the greater one
only if that one comes next and is not above zero. -/
theorem half_sum_cases {a b : Int} (h : a < b) :
    a ≤ (a + b).tdiv 2 ∧ (a + b).tdiv 2 ≤ b ∧ ((a + b).tdiv 2 = b ↔ b = a + 1 ∧ b ≤ 0) := by
  rcases Int.le_total 0 (a + b) with hs | hs
  · rw [Int.tdiv_eq_ediv_of_nonneg hs]
    omega
  · have hneg : (-(a + b)).tdiv 2 = -(a + b) / 2 := Int.tdiv_eq_ediv_of_nonneg (by omega)
    rw [Int.neg_tdiv] at hneg
    omega

namespace TimeWindow

variable {w : TimeWindow} {a b t : Instant} {tolerance : Duration}

structure Sound (w : TimeWindow) : Prop where
  bounded : w.fromTime ≠ none ∨ w.untilTime ≠ none
  ordered : ∀ a b, w.fromTime = some a → w.untilTime = some b → a < b

theorem validate_eq_ok : w.validate = .ok () ↔ w.Sound := by
  obtain ⟨a?, b?⟩ := w
  constructor
  · intro h
    refine ⟨?_, ?_⟩
    · rcases a? with _ | a <;> rcases b? with _ | b <;> simp [validate] at h ⊢
    · rintro a b rfl rfl
      exact Instant.not_le.1 fun hle => by simp [validate, hle] at h
  · rintro ⟨hbounded, hordered⟩
    rcases a? with _ | a <;> rcases b? with _ | b
    · simp at hbounded
    · rfl
    · rfl
    · have hle : ¬ b ≤ a := Instant.not_le.2 (hordered a b rfl rfl)
      simp [validate, hle]

inductive Accepted (w : TimeWindow) : Prop
  | between {a b : Instant} (h : between a b = .ok w)
  | around {t : Instant} {tolerance : Duration} (h : around t tolerance = some (.ok w))
  | validate (h : w.validate = .ok ())

theorem between_eq_ok : between a b = .ok w ↔ a < b ∧ w = ⟨some a, some b⟩ := by
  unfold between
  split
  · rename_i hle
    simp [← Instant.not_le, hle]
  · rename_i hle
    simp [Instant.not_le.1 hle, eq_comm]

theorem around_eq_ok : around t tolerance = some (.ok w) ↔
    ∃ s, t.earlier tolerance = some s ∧ s < t.later tolerance ∧
      w = ⟨some s, some (t.later tolerance)⟩ := by
  rw [around, Option.map_eq_some_iff]
  exact exists_congr fun s => and_congr_right fun _ => between_eq_ok

theorem Accepted.lt (h : Accepted ⟨some a, some b⟩) : a < b := by
  have ordered : ∀ {c d : Instant},
      c < d ∧ (⟨some a, some b⟩ : TimeWindow) = ⟨some c, some d⟩ → a < b := by
    rintro c d ⟨hlt, he⟩
    cases he
    exact hlt
  cases h with
  | between h => exact ordered (between_eq_ok.1 h)
  | around h =>
    obtain ⟨s, -, hs⟩ := around_eq_ok.1 h
    exact ordered hs
  | validate h => exact (validate_eq_ok.1 h).ordered a b rfl rfl

theorem fitsInt128_sum (a b : Instant) : FitsInt128 (a.millis.toInt + b.millis.toInt) := by
  obtain ⟨hmin, hmax⟩ := fitsInt64_toInt a.millis
  obtain ⟨hmin', hmax'⟩ := fitsInt64_toInt b.millis
  exact ⟨by omega, by omega⟩

theorem exists_midpoint (h : a < b) :
    ∃ m, midpoint ⟨some a, some b⟩ = some m ∧
      m.millis.toInt = (a.millis.toInt + b.millis.toInt).tdiv 2 := by
  obtain ⟨hmin, -⟩ := fitsInt64_toInt a.millis
  obtain ⟨-, hmax⟩ := fitsInt64_toInt b.millis
  obtain ⟨hle, hge, -⟩ := half_sum_cases (Instant.lt_iff.1 h)
  exact ⟨_, rfl, Int64.toInt_ofInt_of_le (by omega) (by omega)⟩

/-- The window is a single millisecond long and ends at the epoch or before. -/
def Cramped (a b : Instant) : Prop :=
  b.millis.toInt = a.millis.toInt + 1 ∧ b.millis.toInt ≤ 0

theorem contains_iff_not_cramped {m : Instant} (h : a < b)
    (hm : m.millis.toInt = (a.millis.toInt + b.millis.toInt).tdiv 2) :
    (a ≤ m ∧ m ≤ b) ∧ (contains ⟨some a, some b⟩ m = true ↔ ¬ Cramped a b) := by
  obtain ⟨hle, hge, hend⟩ := half_sum_cases (Instant.lt_iff.1 h)
  rw [← hm] at hle hge hend
  refine ⟨⟨Instant.le_iff.2 hle, Instant.le_iff.2 hge⟩, ?_⟩
  simp only [contains, Option.all_some, Bool.and_eq_true, decide_eq_true_eq, Instant.le_iff,
    Instant.lt_iff, Cramped]
  omega

/-- A window that reaches as far to either side of an instant has an even length, unless one end is
cut off. -/
theorem around_cramped_iff (h : around t tolerance = some (.ok ⟨some a, some b⟩)) :
    Cramped a b ↔ t.millis = Int64.minValue ∧ tolerance.wholeMillis = 1 := by
  obtain ⟨s, hs, hlt, he⟩ := around_eq_ok.1 h
  cases he
  obtain ⟨hmin, hmax⟩ := fitsInt64_toInt t.millis
  have hne := Instant.lt_iff.1 hlt
  rw [Cramped, ← Int64.toInt_inj, show Int64.minValue.toInt = -9223372036854775808 from rfl]
  rw [Instant.toInt_of_earlier hs, Instant.toInt_later] at hne ⊢
  unfold nearestInt64 at hne ⊢
  omega

/-- An accepted window has a middle that fits, and contains it unless it is a single millisecond
that ends at the epoch or before. Of the windows around an instant this is only the one that reaches
one millisecond to either side of the lowest instant. -/
theorem contains_midpoint_iff (h : Accepted ⟨some a, some b⟩) :
    ∃ m, midpoint ⟨some a, some b⟩ = some m ∧
      FitsInt128 (a.millis.toInt + b.millis.toInt) ∧
      m.millis.toInt = (a.millis.toInt + b.millis.toInt).tdiv 2 ∧
      (a ≤ m ∧ m ≤ b) ∧
      (contains ⟨some a, some b⟩ m = true ↔ ¬ Cramped a b) ∧
      ∀ t tolerance, around t tolerance = some (.ok ⟨some a, some b⟩) →
        (Cramped a b ↔ t.millis = Int64.minValue ∧ tolerance.wholeMillis = 1) := by
  obtain ⟨m, hmid, hm⟩ := exists_midpoint h.lt
  obtain ⟨hbetween, hc⟩ := contains_iff_not_cramped h.lt hm
  exact ⟨m, hmid, fitsInt128_sum a b, hm, hbetween, hc, fun _ _ => around_cramped_iff⟩

/-- The lowest instant and the millisecond to either side of it. -/
theorem contains_midpoint_iff_lowest :
    let lowest : Instant := ⟨Int64.minValue⟩
    let next : Instant := ⟨-9223372036854775807⟩
    Accepted ⟨some lowest, some next⟩ ∧ Cramped lowest next ∧
      midpoint ⟨some lowest, some next⟩ = some next ∧
      contains ⟨some lowest, some next⟩ next = false := by
  intro lowest next
  have ha : around lowest (.ofMillis 1) = some (.ok ⟨some lowest, some next⟩) := rfl
  have hw : Accepted ⟨some lowest, some next⟩ := .around ha
  obtain ⟨m, hmid, -, -, -, hcontains, haround⟩ := contains_midpoint_iff hw
  have hc : Cramped lowest next := (haround _ _ ha).2 ⟨rfl, rfl⟩
  obtain rfl : m = next := Option.some.inj hmid.symm
  exact ⟨hw, hc, hmid, Bool.eq_false_iff.2 fun h => hcontains.1 h hc⟩

/-- The last millisecond before the epoch ends with its own middle. -/
theorem not_contains_midpoint_lastBeforeEpoch :
    let w : TimeWindow := ⟨some ⟨-1⟩, some ⟨0⟩⟩
    between ⟨-1⟩ ⟨0⟩ = .ok w ∧ w.validate = .ok () ∧
      w.midpoint = some ⟨0⟩ ∧ w.contains ⟨0⟩ = false :=
  ⟨rfl, rfl, rfl, rfl⟩

end TimeWindow

end LedgerNotary
