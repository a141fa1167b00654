import LedgerNotary.Value

/-! Instants in milliseconds since the Unix epoch, and durations to the nanosecond. Shifting an
instant stops at the ends of the range of 64 bits. -/

namespace LedgerNotary

structure Instant where
  millis : Int64
deriving DecidableEq

def FitsInt64 (n : Int) : Prop := -9223372036854775808 ≤ n ∧ n ≤ 9223372036854775807

instance (n : Int) : Decidable (FitsInt64 n) :=
  inferInstanceAs (Decidable (-9223372036854775808 ≤ n ∧ n ≤ 9223372036854775807))

/-- Cutting off toward zero, up to a second more or less makes no difference. -/
theorem fitsInt64_tdiv {n : Int} (hmin : -9223372036854775809000000000 < n)
    (hmax : n < 9223372036854775808000000000) : FitsInt64 (n.tdiv 1000000000) := by
  rcases Int.le_total 0 n with hn | hn
  · rw [Int.tdiv_eq_ediv_of_nonneg hn]
    exact ⟨by omega, by omega⟩
  · have hneg : (-n).tdiv 1000000000 = -n / 1000000000 := Int.tdiv_eq_ediv_of_nonneg (by omega)
    rw [Int.neg_tdiv] at hneg
    exact ⟨by omega, by omega⟩

/-- A length of time, possibly negative, as its exact number of nanoseconds. Its whole seconds are a
number of 64 bits. -/
structure Duration where
  nanos : Int
  fits : FitsInt64 (nanos.tdiv 1000000000)
deriving DecidableEq

namespace Duration

def ofNanos? (n : Int) : Option Duration :=
  if h : FitsInt64 (n.tdiv 1000000000) then some ⟨n, h⟩ else none

def ofSeconds (n : Int64) : Duration where
  nanos := n.toInt * 1000000000
  fits := by
    have hmin := n.le_toInt
    have hmax := n.toInt_lt
    exact fitsInt64_tdiv (by omega) (by omega)

def ofMillis (n : Int64) : Duration where
  nanos := n.toInt * 1000000
  fits := by
    have hmin := n.le_toInt
    have hmax := n.toInt_lt
    exact fitsInt64_tdiv (by omega) (by omega)

def zero : Duration := ⟨0, by decide⟩

def wholeSeconds (d : Duration) : Int := d.nanos.tdiv 1000000000

/-- The whole milliseconds, cut off toward zero. -/
def wholeMillis (d : Duration) : Int := d.nanos.tdiv 1000000

/-- The opposite duration. There is one more second below zero than above, so a duration with the
lowest number of seconds has none, and who asks for it is stopped. -/
def neg? (d : Duration) : Option Duration := ofNanos? (-d.nanos)

/-- Seconds and less than a second in nanoseconds, written with one sign and read with any. -/
instance : JsonForm Duration where
  toJson d := .arr [.int d.wholeSeconds, .int (d.nanos.tmod 1000000000)]
  fromJson v := do
    let (seconds, nanos) ← (Json.tuple 2 fun r =>
      Prod.mk <$> r.fieldBy (Json.intBetween (-9223372036854775808) 9223372036854775807) 0 ""
        <*> r.fieldBy (Json.intBetween (-999999999) 999999999) 1 "") v
    match ofNanos? (seconds * 1000000000 + nanos) with
    | some d => return d
    | none => throw .shape

end Duration

/-- The number itself or the nearer end of the range of 64 bits. -/
def saturate (n : Int) : Int64 :=
  if n < -9223372036854775808 then Int64.minValue
  else if 9223372036854775807 < n then Int64.maxValue
  else Int64.ofInt n

theorem toInt_saturate (n : Int) :
    (saturate n).toInt = max (-9223372036854775808) (min n 9223372036854775807) := by
  unfold saturate
  split
  · rw [show Int64.minValue.toInt = -9223372036854775808 from rfl]; omega
  · split
    · rw [show Int64.maxValue.toInt = 9223372036854775807 from rfl]; omega
    · rw [Int64.toInt_ofInt_of_le (by omega) (by omega)]; omega

namespace Instant

instance : LT Instant := ⟨fun a b => a.millis < b.millis⟩
instance : LE Instant := ⟨fun a b => a.millis ≤ b.millis⟩

instance (a b : Instant) : Decidable (a < b) := inferInstanceAs (Decidable (a.millis < b.millis))
instance (a b : Instant) : Decidable (a ≤ b) := inferInstanceAs (Decidable (a.millis ≤ b.millis))

/-- The instant of a time in nanoseconds since the epoch, cut off toward zero. -/
def ofNanos (n : Int) : Instant := ⟨saturate (n.tdiv 1000000)⟩

def addSaturating (a b : Int64) : Int64 := saturate (a.toInt + b.toInt)

def later (t : Instant) (d : Duration) : Instant :=
  ⟨addSaturating t.millis (saturate d.wholeMillis)⟩

/-- An instant is set back by adding the opposite duration, where there is one. -/
def earlier (t : Instant) (d : Duration) : Option Instant := d.neg?.map t.later

instance : Wire Instant := Wire.record Instant.millis Instant.mk

instance : JsonForm Instant where
  toJson t := toJson t.millis
  fromJson v := (fromJson v).map Instant.mk

end Instant

/-! The text of an instant: date and time of day in the proleptic Gregorian calendar, for the years
from -9999 to 9999; beyond them its milliseconds. -/

structure Date where
  (year month day : Int)
deriving DecidableEq, Repr

/-- The date some days after the first of January 1970.

Years are counted from March, so that a leap day ends its year, in eras of 400 years. -/
def Date.ofDays (days : Int) : Date :=
  let z := days + 719468
  let era := z.fdiv 146097
  let dayOfEra := z - era * 146097
  let yearOfEra := (dayOfEra - dayOfEra / 1460 + dayOfEra / 36524 - dayOfEra / 146096) / 365
  let dayOfYear := dayOfEra - (365 * yearOfEra + yearOfEra / 4 - yearOfEra / 100)
  let m := (5 * dayOfYear + 2) / 153
  let month := if m < 10 then m + 3 else m - 9
  ⟨yearOfEra + era * 400 + (if month ≤ 2 then 1 else 0), month, dayOfYear - (153 * m + 2) / 5 + 1⟩

/-- At least `width` digits, zeros in front. -/
def padded (width n : Nat) : String :=
  let digits := Nat.toDigits 10 n
  String.ofList (List.replicate (width - digits.length) '0' ++ digits)

def Date.toText (d : Date) : String :=
  (if d.year < 0 then "-" else "") ++ padded 4 d.year.natAbs ++ "-" ++
    padded 2 d.month.natAbs ++ "-" ++ padded 2 d.day.natAbs

/-- The digits of a fraction in thousandths, without the zeros that end it. -/
def fractionText (millis : Nat) : String :=
  if millis % 100 = 0 then padded 1 (millis / 100)
  else if millis % 10 = 0 then padded 2 (millis / 10)
  else padded 3 millis

def Instant.toText (t : Instant) : String :=
  let n := t.millis.toInt
  if -377705116800000 ≤ n ∧ n ≤ 253402300799999 then
    let ofDay := (n.fmod 86400000).toNat
    let seconds := ofDay / 1000
    (Date.ofDays (n.fdiv 86400000)).toText ++ s!" {seconds / 3600}:" ++
      padded 2 (seconds / 60 % 60) ++ ":" ++ padded 2 (seconds % 60) ++ "." ++
      fractionText (ofDay % 1000) ++ " +00:00:00"
  else s!"{n}ms"

/-! The time window of a transaction: from a first instant on, and until just before another.

A decoded window may lack both bounds or hold them in the wrong order; such a window is not
valid. -/

structure TimeWindow where
  fromTime : Option Instant
  untilTime : Option Instant
deriving DecidableEq

namespace TimeWindow

def fromOnly (t : Instant) : TimeWindow := ⟨some t, none⟩

def untilOnly (t : Instant) : TimeWindow := ⟨none, some t⟩

def between (a b : Instant) : Except ValueFault TimeWindow :=
  if b ≤ a then .error .windowOrder else .ok ⟨some a, some b⟩

/-- The window that reaches the tolerance to either side of an instant, where the instant can be set
back. -/
def around (t : Instant) (tolerance : Duration) : Option (Except ValueFault TimeWindow) :=
  (t.earlier tolerance).map (between · (t.later tolerance))

def contains (w : TimeWindow) (t : Instant) : Bool :=
  w.fromTime.all (· ≤ t) && w.untilTime.all (t < ·)

/-- Whether an instant lies in the window once either bound has moved out by the tolerance, unless
the first bound cannot be set back. -/
def containsWithin (tolerance : Duration) (w : TimeWindow) (t : Instant) : Option Bool :=
  let started : Option Bool :=
    match w.fromTime with
    | none => some true
    | some a => (a.earlier tolerance).map (· ≤ t)
  started.map (· && w.untilTime.all (t < ·.later tolerance))

/-- The middle of a bounded window, cut off toward zero. -/
def midpoint (w : TimeWindow) : Option Instant :=
  match w.fromTime, w.untilTime with
  | some a, some b => some ⟨Int64.ofInt ((a.millis.toInt + b.millis.toInt).tdiv 2)⟩
  | _, _ => none

/-- The milliseconds between the bounds of a bounded window, kept within range. -/
def length (w : TimeWindow) : Option Int64 :=
  match w.fromTime, w.untilTime with
  | some a, some b => some (saturate (b.millis.toInt - a.millis.toInt))
  | _, _ => none

def validate (w : TimeWindow) : Except ValueFault Unit :=
  match w.fromTime, w.untilTime with
  | none, none => .error .windowUnbounded
  | some a, some b => if b ≤ a then .error .windowOrder else .ok ()
  | _, _ => .ok ()

def toText (w : TimeWindow) : String :=
  match w.fromTime, w.untilTime with
  | some a, some b => "[" ++ a.toText ++ ", " ++ b.toText ++ ")"
  | some a, none => "[" ++ a.toText ++ ", ∞)"
  | none, some b => "(-∞, " ++ b.toText ++ ")"
  | none, none => "(-∞, ∞)"

instance : Wire TimeWindow :=
  Wire.record (fun w => (w.fromTime, w.untilTime)) (fun (a, b) => ⟨a, b⟩)

instance : JsonForm TimeWindow where
  toJson w := .obj [("from_time", toJson w.fromTime), ("until_time", toJson w.untilTime)]
  fromJson := Json.record 2 fun r =>
    TimeWindow.mk <$> r.optional 0 "from_time" <*> r.optional 1 "until_time"

end TimeWindow

end LedgerNotary
