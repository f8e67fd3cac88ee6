import CommonCore.Alignments
import CommonCore.LoggerTypes

/-!
# Times aligned to an interval

A time point is the number of nanoseconds since the epoch. What the C library
knows of calendars, of the local time zone and of time formats is a parameter.
-/

namespace CommonCore

/-- `std::tm`. -/
structure Tm where
  tmSec : Int := 0
  tmMin : Int := 0
  tmHour : Int := 0
  tmMday : Int := 1
  tmMon : Int := 0
  tmYear : Int := 70
  tmWday : Int := 0
  tmYday : Int := 0
  tmIsdst : Int := 0

structure CLibrary where
  gmtime : Int → Tm
  localtime : Int → Tm
  /-- Of a local time. -/
  mktime : Tm → Int
  /-- The field `offset` of `tzinfo`. -/
  tzoffset : Int → Int
  putTime : Tm → Bytes → Bytes

namespace Dt

/-- A count of a unit as a `Duration`, whose 64 bits wrap around. -/
def duration (unit count : Int) : Int := (unit * count).bmod (2 ^ 64)

/-- `std::chrono::floor`. -/
def floor (unit t : Int) : Int := t - t % unit

def toTimeT (tp : Int) : Int := tp.tdiv second

def tmYearOffset : Int := 1900
def tmMonthOffset : Int := 1
def tmDayOffset : Int := 0

/-! ## Calendars -/

def isLeapYear (year : UInt32) : Bool :=
  (year % 4 == 0 && year % 100 != 0) || year % 400 == 0

def mdays : List UInt32 := [31, 28, 31, 30, 31, 30, 31, 31, 30, 31, 30, 31]

def dayOfYear (year month day : UInt32) : UInt32 :=
  let months := max 0 (min (month - 1) 11)
  let days := (mdays.take months.toNat).foldl (· + ·) day
  if month > 2 then days + (isLeapYear year).toUInt32 else days

def gregorianDays (dt : Tm) : UInt32 :=
  let month := UInt32.ofInt (dt.tmMon.tmod 12 + tmMonthOffset)
  let year := UInt32.ofInt (dt.tmYear + tmYearOffset + dt.tmMon.tdiv 12)
  let day := UInt32.ofInt (dt.tmMday + tmDayOffset)
  let leaps := (year - 1) / 4 - (year - 1) / 100 + (year - 1) / 400
  365 * year + leaps + dayOfYear year month day

/-- The seconds of a time in UTC are computed in 32 bits. -/
def mktime (lib : CLibrary) (dt : Tm) (isLocal : Bool) : Int :=
  if isLocal then lib.mktime dt
  else
    let days : Int := (gregorianDays dt - gregorianDays (lib.gmtime 0)).toInt32.toInt
    (((days * 24 + dt.tmHour) * 60 + dt.tmMin) * 60 + dt.tmSec).bmod (2 ^ 32)

/-! ## Alignment -/

/-- Multiples of a number of `dur` since the last `ref`. -/
def lastAlignedTp (dur ref tp : Int) (count : UInt32) : Int :=
  let start := floor ref tp
  if count ≠ 0 then
    let rel := tp - start
    start + (rel - rel.tmod (dur * count.toNat))
  else start

/-- A field rounded down to a multiple, or its least value. -/
def alignField (value step : Int) : Int := if step = 0 then 0 else value.tdiv step * step

def lastAlignedDt (lib : CLibrary) (tp years months days hours minutes seconds : Int) (isLocal : Bool) : Int :=
  let dt := if isLocal then lib.localtime (toTimeT tp) else lib.gmtime (toTimeT tp)
  let aligned : Tm := {
    tmSec := alignField dt.tmSec seconds
    tmMin := alignField dt.tmMin minutes
    tmHour := alignField dt.tmHour hours
    tmMday := alignField (dt.tmMday - 1) days + 1
    tmMon := alignField dt.tmMon months
    tmYear := if years = 0 then 0 else alignField (dt.tmYear + tmYearOffset) years - tmYearOffset
    tmWday := 0
    tmYday := 0
    tmIsdst := -1 }
  duration second (mktime lib aligned isLocal)

/-- Relative to a time. -/
def lastAlignedRef (tp reference interval : Int) : Int :=
  let offset := (tp - reference).tmod interval
  tp - (if offset < 0 then offset + interval else offset)

/-- To a clock interval. -/
def lastAlignedClock (lib : CLibrary) (tp interval : Int) (isLocal : Bool) : Int :=
  let reference := if isLocal then - lib.tzoffset (toTimeT tp) else 0
  lastAlignedRef tp reference (floor second interval)

def lastMidnight (lib : CLibrary) (tp : Int) (isLocal : Bool) : Int := lastAlignedClock lib tp (24 * hour) isLocal

/-- To a date/time interval. -/
def lastAligned (lib : CLibrary) (tp : Int) (interval : DateTimeInterval) (isLocal : Bool) : Int :=
  let count := interval.count.toInt
  let int := count.bmod (2 ^ 32)
  match interval.unit with
  | .nanosecond => lastAlignedTp 1 second tp (UInt32.ofInt count)
  | .microsecond => lastAlignedTp (10 ^ 3) second tp (UInt32.ofInt count)
  | .millisecond => lastAlignedTp (10 ^ 6) second tp (UInt32.ofInt count)
  | .second => lastAlignedTp second minute tp (UInt32.ofInt count)
  | .minute => lastAlignedClock lib tp (duration minute count) isLocal
  | .hour => lastAlignedClock lib tp (duration hour count) isLocal
  | .day => lastAlignedDt lib tp 1 1 int 0 0 0 isLocal
  | .week =>
    -- The reference is midnight of the last Sunday, in the weekdays of the local time.
    lastAlignedRef tp (lastMidnight lib tp isLocal - (lib.localtime (toTimeT tp)).tmWday * (24 * hour))
      (duration (7 * (24 * hour)) count)
  | .month => lastAlignedDt lib tp 1 int 0 0 0 0 isLocal
  | .year => lastAlignedDt lib tp int 0 0 0 0 0 isLocal
  | .eternity => 0
  | .zeroTime => tp

theorem floor_alignment {unit : Int} (hunit : 0 < unit) : Alignment (floor unit) := by
  have h := Alignment.multiple hunit 0
  simp only [sub_zero] at h
  exact h

theorem last_aligned_tp_alignment {dur ref : Int} (hdur : 0 < dur) (href : 0 < ref) (count : UInt32) :
    Alignment fun tp => lastAlignedTp dur ref tp count := by
  by_cases hc : count = 0
  · simpa [lastAlignedTp, hc] using floor_alignment href
  · have hpos : 0 < dur * count.toNat := by
      have : 0 < count.toNat := Nat.pos_of_ne_zero fun h => hc (UInt32.toNat_inj.mp h)
      positivity
    have hstep : Alignment fun t : Int => t - t % (dur * count.toNat) := by
      simpa using Alignment.multiple hpos 0
    have heq : (fun tp => lastAlignedTp dur ref tp count) =
        fun tp => floor ref tp + (tp - floor ref tp - (tp - floor ref tp) % (dur * count.toNat)) := by
      funext tp
      have hrel : 0 ≤ tp - floor ref tp := sub_nonneg.mpr ((floor_alignment href).le tp)
      simp only [lastAlignedTp, ne_eq, hc, not_false_eq_true, if_true, Int.tmod_eq_emod_of_nonneg hrel]
    rw [heq]
    exact (floor_alignment href).within hstep (by simp)

theorem last_aligned_ref_eq {interval : Int} (hpos : 0 < interval) (tp reference : Int) :
    lastAlignedRef tp reference interval = tp - (tp - reference) % interval := by
  have hlt := Int.emod_lt_of_pos (tp - reference) hpos
  have hnonneg := Int.emod_nonneg (tp - reference) hpos.ne'
  have hcast := Int.natAbs_of_nonneg hpos.le
  -- The remainder has the sign of the difference.
  have htmod := @Int.tmod_eq_emod (tp - reference) interval
  simp only [lastAlignedRef]
  split_ifs at htmod with h
  · rw [htmod, Nat.cast_zero, sub_zero, if_neg (not_lt.mpr hnonneg)]
  · rw [htmod, hcast, if_pos (by omega), sub_add_cancel]

/-- In a zone whose offset does not change. -/
theorem last_aligned_clock_alignment (lib : CLibrary) {interval : Int} (hpos : 0 < floor second interval) {isLocal : Bool}
    (hoffset : isLocal = true → ∀ t u, lib.tzoffset t = lib.tzoffset u) : Alignment fun tp => lastAlignedClock lib tp interval isLocal := by
  simp only [lastAlignedClock, last_aligned_ref_eq hpos]
  cases isLocal with
  | false => simpa using Alignment.multiple hpos 0
  | true =>
    simp only [fun t => hoffset rfl t 0, if_true]
    exact Alignment.multiple hpos _

/-- A positive number of a unit of the clock. -/
def IsClock (interval : DateTimeInterval) : Prop :=
  match interval.unit with
  | .nanosecond | .microsecond | .millisecond | .second => True
  | .minute => 0 < floor second (duration minute interval.count.toInt)
  | .hour => 0 < floor second (duration hour interval.count.toInt)
  | _ => False

theorem last_aligned_alignment (lib : CLibrary) {interval : DateTimeInterval} {isLocal : Bool} (hclock : IsClock interval)
    (hoffset : isLocal = true → ∀ t u, lib.tzoffset t = lib.tzoffset u) : Alignment fun tp => lastAligned lib tp interval isLocal := by
  unfold IsClock at hclock
  unfold lastAligned
  split at hclock <;> simp only [*]
  case h_5 => exact last_aligned_clock_alignment lib hclock hoffset
  case h_6 => exact last_aligned_clock_alignment lib hclock hoffset
  case h_7 => exact hclock.elim
  all_goals exact last_aligned_tp_alignment (by decide) (by decide) _

end Dt

/-- `operator bool`. -/
def DateTimeInterval.nonempty (interval : DateTimeInterval) : Bool :=
  interval.unit == .eternity || (interval.unit != .zeroTime && interval.count != 0)

end CommonCore
