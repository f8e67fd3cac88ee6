import CommonCore.DateTime
import CommonCore.Gregorian

/-!
# Times in UTC

`dt::mktime` counts the days of a date by a formula of its own. The seconds that
it makes of them have 32 bits.
-/

namespace CommonCore

namespace Dt

open Gregorian

/-- The `gmtime` of the Gregorian calendar, which is continued into the past. -/
def utc (t : Int) : Tm :=
  let day := t / 86400
  let seconds := t % 86400
  let year := yearOf (day + 719162)
  let month := monthOf (isLeap year.1.toNat) year.2
  { tmSec := seconds % 60
    tmMin := seconds / 60 % 60
    tmHour := seconds / 3600
    tmMday := month.2 + 1
    tmMon := month.1
    tmYear := year.1 - tmYearOffset
    tmWday := (day + 4) % 7
    tmYday := year.2
    tmIsdst := 0 }

/-! ## The days of a date -/

theorem is_leap_year_ofNat {year : ℕ} (h : year < 2 ^ 32) : isLeapYear (UInt32.ofNat year) = isLeap year := by
  have hrem : ∀ k < 2 ^ 32, k ≠ 0 → (UInt32.ofNat year % UInt32.ofNat k == 0) = (year % k == 0) := by
    intro k hk hk0
    rw [Bool.eq_iff_iff, beq_iff_eq, beq_iff_eq, ← UInt32.toNat_inj, UInt32.toNat_mod, UInt32.toNat_ofNat_of_lt' h,
      UInt32.toNat_ofNat_of_lt' hk]
    rfl
  have h4 := hrem 4 (by decide) (by decide)
  have h100 := hrem 100 (by decide) (by decide)
  have h400 := hrem 400 (by decide) (by decide)
  have hfourth : year % 400 = 0 → year % 4 = 0 := by omega
  have h : isLeapYear (UInt32.ofNat year) = ((year % 4 == 0 && !(year % 100 == 0)) || year % 400 == 0) := by
    rw [← h4, ← h100, ← h400]
    rfl
  rw [h, isLeap, Bool.eq_iff_iff]
  simp only [Bool.and_eq_true, Bool.or_eq_true, Bool.not_eq_true', beq_iff_eq, bne_iff_ne, ne_eq, beq_eq_false_iff_ne]
  tauto

theorem toNat_foldl (l : List UInt32) (day : UInt32) (h : day.toNat + (l.map UInt32.toNat).sum < 2 ^ 32) :
    (l.foldl (· + ·) day).toNat = day.toNat + (l.map UInt32.toNat).sum := by
  induction l generalizing day with
  | nil => rfl
  | cons n l ih =>
    rw [List.map_cons, List.sum_cons] at h ⊢
    have hadd : (day + n).toNat = day.toNat + n.toNat := by
      rw [UInt32.toNat_add]
      exact Nat.mod_eq_of_lt (by omega)
    rw [List.foldl_cons, ih (day + n) (by omega), hadd]
    omega

theorem month_index : ∀ m < 12, (max 0 (min (UInt32.ofNat (m + 1) - 1) 11)).toNat = m ∧ (UInt32.ofNat (m + 1) > 2 ↔ 2 ≤ m) := by
  decide

/-- The days before a month, without the leap day. -/
def monthDays (m : ℕ) : ℕ := ((mdays.take m).map UInt32.toNat).sum

theorem monthDays_le : ∀ m < 12, monthDays m ≤ 365 := by decide

theorem before_month : ∀ m < 12, ∀ leap, before (monthLength leap) m = monthDays m + (if 2 ≤ m then leap.toNat else 0) := by
  decide

theorem toNat_day_of_year {year m d : ℕ} (hyear : year < 2 ^ 32) (hm : m < 12) (hd : d < 2 ^ 16) :
    (dayOfYear (UInt32.ofNat year) (UInt32.ofNat (m + 1)) (UInt32.ofNat (d + 1))).toNat =
      before (monthLength (isLeap year)) m + (d + 1) := by
  obtain ⟨hindex, hlate⟩ := month_index m hm
  have hbefore := before_month m hm (isLeap year)
  have hle := monthDays_le m hm
  have hday : (UInt32.ofNat (d + 1)).toNat = d + 1 := UInt32.toNat_ofNat_of_lt' (show d + 1 < 2 ^ 32 by omega)
  have hdays : ((mdays.take m).foldl (· + ·) (UInt32.ofNat (d + 1))).toNat = d + 1 + monthDays m := by
    rw [toNat_foldl _ _ (by rw [hday]; exact show d + 1 + monthDays m < 2 ^ 32 by omega), hday]
    rfl
  have hleap : (isLeap year).toUInt32.toNat = (isLeap year).toNat := by cases isLeap year <;> rfl
  have hone : (isLeap year).toNat ≤ 1 := Bool.toNat_le _
  simp only [dayOfYear, hindex, hlate, is_leap_year_ofNat hyear]
  split_ifs at hbefore ⊢
  · rw [UInt32.toNat_add, hdays, hleap, Nat.mod_eq_of_lt (by omega)]
    omega
  · rw [hdays]
    omega

theorem ofInt_natCast (n : ℕ) : UInt32.ofInt (n : Int) = UInt32.ofNat n := by
  apply UInt32.toNat_inj.mp
  have hmod : ((n : Int) % 2 ^ 32).toNat = n % 2 ^ 32 := by omega
  rw [UInt32.ofInt, hmod, UInt32.toNat_ofNat', UInt32.toNat_ofNat', Nat.mod_mod]

theorem toNat_leaps {i : ℕ} (hi : i < 2 ^ 16) :
    ((UInt32.ofNat (i + 1) - 1) / 4 - (UInt32.ofNat (i + 1) - 1) / 100 + (UInt32.ofNat (i + 1) - 1) / 400).toNat + i / 100 =
      i / 4 + i / 400 := by
  have hyear : UInt32.ofNat (i + 1) - 1 = UInt32.ofNat i := by
    apply UInt32.toNat_inj.mp
    rw [UInt32.toNat_sub, UInt32.toNat_ofNat_of_lt' (show i + 1 < 2 ^ 32 by omega), UInt32.toNat_ofNat_of_lt' (show i < 2 ^ 32 by omega)]
    show (2 ^ 32 - 1 + (i + 1)) % 2 ^ 32 = i
    omega
  have hi' : (UInt32.ofNat i).toNat = i := UInt32.toNat_ofNat_of_lt' (show i < 2 ^ 32 by omega)
  have hle : i / 100 ≤ i / 4 := Nat.div_le_div_left (by decide) (by decide)
  have hquarter := Nat.div_le_self i 4
  have hfourth := Nat.div_le_self i 400
  rw [hyear, UInt32.toNat_add, UInt32.toNat_sub, UInt32.toNat_div, UInt32.toNat_div, UInt32.toNat_div, hi']
  show ((2 ^ 32 - i / 100 + i / 4) % 2 ^ 32 + i / 400) % 2 ^ 32 + i / 100 = i / 4 + i / 400
  generalize i / 100 = c at *
  generalize i / 4 = q at *
  generalize i / 400 = f at *
  omega

/-- The days of a date, counted from some day before the year 1. -/
theorem toNat_gregorian_days (dt : Tm) {i m d : ℕ} (hi : i < 2 ^ 16) (hm : m < 12) (hd : d < 2 ^ 16)
    (hyear : dt.tmYear = i + 1 - tmYearOffset) (hmon : dt.tmMon = m) (hday : dt.tmMday = d + 1) :
    (gregorianDays dt).toNat = before (fun i => yearLength (i + 1)) i + before (monthLength (isLeap (i + 1))) m + d + 366 := by
  have hmonth : UInt32.ofInt (dt.tmMon.tmod 12 + tmMonthOffset) = UInt32.ofNat (m + 1) := by
    rw [hmon, Int.tmod_eq_of_lt (by omega) (by omega), ← ofInt_natCast]
    rfl
  have hyear' : UInt32.ofInt (dt.tmYear + tmYearOffset + dt.tmMon.tdiv 12) = UInt32.ofNat (i + 1) := by
    rw [hyear, hmon, Int.tdiv_eq_zero_of_lt (by omega) (by omega), sub_add_cancel, add_zero, ← ofInt_natCast]
    rfl
  have hday' : UInt32.ofInt (dt.tmMday + tmDayOffset) = UInt32.ofNat (d + 1) := by
    rw [hday, ← ofInt_natCast]
    rfl
  have hleaps := toNat_leaps hi
  have hyears := before_years i
  have hdoy := toNat_day_of_year (show i + 1 < 2 ^ 32 by omega) hm hd
  have hquarter := Nat.div_le_self i 4
  have hfourth := Nat.div_le_self i 400
  have hmonths : before (monthLength (isLeap (i + 1))) m ≤ 366 := by
    have := before_month m hm (isLeap (i + 1))
    have := monthDays_le m hm
    have := Bool.toNat_le (isLeap (i + 1))
    split_ifs at * <;> omega
  unfold gregorianDays
  dsimp only
  rw [hmonth, hyear', hday', UInt32.toNat_add, UInt32.toNat_add, UInt32.toNat_mul, hdoy, UInt32.toNat_ofNat_of_lt' (show i + 1 < 2 ^ 32 by omega)]
  generalize (_ - _ + _ : UInt32).toNat = leaps at hleaps ⊢
  show ((365 * (i + 1) % 2 ^ 32 + leaps) % 2 ^ 32 + (before (monthLength (isLeap (i + 1))) m + (d + 1))) % 2 ^ 32 = _
  omega

/-- The fields of a date. -/
structure OnDate (dt : Tm) (a : Date) : Prop where
  year : dt.tmYear + tmYearOffset = (a.year + 1 : ℕ)
  month : dt.tmMon = a.month
  day : dt.tmMday = (a.day + 1 : ℕ)

theorem OnDate.toNat_days {dt : Tm} {a : Date} (h : OnDate dt a) (ha : a.Valid) (hyear : a.year < 2 ^ 16) :
    (gregorianDays dt).toNat = a.days + 366 := by
  have hday := ha.2.trans_le (monthLength_le _ _ ha.1)
  exact toNat_gregorian_days dt hyear ha.1 (by omega) (eq_sub_of_add_eq h.year) h.month h.day

theorem utc_onDate {t : Int} (h : 0 ≤ t / 86400 + 719162) : OnDate (utc t) (.ofDays (t / 86400 + 719162).toNat) := by
  obtain ⟨i, hyear, -, -⟩ := yearOf_spec h
  have hdate : Date.ofDays (t / 86400 + 719162).toNat = date ((yearOf (t / 86400 + 719162)).1.toNat - 1)
      (monthOf (isLeap (yearOf (t / 86400 + 719162)).1.toNat) (yearOf (t / 86400 + 719162)).2).1
      (monthOf (isLeap (yearOf (t / 86400 + 719162)).1.toNat) (yearOf (t / 86400 + 719162)).2).2 := by
    unfold Date.ofDays
    rw [Int.toNat_of_nonneg h]
  rw [hdate]
  refine ⟨?_, rfl, rfl⟩
  show (yearOf (t / 86400 + 719162)).1 - tmYearOffset + tmYearOffset = ((yearOf (t / 86400 + 719162)).1.toNat - 1 + 1 : ℕ)
  omega

/-- Of the days that the years before 65536 have. -/
theorem year_lt {a : Date} (h : a.days < 2 ^ 22) : a.year < 2 ^ 16 := by
  have := le_before a.year
  unfold Date.days at h
  omega

/-! ## The inverse of `gmtime` -/

/-- The days of a date since the epoch. -/
theorem days_utc {t : Int} (h : 0 ≤ t / 86400 + 719162) (h' : t / 86400 + 719162 < 2 ^ 22) :
    ((gregorianDays (utc t)).toNat : Int) = t / 86400 + 719528 := by
  obtain ⟨hvalid, hdays⟩ := Date.ofDays_spec (t / 86400 + 719162).toNat
  rw [(utc_onDate h).toNat_days hvalid (year_lt (by omega)), hdays]
  omega

theorem toInt_sub (a b : UInt32) : (a - b).toInt32.toInt = ((a.toNat : Int) - b.toNat).bmod (2 ^ 32) := by
  have h : ∀ n m : ℕ, (UInt32.ofNat n - UInt32.ofNat m).toInt32.toInt = ((n : Int) - m).bmod (2 ^ 32) := by
    intro n m
    simp
  have hab := h a.toNat b.toNat
  rwa [UInt32.ofNat_toNat, UInt32.ofNat_toNat] at hab

/-- The seconds of a date and a time of the day, in 32 bits. -/
theorem mktime_onDate (lib : CLibrary) (hlib : lib.gmtime = utc) {dt : Tm} {a : Date} (h : OnDate dt a) (ha : a.Valid) (hdays : a.days < 2 ^ 22) :
    mktime lib dt false = (((((a.days : Int) - 719162) * 24 + dt.tmHour) * 60 + dt.tmMin) * 60 + dt.tmSec).bmod (2 ^ 32) := by
  have hepoch := days_utc (t := 0) (by decide) (by decide)
  have hsub : (gregorianDays dt - gregorianDays (utc 0)).toInt32.toInt = a.days - 719162 := by
    rw [toInt_sub, h.toNat_days ha (year_lt hdays), hepoch, Int.bmod_eq_of_le (by omega) (by omega)]
    omega
  rw [mktime, if_neg Bool.false_ne_true, hlib]
  dsimp only
  rw [hsub]

/-- The seconds since the epoch, in 32 bits. -/
theorem mktime_utc (lib : CLibrary) (hlib : lib.gmtime = utc) {t : Int} (h : 0 ≤ t / 86400 + 719162) (h' : t / 86400 + 719162 < 2 ^ 22) :
    mktime lib (lib.gmtime t) false = t.bmod (2 ^ 32) := by
  obtain ⟨hvalid, hdays⟩ := Date.ofDays_spec (t / 86400 + 719162).toNat
  rw [hlib, mktime_onDate lib hlib (utc_onDate h) hvalid (by omega), hdays]
  have hday : (((t / 86400 + 719162).toNat : Int) - 719162) = t / 86400 := by omega
  have hseconds : ((t / 86400 * 24 + t % 86400 / 3600) * 60 + t % 86400 / 60 % 60) * 60 + t % 86400 % 60 = t := by omega
  rw [hday]
  exact congrArg (Int.bmod · (2 ^ 32)) hseconds

theorem bmod_eq_self_iff (n : Int) : n.bmod (2 ^ 32) = n ↔ -2 ^ 31 ≤ n ∧ n < 2 ^ 31 := by
  constructor
  · intro h
    rw [← h]
    exact ⟨Int.le_bmod (by decide), Int.bmod_lt (by decide)⟩
  · rintro ⟨hlow, hhigh⟩
    exact Int.bmod_eq_of_le hlow hhigh

theorem year_utc (t : Int) : (utc t).tmYear + tmYearOffset = (yearOf (t / 86400 + 719162)).1 := sub_add_cancel _ _

/-- For the calendar of `gmtime`, in the years from 1 to 9999. -/
theorem mktime_gmtime_iff (lib : CLibrary) (hlib : lib.gmtime = utc) (t : Int) (hfirst : 1 ≤ (lib.gmtime t).tmYear + tmYearOffset)
    (hlast : (lib.gmtime t).tmYear + tmYearOffset ≤ 9999) : mktime lib (lib.gmtime t) false = t ↔ -2 ^ 31 ≤ t ∧ t < 2 ^ 31 := by
  rw [hlib, year_utc] at hfirst hlast
  have hday := (yearOf_pos_iff _).mp hfirst
  obtain ⟨i, hyear, hinside, htotal⟩ := yearOf_spec hday
  have hyears := before_years i
  have hlength := yearLength_le (i + 1)
  rw [mktime_utc lib hlib hday (by omega)]
  exact bmod_eq_self_iff t

/-- In the time zone UTC. -/
def utcLibrary : CLibrary where
  gmtime := utc
  localtime := utc
  mktime _ := -1
  tzoffset _ := 0
  putTime _ format := format

theorem year_billion : (utcLibrary.gmtime 1000000000).tmYear + tmYearOffset = 2001 := by
  show (utc 1000000000).tmYear + tmYearOffset = 2001
  decide

theorem mktime_gmtime_billion : mktime utcLibrary (utcLibrary.gmtime 1000000000) false = 1000000000 :=
  (mktime_gmtime_iff utcLibrary rfl 1000000000 (by rw [year_billion]; decide) (by rw [year_billion]; decide)).mpr (by decide)

/-- In the year 2038. -/
theorem mktime_gmtime_late : ¬ ∀ t, 1 ≤ (utcLibrary.gmtime t).tmYear + tmYearOffset →
    (utcLibrary.gmtime t).tmYear + tmYearOffset ≤ 9999 → mktime utcLibrary (utcLibrary.gmtime t) false = t := by
  intro h
  have hyear : (utcLibrary.gmtime (2 ^ 31)).tmYear + tmYearOffset = 2038 := by
    show (utc (2 ^ 31)).tmYear + tmYearOffset = 2038
    decide
  have hlate := h (2 ^ 31) (by rw [hyear]; decide) (by rw [hyear]; decide)
  rw [mktime_utc utcLibrary rfl (by decide) (by decide)] at hlate
  exact absurd hlate (by decide)

end Dt

end CommonCore
