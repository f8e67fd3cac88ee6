import CommonCore.UtcTimes

/-!
# Aligned times

Where `last_aligned` takes a remainder by zero, for which intervals it is an
alignment that does not depend on the time zone, and which time points it aligns
to a date.
-/

namespace CommonCore

namespace Dt

open Gregorian

/-! ## Remainders by zero -/

def checkedRem (a b : Int) : Option Int := if b = 0 then none else some (a.tmod b)

def checkedQuot (a b : Int) : Option Int := if b = 0 then none else some (a.tdiv b)

def lastAlignedTp? (dur ref tp : Int) (count : UInt32) : Option Int :=
  let start := floor ref tp
  if count ≠ 0 then do
    let rel := tp - start
    let rest ← checkedRem rel (dur * count.toNat)
    some (start + (rel - rest))
  else some start

def alignField? (value step : Int) : Option Int :=
  if step = 0 then some 0 else (checkedQuot value step).map (· * step)

def lastAlignedDt? (lib : CLibrary) (tp years months days hours minutes seconds : Int) (isLocal : Bool) : Option Int := do
  let dt := if isLocal then lib.localtime (toTimeT tp) else lib.gmtime (toTimeT tp)
  let tmSec ← alignField? dt.tmSec seconds
  let tmMin ← alignField? dt.tmMin minutes
  let tmHour ← alignField? dt.tmHour hours
  let tmMday ← alignField? (dt.tmMday - 1) days
  let tmMon ← alignField? dt.tmMon months
  let year ← alignField? (dt.tmYear + tmYearOffset) years
  let aligned : Tm := {
    tmSec, tmMin, tmHour, tmMon
    tmMday := tmMday + 1
    tmYear := if years = 0 then 0 else year - tmYearOffset
    tmWday := 0
    tmYday := 0
    tmIsdst := -1 }
  some (duration second (mktime lib aligned isLocal))

def lastAlignedRef? (tp reference interval : Int) : Option Int := do
  let offset ← checkedRem (tp - reference) interval
  some (tp - (if offset < 0 then offset + interval else offset))

def lastAlignedClock? (lib : CLibrary) (tp interval : Int) (isLocal : Bool) : Option Int :=
  let reference := if isLocal then - lib.tzoffset (toTimeT tp) else 0
  lastAlignedRef? tp reference (floor second interval)

def lastMidnight? (lib : CLibrary) (tp : Int) (isLocal : Bool) : Option Int := lastAlignedClock? lib tp (24 * hour) isLocal

/-- None if it takes a remainder by zero. -/
def lastAligned? (lib : CLibrary) (tp : Int) (interval : DateTimeInterval) (isLocal : Bool) : Option Int :=
  let count := interval.count.toInt
  let int := count.bmod (2 ^ 32)
  match interval.unit with
  | .nanosecond => lastAlignedTp? 1 second tp (UInt32.ofInt count)
  | .microsecond => lastAlignedTp? (10 ^ 3) second tp (UInt32.ofInt count)
  | .millisecond => lastAlignedTp? (10 ^ 6) second tp (UInt32.ofInt count)
  | .second => lastAlignedTp? second minute tp (UInt32.ofInt count)
  | .minute => lastAlignedClock? lib tp (duration minute count) isLocal
  | .hour => lastAlignedClock? lib tp (duration hour count) isLocal
  | .day => lastAlignedDt? lib tp 1 1 int 0 0 0 isLocal
  | .week => do
    let midnight ← lastMidnight? lib tp isLocal
    lastAlignedRef? tp (midnight - (lib.localtime (toTimeT tp)).tmWday * (24 * hour)) (duration (7 * (24 * hour)) count)
  | .month => lastAlignedDt? lib tp 1 int 0 0 0 0 isLocal
  | .year => lastAlignedDt? lib tp int 0 0 0 0 0 isLocal
  | .eternity => some 0
  | .zeroTime => some tp

theorem last_aligned_tp?_eq {dur : Int} (hdur : 0 < dur) (ref tp : Int) (count : UInt32) :
    lastAlignedTp? dur ref tp count = some (lastAlignedTp dur ref tp count) := by
  unfold lastAlignedTp? lastAlignedTp
  by_cases hc : count = 0
  · simp [hc]
  · have hpos : 0 < count.toNat := Nat.pos_of_ne_zero fun h => hc (UInt32.toNat_inj.mp h)
    have hne : dur * count.toNat ≠ 0 := by positivity
    simp only [ne_eq, hc, not_false_eq_true, if_true, checkedRem, if_neg hne]
    rfl

theorem alignField?_eq (value step : Int) : alignField? value step = some (alignField value step) := by
  unfold alignField? alignField
  by_cases h : step = 0
  · simp [h]
  · simp [h, checkedQuot]

theorem last_aligned_dt?_eq (lib : CLibrary) (tp years months days hours minutes seconds : Int) (isLocal : Bool) :
    lastAlignedDt? lib tp years months days hours minutes seconds isLocal =
      some (lastAlignedDt lib tp years months days hours minutes seconds isLocal) := by
  unfold lastAlignedDt? lastAlignedDt
  simp only [alignField?_eq]
  rfl

theorem last_aligned_ref?_eq (tp reference interval : Int) :
    lastAlignedRef? tp reference interval = if interval = 0 then none else some (lastAlignedRef tp reference interval) := by
  unfold lastAlignedRef? lastAlignedRef checkedRem
  split_ifs <;> rfl

theorem last_aligned_clock?_eq (lib : CLibrary) (tp interval : Int) (isLocal : Bool) :
    lastAlignedClock? lib tp interval isLocal =
      if floor second interval = 0 then none else some (lastAlignedClock lib tp interval isLocal) :=
  last_aligned_ref?_eq _ _ _

/-- What the last remainder is taken by, if it may be zero. -/
def modulus (interval : DateTimeInterval) : Int :=
  match interval.unit with
  | .minute => floor second (duration minute interval.count.toInt)
  | .hour => floor second (duration hour interval.count.toInt)
  | .week => duration (7 * (24 * hour)) interval.count.toInt
  | _ => 1

theorem last_aligned?_eq (lib : CLibrary) (tp : Int) (interval : DateTimeInterval) (isLocal : Bool) :
    lastAligned? lib tp interval isLocal = if modulus interval = 0 then none else some (lastAligned lib tp interval isLocal) := by
  have hmidnight : lastMidnight? lib tp isLocal = some (lastMidnight lib tp isLocal) :=
    (last_aligned_clock?_eq lib tp _ isLocal).trans (if_neg (by decide))
  unfold lastAligned? lastAligned modulus
  cases interval.unit with
  | nanosecond | microsecond | millisecond | second => exact last_aligned_tp?_eq (by decide) _ _ _
  | minute | hour => exact last_aligned_clock?_eq _ _ _ _
  | day | month | year => exact last_aligned_dt?_eq _ _ _ _ _ _ _ _ _
  | week => simp only [hmidnight, Option.bind_eq_bind, Option.bind_some, last_aligned_ref?_eq]
  | eternity | zeroTime => rfl

/-! ## Alignments in UTC -/

/-- Of 64 bits. -/
def IsTimePoint (tp : Int) : Prop := -2 ^ 63 ≤ tp ∧ tp < 2 ^ 63

/-- A local time that is off by `offset` seconds. -/
structure Zoned (lib : CLibrary) (offset : Int → Int) : Prop where
  gmtime : lib.gmtime = utc
  localtime : lib.localtime = fun t => utc (t + offset t)
  tzoffset : lib.tzoffset = fun t => second * offset t

/-- No remainder by zero and, for a positive count, an alignment in UTC that is
the same in every zone. -/
structure Lawful (interval : DateTimeInterval) : Prop where
  defined : ∀ lib tp isLocal, IsTimePoint tp → lastAligned? lib tp interval isLocal ≠ none
  le : 1 ≤ interval.count.toInt → ∀ lib offset, Zoned lib offset → ∀ tp, IsTimePoint tp → lastAligned lib tp interval false ≤ tp
  idem : 1 ≤ interval.count.toInt → ∀ lib offset, Zoned lib offset → ∀ tp, IsTimePoint tp →
    lastAligned lib (lastAligned lib tp interval false) interval false = lastAligned lib tp interval false
  mono : 1 ≤ interval.count.toInt → ∀ lib offset, Zoned lib offset → ∀ tp tp', IsTimePoint tp → IsTimePoint tp' → tp ≤ tp' →
    lastAligned lib tp interval false ≤ lastAligned lib tp' interval false
  zone : 1 ≤ interval.count.toInt → ∀ lib offset lib' offset', Zoned lib offset → Zoned lib' offset' → ∀ tp, IsTimePoint tp →
    lastAligned lib tp interval false = lastAligned lib' tp interval false

/-- A number of weeks is lawful only if it wraps around to a part of a day, one
of days, months or years only if it is zero. -/
def IsLawful (interval : DateTimeInterval) : Prop :=
  match interval.unit with
  | .nanosecond | .microsecond | .millisecond | .second | .zeroTime => True
  | .minute | .hour => 0 < modulus interval
  | .week => modulus interval ≠ 0 ∧ modulus interval ∣ 24 * hour
  | .day | .month | .year | .eternity => interval.count.toInt = 0

theorem Lawful.of_alignment {interval : DateTimeInterval} {f : Int → Int} (hf : Alignment f) (hmod : modulus interval ≠ 0)
    (heq : ∀ lib offset, Zoned lib offset → ∀ tp, lastAligned lib tp interval false = f tp) : Lawful interval := by
  constructor
  · intro lib tp isLocal _
    simp [last_aligned?_eq, hmod]
  · intro _ lib offset hzone tp _
    rw [heq lib offset hzone]
    exact hf.le tp
  · intro _ lib offset hzone tp _
    rw [heq lib offset hzone, heq lib offset hzone]
    exact hf.idem tp
  · intro _ lib offset hzone tp tp' _ _ hle
    rw [heq lib offset hzone, heq lib offset hzone]
    exact hf.mono hle
  · intro _ lib offset lib' offset' hzone hzone' tp _
    rw [heq lib offset hzone, heq lib' offset' hzone']

/-- Without a positive count, only the remainders matter. -/
theorem Lawful.of_zero {interval : DateTimeInterval} (hcount : interval.count.toInt = 0) (hmod : modulus interval ≠ 0) : Lawful interval := by
  have hno : ¬ 1 ≤ interval.count.toInt := by omega
  exact ⟨by simp [last_aligned?_eq, hmod], fun h => absurd h hno, fun h => absurd h hno, fun h => absurd h hno, fun h => absurd h hno⟩

theorem Lawful.modulus_ne_zero {interval : DateTimeInterval} (h : Lawful interval) : modulus interval ≠ 0 := by
  intro hmod
  apply h.defined utcLibrary 0 false (by unfold IsTimePoint; omega)
  rw [last_aligned?_eq, if_pos hmod]

theorem zoned_utcLibrary : Zoned utcLibrary fun _ => 0 := by
  constructor <;> simp [utcLibrary]

/-- Fourteen hours ahead. -/
def eastLibrary : CLibrary :=
  { utcLibrary with
    localtime := fun t => utc (t + 14 * 3600)
    tzoffset := fun _ => second * (14 * 3600) }

theorem zoned_eastLibrary : Zoned eastLibrary fun _ => 14 * 3600 := by
  constructor <;> rfl

/-! ### Clock intervals -/

theorem last_aligned_ref_of_le {tp reference interval : Int} (hle : reference ≤ tp) :
    lastAlignedRef tp reference interval = tp - (tp - reference) % interval := by
  have hnonneg : 0 ≤ tp - reference := sub_nonneg.mpr hle
  unfold lastAlignedRef
  rw [Int.tmod_eq_emod_of_nonneg hnonneg]
  by_cases h : interval = 0
  · subst h
    simp
  · simp [not_lt.mpr (Int.emod_nonneg (tp - reference) h)]

/-- Before the epoch, a negative interval leads to a later time. -/
theorem lt_last_aligned_ref {interval : Int} (hneg : interval < -1) : -1 < lastAlignedRef (-1) 0 interval := by
  have hrem : (-1 : Int).tmod interval = -1 := by
    rw [Int.neg_tmod, Int.tmod_eq_emod_of_nonneg (by decide), ← Int.emod_neg, Int.emod_eq_of_lt (by decide) (by omega)]
  unfold lastAlignedRef
  rw [sub_zero, hrem]
  dsimp only
  rw [if_pos (by decide)]
  omega

theorem lawful_clock_iff {interval : DateTimeInterval} (dur : Int) (hcount : 0 ≤ interval.count.toInt) (hzero : interval.count.toInt = 0 → dur = 0)
    (hmod : modulus interval = floor second dur)
    (heq : ∀ lib tp isLocal, lastAligned lib tp interval isLocal = lastAlignedClock lib tp dur isLocal) :
    Lawful interval ↔ 0 < modulus interval := by
  constructor
  · intro h
    have hne := h.modulus_ne_zero
    rcases hcount.eq_or_lt with hc | hc
    · rw [hmod, hzero hc.symm] at hne
      exact absurd rfl hne
    · by_contra hpos
      have hneg : modulus interval < -1 := by
        rw [hmod] at hne hpos ⊢
        simp only [floor, second] at *
        omega
      have hle := h.le hc utcLibrary _ zoned_utcLibrary (-1) (by unfold IsTimePoint; omega)
      rw [heq] at hle
      apply absurd hle
      rw [not_le, lastAlignedClock, ← hmod]
      exact lt_last_aligned_ref hneg
  · intro hpos
    have hf : Alignment fun tp => lastAligned utcLibrary tp interval false := by
      simp only [heq]
      exact last_aligned_clock_alignment utcLibrary (hmod ▸ hpos) fun h => absurd h Bool.false_ne_true
    apply Lawful.of_alignment hf hpos.ne'
    intro lib offset _ tp
    rw [heq, heq]
    rfl

/-! ### Weeks -/

theorem last_midnight_utc (lib : CLibrary) (tp : Int) : lastMidnight lib tp false = tp - tp % (24 * hour) := by
  have hday : floor second (24 * hour) = 24 * hour := by decide
  unfold lastMidnight lastAlignedClock
  rw [last_aligned_ref_eq (by decide), hday, if_neg Bool.false_ne_true, sub_zero]

/-- The weekday in the zone decides the reference. -/
theorem last_aligned_week {interval : DateTimeInterval} (hunit : interval.unit = .week) {lib : CLibrary} {offset : Int → Int}
    (hzone : Zoned lib offset) (tp : Int) :
    lastAligned lib tp interval false =
      tp - (tp % (24 * hour) + (utc (toTimeT tp + offset (toTimeT tp))).tmWday * (24 * hour)) % modulus interval := by
  have hwday : 0 ≤ (utc (toTimeT tp + offset (toTimeT tp))).tmWday := Int.emod_nonneg _ (by decide)
  have hday : 0 ≤ tp % (24 * hour) := Int.emod_nonneg _ (by decide)
  have hhour : 0 < 24 * hour := by decide
  unfold lastAligned modulus
  simp only [hunit, last_midnight_utc, hzone.localtime]
  rw [last_aligned_ref_of_le]
  · congr 2
    ring
  · nlinarith

theorem lawful_week_iff {interval : DateTimeInterval} (hunit : interval.unit = .week) (hcount : 0 ≤ interval.count.toInt) :
    Lawful interval ↔ modulus interval ≠ 0 ∧ modulus interval ∣ 24 * hour := by
  constructor
  · intro h
    have hne := h.modulus_ne_zero
    have hpos : 1 ≤ interval.count.toInt := by
      by_contra hlt
      have hc : interval.count.toInt = 0 := by omega
      apply hne
      simp [modulus, hunit, hc, duration]
    refine ⟨hne, ?_⟩
    -- At noon on a Thursday it is Friday in the far east.
    have hnoon := h.zone hpos utcLibrary _ eastLibrary _ zoned_utcLibrary zoned_eastLibrary (12 * hour) (by unfold IsTimePoint; decide)
    rw [last_aligned_week hunit zoned_utcLibrary, last_aligned_week hunit zoned_eastLibrary] at hnoon
    have hmod : (12 * hour + 4 * (24 * hour)) % modulus interval = (12 * hour + 5 * (24 * hour)) % modulus interval := sub_right_inj.mp hnoon
    have hdvd := Int.ModEq.dvd hmod
    have hdiff : 12 * hour + 5 * (24 * hour) - (12 * hour + 4 * (24 * hour)) = 24 * hour := by ring
    rwa [hdiff] at hdvd
  · rintro ⟨hne, hdvd⟩
    have hf : Alignment fun tp : Int => tp - (tp - 0) % |modulus interval| := Alignment.multiple (abs_pos.mpr hne) 0
    apply Lawful.of_alignment hf hne
    intro lib offset hzone tp
    rw [last_aligned_week hunit hzone, Int.emod_abs, sub_zero, Int.add_emod, Int.emod_emod_of_dvd _ hdvd,
      Int.emod_eq_zero_of_dvd (hdvd.mul_left _), add_zero, Int.emod_emod]

/-! ### Dates -/

theorem duration_second (n : Int) : duration second (n.bmod (2 ^ 32)) = second * n.bmod (2 ^ 32) := by
  have hlow := Int.le_bmod (x := n) (show 0 < 2 ^ 32 by decide)
  have hhigh := Int.bmod_lt (x := n) (show 0 < 2 ^ 32 by decide)
  unfold duration second
  rw [Int.bmod_eq_of_le] <;> omega

theorem le_duration_second (n : Int) : -2 ^ 31 * second ≤ duration second (n.bmod (2 ^ 32)) := by
  have hlow := Int.le_bmod (x := n) (show 0 < 2 ^ 32 by decide)
  rw [duration_second, second]
  omega

/-- The first time points are before all the seconds that have 32 bits. -/
theorem lt_last_aligned_dt (lib : CLibrary) (tp years months days hours minutes seconds : Int) (hlow : tp < -2 ^ 31 * second) :
    tp < lastAlignedDt lib tp years months days hours minutes seconds false :=
  hlow.trans_le (le_duration_second _)

theorem lawful_dt_iff {interval : DateTimeInterval} (hcount : 0 ≤ interval.count.toInt) (hmod : modulus interval ≠ 0)
    (heq : ∀ lib tp, ∃ years months days, lastAligned lib tp interval false = lastAlignedDt lib tp years months days 0 0 0 false) :
    Lawful interval ↔ interval.count.toInt = 0 := by
  constructor
  · intro h
    by_contra hne
    have hle := h.le (by omega) utcLibrary _ zoned_utcLibrary (-2 ^ 63) (by unfold IsTimePoint; omega)
    obtain ⟨years, months, days, hdt⟩ := heq utcLibrary (-2 ^ 63)
    rw [hdt] at hle
    exact absurd hle (not_le.mpr (lt_last_aligned_dt _ _ _ _ _ _ _ _ (by decide)))
  · intro hc
    exact Lawful.of_zero hc hmod

/-! ### Dates within 32 bits -/

/-- A number of days, months or years that fits into an `int`. -/
structure IsDate (interval : DateTimeInterval) : Prop where
  unit : interval.unit = .day ∨ interval.unit = .month ∨ interval.unit = .year
  pos : 1 ≤ interval.count.toInt
  lt : interval.count.toInt < 2 ^ 31

/-- The date that an interval aligns to. -/
def alignDate (interval : DateTimeInterval) (a : Date) : Date :=
  match interval.unit with
  | .day => a.alignDay interval.count.toInt.toNat
  | .month => a.alignMonth interval.count.toInt.toNat
  | .year => a.alignYear interval.count.toInt.toNat
  | _ => a

/-- The time at which the aligned date begins. -/
def alignedSeconds (interval : DateTimeInterval) (t : Int) : Int :=
  86400 * ((alignDate interval (.ofDays (t / 86400 + 719162).toNat)).days - 719162)

theorem alignDate_alignment (interval : DateTimeInterval) : Alignment (alignDate interval) := by
  unfold alignDate
  split
  · exact Date.alignDay_alignment _
  · exact Date.alignMonth_alignment _
  · exact Date.alignYear_alignment _
  · exact ⟨le_refl, monotone_id, fun _ => rfl⟩

theorem valid_alignDate (interval : DateTimeInterval) {a : Date} (ha : a.Valid) : (alignDate interval a).Valid := by
  unfold alignDate
  split
  · exact Date.valid_alignDay _ ha
  · exact Date.valid_alignMonth _ ha
  · exact Date.valid_alignYear _ a
  · exact ha

theorem alignedDays_alignment (interval : DateTimeInterval) : Alignment fun n => (alignDate interval (.ofDays n)).days :=
  Date.alignment_days (alignDate_alignment interval) fun _ => valid_alignDate interval

theorem alignedSeconds_le (interval : DateTimeInterval) {t : Int} (h : 0 ≤ t / 86400 + 719162) : alignedSeconds interval t ≤ t := by
  have hle := (alignedDays_alignment interval).le (t / 86400 + 719162).toNat
  unfold alignedSeconds
  omega

theorem alignedSeconds_mono (interval : DateTimeInterval) {t t' : Int} (hle : t ≤ t') : alignedSeconds interval t ≤ alignedSeconds interval t' := by
  have hmono := (alignedDays_alignment interval).mono (show (t / 86400 + 719162).toNat ≤ (t' / 86400 + 719162).toNat by omega)
  unfold alignedSeconds
  omega

theorem alignedSeconds_idem (interval : DateTimeInterval) (t : Int) :
    alignedSeconds interval (alignedSeconds interval t) = alignedSeconds interval t := by
  have hidem := (alignedDays_alignment interval).idem (t / 86400 + 719162).toNat
  have hday : (alignedSeconds interval t / 86400 + 719162).toNat = (alignDate interval (.ofDays (t / 86400 + 719162).toNat)).days := by
    unfold alignedSeconds
    omega
  rw [alignedSeconds, hday, hidem, alignedSeconds]

theorem alignField_natCast (value step : ℕ) : alignField value step = (value / step * step : ℕ) := by
  unfold alignField
  split_ifs with h
  · rw [Int.natCast_eq_zero.mp h, Nat.mul_zero]
    rfl
  · push_cast
    rw [Int.tdiv_eq_ediv_of_nonneg (Int.natCast_nonneg _)]

theorem alignField_zero (value : Int) : alignField value 0 = 0 := if_pos rfl

theorem alignField_one (value : Int) : alignField value 1 = value := by simp [alignField]

theorem last_aligned_dt_date {lib : CLibrary} (hlib : lib.gmtime = utc) {tp years months days : Int} {a : Date} (ha : a.Valid) (hdays : a.days < 2 ^ 22)
    (hyear : (if years = 0 then 0 else alignField ((utc (toTimeT tp)).tmYear + tmYearOffset) years - tmYearOffset) + tmYearOffset =
      (a.year + 1 : ℕ))
    (hmonth : alignField (utc (toTimeT tp)).tmMon months = a.month)
    (hday : alignField ((utc (toTimeT tp)).tmMday - 1) days + 1 = (a.day + 1 : ℕ)) :
    lastAlignedDt lib tp years months days 0 0 0 false = second * (86400 * ((a.days : Int) - 719162)).bmod (2 ^ 32) := by
  have hseconds : ((((a.days : Int) - 719162) * 24 + 0) * 60 + 0) * 60 + 0 = 86400 * ((a.days : Int) - 719162) := by ring
  unfold lastAlignedDt
  dsimp only
  rw [if_neg Bool.false_ne_true, hlib, mktime_onDate lib hlib (a := a) ?_ ha hdays, duration_second]
  · simp only [alignField_zero, hseconds]
  · exact ⟨hyear, hmonth, hday⟩

theorem toTimeT_days {tp : Int} (htp : IsTimePoint tp) : 0 ≤ toTimeT tp / 86400 + 719162 ∧ toTimeT tp / 86400 + 719162 < 2 ^ 22 := by
  have hlow := htp.1
  have hhigh := htp.2
  unfold toTimeT second
  rcases Int.le_total 0 tp with h | h
  · rw [Int.tdiv_eq_ediv_of_nonneg h]
    omega
  · have hneg : tp.tdiv (10 ^ 9) = -((-tp) / 10 ^ 9) := by
      rw [← Int.tdiv_eq_ediv_of_nonneg (by omega), Int.neg_tdiv, neg_neg]
    rw [hneg]
    omega

/-- The seconds of the aligned date, in 32 bits. A number of years must not be
larger than the year. -/
theorem last_aligned_date {lib : CLibrary} (hlib : lib.gmtime = utc) {interval : DateTimeInterval} (hdate : IsDate interval) {tp : Int}
    (htp : IsTimePoint tp)
    (hyear : interval.unit = .year → interval.count.toInt ≤ (Date.ofDays (toTimeT tp / 86400 + 719162).toNat).year + 1) :
    lastAligned lib tp interval false = second * (alignedSeconds interval (toTimeT tp)).bmod (2 ^ 32) := by
  obtain ⟨hlow, hhigh⟩ := toTimeT_days htp
  obtain ⟨hvalid, hdays⟩ := Date.ofDays_spec (toTimeT tp / 86400 + 719162).toNat
  have hon := utc_onDate hlow
  have hle := (alignedDays_alignment interval).le (toTimeT tp / 86400 + 719162).toNat
  have haligned := valid_alignDate interval hvalid
  unfold alignedSeconds
  generalize Date.ofDays (toTimeT tp / 86400 + 719162).toNat = a at *
  have hbound : (alignDate interval a).days < 2 ^ 22 := by omega
  obtain ⟨n, hn⟩ := Int.eq_ofNat_of_zero_le (show 0 ≤ interval.count.toInt by have := hdate.pos; omega)
  have hpos : 0 < n := by
    have := hdate.pos
    omega
  have hint : (n : Int).bmod (2 ^ 32) = n := by
    have := hdate.lt
    rw [Int.bmod_eq_of_le] <;> omega
  have hmday : (utc (toTimeT tp)).tmMday - 1 = a.day := by
    rw [hon.day]
    omega
  have hto : interval.count.toInt.toNat = n := by omega
  rcases hdate.unit with hunit | hunit | hunit
  · have haligns : alignDate interval a = a.alignDay n := by simp only [alignDate, hunit, hto]
    have hlast : lastAligned lib tp interval false = lastAlignedDt lib tp 1 1 n 0 0 0 false := by simp only [lastAligned, hunit, hn, hint]
    rw [haligns] at haligned hbound ⊢
    rw [hlast]
    refine last_aligned_dt_date hlib haligned hbound ?_ ?_ ?_
    · rw [if_neg one_ne_zero, alignField_one, sub_add_cancel]
      exact hon.year
    · rw [alignField_one]
      exact hon.month
    · rw [hmday, alignField_natCast]
      rfl
  · have haligns : alignDate interval a = a.alignMonth n := by simp only [alignDate, hunit, hto]
    have hlast : lastAligned lib tp interval false = lastAlignedDt lib tp 1 n 0 0 0 0 false := by simp only [lastAligned, hunit, hn, hint]
    rw [haligns] at haligned hbound ⊢
    rw [hlast]
    refine last_aligned_dt_date hlib haligned hbound ?_ ?_ ?_
    · rw [if_neg one_ne_zero, alignField_one, sub_add_cancel]
      exact hon.year
    · rw [hon.month, alignField_natCast]
      rfl
    · rw [alignField_zero]
      rfl
  · have haligns : alignDate interval a = a.alignYear n := by simp only [alignDate, hunit, hto]
    have hlast : lastAligned lib tp interval false = lastAlignedDt lib tp n 0 0 0 0 0 false := by simp only [lastAligned, hunit, hn, hint]
    have hfirst : 0 < (a.year + 1) / n * n := Nat.mul_pos (Nat.div_pos (by have := hyear hunit; omega) hpos) hpos
    rw [haligns] at haligned hbound ⊢
    rw [hlast]
    refine last_aligned_dt_date hlib haligned hbound ?_ ?_ ?_
    · rw [if_neg (by omega), hon.year, alignField_natCast, sub_add_cancel, Date.alignYear, Date.year_date, Nat.sub_add_cancel hfirst]
    · rw [alignField_zero]
      rfl
    · rw [alignField_zero]
      rfl

/-- Each time point is aligned to its date where the seconds of that have 32 bits. -/
theorem last_aligned_date_iff {lib : CLibrary} (hlib : lib.gmtime = utc) {interval : DateTimeInterval} (hdate : IsDate interval) {tp : Int}
    (htp : IsTimePoint tp) :
    lastAligned lib tp interval false = second * alignedSeconds interval (toTimeT tp) ↔
      -2 ^ 31 ≤ alignedSeconds interval (toTimeT tp) ∧ alignedSeconds interval (toTimeT tp) < 2 ^ 31 := by
  by_cases hyear : interval.unit = .year → interval.count.toInt ≤ (Date.ofDays (toTimeT tp / 86400 + 719162).toNat).year + 1
  · rw [last_aligned_date hlib hdate htp hyear, mul_right_inj' (by decide)]
    exact bmod_eq_self_iff _
  · -- Years in a larger number than that of the year align to the first day of all.
    rw [Classical.not_imp] at hyear
    obtain ⟨hunit, hlt⟩ := hyear
    have hzero : ((Date.ofDays (toTimeT tp / 86400 + 719162).toNat).year + 1) / interval.count.toInt.toNat = 0 :=
      Nat.div_eq_of_lt (by omega)
    have hfirst : alignedSeconds interval (toTimeT tp) = 86400 * (0 - 719162) := by
      simp only [alignedSeconds, alignDate, hunit, Date.alignYear, hzero, Nat.zero_mul]
      rfl
    have hlow : -2 ^ 31 * second ≤ lastAligned lib tp interval false := by
      simp only [lastAligned, hunit]
      exact le_duration_second _
    rw [hfirst]
    refine iff_of_false (fun h => ?_) (by omega)
    rw [h, second] at hlow
    omega

/-- From the epoch until 2038, an alignment as long as the aligned dates are in 32 bits. -/
theorem last_aligned_dates {lib : CLibrary} (hlib : lib.gmtime = utc) {interval : DateTimeInterval} (hdate : IsDate interval) {tp tp' : Int}
    (hlow : 0 ≤ tp) (hle : tp ≤ tp') (hhigh : tp' < 2 ^ 31 * second) (hfits : -2 ^ 31 ≤ alignedSeconds interval (toTimeT tp)) :
    lastAligned lib tp interval false ≤ tp ∧
      lastAligned lib (lastAligned lib tp interval false) interval false = lastAligned lib tp interval false ∧
      lastAligned lib tp interval false ≤ lastAligned lib tp' interval false := by
  have htime : ∀ t, 0 ≤ t → toTimeT t = t / 10 ^ 9 := fun t => Int.tdiv_eq_ediv_of_nonneg
  have hseconds : ∀ s, toTimeT (second * s) = s := fun s => Int.mul_tdiv_cancel_left s (by decide)
  have hmono := alignedSeconds_mono interval (show toTimeT tp ≤ toTimeT tp' by rw [htime tp hlow, htime tp' (by omega)]; omega)
  have hbelow : ∀ t, 0 ≤ t → t < 2 ^ 31 * second → alignedSeconds interval (toTimeT t) ≤ t / 10 ^ 9 := by
    intro t h _
    have hfloor := alignedSeconds_le interval (t := toTimeT t) (by rw [htime t h]; omega)
    rwa [htime t h] at hfloor ⊢
  have hat := hbelow tp hlow (by omega)
  have hat' := hbelow tp' (by omega) hhigh
  unfold second at hhigh
  have heq := (last_aligned_date_iff hlib hdate (show IsTimePoint tp by unfold IsTimePoint; omega)).mpr ⟨hfits, by omega⟩
  have heq' := (last_aligned_date_iff hlib hdate (show IsTimePoint tp' by unfold IsTimePoint; omega)).mpr ⟨hfits.trans hmono, by omega⟩
  have hidem := alignedSeconds_idem interval (toTimeT tp)
  rw [heq, heq']
  generalize alignedSeconds interval (toTimeT tp) = s at *
  generalize alignedSeconds interval (toTimeT tp') = s' at *
  refine ⟨?_, ?_, ?_⟩
  · unfold second
    omega
  · rw [(last_aligned_date_iff hlib hdate (show IsTimePoint (second * s) by unfold IsTimePoint second; omega)).mpr] <;>
      rw [hseconds, hidem]
    exact ⟨hfits, by omega⟩
  · exact Int.mul_le_mul_of_nonneg_left hmono (by decide)

/-- From the epoch until 2038, days are aligned to midnight. -/
theorem last_aligned_daily {lib : CLibrary} (hlib : lib.gmtime = utc) {tp : Int} (hlow : 0 ≤ tp) (hhigh : tp < 2 ^ 31 * second) :
    lastAligned lib tp { unit := .day, count := 1 } false = floor (24 * hour) tp := by
  have htime : toTimeT tp = tp / 10 ^ 9 := Int.tdiv_eq_ediv_of_nonneg hlow
  have hself : alignedSeconds { unit := .day, count := 1 } (toTimeT tp) = 86400 * (toTimeT tp / 86400) := by
    have hdays : ((Date.ofDays (toTimeT tp / 86400 + 719162).toNat).alignDay 1).days = (toTimeT tp / 86400 + 719162).toNat := by
      rw [Date.alignDay, Nat.div_one, Nat.mul_one]
      exact (Date.ofDays_spec _).2
    show 86400 * ((((Date.ofDays (toTimeT tp / 86400 + 719162).toNat).alignDay 1).days : Int) - 719162) = _
    rw [hdays]
    omega
  unfold second at hhigh
  rw [(last_aligned_date_iff hlib ⟨.inl rfl, by decide, by decide⟩ (show IsTimePoint tp by unfold IsTimePoint; omega)).mpr]
  · rw [hself, htime]
    show 10 ^ 9 * (86400 * (tp / 10 ^ 9 / 86400)) = tp - tp % (24 * (60 * (60 * 10 ^ 9)))
    omega
  · rw [hself, htime]
    omega

/-! ### Every interval -/

theorem lawful_eternity_iff {interval : DateTimeInterval} (hunit : interval.unit = .eternity) (hcount : 0 ≤ interval.count.toInt) :
    Lawful interval ↔ interval.count.toInt = 0 := by
  constructor
  · intro h
    by_contra hne
    have hle := h.le (by omega) utcLibrary _ zoned_utcLibrary (-1) (by unfold IsTimePoint; omega)
    simp [lastAligned, hunit] at hle
  · intro hc
    exact Lawful.of_zero hc (by simp [modulus, hunit])

theorem lawful_unit_iff {interval : DateTimeInterval} (hcount : 0 ≤ interval.count.toInt) : Lawful interval ↔ IsLawful interval := by
  unfold IsLawful
  split
  case h_1 hunit | h_2 hunit | h_3 hunit | h_4 hunit =>
    have hf : Alignment fun tp => lastAligned utcLibrary tp interval false :=
      last_aligned_alignment utcLibrary (by simp [IsClock, hunit]) fun h => absurd h Bool.false_ne_true
    refine iff_of_true (Lawful.of_alignment hf (by simp [modulus, hunit]) fun lib offset _ tp => ?_) trivial
    simp only [lastAligned, hunit]
  case h_5 hunit =>
    have hf : Alignment fun tp : Int => tp := ⟨le_refl, monotone_id, fun _ => rfl⟩
    refine iff_of_true (Lawful.of_alignment hf (by simp [modulus, hunit]) fun lib offset _ tp => ?_) trivial
    simp only [lastAligned, hunit]
  case h_6 hunit =>
    apply lawful_clock_iff (duration minute interval.count.toInt) hcount
    · intro hc
      simp [hc, duration]
    · simp only [modulus, hunit]
    · intro lib tp isLocal
      simp only [lastAligned, hunit]
  case h_7 hunit =>
    apply lawful_clock_iff (duration hour interval.count.toInt) hcount
    · intro hc
      simp [hc, duration]
    · simp only [modulus, hunit]
    · intro lib tp isLocal
      simp only [lastAligned, hunit]
  case h_8 hunit => exact lawful_week_iff hunit hcount
  case h_9 hunit | h_10 hunit | h_11 hunit =>
    apply lawful_dt_iff hcount (by simp [modulus, hunit])
    intro lib tp
    simp only [lastAligned, hunit]
    exact ⟨_, _, _, rfl⟩
  case h_12 hunit => exact lawful_eternity_iff hunit hcount

/-- For an interval of less than a second, the remainder is by zero. -/
theorem last_aligned_clock?_ne_none_iff (span : Int) :
    (∀ lib tp isLocal, lastAlignedClock? lib tp span isLocal ≠ none) ↔ ¬ (0 ≤ span ∧ span < second) := by
  have hfloor : floor second span = 0 ↔ 0 ≤ span ∧ span < second := by
    simp only [floor, second]
    omega
  rw [← hfloor]
  constructor
  · intro h hzero
    apply h utcLibrary 0 false
    rw [last_aligned_clock?_eq, if_pos hzero]
  · intro hne lib tp isLocal
    simp [last_aligned_clock?_eq, hne]

/-- For a date/time interval and for a duration. -/
theorem last_aligned_lawful_iff {interval : DateTimeInterval} (hcount : 0 ≤ interval.count.toInt) (span : Int) :
    (Lawful interval ↔ IsLawful interval) ∧
      ((∀ lib tp isLocal, lastAlignedClock? lib tp span isLocal ≠ none) ↔ ¬ (0 ≤ span ∧ span < second)) :=
  ⟨lawful_unit_iff hcount, last_aligned_clock?_ne_none_iff span⟩

theorem lawful_quarters : Lawful { unit := .minute, count := 15 } :=
  ((last_aligned_lawful_iff (by decide) 0).1).mpr (show 0 < modulus { unit := .minute, count := 15 } by decide)

/-- Zero minutes divide nothing, weeks begin with the Sunday of a zone, and days
are of the seconds that have 32 bits. -/
theorem not_lawful_intervals :
    ¬ Lawful { unit := .minute, count := 0 } ∧ ¬ Lawful { unit := .week, count := 1 } ∧ ¬ Lawful { unit := .day, count := 1 } ∧
      lastAlignedClock? utcLibrary 0 999999999 false = none := by
  refine ⟨?_, ?_, ?_, rfl⟩
  · intro h
    exact h.modulus_ne_zero (by decide)
  · rw [lawful_week_iff rfl (by decide)]
    decide
  · rw [lawful_unit_iff (by decide)]
    show ¬ (1 : Int64).toInt = 0
    decide

end Dt

end CommonCore
