import CommonCore.DurationTexts
import CommonCore.UtcTimes

/-!
# Time points as text in Python

`to_string` of `timepoint.py` and its `from_string`, with exact numbers in place
of floating point. The calendar takes the seconds rounded down, but the fraction
is counted from the seconds rounded toward zero. The hours of an offset are
rounded toward zero as well, while its minutes are counted from the hour below.
-/

namespace CommonCore

namespace TimePoints

open Durations (numeral)
open Durations.DateTime (trunc)
open Dt (tmYearOffset utc)
open Gregorian

/-! ## Dates and times -/

structure DateTime where
  year : ℕ
  month : ℕ
  day : ℕ
  hour : ℕ
  minute : ℕ
  second : ℕ
  microsecond : ℕ := 0
  /-- The seconds that the time zone is ahead of UTC. -/
  tzinfo : Option ℤ := none

namespace DateTime

def Valid (x : DateTime) : Prop :=
  1 ≤ x.year ∧ (1 ≤ x.month ∧ x.month ≤ 12) ∧ (1 ≤ x.day ∧ x.day ≤ monthLength (isLeap x.year) (x.month - 1)) ∧
    x.hour < 24 ∧ x.minute < 60 ∧ x.second < 60 ∧ ∀ offset ∈ x.tzinfo, |offset| < 86400

instance (x : DateTime) : Decidable x.Valid :=
  inferInstanceAs (Decidable (_ ∧ (_ ∧ _) ∧ (_ ∧ _) ∧ _ ∧ _ ∧ _ ∧ _))

/-- The seconds from the epoch to that date and time in UTC. -/
def seconds (x : DateTime) : ℤ :=
  ((before (fun i => yearLength (i + 1)) (x.year - 1) + before (monthLength (isLeap x.year)) (x.month - 1) + (x.day - 1) : ℕ) - 719162) * 86400 +
    x.hour * 3600 + x.minute * 60 + x.second

end DateTime

/-- What Python and its modules do in some time zone. -/
structure Python where
  localtime : ℤ → Tm
  timezone : ℤ
  altzone : ℤ
  tzname : ℤ → List Char
  isupper : Char → Bool
  /-- Of a date and time without a time zone. -/
  timestamp : DateTime → ℚ
  /-- Whether `%Y` has four digits before the year 1000. In the C library of GNU
  it has not. -/
  padsYears : Bool

/-! ## Writing -/

/-- `%0*d` of Python, or `%+0*d`. -/
def formatted (plus : Bool) (width : ℕ) (n : ℤ) : List Char :=
  let sign := if n < 0 then ['-'] else if plus then ['+'] else []
  let digits := numeral id n.natAbs
  sign ++ List.replicate (width - (sign.length + digits.length)) '0' ++ digits

section
variable (py : Python)

def yearText (year : ℤ) : List Char := formatted false (if py.padsYears then 4 else 0) year

/-- `%F` -/
def dateText (timestruct : Tm) : List Char :=
  yearText py (timestruct.tmYear + tmYearOffset) ++ '-' :: formatted false 2 (timestruct.tmMon + 1) ++
    '-' :: formatted false 2 timestruct.tmMday

/-- `%T` -/
def timeText (timestruct : Tm) : List Char :=
  formatted false 2 timestruct.tmHour ++ ':' :: formatted false 2 timestruct.tmMin ++ ':' :: formatted false 2 timestruct.tmSec

def strftime (timestruct : Tm) : List Char → List Char
  | '%' :: 'F' :: format => dateText py timestruct ++ strftime timestruct format
  | '%' :: 'T' :: format => timeText timestruct ++ strftime timestruct format
  | '%' :: '%' :: format => '%' :: strftime timestruct format
  | c :: format => c :: strftime timestruct format
  | [] => []

inductive ZoneSuffix
  | none
  | offset
  | name
  | zulu
  deriving DecidableEq

def tzOffset (timestruct : Tm) (isUtc : Bool) : ℤ :=
  if isUtc then 0 else if timestruct.tmIsdst ≠ 0 then py.altzone else py.timezone

def toStructTime (tp : ℚ) (utc : Bool) : Tm := if utc then Dt.utc ⌊tp⌋ else py.localtime ⌊tp⌋

def fractionText (decimals : ℕ) (tp : ℚ) : List Char :=
  if decimals ≠ 0 then '.' :: formatted false decimals (trunc (10 ^ decimals * (tp - trunc tp))) else []

def offsetText (offset : ℤ) : List Char :=
  formatted true 3 (trunc ((-offset : ℤ) / 3600)) ++ formatted false 2 (trunc ((-offset % 3600 : ℤ) / 60))

def toString (tp : ℚ) (utc : Bool) (timeDelimiter : List Char) (decimals : ℕ) (zoneSuffix : ZoneSuffix)
    (zoneDelimiter : List Char) : List Char :=
  let timestruct := toStructTime py tp utc
  let parts := strftime py timestruct ("%F".toList ++ timeDelimiter ++ "%T".toList) ++ fractionText decimals tp
  match zoneSuffix with
  | .offset => parts ++ zoneDelimiter ++ offsetText (tzOffset py timestruct utc)
  | .name =>
    if utc then parts ++ zoneDelimiter ++ "UTC".toList
    else parts ++ zoneDelimiter ++ (py.tzname timestruct.tmIsdst).filter py.isupper
  | .zulu => if utc then parts ++ zoneDelimiter ++ "Z".toList else parts
  | .none => parts

def toIso8601String (tp : ℚ) (decimals : ℕ) : List Char := toString py tp true "T".toList decimals .zulu []

end

/-! ## Reading -/

/-- A number of exactly `k` digits, after others. -/
def number : ℕ → ℕ → List Char → Option (ℕ × List Char)
  | 0, n, s => some (n, s)
  | k + 1, n, c :: s => if c.isDigit then number k (n * 10 + (c.toNat - 48)) s else none
  | _ + 1, _, [] => none

def expect (c : Char) : List Char → Option (List Char)
  | x :: s => if x = c then some s else none
  | [] => none

def readDate (s : List Char) : Option ((ℕ × ℕ × ℕ) × List Char) := do
  let (year, s) ← number 4 0 s
  let s ← expect '-' s
  let (month, s) ← number 2 0 s
  let s ← expect '-' s
  let (day, s) ← number 2 0 s
  some ((year, month, day), s)

def readTime (s : List Char) : Option ((ℕ × ℕ × ℕ) × List Char) := do
  let (hour, s) ← number 2 0 s
  let s ← expect ':' s
  let (minute, s) ← number 2 0 s
  let s ← expect ':' s
  let (second, s) ← number 2 0 s
  some ((hour, minute, second), s)

/-- Six digits after the point count, and there may be less or more. -/
def readFraction : List Char → Option (ℕ × List Char)
  | '.' :: s =>
    let digits := s.takeWhile Char.isDigit
    if digits = [] then none else (number 6 0 (digits ++ List.replicate 6 '0')).map fun r => (r.1, s.dropWhile Char.isDigit)
  | s => some (0, s)

def readOffset (s : List Char) : Option ℤ := do
  let (hour, s) ← number 2 0 s
  let (minute, s) ← number 2 0 s
  if s = [] then some ((hour * 3600 + minute * 60 : ℕ) : ℤ) else none

def readZone : List Char → Option (Option ℤ)
  | [] => some none
  | 'Z' :: s => if s = [] then some (some 0) else none
  | '+' :: s => (readOffset s).map some
  | '-' :: s => (readOffset s).map fun offset => some (-offset)
  | _ => none

/-- `datetime.fromisoformat`, for texts with a date in hyphens, a time in colons
and a zone in neither. -/
def fromisoformat (s : List Char) : Option DateTime := do
  let ((year, month, day), s) ← readDate s
  let s := s.tail
  let ((hour, minute, second), s) ← readTime s
  let (microsecond, s) ← readFraction s
  let tzinfo ← readZone s
  let x : DateTime := { year, month, day, hour, minute, second, microsecond, tzinfo }
  if x.Valid then some x else none

section
variable (py : Python)

/-- For a date and time with a time zone, the exact distance from the epoch. -/
def timestamp (x : DateTime) : ℚ :=
  match x.tzinfo with
  | none => py.timestamp x
  | some offset => (x.seconds - offset : ℤ) + x.microsecond / 10 ^ 6

def fromDatetime (x : DateTime) (assumeUtc : Bool) : ℚ :=
  timestamp py (if x.tzinfo.isNone && assumeUtc then { x with tzinfo := some 0 } else x)

def fromString (s : List Char) (assumeUtc : Bool) : Option ℚ :=
  (fromisoformat s).map fun x => fromDatetime py x assumeUtc

end

/-! ## Digits -/

/-- The last `k` digits of a number. -/
def digitsOf (k n : ℕ) : List Char := (List.range k).reverse.map fun i => Nat.digitChar (n / 10 ^ i % 10)

theorem digitsOf_succ (k n : ℕ) : digitsOf (k + 1) n = Nat.digitChar (n / 10 ^ k % 10) :: digitsOf k n := by
  simp [digitsOf, List.range_succ]

theorem digitChar_spec : ∀ d < 10, (Nat.digitChar d).isDigit = true ∧ (Nat.digitChar d).toNat - 48 = d := by decide

theorem isDigit_of_mem_digitsOf {k n : ℕ} {c : Char} (hc : c ∈ digitsOf k n) : c.isDigit = true := by
  obtain ⟨i, -, rfl⟩ := List.mem_map.mp hc
  exact (digitChar_spec _ (Nat.mod_lt _ (by decide))).1

theorem number_digitsOf (k n m : ℕ) (s : List Char) : number k m (digitsOf k n ++ s) = some (m * 10 ^ k + n % 10 ^ k, s) := by
  induction k generalizing m with
  | zero => simp [number, digitsOf, Nat.mod_one]
  | succ k ih =>
    obtain ⟨hdigit, hvalue⟩ := digitChar_spec (n / 10 ^ k % 10) (Nat.mod_lt _ (by decide))
    have hsplit : n % 10 ^ (k + 1) = n % 10 ^ k + 10 ^ k * (n / 10 ^ k % 10) := Nat.mod_mul
    rw [digitsOf_succ, List.cons_append, number, if_pos hdigit, hvalue, ih, hsplit]
    congr 2
    ring

theorem number_of_lt {k n : ℕ} (h : n < 10 ^ k) (s : List Char) : number k 0 (digitsOf k n ++ s) = some (n, s) := by
  rw [number_digitsOf, Nat.mod_eq_of_lt h, Nat.zero_mul, Nat.zero_add]

/-- With zeros before it, a number is still the same. -/
theorem digitsOf_add (j : ℕ) {k n : ℕ} (h : n < 10 ^ k) : digitsOf (j + k) n = List.replicate j '0' ++ digitsOf k n := by
  induction j with
  | zero => simp
  | succ j ih =>
    have hlt : n < 10 ^ (j + k) := h.trans_le (Nat.pow_le_pow_right (by decide) (Nat.le_add_left k j))
    rw [Nat.add_right_comm, digitsOf_succ, Nat.div_eq_of_lt hlt, ih]
    rfl

theorem digits_eq_map (n : ℕ) : Nat.digits 10 n = (List.range (Nat.digits 10 n).length).map fun i => n / 10 ^ i % 10 := by
  apply List.ext_getElem (by simp)
  intro i hi _
  have h := Nat.getD_digits n i (show 2 ≤ 10 by decide)
  rw [List.getD_eq_getElem _ _ hi] at h
  simpa using h

theorem numeral_eq_digitsOf (n : ℕ) : numeral id n = digitsOf (numeral id n).length n := by
  by_cases h : n = 0
  · subst h
    rfl
  · have hmap : numeral id n = (Nat.digits 10 n).reverse.map Nat.digitChar := if_neg h
    rw [hmap, digits_eq_map]
    simp [digitsOf]

theorem lt_pow_length_numeral (n : ℕ) : n < 10 ^ (numeral id n).length := by
  by_cases h : n = 0
  · subst h
    decide
  · have hmap : numeral id n = (Nat.digits 10 n).reverse.map Nat.digitChar := if_neg h
    rw [hmap, List.length_map, List.length_reverse]
    exact Nat.lt_base_pow_length_digits (by decide)

theorem length_numeral_le_iff {k n : ℕ} (hk : 0 < k) : (numeral id n).length ≤ k ↔ n < 10 ^ k := by
  by_cases h : n = 0
  · subst h
    exact iff_of_true hk (by positivity)
  · have hmap : numeral id n = (Nat.digits 10 n).reverse.map Nat.digitChar := if_neg h
    rw [hmap, List.length_map, List.length_reverse, Nat.digits_length_le_iff (by decide)]

theorem padded_numeral {k n : ℕ} (hk : 0 < k) (h : n < 10 ^ k) :
    List.replicate (k - (numeral id n).length) '0' ++ numeral id n = digitsOf k n := by
  have hle := (length_numeral_le_iff hk).mpr h
  have hadd := digitsOf_add (k - (numeral id n).length) (lt_pow_length_numeral n)
  rw [← numeral_eq_digitsOf, Nat.sub_add_cancel hle] at hadd
  exact hadd.symm

theorem formatted_of_lt {k n : ℕ} (hk : 0 < k) (h : n < 10 ^ k) : formatted false k n = digitsOf k n := by
  have hneg : ¬ (n : ℤ) < 0 := by omega
  rw [← padded_numeral hk h]
  simp [formatted, hneg]

theorem formatted_plus (k : ℕ) {n : ℤ} (h : n.natAbs < 10 ^ (k + 1)) :
    formatted true (k + 2) n = (if n < 0 then '-' else '+') :: digitsOf (k + 1) n.natAbs := by
  have hwidth : k + 2 - (1 + (numeral id n.natAbs).length) = k + 1 - (numeral id n.natAbs).length := by omega
  have hsign : (if n < 0 then ['-'] else ['+']) = [if n < 0 then '-' else '+'] := by split_ifs <;> rfl
  rw [← padded_numeral (Nat.succ_pos k) h]
  simp [formatted, hsign, hwidth]

theorem formatted_neg {n : ℤ} (h : n < 0) (k : ℕ) : ∃ s, formatted false k n = '-' :: s :=
  ⟨_, by rw [formatted, if_pos h]; rfl⟩

theorem yearText_of_lt {py : Python} {year : ℕ} (hlt : year < 10 ^ 4) (h : py.padsYears = true ∨ 1000 ≤ year) :
    yearText py year = digitsOf 4 year := by
  unfold yearText
  by_cases hpads : py.padsYears = true
  · rw [if_pos hpads, formatted_of_lt (by decide) hlt]
  · have hlow : ¬ (numeral id year).length ≤ 3 := by
      rw [length_numeral_le_iff (by decide)]
      have := h.resolve_left hpads
      omega
    have hlength : 4 - (numeral id year).length = 0 := by omega
    have hneg : ¬ (year : ℤ) < 0 := by omega
    rw [if_neg hpads, ← padded_numeral (by decide) hlt, hlength]
    simp [formatted, hneg]

theorem yearText_999 {py : Python} (h : ¬ py.padsYears = true) : yearText py (999 : ℕ) = ['9', '9', '9'] := by
  rw [yearText, if_neg h]
  decide

/-! ## The calendar -/

theorem yearOf_le_iff {n : ℤ} (h : 0 ≤ n) (k : ℕ) : (yearOf n).1 ≤ k ↔ n < before (fun i => yearLength (i + 1)) k := by
  obtain ⟨i, hyear, hinside, htotal⟩ := yearOf_spec h
  have hsucc := before_succ (fun i => yearLength (i + 1)) i
  by_cases hle : i + 1 ≤ k
  · have := before_mono (fun i => yearLength (i + 1)) hle
    omega
  · have := before_mono (fun i => yearLength (i + 1)) (show k ≤ i by omega)
    omega

/-- The year of a time, in UTC. -/
def yearAt (t : ℤ) : ℤ := (utc t).tmYear + tmYearOffset

/-- Less than a day away from the years from 1000 to 9998. -/
theorem yearAt_add {t e : ℤ} (hfirst : 1000 ≤ yearAt t) (hlast : yearAt t ≤ 9998) (he : |e| < 86400) :
    0 ≤ (t + e) / 86400 + 719162 ∧ 999 ≤ yearAt (t + e) ∧ yearAt (t + e) ≤ 9999 := by
  have hday : 0 ≤ t / 86400 + 719162 := (yearOf_pos_iff _).mp (by rw [← Dt.year_utc]; exact le_trans (by decide) hfirst)
  have h998 := before_years 998
  have h999 := before_years 999
  have h9998 := before_years 9998
  have h9999 := before_years 9999
  have hlow := yearOf_le_iff hday 999
  have hhigh := yearOf_le_iff hday 9998
  rw [← Dt.year_utc] at hlow hhigh
  obtain ⟨he1, he2⟩ := abs_lt.mp he
  unfold yearAt at hfirst hlast
  have hday' : 0 ≤ (t + e) / 86400 + 719162 := by omega
  have hlow' := yearOf_le_iff hday' 998
  have hhigh' := yearOf_le_iff hday' 9999
  rw [← Dt.year_utc] at hlow' hhigh'
  unfold yearAt
  omega

/-- The fields of a calendar time. -/
structure Fields (timestruct : Tm) (x : DateTime) : Prop where
  year : timestruct.tmYear + tmYearOffset = x.year
  month : timestruct.tmMon + 1 = x.month
  day : timestruct.tmMday = x.day
  hour : timestruct.tmHour = x.hour
  minute : timestruct.tmMin = x.minute
  second : timestruct.tmSec = x.second

/-- A calendar time as a date and time. -/
def civil (timestruct : Tm) : DateTime where
  year := (timestruct.tmYear + tmYearOffset).toNat
  month := (timestruct.tmMon + 1).toNat
  day := timestruct.tmMday.toNat
  hour := timestruct.tmHour.toNat
  minute := timestruct.tmMin.toNat
  second := timestruct.tmSec.toNat

/-- The date of `gmtime`, with the month and the day counted from zero. -/
theorem utc_date {t : ℤ} (h : 0 ≤ t / 86400 + 719162) :
    ∃ i m d : ℕ, (utc t).tmYear + tmYearOffset = (i + 1 : ℕ) ∧ (utc t).tmMon + 1 = (m + 1 : ℕ) ∧ (utc t).tmMday = (d + 1 : ℕ) ∧
      m < 12 ∧ d < monthLength (isLeap (i + 1)) m ∧
      ((before (fun i => yearLength (i + 1)) i + before (monthLength (isLeap (i + 1))) m + d : ℕ) : ℤ) = t / 86400 + 719162 := by
  obtain ⟨⟨hmonth, hday⟩, hdays⟩ := Date.ofDays_spec (t / 86400 + 719162).toNat
  have hdate := Dt.utc_onDate h
  refine ⟨_, _, _, hdate.year, ?_, hdate.day, hmonth, hday, ?_⟩
  · rw [hdate.month]
    rfl
  · show ((Date.ofDays (t / 86400 + 719162).toNat).days : ℤ) = _
    rw [hdays, Int.toNat_of_nonneg h]

theorem civil_utc {t : ℤ} (h : 0 ≤ t / 86400 + 719162) :
    Fields (utc t) (civil (utc t)) ∧ (civil (utc t)).Valid ∧ (civil (utc t)).seconds = t := by
  obtain ⟨i, m, d, hyear, hmonth, hday, hm, hd, htotal⟩ := utc_date h
  have hhour : (utc t).tmHour = t % 86400 / 3600 := rfl
  have hminute : (utc t).tmMin = t % 86400 / 60 % 60 := rfl
  have hsecond : (utc t).tmSec = t % 86400 % 60 := rfl
  refine ⟨⟨?_, ?_, ?_, ?_, ?_, ?_⟩, ?_, ?_⟩
  · simp only [civil, hyear, Int.toNat_natCast]
  · simp only [civil, hmonth, Int.toNat_natCast]
  · simp only [civil, hday, Int.toNat_natCast]
  · simp only [civil]
    omega
  · simp only [civil]
    omega
  · simp only [civil]
    omega
  · simp only [DateTime.Valid, civil, hyear, hmonth, hday, hhour, hminute, hsecond, Int.toNat_natCast, Nat.add_sub_cancel]
    refine ⟨by omega, by omega, by omega, by omega, by omega, by omega, by simp⟩
  · simp only [DateTime.seconds, civil, hyear, hmonth, hday, hhour, hminute, hsecond, Int.toNat_natCast, Nat.add_sub_cancel]
    omega

/-! ## A date and time read back -/

theorem readDate_dateText {py : Python} {timestruct : Tm} {x : DateTime} (hfields : Fields timestruct x) (hx : x.Valid)
    (hyear : yearText py x.year = digitsOf 4 x.year) (hlt : x.year < 10 ^ 4) (s : List Char) :
    readDate (dateText py timestruct ++ s) = some ((x.year, x.month, x.day), s) := by
  obtain ⟨-, ⟨-, hmonth⟩, ⟨-, hday⟩, -⟩ := hx
  have hlength := monthLength_le (isLeap x.year) (x.month - 1) (by omega)
  have hmonth' : x.month < 10 ^ 2 := by omega
  have hday' : x.day < 10 ^ 2 := by omega
  unfold readDate dateText
  rw [hfields.year, hfields.month, hfields.day, hyear, formatted_of_lt (by decide) hmonth', formatted_of_lt (by decide) hday']
  simp only [List.append_assoc, List.cons_append, number_of_lt hlt, number_of_lt hmonth', number_of_lt hday', expect, if_true,
    Option.bind_eq_bind, Option.bind_some]

theorem readTime_timeText {timestruct : Tm} {x : DateTime} (hfields : Fields timestruct x) (hx : x.Valid) (s : List Char) :
    readTime (timeText timestruct ++ s) = some ((x.hour, x.minute, x.second), s) := by
  obtain ⟨-, -, -, hhour, hminute, hsecond, -⟩ := hx
  have hhour' : x.hour < 10 ^ 2 := by omega
  have hminute' : x.minute < 10 ^ 2 := by omega
  have hsecond' : x.second < 10 ^ 2 := by omega
  unfold readTime timeText
  rw [hfields.hour, hfields.minute, hfields.second, formatted_of_lt (by decide) hhour', formatted_of_lt (by decide) hminute',
    formatted_of_lt (by decide) hsecond']
  simp only [List.append_assoc, List.cons_append, number_of_lt hhour', number_of_lt hminute', number_of_lt hsecond', expect, if_true,
    Option.bind_eq_bind, Option.bind_some]

theorem strftime_eq (py : Python) (timestruct : Tm) {c : Char} (hc : c ≠ '%') :
    strftime py timestruct ("%F".toList ++ [c] ++ "%T".toList) = dateText py timestruct ++ c :: timeText timestruct := by
  have hformat : "%F".toList ++ [c] ++ "%T".toList = '%' :: 'F' :: c :: ['%', 'T'] := rfl
  rw [hformat]
  simp [strftime, hc]

section
variable {py : Python} {timestruct : Tm} {x : DateTime} {c : Char} {s : List Char} {r : Option ℕ} {rest : List Char}
  {offset : ℤ}

/-- What remains to be read after the time. -/
theorem fromisoformat_text (hc : c ≠ '%') (hfields : Fields timestruct x) (hx : x.Valid) (hyear : yearText py x.year = digitsOf 4 x.year)
    (hlt : x.year < 10 ^ 4) (hfraction : readFraction s = r.map fun n => (n, rest)) (hzone : readZone rest = some (some offset))
    (hoffset : |offset| < 86400) :
    fromisoformat (strftime py timestruct ("%F".toList ++ [c] ++ "%T".toList) ++ s) =
      r.map fun n => { x with microsecond := n, tzinfo := some offset } := by
  have hvalid : ∀ n, DateTime.Valid { x with microsecond := n, tzinfo := some offset } := by
    obtain ⟨hyear, hmonth, hday, hhour, hminute, hsecond, -⟩ := hx
    intro n
    exact ⟨hyear, hmonth, hday, hhour, hminute, hsecond, by simpa using hoffset⟩
  unfold fromisoformat
  rw [strftime_eq py timestruct hc, List.append_assoc, readDate_dateText hfields hx hyear hlt]
  simp only [Option.bind_eq_bind, Option.bind_some, List.cons_append, List.tail_cons, readTime_timeText hfields hx, hfraction]
  cases r with
  | none => rfl
  | some n => simp only [Option.map_some, Option.bind_some, hzone, if_pos (hvalid n)]

end

/-! ## Fractions -/

theorem number_add (j k n : ℕ) (s : List Char) : number (j + k) n s = (number j n s).bind fun r => number k r.1 r.2 := by
  induction j generalizing n s with
  | zero => rw [Nat.zero_add]; rfl
  | succ j ih =>
    rw [Nat.add_right_comm]
    cases s with
    | nil => rfl
    | cons c s =>
      by_cases hc : c.isDigit = true
      · rw [number, number, if_pos hc, if_pos hc, ih]
      · rw [number, number, if_neg hc, if_neg hc]
        rfl

theorem number_zeros (k n : ℕ) (s : List Char) : number k n (List.replicate k '0' ++ s) = some (n * 10 ^ k, s) := by
  induction k generalizing n with
  | zero => simp [number]
  | succ k ih =>
    have hzero : '0'.isDigit = true ∧ '0'.toNat - 48 = 0 := by decide
    rw [List.replicate_succ, List.cons_append, number, if_pos hzero.1, hzero.2, ih, pow_succ]
    congr 2
    ring

/-- What follows a number. -/
def Follows (s : List Char) : Prop := ∀ c ∈ s.head?, c.isDigit = false ∧ c ≠ '.'

theorem readFraction_of_follows {s : List Char} (h : Follows s) : readFraction s = some (0, s) := by
  cases s with
  | nil => rfl
  | cons c s =>
    have hc : c ≠ '.' := (h c rfl).2
    simp [readFraction, hc]

theorem readFraction_digits {k n : ℕ} (hk : 0 < k) (hle : k ≤ 6) (h : n < 10 ^ k) {s : List Char} (hs : Follows s) :
    readFraction ('.' :: digitsOf k n ++ s) = some (n * 10 ^ (6 - k), s) := by
  have hall : ∀ c ∈ digitsOf k n, c.isDigit = true := fun _ => isDigit_of_mem_digitsOf
  have htake : s.takeWhile Char.isDigit = [] ∧ s.dropWhile Char.isDigit = s := by
    cases s with
    | nil => exact ⟨rfl, rfl⟩
    | cons c s => simp [(hs c rfl).1]
  have hne : digitsOf k n ≠ [] := by
    obtain ⟨k, rfl⟩ := Nat.exists_eq_succ_of_ne_zero hk.ne'
    rw [digitsOf_succ]
    exact List.cons_ne_nil _ _
  have hzeros : List.replicate 6 '0' = List.replicate (6 - k) '0' ++ List.replicate k '0' := by
    rw [List.replicate_append_replicate, Nat.sub_add_cancel hle]
  have hnumber : number 6 0 (digitsOf k n ++ List.replicate 6 '0') = some (n * 10 ^ (6 - k), List.replicate k '0') := by
    rw [hzeros, show 6 = k + (6 - k) by omega, number_add, Nat.add_sub_cancel_left, number_of_lt h, Option.bind_some, number_zeros]
  rw [List.cons_append, readFraction, List.takeWhile_append_of_pos hall, List.dropWhile_append_of_pos hall, htake.1, htake.2, List.append_nil, if_neg hne, hnumber]
  rfl

theorem readFraction_minus (s : List Char) : readFraction ('.' :: '-' :: s) = none := by
  simp [readFraction]

/-- A time point rounded down to some decimals. -/
def floored (decimals : ℕ) (tp : ℚ) : ℚ := ⌊tp * 10 ^ decimals⌋ / 10 ^ decimals

/-- Whether a fraction is written that counts from the second below. -/
def FractionKept (decimals : ℕ) (tp : ℚ) : Prop := decimals = 0 ∨ 0 ≤ tp ∨ tp = ⌊tp⌋

theorem trunc_eq_floor_iff (tp : ℚ) : trunc tp = ⌊tp⌋ ↔ 0 ≤ tp ∨ tp = ⌊tp⌋ := by
  unfold trunc
  by_cases h : 0 ≤ tp
  · simp [h]
  · rw [if_neg h]
    simp only [h, false_or]
    constructor
    · intro heq
      exact le_antisymm (heq ▸ Int.le_ceil tp) (Int.floor_le tp)
    · intro heq
      rw [heq, Int.ceil_intCast, Int.floor_intCast]

section
variable {tp : ℚ} {d : ℕ} {rest : List Char}

theorem floor_mul_pow (tp : ℚ) (d : ℕ) : 0 ≤ ⌊tp * 10 ^ d⌋ - ⌊tp⌋ * 10 ^ d ∧ ⌊tp * 10 ^ d⌋ - ⌊tp⌋ * 10 ^ d < 10 ^ d := by
  have hpos : (0 : ℚ) < 10 ^ d := by positivity
  have hlow := mul_le_mul_of_nonneg_right (Int.floor_le tp) hpos.le
  have hhigh := mul_lt_mul_of_pos_right (Int.lt_floor_add_one tp) hpos
  have hle : ⌊tp⌋ * 10 ^ d ≤ ⌊tp * 10 ^ d⌋ := Int.le_floor.mpr (by push_cast; exact hlow)
  have hlt : ⌊tp * 10 ^ d⌋ < (⌊tp⌋ + 1) * 10 ^ d := Int.floor_lt.mpr (by push_cast; exact hhigh)
  constructor
  · omega
  · linarith

/-- From the second below, the digits are those of the time point rounded down. -/
theorem fraction_kept (hd : 0 < d) (hle : d ≤ 6) (h : trunc tp = ⌊tp⌋) (hrest : Follows rest) :
    ∃ n < 10 ^ 6, readFraction (fractionText d tp ++ rest) = some (n, rest) ∧ (⌊tp⌋ + n / 10 ^ 6 : ℚ) = floored d tp := by
  obtain ⟨hnonneg, hlt⟩ := floor_mul_pow tp d
  obtain ⟨m, hm⟩ := Int.eq_ofNat_of_zero_le hnonneg
  have hmlt : m < 10 ^ d := by
    rw [hm] at hlt
    exact_mod_cast hlt
  have htrunc : trunc (10 ^ d * (tp - trunc tp)) = m := by
    have hfract : 10 ^ d * (tp - (⌊tp⌋ : ℤ)) = tp * 10 ^ d - ((⌊tp⌋ * 10 ^ d : ℤ) : ℚ) := by
      push_cast
      ring
    have hpos : (0 : ℚ) ≤ 10 ^ d * (tp - (⌊tp⌋ : ℤ)) := mul_nonneg (by positivity) (sub_nonneg.mpr (Int.floor_le tp))
    rw [h, trunc, if_pos hpos, hfract, Int.floor_sub_intCast, hm]
  have htext : fractionText d tp = '.' :: digitsOf d m := by
    rw [fractionText, if_pos hd.ne', htrunc, formatted_of_lt hd hmlt]
  have hsplit : 10 ^ 6 = 10 ^ d * 10 ^ (6 - d) := by rw [← pow_add, Nat.add_sub_cancel' hle]
  refine ⟨m * 10 ^ (6 - d), ?_, ?_, ?_⟩
  · rw [hsplit]
    exact Nat.mul_lt_mul_of_pos_right hmlt (by positivity)
  · rw [htext, readFraction_digits hd hle hmlt hrest]
  · have hfloor : (⌊tp * 10 ^ d⌋ : ℚ) = m + ⌊tp⌋ * 10 ^ d := by
      have hsum : ⌊tp * 10 ^ d⌋ = (m : ℤ) + ⌊tp⌋ * 10 ^ d := by linarith
      rw [hsum]
      push_cast
      rfl
    have hsplit' : (10 : ℚ) ^ 6 = 10 ^ d * 10 ^ (6 - d) := by exact_mod_cast hsplit
    rw [floored, hfloor, hsplit']
    push_cast
    field_simp
    ring

/-- From the second above, there are no digits but zeros. -/
theorem fraction_lost (hd : 0 < d) (hle : d ≤ 6) (h : trunc tp ≠ ⌊tp⌋) (hrest : Follows rest) :
    ∃ r : Option ℕ, readFraction (fractionText d tp ++ rest) = r.map (fun n => (n, rest)) ∧ ∀ n ∈ r, n = 0 ∧ (⌊tp⌋ : ℚ) < floored d tp := by
  have hneg : ¬ 0 ≤ tp := fun hpos => h ((trunc_eq_floor_iff tp).mpr (.inl hpos))
  have hceil : trunc tp = ⌈tp⌉ := if_neg hneg
  rw [hceil] at h
  have habove : ⌊tp⌋ + 1 ≤ ⌈tp⌉ := Int.add_one_le_iff.mpr (lt_of_le_of_ne (Int.floor_le_ceil tp) (Ne.symm h))
  have habove' : (⌊tp⌋ : ℚ) + 1 ≤ ⌈tp⌉ := by exact_mod_cast habove
  have hlt : tp < ⌈tp⌉ := (Int.lt_floor_add_one tp).trans_le habove'
  have hpos : (0 : ℚ) < 10 ^ d := by positivity
  have hfraction : 10 ^ d * (tp - ⌈tp⌉) < 0 := mul_neg_of_pos_of_neg hpos (sub_neg.mpr hlt)
  have htrunc : trunc (10 ^ d * (tp - trunc tp)) = ⌈10 ^ d * (tp - ⌈tp⌉)⌉ := by
    rw [hceil, trunc, if_neg (not_le.mpr hfraction)]
  have htext : fractionText d tp = '.' :: formatted false d ⌈10 ^ d * (tp - ⌈tp⌉)⌉ := by
    rw [fractionText, if_pos hd.ne', htrunc]
  rw [htext]
  by_cases hzero : ⌈10 ^ d * (tp - ⌈tp⌉)⌉ < 0
  · obtain ⟨s, hs⟩ := formatted_neg hzero d
    refine ⟨none, ?_, by simp⟩
    rw [hs]
    exact readFraction_minus _
  · have hnonpos : ⌈10 ^ d * (tp - ⌈tp⌉)⌉ ≤ 0 := Int.ceil_le.mpr (by rw [Int.cast_zero]; exact hfraction.le)
    have heq : ⌈10 ^ d * (tp - ⌈tp⌉)⌉ = (0 : ℕ) := by
      rw [Nat.cast_zero]
      exact le_antisymm hnonpos (not_lt.mp hzero)
    refine ⟨some 0, ?_, ?_⟩
    · rw [heq, formatted_of_lt hd (by positivity), readFraction_digits hd hle (by positivity) hrest, Nat.zero_mul]
      rfl
    · intro n hn
      cases hn
      have hsmall : -1 < 10 ^ d * (tp - ⌈tp⌉) := by
        have := Int.ceil_lt_add_one (10 ^ d * (tp - ⌈tp⌉))
        rw [heq, Nat.cast_zero, Int.cast_zero] at this
        linarith
      have hten : (10 : ℤ) ≤ 10 ^ d := le_self_pow₀ (by decide) hd.ne'
      have hfloor : (⌊tp⌋ + 1) * 10 ^ d - 1 ≤ ⌊tp * 10 ^ d⌋ := by
        apply Int.le_floor.mpr
        have hscaled := mul_le_mul_of_nonneg_right habove' hpos.le
        push_cast
        linarith
      have hless : ⌊tp⌋ * 10 ^ d < ⌊tp * 10 ^ d⌋ := by linarith
      refine ⟨rfl, ?_⟩
      rw [floored, lt_div_iff₀ hpos]
      exact_mod_cast hless

theorem fraction_spec (tp : ℚ) (hle : d ≤ 6) (hrest : Follows rest) :
    ∃ r : Option ℕ, readFraction (fractionText d tp ++ rest) = r.map (fun n => (n, rest)) ∧ (∀ n ∈ r, n < 10 ^ 6) ∧
      ((∃ n ∈ r, (⌊tp⌋ + n / 10 ^ 6 : ℚ) = floored d tp) ↔ FractionKept d tp) := by
  by_cases hd : d = 0
  · subst hd
    refine ⟨some 0, ?_, ?_, iff_of_true ⟨0, rfl, ?_⟩ (.inl rfl)⟩
    · exact readFraction_of_follows hrest
    · intro n hn
      cases hn
      positivity
    · simp [floored]
  · have hpos : 0 < d := Nat.pos_of_ne_zero hd
    by_cases h : trunc tp = ⌊tp⌋
    · obtain ⟨n, hlt, hread, heq⟩ := fraction_kept hpos hle h hrest
      refine ⟨some n, hread, ?_, iff_of_true ⟨n, rfl, heq⟩ (.inr ((trunc_eq_floor_iff tp).mp h))⟩
      intro n' hn
      cases hn
      exact hlt
    · obtain ⟨r, hread, hr⟩ := fraction_lost hpos hle h hrest
      refine ⟨r, hread, ?_, iff_of_false ?_ ?_⟩
      · intro n hn
        rw [(hr n hn).1]
        positivity
      · rintro ⟨n, hn, heq⟩
        obtain ⟨rfl, hlt⟩ := hr n hn
        rw [Nat.cast_zero, zero_div, add_zero] at heq
        exact hlt.ne heq
      · rintro (h0 | hkept)
        · exact hd h0
        · exact h ((trunc_eq_floor_iff tp).mpr hkept)

end

/-! ## Offsets -/

/-- The hours that are written, rounded toward zero. -/
def hoursOf (e : ℤ) : ℤ := if 0 ≤ e then e / 3600 else -(-e / 3600)

/-- The offset that is read where `e` was written. The minutes have the sign of
the hours. -/
def readBack (e : ℤ) : ℤ :=
  if hoursOf e < 0 then -((hoursOf e).natAbs * 3600 + e % 3600 / 60 * 60) else (hoursOf e).natAbs * 3600 + e % 3600 / 60 * 60

/-- Whether the hours and the minutes are of one sign, or the minutes are the same
from the hour above. -/
def OffsetKept (e : ℤ) : Prop := 0 ≤ e ∨ 3600 ∣ e ∨ (e % 3600 = 1800 ∧ e < -3600)

theorem trunc_intCast_div (e : ℤ) (k : ℕ) : trunc ((e : ℚ) / k) = if 0 ≤ e then e / k else -(-e / k) := by
  unfold trunc
  by_cases hk : k = 0
  · subst hk
    simp
  · have hpos : (0 : ℚ) < k := by exact_mod_cast Nat.pos_of_ne_zero hk
    have hsign : 0 ≤ (e : ℚ) / k ↔ 0 ≤ e := by rw [le_div_iff₀ hpos, zero_mul, Int.cast_nonneg_iff]
    have hceil : ⌈(e : ℚ) / k⌉ = -(-e / k) := by
      rw [← Rat.floor_intCast_div_natCast, Int.cast_neg, neg_div, Int.floor_neg, neg_neg]
    simp only [hsign, Rat.floor_intCast_div_natCast, hceil]

section
variable {e : ℤ}

theorem readBack_eq_iff (hminutes : 60 ∣ e) : readBack e = e ↔ OffsetKept e := by
  unfold readBack hoursOf OffsetKept
  split_ifs <;> omega

theorem readBack_lt (he : |e| < 86400) : |readBack e| < 86400 := by
  obtain ⟨hlow, hhigh⟩ := abs_lt.mp he
  rw [abs_lt]
  unfold readBack hoursOf
  split_ifs <;> omega

theorem offsetText_eq (he : |e| < 86400) :
    offsetText (-e) = (if hoursOf e < 0 then '-' else '+') :: digitsOf 2 (hoursOf e).natAbs ++ digitsOf 2 (e % 3600 / 60).toNat := by
  obtain ⟨hlow, hhigh⟩ := abs_lt.mp he
  have hhours : trunc (((e : ℤ) : ℚ) / 3600) = hoursOf e := by
    have h := trunc_intCast_div e 3600
    rwa [Nat.cast_ofNat] at h
  have hminutes : trunc (((e % 3600 : ℤ) : ℚ) / 60) = (e % 3600 / 60).toNat := by
    have h := trunc_intCast_div (e % 3600) 60
    rw [Nat.cast_ofNat] at h
    rw [h, if_pos (by omega)]
    omega
  have hhour : (hoursOf e).natAbs < 10 ^ 2 := by
    unfold hoursOf
    split_ifs <;> omega
  have hminute : (e % 3600 / 60).toNat < 10 ^ 2 := by omega
  unfold offsetText
  rw [neg_neg, hhours, hminutes, formatted_plus 1 hhour, formatted_of_lt (by decide) hminute]

theorem readOffset_digits {hour minute : ℕ} (hhour : hour < 10 ^ 2) (hminute : minute < 10 ^ 2) :
    readOffset (digitsOf 2 hour ++ digitsOf 2 minute) = some ((hour * 3600 + minute * 60 : ℕ) : ℤ) := by
  have hend : number 2 0 (digitsOf 2 minute) = some (minute, []) := by
    have h := number_of_lt hminute []
    rwa [List.append_nil] at h
  simp [readOffset, number_of_lt hhour, hend]

theorem offset_spec (he : |e| < 86400) : Follows (offsetText (-e)) ∧ readZone (offsetText (-e)) = some (some (readBack e)) := by
  obtain ⟨hlow, hhigh⟩ := abs_lt.mp he
  have hhour : (hoursOf e).natAbs < 10 ^ 2 := by
    unfold hoursOf
    split_ifs <;> omega
  have hminute : (e % 3600 / 60).toNat < 10 ^ 2 := by omega
  have hread := readOffset_digits hhour hminute
  have hcast : (((hoursOf e).natAbs * 3600 + (e % 3600 / 60).toNat * 60 : ℕ) : ℤ) = (hoursOf e).natAbs * 3600 + e % 3600 / 60 * 60 := by
    omega
  rw [hcast] at hread
  rw [offsetText_eq he]
  unfold readBack
  split_ifs
  · refine ⟨by simp [Follows], ?_⟩
    rw [List.cons_append, readZone, hread]
    rfl
  · refine ⟨by simp [Follows], ?_⟩
    rw [List.cons_append, readZone, hread]
    rfl

end

/-! ## Round trips -/

/-- The time zone is `e` seconds ahead of UTC at the time `t`. -/
structure Ahead (py : Python) (t e : ℤ) : Prop where
  localtime : py.localtime t = { utc (t + e) with tmIsdst := (py.localtime t).tmIsdst }
  tzOffset : tzOffset py (py.localtime t) false = -e

section
variable {py : Python} {tp : ℚ} {d : ℕ} {c : Char} {e offset : ℤ} {isdst : ℤ} {zone : List Char}

theorem strftime_isdst (timestruct : Tm) (s : List Char) :
    strftime py { timestruct with tmIsdst := isdst } s = strftime py timestruct s := by
  induction s using strftime.induct with
  | case1 s ih => rw [strftime, strftime, ih]; rfl
  | case2 s ih => rw [strftime, strftime, ih]; rfl
  | case3 s ih => rw [strftime, strftime, ih]
  | case4 c s h1 h2 h3 ih => rw [strftime, strftime, ih] <;> assumption
  | case5 => rfl

theorem floored_bounds (d : ℕ) (tp : ℚ) : (⌊tp⌋ : ℚ) ≤ floored d tp ∧ floored d tp < ⌊tp⌋ + 1 := by
  obtain ⟨hlow, hhigh⟩ := floor_mul_pow tp d
  have hpos : (0 : ℚ) < 10 ^ d := by positivity
  have hlow' : ⌊tp⌋ * 10 ^ d ≤ ⌊tp * 10 ^ d⌋ := by omega
  have hhigh' : ⌊tp * 10 ^ d⌋ < (⌊tp⌋ + 1) * 10 ^ d := by linarith
  unfold floored
  rw [le_div_iff₀ hpos, div_lt_iff₀ hpos]
  exact ⟨by exact_mod_cast hlow', by exact_mod_cast hhigh'⟩

/-- Whole seconds cannot make up for a fraction. -/
theorem sum_eq_floored_iff (d : ℕ) (tp : ℚ) {n : ℕ} (hn : n < 10 ^ 6) (k : ℤ) :
    ((⌊tp⌋ + k : ℤ) + n / 10 ^ 6 : ℚ) = floored d tp ↔ (⌊tp⌋ + n / 10 ^ 6 : ℚ) = floored d tp ∧ k = 0 := by
  obtain ⟨hlow, hhigh⟩ := floored_bounds d tp
  have hnonneg : (0 : ℚ) ≤ n / 10 ^ 6 := by positivity
  have hlt : (n / 10 ^ 6 : ℚ) < 1 := by
    rw [div_lt_one (by positivity)]
    exact_mod_cast hn
  constructor
  · intro heq
    rw [Int.cast_add] at heq
    have hk1 : (-1 : ℚ) < k := by linarith
    have hk2 : (k : ℚ) < 1 := by linarith
    have hk1' : -1 < k := by exact_mod_cast hk1
    have hk2' : k < 1 := by exact_mod_cast hk2
    have hk : k = 0 := by omega
    rw [hk, Int.cast_zero, add_zero] at heq
    exact ⟨heq, hk⟩
  · rintro ⟨heq, rfl⟩
    rw [add_zero]
    exact heq

/-- A date and a time, a fraction and a zone, all read back. -/
theorem from_string_text_iff (hle : d ≤ 6) (hfirst : 1000 ≤ yearAt ⌊tp⌋) (hlast : yearAt ⌊tp⌋ ≤ 9998) (hc : c ≠ '%') (he : |e| < 86400)
    (hyear : py.padsYears = true ∨ 1000 ≤ yearAt (⌊tp⌋ + e)) (hzone : Follows zone) (hread : readZone zone = some (some offset))
    (hoffset : |offset| < 86400) :
    fromString py (strftime py (utc (⌊tp⌋ + e)) ("%F".toList ++ [c] ++ "%T".toList) ++ (fractionText d tp ++ zone)) false =
        some (floored d tp) ↔ FractionKept d tp ∧ offset = e := by
  obtain ⟨hday, hlow, hhigh⟩ := yearAt_add hfirst hlast he
  obtain ⟨hfields, hvalid, hseconds⟩ := civil_utc hday
  have hyearAt : yearAt (⌊tp⌋ + e) = (civil (utc (⌊tp⌋ + e))).year := hfields.year
  rw [hyearAt] at hhigh hyear
  have hlt : (civil (utc (⌊tp⌋ + e))).year < 10 ^ 4 := by omega
  have htext : yearText py (civil (utc (⌊tp⌋ + e))).year = digitsOf 4 (civil (utc (⌊tp⌋ + e))).year :=
    yearText_of_lt hlt (hyear.imp_right fun h => by omega)
  obtain ⟨r, hfraction, hbound, hkept⟩ := fraction_spec tp hle hzone
  unfold fromString
  rw [fromisoformat_text hc hfields hvalid htext hlt hfraction hread hoffset, ← hkept]
  cases r with
  | none => simp
  | some n =>
    have hsum := sum_eq_floored_iff d tp (hbound n rfl) (e - offset)
    have hshift : (civil (utc (⌊tp⌋ + e))).seconds - offset = ⌊tp⌋ + (e - offset) := by omega
    simp only [Option.map_some, Option.some.injEq, fromDatetime, timestamp, Option.isNone_some, Bool.false_and, Bool.false_eq_true,
      if_false, Option.mem_def, exists_eq_left']
    rw [show DateTime.seconds { civil (utc (⌊tp⌋ + e)) with microsecond := n, tzinfo := some offset } =
      (civil (utc (⌊tp⌋ + e))).seconds from rfl, hshift, hsum, sub_eq_zero, eq_comm (a := e)]

/-- A year with three digits is not read. -/
theorem from_string_short (hpads : ¬ py.padsYears = true) (hyear : yearAt (⌊tp⌋ + e) = 999) (hc : c ≠ '%') (s : List Char) :
    fromString py (strftime py (utc (⌊tp⌋ + e)) ("%F".toList ++ [c] ++ "%T".toList) ++ s) false = none := by
  have hdate : ∀ s, readDate ('9' :: '9' :: '9' :: '-' :: s) = none := fun _ => rfl
  have hyear' : (utc (⌊tp⌋ + e)).tmYear + tmYearOffset = (999 : ℕ) := hyear
  unfold fromString fromisoformat
  rw [strftime_eq py _ hc, dateText, hyear', yearText_999 hpads]
  simp [hdate]

/-- Where the zone is `Z`. -/
theorem to_iso8601_string_iff (hle : d ≤ 6) (hfirst : 1000 ≤ yearAt ⌊tp⌋) (hlast : yearAt ⌊tp⌋ ≤ 9998) :
    fromString py (toIso8601String py tp d) false = some (floored d tp) ↔ FractionKept d tp := by
  have hdelimiter : 'T' ≠ '%' := by decide
  have hzero : |(0 : ℤ)| < 86400 := by decide
  have hyear : py.padsYears = true ∨ 1000 ≤ yearAt (⌊tp⌋ + 0) := .inr (by rw [add_zero]; exact hfirst)
  have hfollows : Follows ['Z'] := by simp [Follows]
  have hread : readZone ['Z'] = some (some 0) := rfl
  have htext : toIso8601String py tp d =
      strftime py (utc (⌊tp⌋ + 0)) ("%F".toList ++ ['T'] ++ "%T".toList) ++ (fractionText d tp ++ ['Z']) := by
    rw [add_zero]
    simp [toIso8601String, toString, toStructTime]
  rw [htext, from_string_text_iff hle hfirst hlast hdelimiter hzero hyear hfollows hread hzero, and_iff_left rfl]

/-- Where the zone is an offset. -/
theorem to_string_offset_iff (hle : d ≤ 6) (hfirst : 1000 ≤ yearAt ⌊tp⌋) (hlast : yearAt ⌊tp⌋ ≤ 9998) (hc : c ≠ '%') (hminutes : 60 ∣ e)
    (he : |e| < 86400) (hzone : Ahead py ⌊tp⌋ e) :
    fromString py (toString py tp false [c] d .offset []) false = some (floored d tp) ↔
      FractionKept d tp ∧ OffsetKept e ∧ (py.padsYears = true ∨ 1000 ≤ yearAt (⌊tp⌋ + e)) := by
  obtain ⟨hfollows, hread⟩ := offset_spec he
  have htext : toString py tp false [c] d .offset [] =
      strftime py (utc (⌊tp⌋ + e)) ("%F".toList ++ [c] ++ "%T".toList) ++ (fractionText d tp ++ offsetText (-e)) := by
    have hstruct : toStructTime py tp false = { utc (⌊tp⌋ + e) with tmIsdst := (py.localtime ⌊tp⌋).tmIsdst } := hzone.localtime
    have hoffset : tzOffset py (toStructTime py tp false) false = -e := hzone.tzOffset
    unfold toString
    dsimp only
    rw [hoffset, hstruct, strftime_isdst, List.append_nil, List.append_assoc]
  rw [htext]
  by_cases hyear : py.padsYears = true ∨ 1000 ≤ yearAt (⌊tp⌋ + e)
  · rw [from_string_text_iff hle hfirst hlast hc he hyear hfollows hread (readBack_lt he), readBack_eq_iff hminutes, and_iff_left hyear]
  · obtain ⟨-, hlow, -⟩ := yearAt_add hfirst hlast he
    rw [not_or] at hyear
    rw [from_string_short hyear.1 (by omega) hc]
    simp [hyear]

/-- For the years from 1000 to 9998, in which four digits are written. -/
theorem from_string_to_string_iff (py : Python) (tp : ℚ) (d : ℕ) (hle : d ≤ 6) (hfirst : 1000 ≤ yearAt ⌊tp⌋) (hlast : yearAt ⌊tp⌋ ≤ 9998) :
    (fromString py (toIso8601String py tp d) false = some (floored d tp) ↔ FractionKept d tp) ∧
      ∀ (c : Char) (e : ℤ), c ≠ '%' → 60 ∣ e → |e| < 86400 → Ahead py ⌊tp⌋ e →
        (fromString py (toString py tp false [c] d .offset []) false = some (floored d tp) ↔
          FractionKept d tp ∧ OffsetKept e ∧ (py.padsYears = true ∨ 1000 ≤ yearAt (⌊tp⌋ + e))) :=
  ⟨to_iso8601_string_iff hle hfirst hlast, fun _ _ hc hminutes he hzone => to_string_offset_iff hle hfirst hlast hc hminutes he hzone⟩

end

/-- An hour ahead of UTC all year. -/
def hourAhead : Python where
  localtime t := utc (t + 3600)
  timezone := -3600
  altzone := -3600
  tzname _ := "CET".toList
  isupper := Char.isUpper
  timestamp x := (x.seconds - 3600 : ℤ) + x.microsecond / 10 ^ 6
  padsYears := false

theorem hourAhead_ahead (t : ℤ) : Ahead hourAhead t 3600 := ⟨rfl, rfl⟩

theorem from_string_half_past :
    fromString hourAhead (toIso8601String hourAhead (3 / 2) 3) false = some (floored 3 (3 / 2)) ∧
      fromString hourAhead (toString hourAhead (3 / 2) false [' '] 3 .offset []) false = some (floored 3 (3 / 2)) := by
  have hfloor : ⌊(3 / 2 : ℚ)⌋ = 1 := by norm_num
  have h := from_string_to_string_iff hourAhead (3 / 2) 3 (by decide) (by rw [hfloor]; decide +kernel) (by rw [hfloor]; decide +kernel)
  refine ⟨h.1.mpr (.inr (.inl (by norm_num))), ?_⟩
  refine (h.2 ' ' 3600 (by decide) (by decide) (by decide) (hourAhead_ahead _)).mpr ⟨.inr (.inl (by norm_num)), .inl (by decide), .inr ?_⟩
  rw [hfloor]
  decide +kernel

/-- Half a second before the epoch. -/
theorem from_string_before_epoch : ¬ ∀ (py : Python) (tp : ℚ) (d : ℕ), d ≤ 6 → 1000 ≤ yearAt ⌊tp⌋ → yearAt ⌊tp⌋ ≤ 9998 →
    fromString py (toIso8601String py tp d) false = some (floored d tp) := by
  intro h
  have hfloor : ⌊(-1 / 2 : ℚ)⌋ = -1 := by norm_num
  have hfirst : 1000 ≤ yearAt ⌊(-1 / 2 : ℚ)⌋ := by
    rw [hfloor]
    decide +kernel
  have hlast : yearAt ⌊(-1 / 2 : ℚ)⌋ ≤ 9998 := by
    rw [hfloor]
    decide +kernel
  have hkept := (to_iso8601_string_iff (by decide) hfirst hlast).mp (h hourAhead (-1 / 2) 3 (by decide) hfirst hlast)
  unfold FractionKept at hkept
  rw [hfloor] at hkept
  norm_num at hkept

end TimePoints

end CommonCore
