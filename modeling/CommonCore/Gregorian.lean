import CommonCore.Alignments

/-!
# The Gregorian calendar

Days are counted from the first of January of the year 1. A day is located among
the years and then among the months, whose lengths are all that is given.
-/

namespace CommonCore

namespace Gregorian

/-! ## Spans that follow one another -/

/-- What lies before the `i`-th span. -/
def before (length : ℕ → ℕ) (i : ℕ) : ℕ := ∑ j ∈ Finset.range i, length j

theorem before_succ (length : ℕ → ℕ) (i : ℕ) : before length (i + 1) = before length i + length i :=
  Finset.sum_range_succ length i

theorem before_mono (length : ℕ → ℕ) {i j : ℕ} (h : i ≤ j) : before length i ≤ before length j :=
  Finset.sum_le_sum_of_subset (Finset.range_mono h)

/-- What lies in a span is before each later span. -/
theorem before_lt {length : ℕ → ℕ} {i j r : ℕ} (h : i < j) (hr : r < length i) : before length i + r < before length j := by
  have hsucc := before_succ length i
  have hmono := before_mono length (show i + 1 ≤ j from h)
  omega

/-- The span in which `n` lies, and how far in it, from the `i`-th one on. -/
def locate (length : ℕ → ℕ) : ℕ → ℕ → ℕ → ℕ × ℕ
  | 0, i, n => (i, n)
  | fuel + 1, i, n => if n < length i then (i, n) else locate length fuel (i + 1) (n - length i)

structure Located (length : ℕ → ℕ) (n i r : ℕ) : Prop where
  inside : r < length i
  total : before length i + r = n

theorem locate_spec (length : ℕ → ℕ) (fuel i n : ℕ) (hn : before length i + n < before length (i + fuel)) :
    Located length (before length i + n) (locate length fuel i n).1 (locate length fuel i n).2 ∧
      i ≤ (locate length fuel i n).1 ∧ (locate length fuel i n).1 < i + fuel := by
  induction fuel generalizing i n with
  | zero => exact absurd hn (Nat.not_lt.mpr (Nat.le_add_right _ _))
  | succ fuel ih =>
    rw [locate]
    split_ifs with h
    · exact ⟨⟨h, rfl⟩, le_rfl, by omega⟩
    · have hsucc := before_succ length i
      have hsum : before length (i + 1) + (n - length i) = before length i + n := by omega
      have hnext : before length (i + 1) + (n - length i) < before length (i + 1 + fuel) := by
        rw [hsum, Nat.add_right_comm, Nat.add_assoc]
        exact hn
      obtain ⟨hlocated, hle, hlt⟩ := ih (i + 1) (n - length i) hnext
      rw [hsum] at hlocated
      exact ⟨hlocated, by omega, by omega⟩

/-! ## Years -/

def isLeap (year : ℕ) : Bool := year % 4 == 0 && (year % 100 != 0 || year % 400 == 0)

def yearLength (year : ℕ) : ℕ := if isLeap year then 366 else 365

theorem yearLength_le (year : ℕ) : yearLength year ≤ 366 := by
  unfold yearLength
  split_ifs <;> decide

/-- Every fourth year is a leap year, but not every hundredth, but every four
hundredth. -/
theorem yearLength_eq (year : ℕ) :
    yearLength year + (if 100 ∣ year then 1 else 0) = 365 + (if 4 ∣ year then 1 else 0) + (if 400 ∣ year then 1 else 0) := by
  have hcentury : 100 ∣ year → 4 ∣ year := Nat.dvd_trans (by decide)
  have hfourth : 400 ∣ year → 100 ∣ year := Nat.dvd_trans (by decide)
  simp only [yearLength, isLeap, Bool.and_eq_true, Bool.or_eq_true, beq_iff_eq, bne_iff_ne, ne_eq, ← Nat.dvd_iff_mod_eq_zero]
  by_cases h4 : 4 ∣ year <;> by_cases h100 : 100 ∣ year <;> by_cases h400 : 400 ∣ year <;> simp_all

theorem before_years (n : ℕ) : before (fun i => yearLength (i + 1)) n + n / 100 = 365 * n + n / 4 + n / 400 := by
  induction n with
  | zero => rfl
  | succ n ih =>
    have hlength := yearLength_eq (n + 1)
    rw [before_succ, Nat.succ_div, Nat.succ_div, Nat.succ_div]
    omega

theorem yearLength_add (year k : ℕ) : isLeap (year + 400 * k) = isLeap year ∧ yearLength (year + 400 * k) = yearLength year := by
  have hleap : isLeap (year + 400 * k) = isLeap year := by
    have h4 : (year + 400 * k) % 4 = year % 4 := by omega
    have h100 : (year + 400 * k) % 100 = year % 100 := by omega
    have h400 : (year + 400 * k) % 400 = year % 400 := by omega
    rw [isLeap, isLeap, h4, h100, h400]
  exact ⟨hleap, by rw [yearLength, yearLength, hleap]⟩

theorem before_cycles (i k : ℕ) :
    before (fun i => yearLength (i + 1)) (i + 400 * k) = before (fun i => yearLength (i + 1)) i + 146097 * k := by
  have h := before_years i
  have hcycles := before_years (i + 400 * k)
  have h4 : (i + 400 * k) / 4 = i / 4 + 100 * k := by omega
  have h100 : (i + 400 * k) / 100 = i / 100 + 4 * k := by omega
  have h400 : (i + 400 * k) / 400 = i / 400 + k := by omega
  omega

/-- The year of a day, and the day in that year. After 400 years all is repeated. -/
def yearOf (n : ℤ) : ℤ × ℕ :=
  let r := locate (fun i => yearLength (i + 1)) 400 0 (n % 146097).toNat
  (r.1 + 1 + 400 * (n / 146097), r.2)

theorem locate_cycle (n : ℤ) :
    Located (fun i => yearLength (i + 1)) (n % 146097).toNat (locate (fun i => yearLength (i + 1)) 400 0 (n % 146097).toNat).1
        (locate (fun i => yearLength (i + 1)) 400 0 (n % 146097).toNat).2 ∧
      (locate (fun i => yearLength (i + 1)) 400 0 (n % 146097).toNat).1 < 400 := by
  have hcycle : before (fun i => yearLength (i + 1)) 400 = 146097 := by
    have := before_years 400
    omega
  have hzero : before (fun i => yearLength (i + 1)) 0 = 0 := rfl
  have hlt := Int.emod_lt_of_pos n (show (0 : ℤ) < 146097 by decide)
  have h := locate_spec (fun i => yearLength (i + 1)) 400 0 (n % 146097).toNat (by rw [hzero, Nat.zero_add 400, hcycle]; omega)
  rw [hzero, Nat.zero_add, Nat.zero_add] at h
  exact ⟨h.1, h.2.2⟩

theorem yearOf_pos_iff (n : ℤ) : 1 ≤ (yearOf n).1 ↔ 0 ≤ n := by
  obtain ⟨-, hindex⟩ := locate_cycle n
  unfold yearOf
  dsimp only
  omega

theorem yearOf_spec {n : ℤ} (h : 0 ≤ n) :
    ∃ i : ℕ, (yearOf n).1 = i + 1 ∧ (yearOf n).2 < yearLength (i + 1) ∧
      (before (fun i => yearLength (i + 1)) i + (yearOf n).2 : ℕ) = n := by
  obtain ⟨⟨hinside, htotal⟩, -⟩ := locate_cycle n
  have hnonneg := Int.emod_nonneg n (show (146097 : ℤ) ≠ 0 by decide)
  unfold yearOf
  dsimp only
  generalize locate (fun i => yearLength (i + 1)) 400 0 (n % 146097).toNat = r at hinside htotal ⊢
  obtain ⟨k, hk⟩ := Int.eq_ofNat_of_zero_le (show 0 ≤ n / 146097 by omega)
  have hdiv := Int.emod_add_mul_ediv n 146097
  refine ⟨r.1 + 400 * k, by rw [hk]; push_cast; ring, ?_, ?_⟩
  · rw [Nat.add_right_comm, (yearLength_add (r.1 + 1) k).2]
    exact hinside
  · rw [before_cycles]
    omega

/-- No year has less than 365 days. -/
theorem le_before (i : ℕ) : 365 * i ≤ before (fun i => yearLength (i + 1)) i := by
  have h := before_years i
  have hle : i / 100 ≤ i / 4 := Nat.div_le_div_left (by decide) (by decide)
  omega

/-! ## Months -/

def monthLengths (leap : Bool) : List ℕ := [31, if leap then 29 else 28, 31, 30, 31, 30, 31, 31, 30, 31, 30, 31]

def monthLength (leap : Bool) (month : ℕ) : ℕ := (monthLengths leap).getD month 0

theorem before_months (year : ℕ) : before (monthLength (isLeap year)) 12 = yearLength year := by
  unfold yearLength
  cases isLeap year <;> rfl

/-- The month of a day of the year, and the day in that month, from zero on. -/
def monthOf (leap : Bool) (yday : ℕ) : ℕ × ℕ := locate (monthLength leap) 12 0 yday

theorem monthOf_spec {year yday : ℕ} (h : yday < yearLength year) :
    (monthOf (isLeap year) yday).1 < 12 ∧
      Located (monthLength (isLeap year)) yday (monthOf (isLeap year) yday).1 (monthOf (isLeap year) yday).2 := by
  have hzero : before (monthLength (isLeap year)) 0 = 0 := rfl
  obtain ⟨hlocated, -, hindex⟩ := locate_spec (monthLength (isLeap year)) 12 0 yday
    (by rw [hzero, Nat.zero_add, Nat.zero_add, before_months]; exact h)
  rw [hzero, Nat.zero_add] at hlocated
  exact ⟨hindex, hlocated⟩

theorem monthLength_pos : ∀ leap, ∀ m < 12, 0 < monthLength leap m := by decide

theorem monthLength_le : ∀ leap, ∀ m < 12, monthLength leap m ≤ 31 := by decide

/-! ## Dates -/

/-- A year, counted from the year 1, a month and a day, each from zero on. -/
abbrev Date := ℕ ×ₗ ℕ ×ₗ ℕ

def date (year month day : ℕ) : Date := toLex (year, toLex (month, day))

namespace Date

def year (a : Date) : ℕ := (ofLex a).1

def month (a : Date) : ℕ := (ofLex (ofLex a).2).1

def day (a : Date) : ℕ := (ofLex (ofLex a).2).2

@[simp] theorem year_date (y m d : ℕ) : (date y m d).year = y := rfl

@[simp] theorem month_date (y m d : ℕ) : (date y m d).month = m := rfl

@[simp] theorem day_date (y m d : ℕ) : (date y m d).day = d := rfl

def Valid (a : Date) : Prop := a.month < 12 ∧ a.day < monthLength (isLeap (a.year + 1)) a.month

def days (a : Date) : ℕ := before (fun i => yearLength (i + 1)) a.year + before (monthLength (isLeap (a.year + 1))) a.month + a.day

/-- The date of a number of days. -/
def ofDays (n : ℕ) : Date :=
  let year := yearOf n
  let month := monthOf (isLeap year.1.toNat) year.2
  date (year.1.toNat - 1) month.1 month.2

variable {a b : Date}

theorem lt_iff : a < b ↔ a.year < b.year ∨ a.year = b.year ∧ (a.month < b.month ∨ a.month = b.month ∧ a.day < b.day) := by
  rw [Prod.Lex.lt_iff, Prod.Lex.lt_iff]
  rfl

theorem days_strictMonoOn : StrictMonoOn days {a | Valid a} := by
  intro a ha b _ hab
  have hyday : before (monthLength (isLeap (a.year + 1))) a.month + a.day < yearLength (a.year + 1) := by
    rw [← before_months]
    exact before_lt ha.1 ha.2
  unfold days
  rcases lt_iff.mp hab with hyear | ⟨hyear, hmonth | ⟨hmonth, hday⟩⟩
  · have hyears : before (fun i => yearLength (i + 1)) a.year + _ < before (fun i => yearLength (i + 1)) b.year := before_lt hyear hyday
    omega
  · have := before_lt hmonth ha.2
    rw [← hyear]
    omega
  · rw [← hyear, ← hmonth]
    omega

theorem ofDays_spec (n : ℕ) : (ofDays n).Valid ∧ (ofDays n).days = n := by
  obtain ⟨i, hyear, hinside, htotal⟩ := yearOf_spec (Int.natCast_nonneg n)
  obtain ⟨hmonth, hday, hdays⟩ := monthOf_spec hinside
  have htoNat : (yearOf n).1.toNat = i + 1 := by omega
  have hdate : ofDays n = date i (monthOf (isLeap (i + 1)) (yearOf n).2).1 (monthOf (isLeap (i + 1)) (yearOf n).2).2 := by
    unfold ofDays
    dsimp only
    rw [htoNat, Nat.add_sub_cancel]
  rw [hdate]
  refine ⟨⟨hmonth, hday⟩, ?_⟩
  simp only [days, year_date, month_date, day_date]
  omega

/-! ### Aligned dates -/

/-- The last day whose number in the month, from zero on, is a multiple of `n`. -/
def alignDay (n : ℕ) (a : Date) : Date := date a.year a.month (a.day / n * n)

/-- The first day of the last month whose number in the year is one. -/
def alignMonth (n : ℕ) (a : Date) : Date := date a.year (a.month / n * n) 0

/-- The first day of the last year that is one, or of the year 1. -/
def alignYear (n : ℕ) (a : Date) : Date := date ((a.year + 1) / n * n - 1) 0 0

theorem alignDay_alignment (n : ℕ) : Alignment (alignDay n) := (Alignment.natMultiple n).lesser.lesser

theorem alignMonth_alignment (n : ℕ) : Alignment (alignMonth n) := (Alignment.natMultiple n).greater.lesser

theorem alignYear_alignment (n : ℕ) : Alignment (alignYear n) := by
  have hyears : Alignment fun i : ℕ => (i + 1) / n * n - 1 := by
    have h := Alignment.natMultiple n
    refine ⟨fun i => ?_, fun i j hij => Nat.sub_le_sub_right (h.mono (Nat.succ_le_succ hij)) 1, fun i => ?_⟩
    · have := h.le (i + 1)
      omega
    · have hidem := h.idem (i + 1)
      rcases Nat.eq_zero_or_pos ((i + 1) / n * n) with hzero | hpos
      · rw [hzero]
        exact Nat.sub_eq_zero_of_le (Nat.div_mul_le_self 1 n)
      · rw [Nat.sub_add_cancel hpos, hidem]
  exact hyears.greater

theorem valid_alignDay (n : ℕ) (ha : a.Valid) : (alignDay n a).Valid :=
  ⟨ha.1, (Nat.div_mul_le_self _ _).trans_lt ha.2⟩

theorem valid_alignMonth (n : ℕ) (ha : a.Valid) : (alignMonth n a).Valid :=
  have hmonth := (Nat.div_mul_le_self _ _).trans_lt ha.1
  ⟨hmonth, monthLength_pos _ _ hmonth⟩

theorem valid_alignYear (n : ℕ) (a : Date) : (alignYear n a).Valid := ⟨(show 0 < 12 by decide), monthLength_pos _ 0 (by decide)⟩

/-- What aligns dates aligns days. -/
theorem alignment_days {f : Date → Date} (hf : Alignment f) (hvalid : ∀ a, Valid a → Valid (f a)) :
    Alignment fun n => (f (ofDays n)).days :=
  hf.counted (s := {a | Valid a}) hvalid days_strictMonoOn ofDays_spec

end Date

end Gregorian

end CommonCore
