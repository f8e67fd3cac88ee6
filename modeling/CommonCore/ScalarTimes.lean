import CommonCore.DateTime

/-!
# Time points from scalars

A scalar of an unknown precision is multiplied by 1000 until it is large enough
for a number of nanoseconds. What lies between 1971 and the end of 64 bits is
less than three decades away from one multiplication to the next, so that some
scalars are multiplied past the end.
-/

namespace CommonCore

namespace Dt

def epochNanosLowerLimit : Int := 31536000000000000

/-- A product in 64 bits, unless that overflows. -/
def times (a b : Int) : Option Int := if -2 ^ 63 ≤ a * b ∧ a * b < 2 ^ 63 then some (a * b) else none

/-- The loop that looks for the precision. -/
def scaleUp (scalar : Int) (hpos : 0 < scalar) : Option Int :=
  if scalar < epochNanosLowerLimit then
    if scalar * 1000 < 2 ^ 63 then scaleUp (scalar * 1000) (by omega) else none
  else some scalar
termination_by (epochNanosLowerLimit - scalar).toNat
decreasing_by omega

/-- The loop for a known precision. -/
def scaleBy : ℕ → Int → Option Int
  | 0, scalar => some scalar
  | n + 1, scalar => (times scalar 10).bind (scaleBy n)

/-- `none` stands for an overflow. -/
def intToTimepoint (scalar : Int) (multiplierDecimalExponent : Option Int) : Option Int :=
  if h : scalar ≤ 0 then some 0
  else
    match multiplierDecimalExponent with
    | some exp => scaleBy (exp + 9).toNat scalar
    | none => scaleUp scalar (Int.not_le.mp h)

/-- The time point is what is documented. -/
def Scaled (scalar timepoint : Int) : Prop :=
  (∃ k : ℕ, timepoint = scalar * 1000 ^ k) ∧ epochNanosLowerLimit ≤ timepoint ∧ timepoint < 2 ^ 63

/-- The scalar is multiplied once more, and then too large. -/
def Overshoots (scalar : Int) : Prop :=
  ∃ k : ℕ, scalar * 1000 ^ k < epochNanosLowerLimit ∧ 2 ^ 63 ≤ scalar * 1000 ^ (k + 1)

theorem scaled_succ (scalar : Int) (k : ℕ) : scalar * 1000 * 1000 ^ k = scalar * 1000 ^ (k + 1) := by
  rw [pow_succ', mul_assoc]

theorem overshoots_times (scalar : Int) (h : Overshoots (scalar * 1000)) : Overshoots scalar := by
  obtain ⟨k, hbelow, habove⟩ := h
  rw [scaled_succ] at hbelow habove
  exact ⟨k + 1, hbelow, habove⟩

theorem scaleUp_spec (scalar : Int) (hpos : 0 < scalar) (h : scalar < 2 ^ 63) :
    (¬ Overshoots scalar → ∃ t, scaleUp scalar hpos = some t ∧ Scaled scalar t) ∧
      (Overshoots scalar → scaleUp scalar hpos = none) := by
  fun_induction scaleUp scalar hpos with
  | case1 scalar hpos hlow hfits ih =>
    obtain ⟨hscaled, hover⟩ := ih hfits
    constructor
    · intro hno
      obtain ⟨t, ht, ⟨k, hk⟩, hlimit⟩ := hscaled fun ho => hno (overshoots_times scalar ho)
      exact ⟨t, ht, ⟨k + 1, hk.trans (scaled_succ scalar k)⟩, hlimit⟩
    · rintro ⟨k, hbelow, habove⟩
      cases k with
      | zero =>
        rw [pow_one] at habove
        omega
      | succ k =>
        rw [← scaled_succ] at hbelow habove
        exact hover ⟨k, hbelow, habove⟩
  | case2 scalar hpos hlow hfits =>
    have hover : Overshoots scalar := by
      refine ⟨0, ?_, ?_⟩
      · rw [pow_zero, mul_one]
        exact hlow
      · rw [pow_one]
        exact Int.not_lt.mp hfits
    exact ⟨fun hno => absurd hover hno, fun _ => rfl⟩
  | case3 scalar hpos hlow =>
    refine ⟨fun _ => ⟨scalar, rfl, ⟨0, by rw [pow_zero, mul_one]⟩, Int.not_lt.mp hlow, h⟩, ?_⟩
    rintro ⟨k, hbelow, -⟩
    have hgrows : scalar * 1 ≤ scalar * 1000 ^ k := Int.mul_le_mul_of_nonneg_left (one_le_pow₀ (by decide)) hpos.le
    omega

/-- The conversion ends without an overflow, with what is documented for a
positive scalar. -/
def Converts (scalar : Int64) : Prop :=
  ∃ t, intToTimepoint scalar.toInt none = some t ∧ (0 < scalar.toInt → Scaled scalar.toInt t)

theorem converts_of_pos (scalar : Int64) (hpos : 0 < scalar.toInt) : Converts scalar ↔ ¬ Overshoots scalar.toInt := by
  have hle : ¬ scalar.toInt ≤ 0 := Int.not_le.mpr hpos
  obtain ⟨hscaled, hover⟩ := scaleUp_spec scalar.toInt hpos scalar.toInt_lt
  unfold Converts intToTimepoint
  rw [dif_neg hle]
  constructor
  · rintro ⟨t, ht, -⟩ ho
    rw [hover ho] at ht
    cases ht
  · intro hno
    obtain ⟨t, ht, hs⟩ := hscaled hno
    exact ⟨t, ht, fun _ => hs⟩

theorem int_to_timepoint_iff (scalar : Int64) : Converts scalar ↔ (0 < scalar.toInt → ¬ Overshoots scalar.toInt) := by
  by_cases hpos : 0 < scalar.toInt
  · rw [converts_of_pos scalar hpos]
    exact ⟨fun h _ => h, fun h => h hpos⟩
  · refine ⟨fun _ h => absurd h hpos, fun _ => ⟨0, ?_, fun h => absurd h hpos⟩⟩
    unfold intToTimepoint
    rw [dif_pos (Int.not_lt.mp hpos)]

/-- Ten thousand million seconds, in the year 2286. -/
theorem not_converted : ¬ ∀ scalar, Converts scalar := by
  intro hall
  refine (converts_of_pos 10000000000 (by decide)).mp (hall _) ⟨2, ?_, ?_⟩ <;> decide

end Dt

end CommonCore
