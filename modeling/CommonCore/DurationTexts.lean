import CommonCore.Durations

/-!
# Durations as text

`to_iso8601_string` and `try_to_duration` of `date-time.c++`, and
`to_iso8601_string` and `from_string` of `timeinterval.py`, with exact numbers in
place of floating point. Both writers take a day off for every four years, and
no reader puts it back: the C++ reader does only when there are years, which its
writer leaves out, and the Python reader divides the number of years by that of
the seconds in four of them.
-/

namespace CommonCore.Durations

open Captures (str)

/-! ## Parts of a text -/

section
variable {α : Type} {of : Char → α} {C : Classes of}

/-- A number that is left out if it is zero. -/
def amountOf (of : Char → α) (k : ℕ) : Option (List α) := if k = 0 then none else some (numeral of k)

def part (of : Char → α) (k : ℕ) (unit : Char) : List α := if k = 0 then [] else numeral of k ++ [of unit]

theorem text_amountOf (n : ℕ) (letters : List Char) (unit : Char) (k : ℕ) :
    Item.text of ⟨n, letters, unit, amountOf of k⟩ = part of k unit := by
  unfold amountOf part
  split_ifs <;> rfl

theorem text_none (n : ℕ) (letters : List Char) (unit : Char) : Item.text of ⟨n, letters, unit, none⟩ = [] := rfl

theorem numeral_of_amountOf {k : ℕ} {w : List α} (h : some w = amountOf of k) : Numeral C w := by
  unfold amountOf at h
  split_ifs at h
  cases h
  exact .numeral k

theorem valueOr_none : valueOr C none = 0 := valueOf_nil C

theorem valueOr_amountOf (k : ℕ) : valueOr C (amountOf of k) = k := by
  unfold amountOf
  split_ifs with h
  · rw [h, valueOr_none, Nat.cast_zero]
  · exact valueOf_numeral k

theorem isSome_amountOf (k : ℕ) : (amountOf of k).isSome = true ↔ k ≠ 0 := by
  unfold amountOf
  split_ifs with h <;> simp [h]

end

theorem decimal_eq_numeral (n : ℕ) : decimal n = numeral byteOf n := by
  unfold decimal numeral
  split_ifs with h
  · rfl
  · refine List.map_congr_left fun d hd => ?_
    have hd := Nat.digits_lt_base (by decide) (List.mem_reverse.mp hd)
    interval_cases d <;> rfl

/-! ## Whole seconds -/

theorem floor_natCast_div (n u : ℕ) : ⌊(n : ℚ) / u⌋ = (n / u : ℕ) := by
  exact_mod_cast Rat.floor_natCast_div_natCast n u

theorem day_mul_le (n : ℕ) : day * (n / leap) ≤ n := by
  simp only [leap, year, day, hour, minute]
  omega

theorem cast_natAbs (s : ℤ) : (s : ℚ) = if s < 0 then -(s.natAbs : ℚ) else s.natAbs := by
  split_ifs with h
  · have h : s = -(s.natAbs : ℤ) := by omega
    calc (s : ℚ) = ((-(s.natAbs : ℤ) : ℤ) : ℚ) := congrArg _ h
      _ = -(s.natAbs : ℚ) := by rw [Int.cast_neg, Int.cast_natCast]
  · have h : s = (s.natAbs : ℤ) := by omega
    calc (s : ℚ) = ((s.natAbs : ℤ) : ℚ) := congrArg _ h
      _ = s.natAbs := Int.cast_natCast _

theorem sum_of_parts (m : ℕ) : day * (m / day) + hour * (m % day / hour) + minute * (m % day % hour / minute) +
    m % day % hour % minute = m := by
  rw [add_assoc, Nat.div_add_mod, add_assoc, Nat.div_add_mod, Nat.div_add_mod]

/-! ## The C++ library -/

namespace DateTime

/-- Nanoseconds in 64 bits. -/
@[ext]
structure Duration where
  count : ℤ
  lower : -2 ^ 63 ≤ count
  upper : count < 2 ^ 63

/-- What C++ leaves undefined: the conversion of a number to an integer type
that it does not fit in, and a sum or product outside the type. -/
inductive Undefined
  | conversion
  | overflow

/-- What is left to write, after `divs` divisions. -/
structure Divisions where
  stream : Bytes
  sep : Bytes
  divs : ℕ
  d : ℚ

def Divisions.skip (w : Divisions) : Divisions := { w with divs := if 0 < w.divs then w.divs + 1 else w.divs }

section
variable (maxDivisions : ℕ) (delimiter : Bytes)

/-- One division, when it has a format. The one in years is the first one, for
which neither a separator nor `max_divisions` makes a difference. -/
def Divisions.divide (unit : ℕ) (format : Option (ℕ → Bytes)) (w : Divisions) : Divisions :=
  match format with
  | some write =>
    if unit ≤ w.d ∧ (maxDivisions = 0 ∨ w.divs < maxDivisions) then
      let count := ⌊w.d / unit⌋₊
      { stream := w.stream ++ w.sep ++ write count, sep := delimiter, divs := w.divs + 1, d := w.d - count * unit }
    else w.skip
  | none => w.skip

end

def trunc (x : ℚ) : ℤ := if 0 ≤ x then ⌊x⌋ else ⌈x⌉

def toDouble (d : Duration) : ℚ := d.count / 10 ^ 9

/-- The formats of the divisions; each is what `str::format` writes with it. -/
structure Formats where
  seconds : Option (ℚ → Bytes)
  minutes : Option (ℕ → Bytes)
  hours : Option (ℕ → Bytes)
  days : Option (ℕ → Bytes)
  months : Option (ℕ → Bytes)
  years : Option (ℕ → Bytes)

def durToStream (dur : Duration) (format : Formats) (maxDivisions : ℕ) (delimiter datePrefix timePrefix : Bytes)
    (precision : ℚ) : Bytes :=
  let stream := (if dur.count < 0 then [minus] else []) ++ datePrefix
  let d := |toDouble dur|
  let d := if (leap : ℚ) ≤ d then d - trunc (d / leap) * day else d
  let w : Divisions := ⟨stream, [], 0, d⟩
  let w := w.divide maxDivisions delimiter year format.years
  let w := w.divide maxDivisions delimiter month format.months
  let w := w.divide maxDivisions delimiter day format.days
  let w := if 0 < w.d then { w with stream := w.stream ++ timePrefix } else w
  let w := w.divide maxDivisions delimiter hour format.hours
  let w := w.divide maxDivisions delimiter minute format.minutes
  match format.seconds with
  | some write =>
    if (precision ≤ w.d ∨ w.divs = 0) ∧ (maxDivisions = 0 ∨ w.divs < maxDivisions) then w.stream ++ w.sep ++ write w.d
    else w.stream
  | none => w.stream

def toIso8601String (duration : Duration) (decimals : ℕ) : Bytes :=
  durToStream duration
    { seconds := some fun x => fixed byteOf decimals x ++ ascii "S"
      minutes := some fun n => decimal n ++ ascii "M"
      hours := some fun n => decimal n ++ ascii "H"
      days := some fun n => decimal n ++ ascii "D"
      months := none
      years := none }
    0 [] (ascii "P") (ascii "T") (1 / 10 ^ 9)

/-- `static_cast` to a signed type of some bits. -/
def staticCast (bits : ℕ) (x : ℚ) : Except Undefined ℤ :=
  if -2 ^ (bits - 1) ≤ trunc x ∧ trunc x < 2 ^ (bits - 1) then .ok (trunc x) else .error .conversion

def ofCount (n : ℤ) : Except Undefined Duration :=
  if h : -2 ^ 63 ≤ n ∧ n < 2 ^ 63 then .ok ⟨n, h.1, h.2⟩ else .error .overflow

/-- `to_duration` of a `time_t` and a `long`. -/
def toDurationOf (seconds nanoseconds : ℤ) : Except Undefined Duration :=
  (ofCount (seconds * 10 ^ 9)).bind fun d => ofCount (d.count + nanoseconds)

def toDuration (seconds : ℚ) : Except Undefined Duration := do
  let whole ← staticCast 64 seconds
  let int ← staticCast 32 seconds
  let nanoseconds ← staticCast 64 ((seconds - int) * 10 ^ 9)
  toDurationOf whole nanoseconds

/-- Without a format. `convert` is what reads a text that is only a number. -/
def tryToDuration (convert : Bytes → Option ℚ) (input : Bytes) : Except Undefined (Option Duration) :=
  match (rxDuration byteClasses).whole List.isEmpty input with
  | some g =>
    let duration := scaled byteClasses g
    let duration := if (str g 2).isEmpty then duration else duration + day * trunc (duration / leap)
    let duration := if str g 1 = [minus] then -duration else duration
    if hit g then (toDuration duration).map some else .ok none
  | none =>
    match convert input with
    | some seconds => (toDuration seconds).map some
    | none => .ok none

/-! ### What is written -/

/-- The divisions so far, after one that may be left out. -/
def bump (divs k : ℕ) : ℕ := if divs = 0 ∧ k = 0 then 0 else divs + 1

theorem bump_eq_zero {divs k : ℕ} : bump divs k = 0 ↔ divs = 0 ∧ k = 0 := by
  unfold bump
  split_ifs with h <;> simp [h]

theorem divide_none (stream : Bytes) (divs n u : ℕ) :
    (Divisions.mk stream [] divs n).divide 0 [] u none = ⟨stream, [], bump divs 0, n⟩ := by
  unfold Divisions.divide Divisions.skip bump
  rcases Nat.eq_zero_or_pos divs with h | h
  · simp [h]
  · simp [h, h.ne']

theorem divide_natCast (stream : Bytes) (divs n u : ℕ) (hu : 0 < u) (c : Char) :
    (Divisions.mk stream [] divs n).divide 0 [] u (some fun k => decimal k ++ [byteOf c]) =
      ⟨stream ++ part byteOf (n / u) c, [], bump divs (n / u), (n % u : ℕ)⟩ := by
  have hiff : ((u : ℚ) ≤ n) ↔ n / u ≠ 0 := by
    rw [Nat.cast_le, Ne, Nat.div_eq_zero_iff]
    omega
  by_cases hz : n / u = 0
  · have hlt : n < u := by
      rw [Nat.div_eq_zero_iff] at hz
      omega
    have hnone := divide_none stream divs n u
    unfold Divisions.divide at hnone ⊢
    dsimp only at hnone ⊢
    rw [if_neg fun h => hiff.mp h.1 hz, hnone, part, if_pos hz, List.append_nil, hz, Nat.mod_eq_of_lt hlt]
  · unfold Divisions.divide part bump
    dsimp only
    rw [if_pos ⟨hiff.mpr hz, .inl rfl⟩, if_neg hz, if_neg fun h => hz h.2, Nat.floor_div_eq_div, decimal_eq_numeral,
      List.append_nil]
    congr 1
    rw [sub_eq_iff_eq_add, ← Nat.cast_mul, ← Nat.cast_add, mul_comm, Nat.mod_add_div]

/-- A number of seconds without a day for every four years. -/
def reduced (n : ℕ) : ℕ := n - day * (n / leap)

theorem remainder_natCast (n : ℕ) :
    (if (leap : ℚ) ≤ n then (n : ℚ) - trunc ((n : ℚ) / leap) * day else n) = (reduced n : ℕ) := by
  have htrunc : trunc ((n : ℚ) / leap) = (n / leap : ℕ) := by
    unfold trunc
    rw [if_pos (by positivity), floor_natCast_div]
  unfold reduced
  simp only [Nat.cast_le, htrunc]
  rw [Nat.cast_sub (day_mul_le n)]
  split_ifs with h
  · rw [Int.cast_natCast, Nat.cast_mul, mul_comm]
  · rw [Nat.div_eq_of_lt (not_le.mp h)]
    simp

/-- What is written for a number of seconds. -/
def written (negative : Bool) (m : ℕ) : Written byteClasses where
  negative := negative
  years := none
  days := amountOf byteOf (m / day)
  timed := m % day ≠ 0
  hours := amountOf byteOf (m % day / hour)
  minutes := amountOf byteOf (m % day % hour / minute)
  seconds := if m % day % hour % minute ≠ 0 ∨ m = 0 then some (fixed byteOf 3 (m % day % hour % minute : ℕ)) else none
  numerals w hw := by
    simp only [List.mem_cons, List.not_mem_nil, or_false, reduceCtorEq, false_or] at hw
    rcases hw with h | h | h | h
    · exact numeral_of_amountOf h
    · exact numeral_of_amountOf h
    · exact numeral_of_amountOf h
    · split_ifs at h
      cases h
      exact .fixed 2 _
  minutes_timed h := by
    simp only [ne_eq, decide_not, Bool.not_eq_false', decide_eq_true_eq] at h
    simp [amountOf, h]

theorem written_text (negative : Bool) (m : ℕ) :
    (written negative m).text = (if negative then [minus] else []) ++ ascii "P" ++ part byteOf (m / day) 'D' ++
      (if m % day ≠ 0 then ascii "T" else []) ++ part byteOf (m % day / hour) 'H' ++
        part byteOf (m % day % hour / minute) 'M' ++
          if m % day % hour % minute ≠ 0 ∨ m = 0 then fixed byteOf 3 (m % day % hour % minute : ℕ) ++ ascii "S" else [] := by
  have hseconds : Item.text byteOf ⟨8, ['s', 'S'], 'S', (written negative m).seconds⟩ =
      if m % day % hour % minute ≠ 0 ∨ m = 0 then fixed byteOf 3 (m % day % hour % minute : ℕ) ++ ascii "S" else [] := by
    unfold written Item.text
    dsimp only
    split_ifs <;> rfl
  rw [← hseconds]
  simp [Written.text, Written.date, Written.time, written, texts, text_amountOf, text_none]
  rfl

theorem precision_le (k : ℕ) : (1 / 10 ^ 9 : ℚ) ≤ k ↔ k ≠ 0 := by
  constructor
  · rintro h rfl
    norm_num at h
  · intro h
    have h : (1 : ℚ) ≤ k := by exact_mod_cast Nat.one_le_iff_ne_zero.mpr h
    exact le_trans (by norm_num) h

/-- Seconds are written if there are any, and for nothing at all. -/
theorem seconds_iff (m : ℕ) :
    (m % day % hour % minute ≠ 0 ∨ ((m / day = 0 ∧ m % day / hour = 0) ∧ m % day % hour / minute = 0)) ↔
      m % day % hour % minute ≠ 0 ∨ m = 0 := by
  refine or_congr_right' fun h => ⟨fun ⟨⟨hd, hh⟩, hm⟩ => ?_, fun hm => by simp [hm]⟩
  have hsum := sum_of_parts m
  rw [hd, hh, hm, not_not.mp h] at hsum
  exact hsum.symm

theorem toIso8601String_eq {dur : Duration} {s : ℤ} (hs : dur.count = s * 10 ^ 9) :
    toIso8601String dur 3 = (written (s < 0) (reduced s.natAbs)).text := by
  have hsign : dur.count < 0 ↔ s < 0 := by omega
  have habs : |toDouble dur| = (s.natAbs : ℚ) := by
    unfold toDouble
    rw [hs, Int.cast_mul, Int.cast_pow, Int.cast_ofNat, mul_div_cancel_right₀ _ (by norm_num), Nat.cast_natAbs,
      Int.cast_abs]
  have htrunc := remainder_natCast s.natAbs
  unfold toIso8601String durToStream
  simp only [habs, htrunc, hsign]
  generalize reduced s.natAbs = m
  rw [written_text]
  have hD : (fun n => decimal n ++ ascii "D") = fun n => decimal n ++ [byteOf 'D'] := rfl
  have hH : (fun n => decimal n ++ ascii "H") = fun n => decimal n ++ [byteOf 'H'] := rfl
  have hM : (fun n => decimal n ++ ascii "M") = fun n => decimal n ++ [byteOf 'M'] := rfl
  rw [divide_none, divide_none, hD, divide_natCast _ _ _ _ (by decide)]
  have hT : ∀ (stream : Bytes) (divs n : ℕ),
      (if 0 < (Divisions.mk stream [] divs n).d then
        { Divisions.mk stream [] divs n with stream := stream ++ ascii "T" } else Divisions.mk stream [] divs n) =
      ⟨stream ++ (if n ≠ 0 then ascii "T" else []), [], divs, n⟩ := by
    intro stream divs n
    by_cases hn : n = 0 <;> simp [hn, Nat.pos_iff_ne_zero]
  rw [hT, hH, divide_natCast _ _ _ _ (by decide), hM, divide_natCast _ _ _ _ (by decide)]
  simp only [precision_le, bump_eq_zero, true_and, seconds_iff, true_or, and_true, List.append_nil, decide_eq_true_eq]
  split_ifs <;> simp

/-! ### What is read -/

theorem scaled_written (negative : Bool) (m : ℕ) : scaled byteClasses (written negative m).groups = m := by
  have hseconds : valueOr byteClasses (written negative m).seconds = (m % day % hour % minute : ℕ) := by
    unfold written
    dsimp only
    split_ifs with h
    · exact valueOf_fixed 2 _
    · rw [not_or, not_not] at h
      rw [h.1, valueOr_none, Nat.cast_zero]
  rw [scaled_groups, hseconds]
  simp only [written, valueOr_none, valueOr_amountOf, mul_zero, zero_add]
  exact_mod_cast sum_of_parts m

theorem hit_written (negative : Bool) (m : ℕ) : hit (written negative m).groups = true := by
  rw [hit_groups]
  by_contra h
  simp only [written, List.any_cons, List.any_nil, Bool.or_false, Bool.or_eq_true, isSome_amountOf, Option.isSome_none,
    Bool.false_eq_true, false_or, not_or, not_not] at h
  obtain ⟨hd, hh, hm, hs⟩ := h
  rw [if_pos ((seconds_iff m).mp (.inr ⟨⟨hd, hh⟩, hm⟩))] at hs
  exact hs rfl

/-- The days that were taken off stay off, for no years are written. -/
theorem tryToDuration_written (convert : Bytes → Option ℚ) (negative : Bool) (m : ℕ) :
    tryToDuration convert (written negative m).text = (toDuration (if negative then -(m : ℚ) else m)).map some := by
  have hsign : str (written negative m).groups 1 = [minus] ↔ negative = true := by
    cases negative <;> simp [str, Written.groups, written]
    rfl
  have hyears : (str (written negative m).groups 2).isEmpty = true := rfl
  unfold tryToDuration
  rw [Written.whole_text _ rfl]
  simp only [scaled_written, hyears, hsign, hit_written, if_true]

theorem trunc_intCast (x : ℤ) : trunc x = x := by
  unfold trunc
  split_ifs
  · exact Int.floor_intCast x
  · exact Int.ceil_intCast x

theorem ofCount_ok {n : ℤ} {d : Duration} : ofCount n = .ok d ↔ d.count = n := by
  unfold ofCount
  constructor
  · intro h
    split_ifs at h
    cases h
    rfl
  · rintro rfl
    rw [dif_pos ⟨d.lower, d.upper⟩]

/-- Seconds that are read become that many nanoseconds, and no more. -/
theorem toDurationOf_zero {x : ℤ} {d : Duration} : toDurationOf x 0 = .ok d ↔ d.count = x * 10 ^ 9 := by
  unfold toDurationOf
  cases hc : ofCount (x * 10 ^ 9) with
  | error e =>
    refine ⟨nofun, fun h => ?_⟩
    rw [ofCount_ok.mpr h] at hc
    cases hc
  | ok d' =>
    rw [Except.bind, add_zero, ofCount_ok, ofCount_ok.mp hc]

theorem staticCast_intCast {bits : ℕ} (x : ℤ) : staticCast bits (x : ℚ) =
    if -2 ^ (bits - 1) ≤ x ∧ x < 2 ^ (bits - 1) then .ok x else .error .conversion := by
  unfold staticCast
  rw [trunc_intCast]

/-- A whole number of seconds is read as it is, if it can be converted to an `int`. -/
theorem toDuration_intCast (x : ℤ) (d : Duration) :
    toDuration (x : ℚ) = .ok d ↔ (-2 ^ 31 ≤ x ∧ x < 2 ^ 31) ∧ d.count = x * 10 ^ 9 := by
  have hzero : staticCast 64 (((x : ℚ) - (x : ℤ)) * 10 ^ 9) = .ok 0 := by
    rw [sub_self, zero_mul]
    exact (staticCast_intCast 0).trans (if_pos (by decide))
  unfold toDuration
  rw [staticCast_intCast, staticCast_intCast]
  by_cases h32 : -2 ^ 31 ≤ x ∧ x < 2 ^ 31
  · have h64 : -2 ^ (64 - 1) ≤ x ∧ x < 2 ^ (64 - 1) := by omega
    rw [if_pos h64, if_pos h32, and_iff_right h32, ← toDurationOf_zero]
    show (staticCast 64 (((x : ℚ) - (x : ℤ)) * 10 ^ 9) >>= fun n => toDurationOf x n) = .ok d ↔ _
    rw [hzero]
    rfl
  · rw [if_neg h32, iff_false_right fun h => h32 h.1]
    split_ifs <;> exact nofun

theorem reduced_eq {n : ℕ} : reduced n = n ↔ n < leap := by
  unfold reduced
  simp only [leap, year, day, hour, minute]
  omega

/-- A whole number of seconds is restored if it is less than four years. -/
theorem restored_iff (convert : Bytes → Option ℚ) {d : Duration} {s : ℤ} (hs : d.count = s * 10 ^ 9) :
    tryToDuration convert (toIso8601String d 3) = .ok (some d) ↔ s.natAbs < leap := by
  have hcast : (if decide (s < 0) = true then -((reduced s.natAbs : ℕ) : ℚ) else (reduced s.natAbs : ℕ)) =
      ((if s < 0 then -(reduced s.natAbs : ℤ) else reduced s.natAbs : ℤ) : ℚ) := by
    split_ifs <;> simp_all
  rw [toIso8601String_eq hs, tryToDuration_written, hcast]
  constructor
  · intro h
    cases hd : toDuration ((if s < 0 then -(reduced s.natAbs : ℤ) else reduced s.natAbs : ℤ) : ℚ) with
    | error e =>
      rw [hd] at h
      cases h
    | ok d' =>
      rw [hd] at h
      cases h
      have hcount := ((toDuration_intCast _ _).mp hd).2.symm.trans hs
      rw [← reduced_eq]
      split_ifs at hcount <;> omega
  · intro h
    rw [reduced_eq.mpr h]
    have hself : (if s < 0 then -(s.natAbs : ℤ) else s.natAbs : ℤ) = s := by
      split_ifs <;> omega
    have hlt : s.natAbs < 2 ^ 31 := lt_trans h (by decide)
    rw [hself, (toDuration_intCast s d).mpr ⟨by omega, hs⟩]
    rfl

end DateTime

/-! ## The Python library -/

namespace TimeInterval

/-- The suffixes of the components. An empty one counts as none. -/
structure Suffixes where
  years : Option (List Char)
  months : Option (List Char)
  weeks : Option (List Char)
  days : Option (List Char)
  hours : Option (List Char)
  minutes : Option (List Char)
  seconds : Option (List Char)

structure Parts where
  parts : List (List Char)
  remainder : ℚ

def component (p : Parts) : Option (List Char) × ℕ → Parts
  | (some (c :: suffix), division) =>
    if division ≤ p.remainder then
      let count := ⌊p.remainder / division⌋₊
      ⟨p.parts ++ [numeral id count ++ c :: suffix], p.remainder - division * count⟩
    else p
  | _ => p

def components (preface : List Char) (l : List (Option (List Char) × ℕ)) (p : Parts) : Parts :=
  let p := if preface ≠ [] ∧ (p.remainder ≠ 0 ∨ p.parts = []) then { p with parts := p.parts ++ [preface] } else p
  l.foldl component p

/-- A text without the groups of three zeros it ends with, backwards. -/
def dropZeros : List Char → List Char
  | '0' :: '0' :: '0' :: s => dropZeros s
  | s => s

def secondsOf (decimals : Option ℕ) (remainder : ℚ) : List Char :=
  match decimals with
  | some (k + 1) => fixed id (k + 1) remainder
  | _ => ((dropZeros (fixed id 9 remainder).reverse).dropWhile fun c => c = '.' || c = ',').reverse

def toString (suffix : Suffixes) (componentSeparator positiveSign : List Char) (decimals : Option ℕ)
    (preamble dateTimeSeparator : List Char) (self : ℚ) : List Char :=
  let sign := if 0 < self then positiveSign else if self < 0 then ['-'] else []
  let remainder := if 0 ≤ self then self else -self
  -- for durations of more than 4 years we subtract leap days
  let remainder := if leap < remainder then remainder - day * ⌊remainder / leap⌋ else remainder
  let p : Parts := ⟨[], remainder⟩
  let p := components [] [(suffix.years, year), (suffix.months, month), (suffix.weeks, week), (suffix.days, day)] p
  let p := components dateTimeSeparator [(suffix.hours, hour), (suffix.minutes, minute)] p
  let parts :=
    match suffix.seconds with
    | some (c :: suffix) =>
      if p.remainder ≠ 0 ∨ p.parts = [] then p.parts ++ [secondsOf decimals p.remainder ++ c :: suffix] else p.parts
    | _ => p.parts
  sign ++ preamble ++ componentSeparator.intercalate parts

def toIso8601String (self : ℚ) : List Char :=
  toString
    { years := some ['Y']
      months := none
      weeks := none
      days := some ['D']
      hours := some ['H']
      minutes := some ['M']
      seconds := some ['S'] }
    [] [] none ['P'] ['T'] self

/-- The message of a `ValueError`, or the interval. -/
def fromString (U : Classes (id : Char → Char)) (input : List Char) : Except (List Char) ℚ :=
  match (rxDuration U).whole (fun rest => rest = [] || rest = ['\n']) input with
  | some g =>
    let interval := scaled U g
    let interval := if (str g 2).isEmpty then interval else interval + day * ⌊valueOf U (str g 2) / leap⌋
    let interval := if str g 1 = ['-'] then -interval else interval
    if hit g then .ok interval else .error ("Invalid duration: ".toList ++ input)
  | none => .error ("Invalid duration: ".toList ++ input)

/-! ### What is written -/

/-- A component, which is left out if it is zero. -/
def partOf (k : ℕ) (c : Char) : List (List Char) := if k = 0 then [] else [numeral id k ++ [c]]

theorem flatten_partOf (k : ℕ) (c : Char) : (partOf k c).flatten = part id k c := by
  unfold partOf part
  split_ifs <;> simp

theorem partOf_eq_nil {k : ℕ} {c : Char} : partOf k c = [] ↔ k = 0 := by
  unfold partOf
  split_ifs with h <;> simp [h]

theorem component_natCast (parts : List (List Char)) (c : Char) (n u : ℕ) (hu : 0 < u) :
    component ⟨parts, n⟩ (some [c], u) =
      ⟨parts ++ partOf (n / u) c, (n % u : ℕ)⟩ := by
  have hiff : ((u : ℚ) ≤ n) ↔ n / u ≠ 0 := by
    rw [Nat.cast_le, Ne, Nat.div_eq_zero_iff]
    omega
  unfold component partOf
  dsimp only
  split_ifs with hle hz hz
  · exact absurd hz (hiff.mp hle)
  · rw [Nat.floor_div_eq_div]
    congr 1
    rw [sub_eq_iff_eq_add, ← Nat.cast_mul, ← Nat.cast_add, Nat.mod_add_div]
  · rw [List.append_nil, Nat.mod_eq_of_lt (by rwa [Nat.cast_le, not_le] at hle)]
  · exact absurd (hiff.mpr hz) hle

theorem intercalate_nil (l : List (List Char)) : [].intercalate l = l.flatten := by
  induction l with
  | nil => rfl
  | cons w l ih =>
    cases l with
    | nil => simp
    | cons v l => rw [List.intercalate_cons_cons, ih, List.append_nil, List.flatten_cons (l := w)]

theorem dropZeros_fixed (n : ℕ) : secondsOf none n = numeral id n := by
  obtain ⟨c, w, hw⟩ := List.exists_cons_of_ne_nil (show (numeral (id : Char → Char) n).reverse ≠ [] from
    List.reverse_ne_nil_iff.mpr (numeral_ne_nil n))
  have hc : c.isDigit = true := by
    have hmem : c ∈ numeral id n := List.mem_reverse.mp (hw ▸ List.mem_cons_self)
    have h := isDecimal_of_mem_numeral asciiClasses hmem
    by_contra hc
    simp [Classes.isDecimal, asciiClasses, hc] at h
  unfold secondsOf
  dsimp only
  rw [fixed_natCast, List.reverse_append, hw]
  have hzeros : dropZeros ((id '.' :: List.replicate (8 + 1) (id '0')).reverse ++ c :: w) = '.' :: c :: w := rfl
  have hne : ∀ d : Char, d.isDigit = false → c ≠ d := fun d hd he => by
    rw [he, hd] at hc
    cases hc
  rw [hzeros, List.dropWhile_cons_of_pos (by decide),
    List.dropWhile_cons_of_neg (by simp [hne '.' rfl, hne ',' rfl]), ← hw, List.reverse_reverse]

/-- A number of seconds without a day for every four years. -/
def reduced (n : ℕ) : ℕ := if leap < n then n - day * (n / leap) else n

theorem remainder_natCast (n : ℕ) :
    (if (leap : ℚ) < n then (n : ℚ) - day * ⌊(n : ℚ) / leap⌋ else n) = (reduced n : ℕ) := by
  unfold reduced
  simp only [Nat.cast_lt, floor_natCast_div]
  split_ifs
  · rw [Nat.cast_sub (day_mul_le n)]
    push_cast
    rfl
  · rfl

/-- What is written for a number of seconds. -/
def written (U : Classes (id : Char → Char)) (negative : Bool) (m : ℕ) : Written U where
  negative := negative
  years := amountOf id (m / year)
  days := amountOf id (m % year / day)
  timed := m % year % day ≠ 0 ∨ m = 0
  hours := amountOf id (m % year % day / hour)
  minutes := amountOf id (m % year % day % hour / minute)
  seconds := amountOf id (m % year % day % hour % minute)
  numerals w hw := by
    simp only [List.mem_cons, List.not_mem_nil, or_false] at hw
    rcases hw with h | h | h | h | h <;> exact numeral_of_amountOf h
  minutes_timed h := by
    simp only [ne_eq, Bool.decide_or, Bool.or_eq_false_iff, decide_eq_false_iff_not, not_not] at h
    simp [amountOf, h.1]

theorem components_date (m : ℕ) :
    components [] [(some ['Y'], year), (none, month), (none, week), (some ['D'], day)] ⟨[], m⟩ =
      ⟨partOf (m / year) 'Y' ++ partOf (m % year / day) 'D', (m % year % day : ℕ)⟩ := by
  unfold components
  rw [if_neg (by simp)]
  simp only [List.foldl_cons, List.foldl_nil]
  rw [component_natCast _ _ _ _ (by decide), List.nil_append]
  exact component_natCast _ _ _ _ (by decide)

theorem components_time (parts : List (List Char)) (n : ℕ) :
    components ['T'] [(some ['H'], hour), (some ['M'], minute)] ⟨parts, n⟩ =
      ⟨parts ++ (if n ≠ 0 ∨ parts = [] then [['T']] else []) ++ partOf (n / hour) 'H' ++ partOf (n % hour / minute) 'M',
        (n % hour % minute : ℕ)⟩ := by
  have hT : (if ['T'] ≠ [] ∧ ((n : ℚ) ≠ 0 ∨ parts = []) then { parts := parts ++ [['T']], remainder := (n : ℚ) }
      else ({ parts := parts, remainder := n } : Parts)) =
      ⟨parts ++ (if n ≠ 0 ∨ parts = [] then [['T']] else []), n⟩ := by
    split_ifs with h₁ h₂ h₂ <;> simp_all
  unfold components
  dsimp only
  rw [hT]
  simp only [List.foldl_cons, List.foldl_nil]
  rw [component_natCast _ _ _ _ (by decide)]
  exact component_natCast _ _ _ _ (by decide)

/-- The `T` is there for a time, and for nothing at all. -/
theorem timed_iff (m : ℕ) :
    (m % year % day ≠ 0 ∨ partOf (m / year) 'Y' ++ partOf (m % year / day) 'D' = []) ↔ m % year % day ≠ 0 ∨ m = 0 := by
  refine or_congr_right' fun h => ?_
  rw [List.append_eq_nil_iff, partOf_eq_nil, partOf_eq_nil]
  refine ⟨fun ⟨hy, hd⟩ => ?_, fun hm => by simp [hm]⟩
  have h₁ := Nat.div_add_mod m year
  have h₂ := Nat.div_add_mod (m % year) day
  rw [hy, Nat.mul_zero, Nat.zero_add] at h₁
  rw [hd, not_not.mp h, Nat.mul_zero] at h₂
  rw [← h₁, ← h₂]

theorem written_text (U : Classes (id : Char → Char)) (negative : Bool) (m : ℕ) :
    (written U negative m).text = (if negative then ['-'] else []) ++ 'P' ::
      (part id (m / year) 'Y' ++ part id (m % year / day) 'D' ++
        ((if m % year % day ≠ 0 ∨ m = 0 then ['T'] else []) ++
          (part id (m % year % day / hour) 'H' ++ part id (m % year % day % hour / minute) 'M' ++
            part id (m % year % day % hour % minute) 'S'))) := by
  simp [Written.text, Written.date, Written.time, written, texts, text_amountOf, text_none]

theorem toIso8601String_natCast {self : ℚ} {n : ℕ} (U : Classes (id : Char → Char)) (h : self = n ∨ self = -n) :
    toIso8601String self = (written U (self < 0) (reduced n)).text := by
  have hremainder : (if 0 ≤ self then self else -self) = n := by
    rcases h with rfl | rfl
    · rw [if_pos (Nat.cast_nonneg n)]
    · split_ifs with h
      · linarith [show (0 : ℚ) ≤ n from Nat.cast_nonneg n]
      · rw [neg_neg]
  have hsign : (if 0 < self then [] else if self < 0 then ['-'] else []) = if self < 0 then ['-'] else [] := by
    split_ifs with h₁ h₂
    · exact absurd h₁ (not_lt.mpr h₂.le)
    all_goals rfl
  unfold toIso8601String toString
  simp only [hremainder, remainder_natCast, hsign]
  generalize reduced n = m
  rw [components_date, components_time, written_text]
  simp only [timed_iff, dropZeros_fixed]
  generalize hT : (if m % year % day ≠ 0 ∨ m = 0 then [['T']] else []) = tee
  have hne : partOf (m / year) 'Y' ++ partOf (m % year / day) 'D' ++ tee ++ partOf (m % year % day / hour) 'H' ++
      partOf (m % year % day % hour / minute) 'M' ≠ [] := by
    intro h
    simp only [List.append_eq_nil_iff] at h
    obtain ⟨⟨⟨h, htee⟩, -⟩, -⟩ := h
    rw [← hT, if_pos ((timed_iff m).mp (.inr (List.append_eq_nil_iff.mpr h)))] at htee
    cases htee
  have hseconds : ∀ (k : ℕ) (parts : List (List Char)), parts ≠ [] →
      (if (k : ℚ) ≠ 0 ∨ parts = [] then parts ++ [numeral id k ++ ['S']] else parts) = parts ++ partOf k 'S' := by
    intro k parts hparts
    by_cases hk : k = 0 <;> simp [partOf, hk, hparts]
  have htee : (if m % year % day ≠ 0 ∨ m = 0 then ['T'] else []) = tee.flatten := by
    rw [← hT]
    split_ifs <;> rfl
  rw [hseconds _ _ hne, intercalate_nil, htee]
  simp only [List.flatten_append, flatten_partOf, List.append_assoc, List.singleton_append, decide_eq_true_eq]

/-! ### What is read -/

theorem sum_of_parts (m : ℕ) : year * (m / year) + day * (m % year / day) + hour * (m % year % day / hour) +
    minute * (m % year % day % hour / minute) + m % year % day % hour % minute = m := by
  have h := Durations.sum_of_parts (m % year)
  rw [add_assoc, add_assoc] at h
  rw [add_assoc, add_assoc, add_assoc, h, Nat.div_add_mod]

theorem scaled_written (U : Classes (id : Char → Char)) (negative : Bool) (m : ℕ) :
    scaled U (written U negative m).groups = m := by
  rw [scaled_groups]
  simp only [written, valueOr_amountOf]
  exact_mod_cast sum_of_parts m

theorem hit_written (U : Classes (id : Char → Char)) (negative : Bool) (m : ℕ) :
    hit (written U negative m).groups = true ↔ m ≠ 0 := by
  rw [hit_groups]
  simp only [written, List.any_cons, List.any_nil, Bool.or_false, Bool.or_eq_true, isSome_amountOf]
  constructor
  · rintro h rfl
    simp at h
  · intro hm
    by_contra h
    simp only [not_or, not_not] at h
    obtain ⟨h₁, h₂, h₃, h₄, h₅⟩ := h
    have hsum := sum_of_parts m
    rw [h₁, h₂, h₃, h₄, h₅] at hsum
    exact hm hsum.symm

/-- The number of seconds that is read for a number of seconds. -/
def readAs (m : ℕ) : ℕ := m + day * (m / year / leap)

theorem fromString_written (U : Classes (id : Char → Char)) (negative : Bool) {m : ℕ} (hm : m ≠ 0) :
    fromString U (written U negative m).text = .ok (if negative then -(readAs m : ℚ) else readAs m) := by
  have hsign : str (written U negative m).groups 1 = ['-'] ↔ negative = true := by
    cases negative <;> simp [str, Written.groups, written]
  have hyears : (if (str (written U negative m).groups 2).isEmpty then (m : ℚ)
      else m + day * ⌊valueOf U (str (written U negative m).groups 2) / leap⌋) = readAs m := by
    have hvalue : valueOf U (str (written U negative m).groups 2) = (m / year : ℕ) := valueOr_amountOf (C := U) (m / year)
    rw [hvalue, floor_natCast_div]
    unfold readAs
    split_ifs with h
    · have hzero : m / year = 0 := by
        by_contra hne
        rw [List.isEmpty_iff] at h
        rw [h, valueOf_nil] at hvalue
        exact hne (by exact_mod_cast hvalue.symm)
      simp [hzero]
    · push_cast
      rfl
  unfold fromString
  rw [Written.whole_text _ (by simp)]
  simp only [scaled_written, hyears, hsign, (hit_written U negative m).mpr hm, if_true]

theorem fromString_written_zero (U : Classes (id : Char → Char)) (negative : Bool) (x : ℚ) :
    fromString U (written U negative 0).text ≠ .ok x := by
  have hhit : hit (written U negative 0).groups = false := by
    rw [Bool.eq_false_iff]
    exact fun h => (hit_written U negative 0).mp h rfl
  unfold fromString
  rw [Written.whole_text _ (by simp)]
  simp [hhit]

theorem reduced_eq_zero {n : ℕ} : reduced n = 0 ↔ n = 0 := by
  unfold reduced
  by_cases h : leap < n
  · rw [if_pos h]
    simp only [leap, year, day, hour, minute] at h ⊢
    omega
  · rw [if_neg h]

/-- The days that were taken off are missing. -/
theorem readAs_reduced {n : ℕ} : readAs (reduced n) = n ↔ n ≤ leap := by
  unfold readAs reduced
  by_cases h : leap < n
  · rw [if_pos h]
    simp only [leap, year, day, hour, minute] at h ⊢
    omega
  · rw [if_neg h]
    simp only [leap, year, day, hour, minute] at h ⊢
    omega

theorem restored_iff (U : Classes (id : Char → Char)) (s : ℤ) :
    fromString U (toIso8601String s) = .ok (s : ℚ) ↔ s ≠ 0 ∧ s.natAbs ≤ leap := by
  have hcast : (s : ℚ) = s.natAbs ∨ (s : ℚ) = -s.natAbs := by
    rw [cast_natAbs s]
    split_ifs
    · exact .inr rfl
    · exact .inl rfl
  have hneg : ((s : ℚ) < 0) ↔ s < 0 := Int.cast_lt_zero
  rw [toIso8601String_natCast U hcast]
  by_cases hs : s = 0
  · simp only [hs, ne_eq, not_true_eq_false, false_and, iff_false]
    exact fromString_written_zero U _ _
  · have hm : reduced s.natAbs ≠ 0 := fun h => hs (Int.natAbs_eq_zero.mp (reduced_eq_zero.mp h))
    rw [fromString_written U _ hm, Except.ok.injEq, ← readAs_reduced, and_iff_right hs]
    simp only [decide_eq_true_eq, hneg]
    rw [cast_natAbs s]
    split_ifs with h
    · rw [neg_inj, Nat.cast_inj]
    · rw [Nat.cast_inj]

end TimeInterval

/-! ## Both libraries -/

/-- A whole number of seconds is restored by the C++ library if it is less than
four years, and by the Python library if it is not zero and at most four years. -/
theorem durations_restored_iff (convert : Bytes → Option ℚ) (U : Classes (id : Char → Char)) {d : DateTime.Duration}
    (hd : (10 ^ 9 : ℤ) ∣ d.count) (s : ℤ) :
    (DateTime.tryToDuration convert (DateTime.toIso8601String d 3) = .ok (some d) ↔ |d.count| < leap * 10 ^ 9) ∧
      (TimeInterval.fromString U (TimeInterval.toIso8601String s) = .ok (s : ℚ) ↔ s ≠ 0 ∧ |s| ≤ leap) := by
  constructor
  · obtain ⟨n, hn⟩ := hd
    have hn : d.count = n * 10 ^ 9 := hn.trans (mul_comm _ _)
    rw [DateTime.restored_iff convert hn, hn, abs_mul, abs_of_pos (show (0 : ℤ) < 10 ^ 9 by decide),
      mul_lt_mul_iff_left₀ (by decide), Int.abs_eq_natAbs, Nat.cast_lt]
  · rw [TimeInterval.restored_iff, Int.abs_eq_natAbs, Nat.cast_le]

/-- For texts that are more than a number. -/
def noNumber : Bytes → Option ℚ := fun _ => none

def oneHour : DateTime.Duration := ⟨3600 * 10 ^ 9, by decide, by decide⟩

theorem oneHour_restored :
    (10 ^ 9 : ℤ) ∣ oneHour.count ∧
      (DateTime.tryToDuration noNumber (DateTime.toIso8601String oneHour 3) = .ok (some oneHour) ↔
        |oneHour.count| < leap * 10 ^ 9) ∧
      (TimeInterval.fromString asciiClasses (TimeInterval.toIso8601String (3600 : ℤ)) = .ok ((3600 : ℤ) : ℚ) ↔
        (3600 : ℤ) ≠ 0 ∧ |(3600 : ℤ)| ≤ leap) :=
  ⟨by decide, durations_restored_iff noNumber asciiClasses (by decide) 3600⟩

def fourYears : DateTime.Duration := ⟨leap * 10 ^ 9, by decide, by decide⟩

theorem fourYears_not_restored :
    DateTime.tryToDuration noNumber (DateTime.toIso8601String fourYears 3) ≠ .ok (some fourYears) ∧
      TimeInterval.fromString asciiClasses (TimeInterval.toIso8601String ((leap + 1 : ℕ) : ℤ)) ≠ .ok (((leap + 1 : ℕ) : ℤ) : ℚ) ∧
        TimeInterval.fromString asciiClasses (TimeInterval.toIso8601String (0 : ℤ)) ≠ .ok ((0 : ℤ) : ℚ) :=
  ⟨fun h => absurd ((DateTime.restored_iff noNumber (s := leap) rfl).mp h) (by decide),
    fun h => absurd ((TimeInterval.restored_iff _ _).mp h).2 (by decide),
    fun h => ((TimeInterval.restored_iff _ _).mp h).1 rfl⟩

end CommonCore.Durations
