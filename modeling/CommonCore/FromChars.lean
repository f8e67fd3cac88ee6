import CommonCore.Variant
import Mathlib.Data.Nat.Digits.Defs
import Mathlib.Data.Nat.Digits.Lemmas

/-!
# Numbers in text

`std::from_chars` for the types of a value, `core::str::StringConvert` on top of
it, and what a stream writes for an integer. Only the rounding of a decimal
numeral to a `double` is left open, as `nearest`.
-/

namespace CommonCore

/-! ## Characters -/

def isDigit (b : UInt8) : Bool := 0x30 ≤ b && b ≤ 0x39

def isLower (b : UInt8) : Bool := 0x61 ≤ b && b ≤ 0x7a

def isUpper (b : UInt8) : Bool := 0x41 ≤ b && b ≤ 0x5a

def isAlnum (b : UInt8) : Bool := isDigit b || isLower b || isUpper b

def toLower (b : UInt8) : UInt8 := if isUpper b then b + 0x20 else b

/-- `std::isspace` in the "C" locale. -/
def isSpace (b : UInt8) : Bool := b == 0x20 || (0x09 ≤ b && b ≤ 0x0d)

def isBlank (b : UInt8) : Bool := b == 0x20 || b == 0x09

def plus : UInt8 := 0x2b

def minus : UInt8 := 0x2d

def dot : UInt8 := 0x2e

def star : UInt8 := 0x2a

def openBrace : UInt8 := 0x7b

def closeBrace : UInt8 := 0x7d

/-! ## Integers -/

/-- The value of a digit in any base up to 36. -/
def charDigit (b : UInt8) : ℕ :=
  if isDigit b then b.toNat - 0x30
  else if isLower b then b.toNat - 0x57
  else if isUpper b then b.toNat - 0x37
  else 36

def zero : UInt8 := 0x30

/-- `std::from_chars` skips leading zeros whatever the base is, and in base 0 it
takes nothing else. -/
def isDigitIn (base : ℕ) (b : UInt8) : Bool := b == zero || charDigit b < base

/-- The digits at the front of a text, as a number, and what follows them. -/
def fromDigits (base : ℕ) (s : Bytes) : Option (ℕ × Bytes) :=
  let digits := s.takeWhile (isDigitIn base)
  if digits = [] then none
  else some (Nat.ofDigits base (digits.map charDigit).reverse, s.dropWhile (isDigitIn base))

/-- `std::stoul` of a text that begins with a digit. -/
def stoul (base : ℕ) (s : Bytes) : ℕ := ((fromDigits base s).map Prod.fst).getD 0

/-- `std::stol` of a text that begins with a digit or a sign before one. -/
def stol (base : ℕ) (s : Bytes) : ℤ :=
  if s.head? = some minus then -stoul base s.tail
  else if s.head? = some plus then stoul base s.tail
  else stoul base s

/-- `std::from_chars` for `largest_uint`: the number and what follows it. -/
def fromCharsUint (base : ℕ) (s : Bytes) : Option (UInt64 × Bytes) :=
  (fromDigits base s).bind fun (n, rest) => if n < 2 ^ 64 then some (UInt64.ofNat n, rest) else none

/-- `std::from_chars` for `largest_sint`. -/
def fromCharsSint (base : ℕ) (s : Bytes) : Option (Int64 × Bytes) :=
  if s.head? = some minus then
    (fromDigits base s.tail).bind fun (n, rest) => if n ≤ 2 ^ 63 then some (Int64.ofInt (-n), rest) else none
  else
    (fromDigits base s).bind fun (n, rest) => if n < 2 ^ 63 then some (Int64.ofInt n, rest) else none

/-- What a stream writes for a number that is not negative. -/
def decimal (n : ℕ) : Bytes :=
  if n = 0 then [0x30] else (Nat.digits 10 n).reverse.map fun d => UInt8.ofNat (0x30 + d)

def decimalInt (n : Int) : Bytes := if n < 0 then minus :: decimal n.natAbs else decimal n.natAbs

/-! ## Reals -/

def takeSign (p : UInt8 → Bool) : Bytes → Bytes × Bytes
  | [] => ([], [])
  | b :: s => if p b then ([b], s) else ([], b :: s)

def takeFraction : Bytes → Bytes × Bytes
  | [] => ([], [])
  | b :: s => if b = dot then (b :: s.takeWhile isDigit, s.dropWhile isDigit) else ([], b :: s)

def takeExponent : Bytes → Bytes × Bytes
  | [] => ([], [])
  | b :: s =>
    let (sign, t) := takeSign (fun b => b == plus || b == minus) s
    if toLower b = 0x65 ∧ t.takeWhile isDigit ≠ [] then
      (b :: sign ++ t.takeWhile isDigit, t.dropWhile isDigit)
    else ([], b :: s)

/-- The longest decimal numeral at the front of a text, and what follows it. -/
def takeReal (s : Bytes) : Option (Bytes × Bytes) :=
  let (sign, s) := takeSign (· == minus) s
  let whole := s.takeWhile isDigit
  let (fraction, s) := takeFraction (s.dropWhile isDigit)
  let (exponent, s) := takeExponent s
  if whole = [] ∧ fraction.length ≤ 1 then none
  else some (sign ++ whole ++ fraction ++ exponent, s)

/-- What follows a lower case word, in any case, at the front of a text. -/
def takeWord (w s : Bytes) : Option Bytes :=
  if (s.take w.length).map toLower = w then some (s.drop w.length) else none

/-- The `(…)` that may follow `nan`. -/
def dropNanText (s : Bytes) : Bytes :=
  let t := s.tail.dropWhile fun b => isAlnum b || b == 0x5f
  if s.head? = some 0x28 ∧ t.head? = some 0x29 then t.tail else s

def takeSpecial (s : Bytes) : Option (Double × Bytes) :=
  let (sign, s) := takeSign (· == minus) s
  match takeWord (ascii "infinity") s, takeWord (ascii "inf") s, takeWord (ascii "nan") s with
  | some rest, _, _ => some (.infinite (sign ≠ []), rest)
  | none, some rest, _ => some (.infinite (sign ≠ []), rest)
  | none, none, some rest => some (.nan, dropNanText rest)
  | none, none, none => none

section
variable (nearest : Bytes → Option Double)

/-- `std::from_chars` for `double`. A numeral out of range has no nearest. -/
def fromCharsReal (s : Bytes) : Option (Double × Bytes) :=
  match takeReal s with
  | some (numeral, rest) => (nearest numeral).map fun r => (r, rest)
  | none => takeSpecial s

end

/-! ## Conversions of whole texts -/

def dropPlus (s : Bytes) : Bytes := if s.head? = some plus then s.tail else s

/-- The base that a text is in, and its digits. -/
def baseOf (s : Bytes) : ℕ × Bytes :=
  if 2 < s.length ∧ s.head? = some 0x30 ∧ s.tail.head?.map toLower = some 0x78 then (16, s.drop 2) else (10, s)

/-- All characters have been converted. -/
def convertedAll {α : Type} (r : Option (α × Bytes)) : Option α :=
  r.bind fun (a, rest) => if rest = [] then some a else none

/-- `StringConvert<largest_uint>::from_string`. -/
def convertToUint (s : Bytes) : Option UInt64 :=
  let (base, s) := baseOf (dropPlus s)
  convertedAll (fromCharsUint base s)

/-- `StringConvert<largest_sint>::from_string`. -/
def convertToSint (s : Bytes) : Option Int64 :=
  let (base, s) := baseOf (dropPlus s)
  convertedAll (fromCharsSint base s)

section
variable (nearest : Bytes → Option Double)

/-- `StringConvert<double>::from_string`. -/
def convertToReal (s : Bytes) : Option Double := convertedAll (fromCharsReal nearest (dropPlus s))

/-- `StringConvert<bool>::from_string`. -/
def convertToBool (s : Bytes) : Option Bool :=
  if s.map toLower ∈ [ascii "false", ascii "no", ascii "off"] then some false
  else if s.map toLower ∈ [ascii "true", ascii "yes", ascii "on"] then some true
  else
    match convertToSint s with
    | some n => some (n ≠ 0)
    | none => (convertToReal nearest s).map (· ≠ .finite 0)

end

/-! ## Integers are read as written -/

theorem isDigitIn_iff {base : ℕ} (hbase : 0 < base) (b : UInt8) : isDigitIn base b = true ↔ charDigit b < base := by
  have hzero : b = zero → charDigit b < base := by
    rintro rfl
    exact hbase
  simpa [isDigitIn] using hzero

theorem isDigitIn_of_lt {base : ℕ} {b : UInt8} (h : charDigit b < base) : isDigitIn base b = true := by
  simp [isDigitIn, h]

theorem stoul_single {base : ℕ} {a : UInt8} (ha : charDigit a < base) : stoul base [a] = charDigit a := by
  simp [stoul, fromDigits, List.takeWhile, isDigitIn_of_lt ha]

theorem stoul_pair {base : ℕ} {a b : UInt8} (ha : charDigit a < base) (hb : charDigit b < base) :
    stoul base [a, b] = base * charDigit a + charDigit b := by
  simp [stoul, fromDigits, List.takeWhile, isDigitIn_of_lt ha, isDigitIn_of_lt hb, Nat.ofDigits]
  omega

theorem charDigit_digit : ∀ d < 10, charDigit (UInt8.ofNat (0x30 + d)) = d := by decide

theorem decimal_eq (n : ℕ) : ∃ ds : List ℕ, (∀ d ∈ ds, d < 10) ∧ ds ≠ [] ∧ Nat.ofDigits 10 ds.reverse = n ∧
    decimal n = ds.map fun d => UInt8.ofNat (0x30 + d) := by
  by_cases hn : n = 0
  · refine ⟨[0], by simp, by simp, by simp [hn], ?_⟩
    simp [decimal, hn]
  · refine ⟨(Nat.digits 10 n).reverse, ?_, ?_, ?_, ?_⟩
    · intro d hd
      exact Nat.digits_lt_base (by omega) (List.mem_reverse.mp hd)
    · simp [Nat.digits_ne_nil_iff_ne_zero.mpr hn]
    · rw [List.reverse_reverse]
      exact Nat.ofDigits_digits 10 n
    · simp [decimal, hn]

/-- Whatever follows a number is not a digit of it. -/
theorem fromDigits_decimal (n : ℕ) {rest : Bytes} (hrest : ∀ b ∈ rest.head?, ¬ charDigit b < 10) :
    fromDigits 10 (decimal n ++ rest) = some (n, rest) := by
  obtain ⟨ds, hlt, hne, hval, htext⟩ := decimal_eq n
  have hdigits : ∀ b ∈ ds.map fun d => UInt8.ofNat (0x30 + d), isDigitIn 10 b = true := by
    intro b hb
    obtain ⟨d, hd, rfl⟩ := List.mem_map.mp hb
    apply isDigitIn_of_lt
    rw [charDigit_digit d (hlt d hd)]
    exact hlt d hd
  have htake : rest.takeWhile (isDigitIn 10) = [] := by
    cases rest with
    | nil => rfl
    | cons b rest => exact List.takeWhile_cons_of_neg fun h => hrest b rfl ((isDigitIn_iff (by decide) b).mp h)
  have hdrop : rest.dropWhile (isDigitIn 10) = rest := by
    cases rest with
    | nil => rfl
    | cons b rest => exact List.dropWhile_cons_of_neg fun h => hrest b rfl ((isDigitIn_iff (by decide) b).mp h)
  have hback : (ds.map fun d => UInt8.ofNat (0x30 + d)).map charDigit = ds := by
    rw [List.map_map]
    calc ds.map (charDigit ∘ fun d => UInt8.ofNat (0x30 + d)) = ds.map id :=
          List.map_congr_left fun d hd => charDigit_digit d (hlt d hd)
      _ = ds := List.map_id ds
  unfold fromDigits
  rw [htext, List.takeWhile_append_of_pos hdigits, List.dropWhile_append_of_pos hdigits, htake, hdrop,
    List.append_nil]
  simp only [hback, hval, List.map_eq_nil_iff, hne, if_false]

theorem decimal_ne_nil (n : ℕ) : decimal n ≠ [] := by
  obtain ⟨ds, -, hne, -, htext⟩ := decimal_eq n
  rw [htext]
  simpa using hne

theorem isDigit_decimal {n : ℕ} {b : UInt8} (hb : b ∈ decimal n) : isDigit b = true := by
  obtain ⟨ds, hlt, -, -, htext⟩ := decimal_eq n
  rw [htext] at hb
  obtain ⟨d, hd, rfl⟩ := List.mem_map.mp hb
  have hall : ∀ d < 10, isDigit (UInt8.ofNat (0x30 + d)) = true := by decide
  exact hall d (hlt d hd)

theorem head_decimal (n : ℕ) : ∃ b s, decimal n = b :: s ∧ isDigit b = true := by
  obtain ⟨b, s, h⟩ := List.exists_cons_of_ne_nil (decimal_ne_nil n)
  exact ⟨b, s, h, isDigit_decimal (h ▸ List.mem_cons_self)⟩

theorem fromCharsUint_decimal (n : UInt64) (rest : Bytes) (hrest : ∀ b ∈ rest.head?, ¬ charDigit b < 10) :
    fromCharsUint 10 (decimal n.toNat ++ rest) = some (n, rest) := by
  have hlt : n.toNat < 2 ^ 64 := n.toNat_lt
  unfold fromCharsUint
  rw [fromDigits_decimal _ hrest, Option.bind_some]
  simp only [if_pos hlt, UInt64.ofNat_toNat]

theorem fromCharsSint_decimal {n : Int64} (hn : n.toInt < 0) (rest : Bytes)
    (hrest : ∀ b ∈ rest.head?, ¬ charDigit b < 10) :
    fromCharsSint 10 (decimalInt n.toInt ++ rest) = some (n, rest) := by
  have hge : -2 ^ 63 ≤ n.toInt := n.le_toInt
  have hle : n.toInt.natAbs ≤ 2 ^ 63 := by omega
  have habs : -(n.toInt.natAbs : Int) = n.toInt := by omega
  unfold fromCharsSint decimalInt
  rw [if_pos hn, List.cons_append, List.head?_cons, if_pos rfl, List.tail_cons, fromDigits_decimal _ hrest,
    Option.bind_some]
  simp only [if_pos hle, habs, Int64.ofInt_toInt]

theorem fromDigits_eq_none {base : ℕ} {b : UInt8} (hb : ¬ isDigitIn base b) (s : Bytes) :
    fromDigits base (b :: s) = none := by
  unfold fromDigits
  rw [List.takeWhile_cons_of_neg hb]
  rfl

/-- No sign to be skipped, and no `0x`. -/
theorem plain_of_digits {b : UInt8} {s : Bytes} (hb : b = minus ∨ isDigit b = true) (hs : ∀ c ∈ s, isDigit c = true) :
    baseOf (dropPlus (b :: s)) = (10, b :: s) := by
  have hplus : b ≠ plus := by
    rintro rfl
    rcases hb with hb | hb <;> exact absurd hb (by decide)
  have hx : s.head?.map toLower ≠ some 0x78 := by
    cases s with
    | nil => simp
    | cons c s =>
      have hc := hs c List.mem_cons_self
      have hlower : toLower c = c := by
        unfold toLower isUpper
        unfold isDigit at hc
        grind
      simp only [List.head?_cons, Option.map_some, ne_eq, Option.some.injEq, hlower]
      rintro rfl
      exact absurd hc (by decide)
  unfold dropPlus
  rw [List.head?_cons, if_neg (by simpa using hplus)]
  unfold baseOf
  rw [if_neg]
  rintro ⟨-, -, h⟩
  exact hx h

theorem convertToUint_decimal (n : UInt64) : convertToUint (decimal n.toNat) = some n := by
  obtain ⟨b, s, htext, hb⟩ := head_decimal n.toNat
  have hs : ∀ c ∈ s, isDigit c = true := fun c hc => isDigit_decimal (htext ▸ List.mem_cons_of_mem b hc)
  have hread := fromCharsUint_decimal n [] (by simp)
  rw [List.append_nil, htext] at hread
  unfold convertToUint
  rw [htext, plain_of_digits (.inr hb) hs]
  simp only [hread]
  rfl

theorem convertToSint_decimalInt {n : Int64} (hn : n.toInt < 0) : convertToSint (decimalInt n.toInt) = some n := by
  have htext : decimalInt n.toInt = minus :: decimal n.toInt.natAbs := if_pos hn
  have hread := fromCharsSint_decimal hn [] (by simp)
  rw [List.append_nil, htext] at hread
  unfold convertToSint
  rw [htext, plain_of_digits (.inl rfl) fun c hc => isDigit_decimal hc]
  simp only [hread]
  rfl

/-- A minus sign is no part of an unsigned number. -/
theorem convertToUint_decimalInt {n : Int} (hn : n < 0) : convertToUint (decimalInt n) = none := by
  have htext : decimalInt n = minus :: decimal n.natAbs := if_pos hn
  unfold convertToUint
  rw [htext, plain_of_digits (.inl rfl) fun c hc => isDigit_decimal hc]
  simp only [fromCharsUint, fromDigits_eq_none (show ¬ isDigitIn 10 minus by decide)]
  rfl

end CommonCore
