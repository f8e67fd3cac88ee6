import CommonCore.Escapes
import CommonCore.FromChars

/-!
# Integers as text

`StringConvert` for the integral types. The reader skips a plus sign and a prefix
by itself, and `std::from_chars` takes a minus sign after either. The writer
leaves integers of one byte to a stream, for which they are characters.
-/

namespace CommonCore

namespace IntegerTexts

/-! ## Types -/

/-- An integral type other than `bool` and `char`. -/
structure IntType where
  signed : Bool
  bits : ℕ
  width : bits ∈ [8, 16, 32, 64]

namespace IntType
variable (T : IntType)

def min : ℤ := if T.signed then -2 ^ (T.bits - 1) else 0

def max : ℤ := if T.signed then 2 ^ (T.bits - 1) - 1 else 2 ^ T.bits - 1

def Fits (v : ℤ) : Prop := T.min ≤ v ∧ v ≤ T.max

instance (v : ℤ) : Decidable (T.Fits v) := inferInstanceAs (Decidable (_ ∧ _))

/-- The values of the type. -/
abbrev Val := { v : ℤ // T.Fits v }

end IntType

/-! ## Conversions -/

/-- The `std::errc` of `std::from_chars`. -/
inductive Errc
  | invalidArgument
  | resultOutOfRange

inductive ConvertError
  | code (ec : Errc)
  | notAllConverted

section
variable (T : IntType)

/-- A number that is to be in the range of the type. -/
def checked (v : ℤ) (rest : Bytes) : Except Errc (T.Val × Bytes) :=
  if h : T.Fits v then .ok (⟨v, h⟩, rest) else .error .resultOutOfRange

/-- `std::from_chars` knows a minus sign for signed types only. -/
def fromChars (base : ℕ) (s : Bytes) : Except Errc (T.Val × Bytes) :=
  let negative := T.signed && s.head? == some minus
  match fromDigits base (if negative then s.tail else s) with
  | none => .error .invalidArgument
  | some (n, rest) => checked T (if negative then -n else n) rest

/-- `StringConvert::from_string` -/
def fromString (s : Bytes) : Except ConvertError T.Val :=
  let (base, s) := baseOf (dropPlus s)
  match fromChars T base s with
  | .ok (value, rest) => if rest = [] then .ok value else .error .notAllConverted
  | .error ec => .error (.code ec)

/-- `StringConvert::to_string` -/
def toString (value : T.Val) : Bytes := if T.bits = 8 then [UInt8.ofInt value.1] else decimalInt value.1

end

/-! ## Numerals -/

/-- Digits, and nothing else. -/
def Numeral (base : ℕ) (ds : Bytes) : Prop := ds ≠ [] ∧ ∀ b ∈ ds, charDigit b < base

def valueOf (base : ℕ) (ds : Bytes) : ℕ := Nat.ofDigits base (ds.map charDigit).reverse

theorem fromDigits_whole {base n : ℕ} (hbase : 0 < base) {s : Bytes} :
    fromDigits base s = some (n, []) ↔ Numeral base s ∧ n = valueOf base s := by
  have hiff : s.dropWhile (isDigitIn base) = [] ↔ ∀ b ∈ s, charDigit b < base := by
    rw [List.dropWhile_eq_nil_iff]
    simp only [isDigitIn_iff hbase]
  have htake (hall : ∀ b ∈ s, charDigit b < base) : s.takeWhile (isDigitIn base) = s :=
    List.takeWhile_eq_self_iff.mpr fun b hb => isDigitIn_of_lt (hall b hb)
  constructor
  · intro h
    unfold fromDigits at h
    dsimp only at h
    split_ifs at h with hne
    rw [Option.some.injEq, Prod.mk.injEq] at h
    have hall := hiff.mp h.2
    rw [htake hall] at hne h
    exact ⟨⟨hne, hall⟩, h.1.symm⟩
  · rintro ⟨⟨hne, hall⟩, rfl⟩
    unfold fromDigits
    rw [htake hall, if_neg hne, hiff.mpr hall]
    rfl

theorem numeral_decimal (n : ℕ) : Numeral 10 (decimal n) ∧ n = valueOf 10 (decimal n) := by
  have h : fromDigits 10 (decimal n ++ []) = some (n, []) := fromDigits_decimal n (by simp)
  rw [List.append_nil] at h
  exact (fromDigits_whole (by decide)).mp h

section
variable {base : ℕ} {ds : Bytes} {b : UInt8}

theorem Numeral.head (h : Numeral base (b :: ds)) : charDigit b < base := h.2 b List.mem_cons_self

end

/-- After a plus sign or not. -/
def OptPlus (s t : Bytes) : Prop := s = t ∨ s = plus :: t

theorem dropPlus_eq_iff {s t : Bytes} (h : t.head? ≠ some plus) : dropPlus s = t ↔ OptPlus s t := by
  unfold dropPlus OptPlus
  constructor
  · intro heq
    split_ifs at heq with hplus
    · cases s with
      | nil => cases hplus
      | cons c s =>
        cases hplus
        exact .inr (congrArg _ heq)
    · exact .inl heq
  · rintro (rfl | rfl)
    · rw [if_neg h]
    · rw [List.head?_cons, if_pos rfl, List.tail_cons]

theorem toLower_eq_x {x : UInt8} : toLower x = 0x78 ↔ x = 0x78 ∨ x = 0x58 := by
  revert x
  apply forall_byte
  decide +kernel

theorem not_digit_sign {base : ℕ} (h : base ≤ 36) : ¬ charDigit plus < base ∧ ¬ charDigit minus < base := by
  have hplus : charDigit plus = 36 := by decide
  have hminus : charDigit minus = 36 := by decide
  omega

theorem not_digit_x {x : UInt8} (h : toLower x = 0x78) : ¬ charDigit x < 10 ∧ ¬ charDigit x < 16 := by
  rcases toLower_eq_x.mp h with rfl | rfl <;> decide

theorem baseOf_hex {x : UInt8} {t : Bytes} (hx : toLower x = 0x78) (ht : t ≠ []) : baseOf (0x30 :: x :: t) = (16, t) := by
  have hlength : 2 < (0x30 :: x :: t).length := by
    have := List.length_pos_iff.mpr ht
    simp only [List.length_cons]
    omega
  rw [baseOf, if_pos ⟨hlength, rfl, by simp [hx]⟩]
  rfl

theorem baseOf_cases (t : Bytes) :
    (∃ x u, t = 0x30 :: x :: u ∧ toLower x = 0x78 ∧ u ≠ [] ∧ baseOf t = (16, u)) ∨ baseOf t = (10, t) := by
  unfold baseOf
  split_ifs with h
  · obtain ⟨hlength, hzero, hx⟩ := h
    rcases t with _ | ⟨a, _ | ⟨x, u⟩⟩
    · cases hzero
    · cases hx
    · left
      refine ⟨x, u, by simpa using hzero, by simpa using hx, ?_, rfl⟩
      rintro rfl
      exact absurd hlength (by simp)
  · exact .inr rfl

/-! ## What is read -/

/-- The texts that the reader takes, and their values. -/
inductive Read (signed : Bool) : Bytes → ℤ → Prop
  | decimal {s ds} (hs : OptPlus s ds) (h : Numeral 10 ds) : Read signed s (valueOf 10 ds)
  | negative {s ds} (hsigned : signed = true) (hs : OptPlus s (minus :: ds)) (h : Numeral 10 ds) : Read signed s (-valueOf 10 ds)
  | hex {s x ds} (hx : toLower x = 0x78) (hs : OptPlus s (0x30 :: x :: ds)) (h : Numeral 16 ds) : Read signed s (valueOf 16 ds)
  | negativeHex {s x ds} (hsigned : signed = true) (hx : toLower x = 0x78) (hs : OptPlus s (0x30 :: x :: minus :: ds))
      (h : Numeral 16 ds) : Read signed s (-valueOf 16 ds)

section
variable {T : IntType}

theorem checked_ok_iff {v : T.Val} {n : ℤ} {rest rest' : Bytes} : checked T n rest = .ok (v, rest') ↔ v.1 = n ∧ rest' = rest := by
  unfold checked
  constructor
  · intro h
    split_ifs at h with hfits
    cases h
    exact ⟨rfl, rfl⟩
  · rintro ⟨rfl, rfl⟩
    rw [dif_pos v.2]

theorem fromChars_of_negative {base : ℕ} (hbase : 0 < base) {s : Bytes} {v : T.Val} (hsigned : T.signed = true) :
    fromChars T base (minus :: s) = .ok (v, []) ↔ Numeral base s ∧ v.1 = -valueOf base s := by
  unfold fromChars
  simp only [hsigned, List.head?_cons, BEq.rfl, Bool.and_self, if_true, List.tail_cons]
  constructor
  · intro h
    cases hdigits : fromDigits base s with
    | none =>
      rw [hdigits] at h
      cases h
    | some r =>
      obtain ⟨n, rest⟩ := r
      rw [hdigits] at h
      obtain ⟨hv, rfl⟩ := checked_ok_iff.mp h
      obtain ⟨hnumeral, rfl⟩ := (fromDigits_whole hbase).mp hdigits
      exact ⟨hnumeral, hv⟩
  · rintro ⟨hnumeral, hv⟩
    rw [(fromDigits_whole hbase).mpr ⟨hnumeral, rfl⟩]
    exact checked_ok_iff.mpr ⟨hv, rfl⟩

theorem fromChars_of_not {base : ℕ} (hbase : 0 < base) {s : Bytes} {v : T.Val} (h : ¬ (T.signed = true ∧ s.head? = some minus)) :
    fromChars T base s = .ok (v, []) ↔ Numeral base s ∧ v.1 = valueOf base s := by
  have hnegative : (T.signed && s.head? == some minus) = false := by
    rw [Bool.eq_false_iff]
    simpa using h
  unfold fromChars
  simp only [hnegative, Bool.false_eq_true, if_false]
  constructor
  · intro h
    cases hdigits : fromDigits base s with
    | none =>
      rw [hdigits] at h
      cases h
    | some r =>
      obtain ⟨n, rest⟩ := r
      rw [hdigits] at h
      obtain ⟨hv, rfl⟩ := checked_ok_iff.mp h
      obtain ⟨hnumeral, rfl⟩ := (fromDigits_whole hbase).mp hdigits
      exact ⟨hnumeral, hv⟩
  · rintro ⟨hnumeral, hv⟩
    rw [(fromDigits_whole hbase).mpr ⟨hnumeral, rfl⟩]
    exact checked_ok_iff.mpr ⟨hv, rfl⟩

theorem Numeral.not_sign {base : ℕ} (hbase : base ≤ 36) {s : Bytes} (h : Numeral base s) : s.head? ≠ some plus ∧ s.head? ≠ some minus := by
  cases s with
  | nil => exact absurd rfl h.1
  | cons b s =>
    have hb := h.head
    obtain ⟨hplus, hminus⟩ := not_digit_sign hbase
    refine ⟨?_, ?_⟩
    · rintro heq
      cases heq
      exact hplus hb
    · rintro heq
      cases heq
      exact hminus hb

/-- A sign that `std::from_chars` takes, and digits to the end of the text. -/
theorem fromChars_ok_iff {base : ℕ} (hbase : 0 < base ∧ base ≤ 36) {s : Bytes} {v : T.Val} :
    fromChars T base s = .ok (v, []) ↔
      (Numeral base s ∧ v.1 = valueOf base s) ∨ (T.signed = true ∧ ∃ ds, s = minus :: ds ∧ Numeral base ds ∧ v.1 = -valueOf base ds) := by
  by_cases h : T.signed = true ∧ s.head? = some minus
  · obtain ⟨hsigned, hhead⟩ := h
    obtain ⟨ds, rfl⟩ : ∃ ds, s = minus :: ds := by
      cases s with
      | nil => cases hhead
      | cons b ds =>
        cases hhead
        exact ⟨ds, rfl⟩
    rw [fromChars_of_negative hbase.1 hsigned]
    constructor
    · intro hread
      exact .inr ⟨hsigned, ds, rfl, hread⟩
    · rintro (⟨hnumeral, -⟩ | ⟨-, ds', heq, hread⟩)
      · exact absurd rfl (hnumeral.not_sign hbase.2).2
      · cases heq
        exact hread
  · rw [fromChars_of_not hbase.1 h]
    constructor
    · exact .inl
    · rintro (hread | ⟨hsigned, ds, rfl, -⟩)
      · exact hread
      · exact absurd ⟨hsigned, rfl⟩ h

theorem fromString_eq_ok_iff {s : Bytes} {v : T.Val} :
    fromString T s = .ok v ↔ fromChars T (baseOf (dropPlus s)).1 (baseOf (dropPlus s)).2 = .ok (v, []) := by
  unfold fromString
  dsimp only
  cases h : fromChars T (baseOf (dropPlus s)).1 (baseOf (dropPlus s)).2 with
  | error ec => simp
  | ok r =>
    obtain ⟨w, rest⟩ := r
    by_cases hrest : rest = []
    · simp [hrest]
    · simp [hrest]

theorem fromString_ok_iff {s : Bytes} {v : T.Val} : fromString T s = .ok v ↔ Read T.signed s v.1 := by
  rw [fromString_eq_ok_iff]
  constructor
  · intro h
    rcases baseOf_cases (dropPlus s) with ⟨x, u, hdrop, hx, -, hbase⟩ | hbase
    · have hs : OptPlus s (0x30 :: x :: u) := (dropPlus_eq_iff (by simp [plus])).mp hdrop
      rw [hbase] at h
      rcases (fromChars_ok_iff (show 0 < 16 ∧ 16 ≤ 36 by decide)).mp h with ⟨hnumeral, hv⟩ | ⟨hsigned, ds, rfl, hnumeral, hv⟩
      · rw [hv]
        exact .hex hx hs hnumeral
      · rw [hv]
        exact .negativeHex hsigned hx hs hnumeral
    · rw [hbase] at h
      rcases (fromChars_ok_iff (show 0 < 10 ∧ 10 ≤ 36 by decide)).mp h with ⟨hnumeral, hv⟩ | ⟨hsigned, ds, hdrop, hnumeral, hv⟩
      · rw [hv]
        exact .decimal ((dropPlus_eq_iff (hnumeral.not_sign (show 10 ≤ 36 by decide)).1).mp rfl) hnumeral
      · rw [hv]
        exact .negative hsigned ((dropPlus_eq_iff (by simp [plus, minus])).mp hdrop) hnumeral
  · intro h
    generalize hval : v.1 = n at h
    cases h with
    | @decimal ds hs h =>
      have hdrop := (dropPlus_eq_iff (h.not_sign (by decide)).1).mpr hs
      rcases baseOf_cases (dropPlus s) with ⟨x, u, hhex, hx, -⟩ | hbase
      · rw [hdrop] at hhex
        exact absurd (h.2 x (hhex ▸ by simp)) (not_digit_x hx).1
      · rw [hbase, hdrop, fromChars_ok_iff (show 0 < 10 ∧ 10 ≤ 36 by decide)]
        exact .inl ⟨h, hval⟩
    | @negative ds hsigned hs h =>
      have hdrop := (dropPlus_eq_iff (by simp [plus, minus])).mpr hs
      rcases baseOf_cases (dropPlus s) with ⟨x, u, hhex, -⟩ | hbase
      · rw [hdrop] at hhex
        cases hhex
      · rw [hbase, hdrop, fromChars_ok_iff (show 0 < 10 ∧ 10 ≤ 36 by decide)]
        exact .inr ⟨hsigned, ds, rfl, h, hval⟩
    | @hex x ds hx hs h =>
      rw [(dropPlus_eq_iff (by simp [plus])).mpr hs, baseOf_hex hx h.1, fromChars_ok_iff (show 0 < 16 ∧ 16 ≤ 36 by decide)]
      exact .inl ⟨h, hval⟩
    | @negativeHex x ds hsigned hx hs h =>
      rw [(dropPlus_eq_iff (by simp [plus])).mpr hs, baseOf_hex hx (List.cons_ne_nil _ _), fromChars_ok_iff (show 0 < 16 ∧ 16 ≤ 36 by decide)]
      exact .inr ⟨hsigned, ds, rfl, h, hval⟩

end

/-! ## Round trips -/

theorem toNat_ofInt {v : ℤ} (h0 : 0 ≤ v) (h : v < 256) : ((UInt8.ofInt v).toNat : ℤ) = v := by
  obtain ⟨n, rfl⟩ := Int.eq_ofNat_of_zero_le h0
  have hmod : ((n : ℤ) % 2 ^ 8).toNat = n % 2 ^ 8 := by omega
  rw [UInt8.ofInt, hmod, UInt8.toNat_ofNat']
  omega

section
variable {T : IntType}

/-- No digit is its own code. -/
theorem not_read_byte (signed : Bool) (v : ℤ) : ¬ Read signed [UInt8.ofInt v] v := by
  intro h
  generalize hbyte : UInt8.ofInt v = b at h
  generalize htext : [b] = s at h
  generalize hval : v = n at h
  cases h with
  | @decimal ds hs h =>
    have hds : ds = [b] := by
      rcases hs with hs | hs
      · rw [htext, hs]
      · rw [hs] at htext
        cases htext
        exact absurd rfl h.1
    have hone : valueOf 10 [b] = charDigit b := by simp [valueOf]
    rw [hds] at h hval
    rw [hone] at hval
    have hcode : ∀ b : UInt8, charDigit b < 10 → b.toNat = charDigit b + 48 := by
      apply forall_byte
      decide +kernel
    have hdigit := h.head
    have hcode := hcode b hdigit
    have hback := toNat_ofInt (v := v) (by omega) (by omega)
    rw [hbyte] at hback
    omega
  | @negative ds hsigned hs h =>
    rcases hs with hs | hs
    · rw [hs] at htext
      cases htext
      exact h.1 rfl
    · rw [hs] at htext
      cases htext
  | @hex x ds hx hs h => rcases hs with hs | hs <;> rw [hs] at htext <;> cases htext
  | @negativeHex x ds hsigned hx hs h => rcases hs with hs | hs <;> rw [hs] at htext <;> cases htext

theorem read_decimalInt (v : T.Val) : Read T.signed (decimalInt v.1) v.1 := by
  unfold decimalInt
  split_ifs with hneg
  · have hsigned : T.signed = true := by
      by_contra hunsigned
      have hlow := v.2.1
      rw [IntType.min, if_neg hunsigned] at hlow
      omega
    obtain ⟨hnumeral, hval⟩ := numeral_decimal v.1.natAbs
    have hv : v.1 = -(valueOf 10 (decimal v.1.natAbs) : ℤ) := by
      rw [← hval]
      omega
    have hread := Read.negative hsigned (.inl rfl) hnumeral
    rwa [← hv] at hread
  · obtain ⟨hnumeral, hval⟩ := numeral_decimal v.1.natAbs
    have hv : v.1 = (valueOf 10 (decimal v.1.natAbs) : ℤ) := by
      rw [← hval]
      omega
    have hread : Read T.signed (decimal v.1.natAbs) (valueOf 10 (decimal v.1.natAbs)) := .decimal (.inl rfl) hnumeral
    rwa [← hv] at hread

theorem fromString_toString_iff (v : T.Val) : fromString T (toString T v) = .ok v ↔ T.bits ≠ 8 := by
  rw [fromString_ok_iff]
  unfold toString
  split_ifs with h
  · exact iff_of_false (not_read_byte T.signed v.1) (not_not.mpr h)
  · exact iff_of_true (read_decimalInt v) h

end

/-! ## Texts of integers -/

/-- An optional sign and decimal digits, or `0x` and hexadecimal ones, perhaps after a
plus sign. -/
inductive Spelled (signed : Bool) : Bytes → ℤ → Prop
  | decimal {s ds} (hs : OptPlus s ds) (h : Numeral 10 ds) : Spelled signed s (valueOf 10 ds)
  | negative {ds} (hsigned : signed = true) (h : Numeral 10 ds) : Spelled signed (minus :: ds) (-valueOf 10 ds)
  | hex {s ds} (hs : OptPlus s (0x30 :: 0x78 :: ds)) (h : Numeral 16 ds) : Spelled signed s (valueOf 16 ds)

/-- A minus sign after a plus sign, a minus sign after a prefix, or a prefix in upper case. -/
inductive Strange (signed : Bool) : Bytes → ℤ → Prop
  | twoSigns {ds} (hsigned : signed = true) (h : Numeral 10 ds) : Strange signed (plus :: minus :: ds) (-valueOf 10 ds)
  | signInside {s x ds} (hsigned : signed = true) (hx : toLower x = 0x78) (hs : OptPlus s (0x30 :: x :: minus :: ds))
      (h : Numeral 16 ds) : Strange signed s (-valueOf 16 ds)
  | upperPrefix {s ds} (hs : OptPlus s (0x30 :: 0x58 :: ds)) (h : Numeral 16 ds) : Strange signed s (valueOf 16 ds)

section
variable {signed : Bool} {s : Bytes} {v w : ℤ}

theorem read_iff : Read signed s v ↔ Spelled signed s v ∨ Strange signed s v := by
  constructor
  · intro h
    cases h with
    | @decimal ds hs h => exact .inl (.decimal hs h)
    | @negative ds hsigned hs h =>
      rcases hs with rfl | rfl
      · exact .inl (.negative hsigned h)
      · exact .inr (.twoSigns hsigned h)
    | @hex x ds hx hs h =>
      rcases toLower_eq_x.mp hx with rfl | rfl
      · exact .inl (.hex hs h)
      · exact .inr (.upperPrefix hs h)
    | @negativeHex x ds hsigned hx hs h => exact .inr (.signInside hsigned hx hs h)
  · rintro (h | h)
    · cases h with
      | decimal hs h => exact .decimal hs h
      | negative hsigned h => exact .negative hsigned (.inl rfl) h
      | hex hs h => exact .hex (by decide) hs h
    · cases h with
      | twoSigns hsigned h => exact .negative hsigned (.inr rfl) h
      | signInside hsigned hx hs h => exact .negativeHex hsigned hx hs h
      | upperPrefix hs h => exact .hex (by decide) hs h

theorem Spelled.cases (h : Spelled signed s v) :
    Numeral 10 (dropPlus s) ∨ s.head? = some minus ∨ ∃ ds, dropPlus s = 0x30 :: 0x78 :: ds ∧ Numeral 16 ds := by
  cases h with
  | decimal hs h =>
    rw [(dropPlus_eq_iff (h.not_sign (by decide)).1).mpr hs]
    exact .inl h
  | negative hsigned h => exact .inr (.inl rfl)
  | hex hs h => exact .inr (.inr ⟨_, (dropPlus_eq_iff (by simp [plus])).mpr hs, h⟩)

theorem Strange.cases (h : Strange signed s v) :
    (∃ ds, dropPlus s = minus :: ds ∧ s.head? ≠ some minus) ∨ (∃ x ds, dropPlus s = 0x30 :: x :: minus :: ds ∧ toLower x = 0x78) ∨
      ∃ ds, dropPlus s = 0x30 :: 0x58 :: ds := by
  cases h with
  | twoSigns hsigned h => exact .inl ⟨_, rfl, by simp [plus, minus]⟩
  | signInside hsigned hx hs h => exact .inr (.inl ⟨_, _, (dropPlus_eq_iff (by simp [plus])).mpr hs, hx⟩)
  | upperPrefix hs h => exact .inr (.inr ⟨_, (dropPlus_eq_iff (by simp [plus])).mpr hs⟩)

/-- Whatever its value. -/
theorem Strange.not_spelled (h : Strange signed s v) : ¬ Spelled signed s w := by
  intro hspelled
  have hstart : s.head? = some minus → (dropPlus s).head? = some minus := by
    intro hminus
    rwa [dropPlus, if_neg (by rw [hminus]; decide)]
  rcases hspelled.cases with hnumeral | hminus | ⟨ds, hhex, hnumeral⟩
  · rcases h.cases with ⟨ds, hdrop, -⟩ | ⟨x, ds, hdrop, hx⟩ | ⟨ds, hdrop⟩
    · rw [hdrop] at hnumeral
      exact (hnumeral.not_sign (by decide)).2 rfl
    · exact (not_digit_x hx).1 (hnumeral.2 x (by simp [hdrop]))
    · exact (not_digit_x (x := 0x58) (by decide)).1 (hnumeral.2 0x58 (by simp [hdrop]))
  · rcases h.cases with ⟨ds, hdrop, hne⟩ | ⟨x, ds, hdrop, hx⟩ | ⟨ds, hdrop⟩
    · exact hne hminus
    · exact absurd (hstart hminus) (by rw [hdrop]; simp [minus])
    · exact absurd (hstart hminus) (by rw [hdrop]; simp [minus])
  · rcases h.cases with ⟨ds', hdrop, hne⟩ | ⟨x, ds', hdrop, hx⟩ | ⟨ds', hdrop⟩
    · rw [hdrop] at hhex
      exact absurd (List.cons.inj hhex).1 (by decide)
    · rw [hdrop, List.cons.injEq, List.cons.injEq] at hhex
      rw [← hhex.2.2] at hnumeral
      exact (hnumeral.not_sign (by decide)).2 rfl
    · rw [hdrop, List.cons.injEq, List.cons.injEq] at hhex
      exact absurd hhex.2.1 (by decide)

end

section
variable (T : IntType)

theorem accepted_iff (s : Bytes) :
    ((∃ v, fromString T s = .ok v) ↔ ∃ v, T.Fits v ∧ Spelled T.signed s v) ↔ ¬ ∃ v, T.Fits v ∧ Strange T.signed s v := by
  have hread : (∃ v, fromString T s = .ok v) ↔ ∃ v, T.Fits v ∧ Read T.signed s v := by
    constructor
    · rintro ⟨v, h⟩
      exact ⟨v.1, v.2, fromString_ok_iff.mp h⟩
    · rintro ⟨v, hfits, h⟩
      exact ⟨⟨v, hfits⟩, fromString_ok_iff.mpr h⟩
  rw [hread]
  constructor
  · rintro h ⟨v, hfits, hstrange⟩
    obtain ⟨w, -, hspelled⟩ := h.mp ⟨v, hfits, read_iff.mpr (.inr hstrange)⟩
    exact hstrange.not_spelled hspelled
  · intro h
    constructor
    · rintro ⟨v, hfits, hv⟩
      rcases read_iff.mp hv with hspelled | hstrange
      · exact ⟨v, hfits, hspelled⟩
      · exact absurd ⟨v, hfits, hstrange⟩ h
    · rintro ⟨v, hfits, hspelled⟩
      exact ⟨v, hfits, read_iff.mpr (.inl hspelled)⟩

/-- Every integer is read as written unless it has one byte, and every text is
read as it should be unless it is strange. -/
theorem integer_conversions_iff :
    (∀ v : T.Val, fromString T (toString T v) = .ok v ↔ T.bits ≠ 8) ∧
      ∀ s, ((∃ v, fromString T s = .ok v) ↔ ∃ v, T.Fits v ∧ Spelled T.signed s v) ↔ ¬ ∃ v, T.Fits v ∧ Strange T.signed s v :=
  ⟨fromString_toString_iff, accepted_iff T⟩

end

def int8 : IntType := ⟨true, 8, by decide⟩

/-- A zero of one byte is written as a null character. -/
theorem int8_not_exact : ¬ ∀ (T : IntType) (v : T.Val), fromString T (toString T v) = .ok v := by
  intro h
  exact (fromString_toString_iff (T := int8) ⟨0, by decide⟩).mp (h int8 ⟨0, by decide⟩) rfl

end IntegerTexts

end CommonCore
