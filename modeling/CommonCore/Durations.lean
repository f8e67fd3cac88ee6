import CommonCore.Captures
import CommonCore.FromChars
import Mathlib.Data.Rat.Floor

/-!
# Fields of a duration

The pattern by which the C++ and the Python library read a duration, and what it
captures of a text that consists of numbers with units, in order.
-/

namespace CommonCore.Durations

open Captures

/-! ## Characters -/

/-- What `\d` and `\s` match, and the value of a digit, where `of` gives the
code of an ASCII character. -/
structure Classes {α : Type} (of : Char → α) where
  decimal : α → Option ℕ
  space : α → Bool
  of_injective : ∀ c d : Char, c.toNat < 128 → d.toNat < 128 → of c = of d → c = d
  decimal_of : ∀ c : Char, c.toNat < 128 → decimal (of c) = if c.isDigit then some (c.toNat - 48) else none
  space_of : ∀ c : Char, 32 < c.toNat → c.toNat < 128 → space (of c) = false
  space_decimal : ∀ a : α, (decimal a).isSome = true → space a = false

def byteOf (c : Char) : UInt8 := UInt8.ofNat c.toNat

theorem byteOf_toNat {c : Char} (hc : c.toNat < 128) : (byteOf c).toNat = c.toNat := by
  unfold byteOf
  rw [UInt8.toNat_ofNat']
  omega

theorem isDigit_eq (c : Char) : c.isDigit = (decide (48 ≤ c.toNat) && decide (c.toNat ≤ 57)) := rfl

/-- The "C" locale. -/
def byteClasses : Classes byteOf where
  decimal b := if isDigit b then some (b.toNat - 48) else none
  space := isSpace
  of_injective c d hc hd h := by
    have h := congrArg UInt8.toNat h
    rw [byteOf_toNat hc, byteOf_toNat hd] at h
    exact Char.toNat_inj.mp h
  decimal_of c hc := by
    have h : isDigit (byteOf c) = c.isDigit := by
      simp only [isDigit_eq, isDigit, UInt8.le_iff_toNat_le, byteOf_toNat hc]
      rfl
    rw [h, byteOf_toNat hc]
  space_of c h hc := by
    have h20 : byteOf c ≠ 0x20 := fun h' => by
      have := congrArg UInt8.toNat h'
      rw [byteOf_toNat hc] at this
      exact absurd this (by simp; omega)
    have h0d : ¬ byteOf c ≤ 0x0d := by
      rw [UInt8.le_iff_toNat_le, byteOf_toNat hc]
      simp
      omega
    simp [isSpace, h20, h0d]
  space_decimal b h := by
    have h : isDigit b = true := by
      by_contra hb
      simp [hb] at h
    have h30 : 48 ≤ b.toNat := by
      simp only [isDigit, Bool.and_eq_true, decide_eq_true_eq, UInt8.le_iff_toNat_le] at h
      exact h.1
    have h20 : b ≠ 0x20 := fun h' => by
      rw [h'] at h30
      exact absurd h30 (by decide)
    have h0d : ¬ b ≤ 0x0d := by
      rw [UInt8.le_iff_toNat_le]
      simp
      omega
    simp [isSpace, h20, h0d]

/-- The ASCII part of Unicode. -/
def asciiClasses : Classes (id : Char → Char) where
  decimal c := if c.isDigit then some (c.toNat - 48) else none
  space c := c.isWhitespace
  of_injective _ _ _ _ h := h
  decimal_of _ _ := rfl
  space_of c h _ := by
    have hne : ∀ d : Char, d.toNat ≤ 32 → c ≠ d := fun d hd he => by
      rw [he] at h
      omega
    simp [Char.isWhitespace, hne ' ' (by decide), hne '\t' (by decide), hne '\r' (by decide), hne '\n' (by decide)]
  space_decimal c h := by
    have h : c.isDigit = true := by
      by_contra hc
      simp [hc] at h
    have hne : ∀ d : Char, d.isDigit = false → c ≠ d := fun d hd he => by
      rw [he, hd] at h
      cases h
    simp [Char.isWhitespace, hne ' ' (by decide), hne '\t' (by decide), hne '\r' (by decide), hne '\n' (by decide)]

section
variable {α : Type} {of : Char → α} (C : Classes of)

def Classes.isDecimal (c : α) : Bool := (C.decimal c).isSome

theorem Classes.decimal_digitChar {d : ℕ} (hd : d < 10) : C.decimal (of (Nat.digitChar d)) = some d := by
  have h : ∀ d < 10, (Nat.digitChar d).toNat < 128 ∧ (Nat.digitChar d).isDigit = true ∧ (Nat.digitChar d).toNat - 48 = d := by
    decide
  obtain ⟨hlt, hdigit, hval⟩ := h d hd
  rw [C.decimal_of _ hlt, if_pos hdigit, hval]

theorem Classes.decimal_zero : C.decimal (of '0') = some 0 := C.decimal_digitChar (show 0 < 10 by decide)

theorem Classes.isDecimal_of {c : Char} (hc : c.toNat < 128) : C.isDecimal (of c) = c.isDigit := by
  unfold Classes.isDecimal
  rw [C.decimal_of c hc]
  cases c.isDigit <;> rfl

theorem Classes.isDecimal_digitChar {d : ℕ} (hd : d < 10) : C.isDecimal (of (Nat.digitChar d)) = true := by
  unfold Classes.isDecimal
  rw [C.decimal_digitChar hd]
  rfl

theorem Classes.isDecimal_zero : C.isDecimal (of '0') = true := C.isDecimal_of (by decide)

theorem Classes.isDecimal_dot : C.isDecimal (of '.') = false := C.isDecimal_of (by decide)

/-! ## The pattern -/

def digit : Pattern α := .one C.isDecimal

/-- A character of a class. -/
def letter [DecidableEq α] (of : Char → α) (cs : List Char) : Pattern α := .one fun c => decide (c ∈ cs.map of)

/-- `\d+(?:\.\d*)?` -/
def amount [DecidableEq α] : Pattern α :=
  .seq (.seq (digit C) (.many C.isDecimal))
    (.opt (.seq (letter of ['.']) (.many C.isDecimal)))

/-- `\s*(?:(…)unit)?` -/
def field [DecidableEq α] (n : ℕ) (unit : Pattern α) : Pattern α :=
  .seq (.many C.space) (.opt (.seq (.group n (amount C)) unit))

def dateUnits : List (ℕ × List Char) := [(2, ['y', 'Y']), (3, ['m', 'M']), (4, ['w', 'W']), (5, ['d', 'D'])]

def timeUnits : List (ℕ × List Char) := [(6, ['h', 'H']), (7, ['m', 'M']), (8, ['s', 'S'])]

def fields [DecidableEq α] (l : List (ℕ × List Char)) : Pattern α := seqs (l.map fun f => field C f.1 (letter of f.2))

/-- The units that have two letters. -/
def subseconds [DecidableEq α] : Pattern α :=
  seqs ([(9, 'm'), (10, 'u'), (11, 'n')].map fun f => field C f.1 (.seq (letter of [f.2]) (letter of ['s'])))

def rxDuration [DecidableEq α] : Pattern α :=
  seqs [.opt (.group 1 (letter of ['+', '-'])), .opt (.seq (letter of ['P']) (fields C dateUnits)), .many C.space,
    .opt (letter of ['T']), fields C timeUnits, subseconds C]

/-! ## Amounts -/

/-- The number that some digits are. -/
def ofDigits (w : List α) : ℕ := Nat.ofDigits 10 (w.map fun c => (C.decimal c).getD 0).reverse

/-- The value of an amount. -/
def valueOf (w : List α) : ℚ :=
  let fraction := (w.dropWhile C.isDecimal).tail
  ofDigits C (w.takeWhile C.isDecimal) + ofDigits C fraction / 10 ^ fraction.length

/-- A number as it is written. -/
def numeral (of : Char → α) (n : ℕ) : List α :=
  if n = 0 then [of '0'] else (Nat.digits 10 n).reverse.map fun d => of (Nat.digitChar d)

/-- `%.nf`, of a number that is not negative: rounded to even. -/
def roundHalfEven (x : ℚ) : ℕ :=
  let n := ⌊x⌋₊
  if x - n < 1 / 2 ∨ (x - n = 1 / 2 ∧ n % 2 = 0) then n else n + 1

def fixed (of : Char → α) (decimals : ℕ) (x : ℚ) : List α :=
  let m := roundHalfEven (x * 10 ^ decimals)
  numeral of (m / 10 ^ decimals) ++
    if decimals = 0 then []
    else of '.' :: (List.range decimals).reverse.map fun i => of (Nat.digitChar (m / 10 ^ i % 10))

theorem isDecimal_of_mem_numeral {n : ℕ} {c : α} (hc : c ∈ numeral of n) : C.isDecimal c = true := by
  unfold numeral at hc
  split_ifs at hc
  · rw [List.mem_singleton.mp hc]
    exact C.isDecimal_zero
  · obtain ⟨d, hd, rfl⟩ := List.mem_map.mp hc
    exact C.isDecimal_digitChar (Nat.digits_lt_base (by decide) (List.mem_reverse.mp hd))

theorem numeral_ne_nil (n : ℕ) : numeral of n ≠ [] := by
  unfold numeral
  split_ifs with h
  · exact List.cons_ne_nil _ _
  · simp [Nat.digits_eq_nil_iff_eq_zero, h]

theorem ofDigits_numeral (n : ℕ) : ofDigits C (numeral of n) = n := by
  unfold ofDigits numeral
  split_ifs with h
  · simp [h, C.decimal_zero]
  · have hmap : ((Nat.digits 10 n).reverse.map fun d => of (Nat.digitChar d)).map (fun c => (C.decimal c).getD 0) =
        (Nat.digits 10 n).reverse := by
      rw [List.map_map]
      refine (List.map_congr_left fun d hd => ?_).trans (List.map_id _)
      have hd := Nat.digits_lt_base (by decide) (List.mem_reverse.mp hd)
      simp [C.decimal_digitChar hd]
    rw [hmap, List.reverse_reverse, Nat.ofDigits_digits]

theorem ofDigits_zeros (k : ℕ) : ofDigits C (List.replicate k (of '0')) = 0 := by
  unfold ofDigits
  rw [List.map_replicate, C.decimal_zero, List.reverse_replicate]
  induction k with
  | zero => rfl
  | succ k ih => rw [List.replicate_succ, Nat.ofDigits_cons, ih]; rfl

theorem roundHalfEven_natCast (n : ℕ) : roundHalfEven n = n := by
  unfold roundHalfEven
  simp

theorem fixed_natCast (k n : ℕ) : fixed of (k + 1) n = numeral of n ++ of '.' :: List.replicate (k + 1) (of '0') := by
  have hcast : (n : ℚ) * 10 ^ (k + 1) = ((n * 10 ^ (k + 1) : ℕ) : ℚ) := by push_cast; rfl
  have hpos : 0 < 10 ^ (k + 1) := by positivity
  unfold fixed
  rw [hcast, roundHalfEven_natCast]
  dsimp only
  rw [if_neg (Nat.succ_ne_zero k), Nat.mul_div_cancel _ hpos]
  congr 2
  refine List.eq_replicate_iff.mpr ⟨by simp, fun c hc => ?_⟩
  obtain ⟨i, hi, rfl⟩ := List.mem_map.mp hc
  have hi : i < k + 1 := List.mem_range.mp (List.mem_reverse.mp hi)
  have hsplit : n * 10 ^ (k + 1) = 10 ^ i * (n * 10 ^ (k - i) * 10) := by
    rw [show k + 1 = i + ((k - i) + 1) by omega, pow_add, pow_succ]
    ring
  rw [hsplit, Nat.mul_div_cancel_left _ (by positivity), Nat.mul_mod_left]
  rfl

end

/-- A decimal numeral: digits, and perhaps a point with more of them. -/
inductive Numeral {α : Type} {of : Char → α} (C : Classes of) : List α → Prop
  | whole {w : List α} (hne : w ≠ []) (hw : ∀ c ∈ w, C.isDecimal c = true) : Numeral C w
  | point {w f : List α} (hne : w ≠ []) (hw : ∀ c ∈ w, C.isDecimal c = true)
      (hf : ∀ c ∈ f, C.isDecimal c = true) : Numeral C (w ++ of '.' :: f)

section
variable {α : Type} {of : Char → α} {C : Classes of}

theorem Numeral.numeral (n : ℕ) : Numeral C (numeral of n) :=
  .whole (numeral_ne_nil n) fun _ => isDecimal_of_mem_numeral C

theorem Numeral.fixed (k n : ℕ) : Numeral C (fixed of (k + 1) n) := by
  rw [fixed_natCast]
  refine .point (numeral_ne_nil n) (fun _ => isDecimal_of_mem_numeral C) fun c hc => ?_
  rw [List.eq_of_mem_replicate hc]
  exact C.isDecimal_zero

theorem valueOf_numeral (n : ℕ) : valueOf C (numeral of n) = n := by
  have hall : ∀ c ∈ Durations.numeral of n, C.isDecimal c = true := fun _ => isDecimal_of_mem_numeral C
  unfold valueOf
  rw [List.takeWhile_eq_self_iff.mpr hall, List.dropWhile_eq_nil_iff.mpr hall, ofDigits_numeral]
  simp [ofDigits]

theorem valueOf_fixed (k n : ℕ) : valueOf C (fixed of (k + 1) n) = n := by
  have hall : ∀ c ∈ Durations.numeral of n, C.isDecimal c = true := fun _ => isDecimal_of_mem_numeral C
  rw [fixed_natCast]
  unfold valueOf
  rw [List.takeWhile_append_of_pos hall, List.dropWhile_append_of_pos hall,
    List.takeWhile_cons_of_neg (by simp [C.isDecimal_dot]), List.dropWhile_cons_of_neg (by simp [C.isDecimal_dot]),
    List.append_nil, ofDigits_numeral]
  simp only [List.tail_cons, ofDigits_zeros]
  simp

theorem Numeral.ne_nil {w : List α} (h : Numeral C w) : ∃ c t, w = c :: t ∧ C.isDecimal c = true := by
  have head : ∀ {w t : List α}, w ≠ [] → (∀ c ∈ w, C.isDecimal c = true) →
      ∃ c t', w ++ t = c :: t' ∧ C.isDecimal c = true := by
    intro w t hne hw
    obtain ⟨c, w, rfl⟩ := List.exists_cons_of_ne_nil hne
    exact ⟨c, w ++ t, rfl, hw c List.mem_cons_self⟩
  cases h with
  | whole hne hw => simpa using head (t := []) hne hw
  | point hne hw hf => exact head hne hw

theorem Numeral.all {w : List α} (h : Numeral C w) : ∀ c ∈ w, C.isDecimal c = true ∨ c = of '.' := by
  intro c hc
  cases h with
  | whole hne hw => exact .inl (hw c hc)
  | point hne hw hf =>
    rcases List.mem_append.mp hc with hc | hc
    · exact .inl (hw c hc)
    · rcases List.mem_cons.mp hc with rfl | hc
      · exact .inr rfl
      · exact .inl (hf c hc)

/-! ## Fields -/

/-- A character that is part of no amount. -/
def Plain (c : Char) : Prop := 32 < c.toNat ∧ c.toNat < 128 ∧ c.isDigit = false ∧ c ≠ '.'

instance (c : Char) : Decidable (Plain c) := inferInstanceAs (Decidable (_ ∧ _))

def unitLetters : List Char := ['y', 'Y', 'm', 'M', 'w', 'W', 'd', 'D', 'h', 'H', 's', 'S']

theorem plain_unitLetters : ∀ c ∈ unitLetters, Plain c := by
  simp [unitLetters, Plain]

theorem Plain.isDecimal (C : Classes of) {c : Char} (h : Plain c) : C.isDecimal (of c) = false := by
  rw [C.isDecimal_of h.2.1]
  exact h.2.2.1

theorem Plain.ne_dot (C : Classes of) {c : Char} (h : Plain c) : of c ≠ of '.' := fun he =>
  h.2.2.2 (C.of_injective c '.' h.2.1 (by decide) he)

theorem split_unique {p : α → Prop} {w w' t t' : List α} {u u' : α} (hw : ∀ c ∈ w, p c) (hw' : ∀ c ∈ w', p c)
    (hu : ¬ p u) (hu' : ¬ p u') (h : w ++ u :: t = w' ++ u' :: t') : u = u' := by
  induction w generalizing w' with
  | nil =>
    cases w' with
    | nil => exact (List.cons.inj h).1
    | cons c w' => exact absurd ((List.cons.inj h).1 ▸ hw' c List.mem_cons_self) hu
  | cons c w ih =>
    cases w' with
    | nil => exact absurd ((List.cons.inj h).1 ▸ hw c List.mem_cons_self) hu'
    | cons c' w' => exact ih (List.forall_mem_cons.mp hw).2 (List.forall_mem_cons.mp hw').2 (List.cons.inj h).2

/-- A text that does not begin with an amount in one of some units. -/
def Unfit (C : Classes of) (letters : List Char) (t : List α) : Prop :=
  (∀ c ∈ t.head?, C.space c = false) ∧ ∀ w u t', t = w ++ u :: t' → Numeral C w → u ∉ letters.map of

theorem unfit_nil (letters : List Char) : Unfit C letters [] :=
  ⟨nofun, fun w u t' h => by simp at h⟩

theorem unfit_cons {c : Char} (hc : Plain c) (letters : List Char) (t : List α) : Unfit C letters (of c :: t) := by
  refine ⟨fun d hd => ?_, fun w u t' h hw => ?_⟩
  · cases hd
    exact C.space_of c hc.1 hc.2.1
  · obtain ⟨d, w, rfl, hd⟩ := hw.ne_nil
    rw [List.cons_append] at h
    rw [← (List.cons.inj h).1, hc.isDecimal C] at hd
    cases hd

theorem unfit_numeral {w t : List α} {c : Char} {letters : List Char} (hw : Numeral C w) (hc : Plain c)
    (hl : ∀ d ∈ letters, Plain d) (hnot : c ∉ letters) : Unfit C letters (w ++ of c :: t) := by
  refine ⟨fun d hd => ?_, fun w' u t' h hw' hu => ?_⟩
  · obtain ⟨a, w, rfl, ha⟩ := hw.ne_nil
    rw [show d = a by simpa using hd.symm]
    exact C.space_decimal a ha
  · obtain ⟨d, hd, rfl⟩ := List.mem_map.mp hu
    have hne : ∀ {c : Char}, Plain c → ¬ (C.isDecimal (of c) = true ∨ of c = of '.') := fun hc h =>
      h.elim (fun h => by rw [hc.isDecimal C] at h; cases h) (hc.ne_dot C)
    have he := split_unique hw.all hw'.all (hne hc) (hne (hl d hd)) h
    exact hnot (C.of_injective c d hc.2.1 (hl d hd).2.1 he ▸ hd)

/-- A field as it is written: its unit, and its amount when it is there. -/
structure Item (α : Type) where
  group : ℕ
  letters : List Char
  unit : Char
  amount : Option (List α)

def Item.text (of : Char → α) (i : Item α) : List α :=
  match i.amount with
  | none => []
  | some w => w ++ [of i.unit]

def texts (of : Char → α) (l : List (Item α)) : List α := (l.map (Item.text of)).flatten

theorem texts_cons_append (i : Item α) (l : List (Item α)) (t : List α) :
    texts of (i :: l) ++ t = i.text of ++ (texts of l ++ t) := by
  unfold texts
  rw [List.map_cons, List.flatten_cons, List.append_assoc]

def Item.capture (g : Groups α) (i : Item α) : Groups α :=
  match i.amount with
  | none => g
  | some w => Function.update g i.group (some w)

structure Item.Ok (C : Classes of) (i : Item α) : Prop where
  plain : ∀ c ∈ i.letters, Plain c
  unit : i.unit ∈ i.letters
  amount : ∀ w, i.amount = some w → Numeral C w

theorem Item.ok {n : ℕ} {letters : List Char} {unit : Char} {amount : Option (List α)}
    (hp : ∀ c ∈ letters, c ∈ unitLetters) (hu : unit ∈ letters) (ha : ∀ w, amount = some w → Numeral C w) :
    Item.Ok C ⟨n, letters, unit, amount⟩ :=
  ⟨fun c hc => plain_unitLetters c (hp c hc), hu, ha⟩

/-- The fields that follow are not in one of some units, if none of theirs is. -/
theorem unfit_texts {l : List (Item α)} (hok : ∀ i ∈ l, i.Ok C) {letters : List Char} (hl : ∀ d ∈ letters, Plain d)
    (hnot : ∀ i ∈ l, i.amount ≠ none → i.unit ∉ letters) {t : List α} (ht : Unfit C letters t) :
    Unfit C letters (texts of l ++ t) := by
  induction l with
  | nil => exact ht
  | cons i l ih =>
    rw [List.forall_mem_cons] at hok hnot
    rw [texts_cons_append]
    cases ha : i.amount with
    | none =>
      rw [show i.text of = [] by simp [Item.text, ha]]
      exact ih hok.2 hnot.2
    | some w =>
      rw [show i.text of = w ++ [of i.unit] by simp [Item.text, ha], List.append_assoc, List.singleton_append]
      exact unfit_numeral (hok.1.amount w ha) (hok.1.plain _ hok.1.unit) hl (hnot.1 (by simp [ha]))

/-! ## Matching -/

variable [DecidableEq α]

theorem matches_amount {w : List α} (h : (amount C).Matches w) : Numeral C w := by
  obtain ⟨_, _, ⟨_, ds, ⟨d, hd, rfl⟩, hds, rfl⟩, htail, rfl⟩ := h
  have hw : ∀ c ∈ [d] ++ ds, C.isDecimal c = true := List.forall_mem_cons.mpr ⟨hd, hds⟩
  rcases htail with rfl | ⟨_, f, ⟨p, hp, rfl⟩, hf, rfl⟩
  · rw [List.append_nil]
    exact .whole (List.cons_ne_nil d ds) hw
  · rw [show p = of '.' by simpa using hp]
    exact .point (List.cons_ne_nil d ds) hw hf

/-- An amount takes the whole numeral, when the rest matches after that. -/
theorem run_amount {β : Type*} {k : Next α β} {g : Groups α} {w t : List α} {u : α} {r : β} (hw : Numeral C w)
    (hu : C.isDecimal u = false) (hdot : u ≠ of '.') (hk : k g (u :: t) = some r) :
    (amount C).run k g (w ++ u :: t) = some r := by
  have hstop : ∀ {c : α} {t : List α}, C.isDecimal c = false → ∀ d ∈ (c :: t).head?, C.isDecimal d = false := by
    rintro c t hc d ⟨⟩
    exact hc
  cases hw with
  | @whole w hne hw =>
    obtain ⟨d, ds, rfl⟩ := List.exists_cons_of_ne_nil hne
    rw [List.forall_mem_cons] at hw
    rw [amount, run_seq, run_seq, List.cons_append, digit, run_one_cons hw.1]
    refine run_many_append hw.2 (hstop hu) ?_
    refine (run_opt_none fun v t' hs hv => ?_).trans hk
    obtain ⟨_, f, ⟨p, hp, rfl⟩, hf, rfl⟩ := hv
    rw [List.singleton_append, List.cons_append, List.cons.injEq] at hs
    exact hdot (hs.1.trans (by simpa using hp))
  | @point w f hne hw hf =>
    obtain ⟨d, ds, rfl⟩ := List.exists_cons_of_ne_nil hne
    rw [List.forall_mem_cons] at hw
    rw [List.append_assoc, List.cons_append, List.cons_append]
    rw [amount, run_seq, run_seq, digit, run_one_cons hw.1]
    refine run_many_append hw.2 (hstop C.isDecimal_dot) (run_opt_some ?_)
    rw [run_seq, letter, run_one_cons (by simp)]
    exact run_many_append hf (hstop hu) hk

section
variable {β : Type*} {k : Next α β} {g : Groups α} {t : List α} {r : β} {n : ℕ} {letters : List Char}

theorem run_field_none (h : Unfit C letters t) : (field C n (letter of letters)).run k g t = k g t := by
  rw [field, run_seq, run_many_none h.1]
  refine run_opt_none fun v t' hs hv => ?_
  obtain ⟨w, _, hw, ⟨u, hu, rfl⟩, rfl⟩ := hv
  refine h.2 w u t' (by simpa using hs) (matches_amount hw) (by simpa using hu)

theorem run_field_some {w : List α} {c : Char} (hw : Numeral C w) (hc : Plain c) (hmem : c ∈ letters)
    (hk : k (Function.update g n (some w)) t = some r) :
    (field C n (letter of letters)).run k g (w ++ of c :: t) = some r := by
  have hspace : ∀ d ∈ (w ++ of c :: t).head?, C.space d = false := by
    obtain ⟨a, w, rfl, ha⟩ := hw.ne_nil
    rintro d hd
    rw [show d = a by simpa using hd.symm]
    exact C.space_decimal a ha
  rw [field, run_seq, run_many_none hspace]
  refine run_opt_some ?_
  rw [run_seq, run_group]
  refine run_amount hw (hc.isDecimal C) (hc.ne_dot C) ?_
  rw [captured_append, letter, run_one_cons (by simpa using ⟨c, hmem, rfl⟩)]
  exact hk

end

theorem run_fields {β : Type*} {k : Next α β} {g : Groups α} {t : List α} {r : β} {l : List (Item α)}
    (hok : ∀ i ∈ l, i.Ok C) (hl : l.Pairwise fun i j => j.unit ∉ i.letters) (ht : ∀ i ∈ l, Unfit C i.letters t)
    (hk : k (l.foldl Item.capture g) t = some r) :
    (fields C (l.map fun i => (i.group, i.letters))).run k g (texts of l ++ t) = some r := by
  induction l generalizing g with
  | nil => exact hk
  | cons i l ih =>
    rw [List.forall_mem_cons] at hok ht
    rw [List.pairwise_cons] at hl
    have hrest := fun g hk => ih (g := g) hok.2 hl.2 ht.2 hk
    rw [texts_cons_append, List.map_cons]
    show (field C i.group (letter of i.letters)).run _ g _ = some r
    cases ha : i.amount with
    | none =>
      rw [show i.text of = [] by simp [Item.text, ha], List.nil_append]
      rw [run_field_none (unfit_texts hok.2 hok.1.plain (fun j hj _ => hl.1 j hj) ht.1)]
      exact hrest g (by simpa [Item.capture, ha] using hk)
    | some w =>
      rw [show i.text of = w ++ [of i.unit] by simp [Item.text, ha], List.append_assoc, List.singleton_append]
      refine run_field_some (hok.1.amount w ha) (hok.1.plain _ hok.1.unit) hok.1.unit ?_
      exact hrest _ (by simpa [Item.capture, ha] using hk)

end

/-! ## Written durations -/

/-- The parts of a duration that are written. Minutes follow a `T`, for months
have the same unit. -/
structure Written {α : Type} {of : Char → α} (C : Classes of) where
  negative : Bool
  years : Option (List α)
  days : Option (List α)
  timed : Bool
  hours : Option (List α)
  minutes : Option (List α)
  seconds : Option (List α)
  numerals : ∀ w, some w ∈ [years, days, hours, minutes, seconds] → Numeral C w
  minutes_timed : timed = false → minutes = none

section
variable {α : Type} {of : Char → α} {C : Classes of}

def Written.date (w : Written C) : List (Item α) :=
  [⟨2, ['y', 'Y'], 'Y', w.years⟩, ⟨3, ['m', 'M'], 'M', none⟩, ⟨4, ['w', 'W'], 'W', none⟩, ⟨5, ['d', 'D'], 'D', w.days⟩]

def Written.time (w : Written C) : List (Item α) :=
  [⟨6, ['h', 'H'], 'H', w.hours⟩, ⟨7, ['m', 'M'], 'M', w.minutes⟩, ⟨8, ['s', 'S'], 'S', w.seconds⟩]

def Written.text (w : Written C) : List α :=
  (if w.negative then [of '-'] else []) ++
    of 'P' :: (texts of w.date ++ ((if w.timed then [of 'T'] else []) ++ (texts of w.time ++ [])))

/-- What is captured of it. -/
def Written.groups (w : Written C) : Groups α
  | 1 => if w.negative then some [of '-'] else none
  | 2 => w.years
  | 5 => w.days
  | 6 => w.hours
  | 7 => w.minutes
  | 8 => w.seconds
  | _ => none

theorem Item.capture_apply (g : Groups α) (i : Item α) (n : ℕ) :
    i.capture g n = if n = i.group then i.amount.or (g n) else g n := by
  unfold Item.capture
  cases i.amount with
  | none => simp
  | some w => simp [Function.update_apply]

theorem Written.date_ok (w : Written C) : ∀ i ∈ w.date, i.Ok C := by
  intro i hi
  simp only [Written.date, List.mem_cons, List.not_mem_nil, or_false] at hi
  rcases hi with rfl | rfl | rfl | rfl <;> exact Item.ok (by simp [unitLetters]) (by simp) fun v hv => w.numerals v (by simp_all)

theorem Written.time_ok (w : Written C) : ∀ i ∈ w.time, i.Ok C := by
  intro i hi
  simp only [Written.time, List.mem_cons, List.not_mem_nil, or_false] at hi
  rcases hi with rfl | rfl | rfl <;> exact Item.ok (by simp [unitLetters]) (by simp) fun v hv => w.numerals v (by simp_all)

/-- The first character of some fields is a digit. -/
theorem head_texts {l : List (Item α)} (hok : ∀ i ∈ l, i.Ok C) : ∀ c ∈ (texts of l ++ []).head?, C.isDecimal c = true := by
  induction l with
  | nil => exact nofun
  | cons i l ih =>
    rw [List.forall_mem_cons] at hok
    rw [texts_cons_append]
    cases ha : i.amount with
    | none =>
      rw [show i.text of = [] by simp [Item.text, ha]]
      exact ih hok.2
    | some w =>
      obtain ⟨d, w, rfl, hd⟩ := (hok.1.amount w ha).ne_nil
      intro c hc
      rw [show c = d by simpa [Item.text, ha] using hc.symm]
      exact hd

/-- The time is in no unit of a date. -/
theorem Written.unfit_time (w : Written C) : ∀ i ∈ w.date,
    Unfit C i.letters ((if w.timed then [of 'T'] else []) ++ (texts of w.time ++ [])) := by
  intro i hi
  cases ht : w.timed with
  | true => exact unfit_cons (by decide) _ _
  | false =>
    refine unfit_texts w.time_ok (w.date_ok i hi).plain (fun j hj hne => ?_) (unfit_nil _)
    have hmin := w.minutes_timed ht
    simp only [Written.date, Written.time, List.mem_cons, List.not_mem_nil, or_false] at hi hj
    rcases hj with rfl | rfl | rfl
    · rcases hi with rfl | rfl | rfl | rfl <;> simp
    · exact absurd hmin hne
    · rcases hi with rfl | rfl | rfl | rfl <;> simp

variable [DecidableEq α]

theorem run_subseconds_nil {β : Type*} {k : Next α β} {g : Groups α} : (subseconds C).run k g [] = k g [] := by
  have none_field : ∀ (n : ℕ) (unit : Pattern α) (k : Next α β), (field C n unit).run k g [] = k g [] := by
    intro n unit k
    rw [field, run_seq, run_many_none nofun]
    refine run_opt_none fun v t hs hv => ?_
    obtain ⟨w, u, hw, -, rfl⟩ := hv
    obtain ⟨c, w, rfl, -⟩ := (matches_amount hw).ne_nil
    simp at hs
  exact (none_field 9 _ _).trans ((none_field 10 _ _).trans (none_field 11 _ _))

/-- What is written is captured as it was written. -/
theorem Written.whole_text (w : Written C) {stop : List α → Bool} (hstop : stop [] = true) :
    (rxDuration C).whole stop w.text = some w.groups := by
  have hgroups : ∀ g : Groups α, g = (if w.negative then Function.update (fun _ => none : Groups α) 1 (some [of '-']) else fun _ => none) →
      w.time.foldl Item.capture (w.date.foldl Item.capture g) = w.groups := by
    rintro g rfl
    funext n
    simp only [Written.date, Written.time, List.foldl_cons, List.foldl_nil, Item.capture_apply]
    cases hneg : w.negative <;> rcases n with _ | _ | _ | _ | _ | _ | _ | _ | _ | n <;>
      simp [Written.groups, hneg]
  have htime : ∀ g, (Pattern.many C.space).run ((Pattern.opt (letter of ['T'])).run ((fields C timeUnits).run
      ((subseconds C).run fun g t => if stop t then some g else none))) g
        ((if w.timed then [of 'T'] else []) ++ (texts of w.time ++ [])) = some (w.time.foldl Item.capture g) := by
    intro g
    have hhead := head_texts w.time_ok
    have hend : (fields C timeUnits).run ((subseconds C).run fun g t => if stop t then some g else none) g
        (texts of w.time ++ []) = some (w.time.foldl Item.capture g) := by
      refine run_fields w.time_ok (by simp [Written.time]) (fun i _ => unfit_nil _) ?_
      rw [run_subseconds_nil, if_pos hstop]
    cases w.timed with
    | true =>
      rw [if_pos rfl, List.singleton_append, run_many_none fun c hc => ?_]
      · refine run_opt_some ?_
        rw [letter, run_one_cons (by simp)]
        exact hend
      · rw [show c = of 'T' by simpa using hc.symm]
        exact C.space_of 'T' (by decide) (by decide)
    | false =>
      rw [if_neg Bool.false_ne_true, List.nil_append, run_many_none fun c hc => C.space_decimal c (hhead c hc)]
      refine (run_opt_none fun v t hs hv => ?_).trans hend
      obtain ⟨c, hc, rfl⟩ := hv
      rw [hs] at hhead
      have hT := hhead c rfl
      rw [show c = of 'T' by simpa using hc, C.isDecimal_of (by decide)] at hT
      cases hT
  have hdate : ∀ g, (Pattern.opt (.seq (letter of ['P']) (fields C dateUnits))).run ((Pattern.many C.space).run
      ((Pattern.opt (letter of ['T'])).run ((fields C timeUnits).run
        ((subseconds C).run fun g t => if stop t then some g else none)))) g
        (of 'P' :: (texts of w.date ++ ((if w.timed then [of 'T'] else []) ++ (texts of w.time ++ [])))) =
      some (w.time.foldl Item.capture (w.date.foldl Item.capture g)) := by
    intro g
    refine run_opt_some ?_
    rw [run_seq, letter, run_one_cons (by simp)]
    exact run_fields w.date_ok (by simp [Written.date]) w.unfit_time (htime _)
  unfold Pattern.whole Written.text
  cases hneg : w.negative with
  | true =>
    rw [if_pos rfl, List.singleton_append]
    refine run_opt_some ?_
    rw [run_group, letter, run_one_cons (by simp), List.length_cons, Nat.add_sub_cancel_left, ← hgroups _ rfl, hneg]
    exact hdate _
  | false =>
    rw [if_neg Bool.false_ne_true, List.nil_append]
    refine (run_opt_none fun v t hs hv => ?_).trans ?_
    · obtain ⟨c, hc, rfl⟩ := hv
      rw [decide_eq_true_eq, List.map_cons, List.map_singleton, List.mem_pair, ← (List.cons.inj hs).1] at hc
      rcases hc with hc | hc
      · exact absurd (C.of_injective 'P' '+' (by decide) (by decide) hc) (by decide)
      · exact absurd (C.of_injective 'P' '-' (by decide) (by decide) hc) (by decide)
    · rw [← hgroups _ rfl, hneg]
      exact hdate _

end

/-! ## Units -/

def minute : ℕ := 60
def hour : ℕ := 60 * minute
def day : ℕ := 24 * hour
def week : ℕ := 7 * day
def month : ℕ := 30 * day
def year : ℕ := 365 * day
def leap : ℕ := 4 * year

/-- The groups with amounts, and how many seconds their units are. -/
def unitMap : List (ℕ × ℚ) :=
  [(2, year), (3, month), (4, week), (5, day), (6, hour), (7, minute), (8, 1), (9, 1 / 10 ^ 3), (10, 1 / 10 ^ 6),
    (11, 1 / 10 ^ 9)]

section
variable {α : Type} {of : Char → α} (C : Classes of)

def scaled (g : Groups α) : ℚ :=
  unitMap.foldl (fun sum e => if (str g e.1).isEmpty then sum else sum + e.2 * valueOf C (str g e.1)) 0

def hit (g : Groups α) : Bool := unitMap.any fun e => !(str g e.1).isEmpty

theorem valueOf_nil : valueOf C [] = 0 := by
  simp [valueOf, ofDigits]

variable {C}

/-- The value of an amount that may be missing. -/
def valueOr (C : Classes of) (w : Option (List α)) : ℚ := valueOf C (w.getD [])

theorem scaled_groups (w : Written C) : scaled C w.groups =
    year * valueOr C w.years + day * valueOr C w.days + hour * valueOr C w.hours + minute * valueOr C w.minutes +
      valueOr C w.seconds := by
  have hsum : ∀ (sum unit : ℚ) (v : List α),
      (if v.isEmpty then sum else sum + unit * valueOf C v) = sum + unit * valueOf C v := by
    intro sum unit v
    cases v with
    | nil => simp [valueOf_nil]
    | cons c v => rfl
  unfold scaled
  simp only [hsum]
  simp [unitMap, str, Written.groups, valueOr, valueOf_nil]

theorem hit_groups (w : Written C) :
    hit w.groups = true ↔ [w.years, w.days, w.hours, w.minutes, w.seconds].any Option.isSome = true := by
  have hne : ∀ v ∈ [w.years, w.days, w.hours, w.minutes, w.seconds], (!(v.getD []).isEmpty) = v.isSome := by
    intro v hv
    cases v with
    | none => rfl
    | some v =>
      obtain ⟨c, v, rfl, -⟩ := (w.numerals v (by simpa using hv)).ne_nil
      rfl
  simp only [List.mem_cons, List.not_mem_nil, or_false, forall_eq_or_imp, forall_eq] at hne
  obtain ⟨h2, h5, h6, h7, h8⟩ := hne
  simp [hit, unitMap, str, Written.groups, h2, h5, h6, h7, h8]

end

end CommonCore.Durations
