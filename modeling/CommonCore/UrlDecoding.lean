import CommonCore.Escapes
import CommonCore.FromChars
import CommonCore.VariantProto

/-!
# Percent escapes

`url_decoded` keeps the part of an escape that it has read so far. Where the
escape ends early, that part is put out, but not the character that ended it;
where the text ends early, nothing is.
-/

namespace CommonCore

def percent : UInt8 := 0x25

/-- `std::isxdigit`. -/
def isXDigit (c : UInt8) : Bool := charDigit c < 16

namespace UrlDecoding

/-- One character: the escape read so far, and what is put out. -/
def step (escape : Bytes) (c : UInt8) : Bytes × Bytes :=
  if escape = [] then
    if c ≠ percent then ([], [c]) else ([c], [])
  else if isXDigit c then
    let escape := escape ++ [c]
    if escape.length = 3 then ([], [UInt8.ofNat (stoul 16 escape.tail)]) else (escape, [])
  else ([], escape)

def run (escape : Bytes) : Bytes → Bytes
  | [] => []
  | c :: s => (step escape c).2 ++ run (step escape c).1 s

end UrlDecoding

/-- `str::url_decoded`. -/
def urlDecoded (encodedUrl : Bytes) : Bytes := UrlDecoding.run [] encodedUrl

/-! ## What a percent escape stands for -/

/-- The byte that two hexadecimal digits denote. -/
def hexByte (a b : UInt8) : UInt8 := UInt8.ofNat (16 * charDigit a + charDigit b)

/-- The text with the byte for each `%` and two digits, and all else as it is. -/
def replaced : Bytes → Bytes
  | c :: a :: b :: s =>
    if c = percent ∧ isXDigit a ∧ isXDigit b then hexByte a b :: replaced s else c :: replaced (a :: b :: s)
  | s => s

/-- After every `%` there are two digits. -/
def Complete : Bytes → Prop
  | c :: a :: b :: s => if c = percent then isXDigit a ∧ isXDigit b ∧ Complete s else Complete (a :: b :: s)
  | s => percent ∉ s

/-- A text of bytes, each as it is, but for `%`, or by two digits. -/
inductive Encodes : Bytes → Bytes → Prop
  | nil : Encodes [] []
  | plain {c b e} : c ≠ percent → Encodes b e → Encodes (c :: b) (c :: e)
  | escape {x y b e} : isXDigit x → isXDigit y → Encodes b e → Encodes (hexByte x y :: b) (percent :: x :: y :: e)

/-! ## The characters after a `%` -/

section
variable {a b c : UInt8} (s : Bytes)

@[simp]
theorem isXDigit_percent : isXDigit percent = false := by decide

@[simp]
theorem urlDecoded_nil : urlDecoded [] = [] := rfl

theorem urlDecoded_plain (h : c ≠ percent) : urlDecoded (c :: s) = c :: urlDecoded s := by
  simp [urlDecoded, UrlDecoding.run, UrlDecoding.step, h]

/-- A `%` at the end is lost with the digit after it. -/
theorem urlDecoded_percent_digit (ha : isXDigit a) : urlDecoded [percent, a] = [] := by
  simp [urlDecoded, UrlDecoding.run, UrlDecoding.step, ha]

/-- What follows a `%` and is no digit is lost. -/
theorem urlDecoded_percent_other (ha : ¬ isXDigit a) : urlDecoded (percent :: a :: s) = percent :: urlDecoded s := by
  simp [urlDecoded, UrlDecoding.run, UrlDecoding.step, ha]

/-- What follows a `%` with one digit and is no digit is lost. -/
theorem urlDecoded_digit_other (ha : isXDigit a) (hb : ¬ isXDigit b) :
    urlDecoded (percent :: a :: b :: s) = percent :: a :: urlDecoded s := by
  simp [urlDecoded, UrlDecoding.run, UrlDecoding.step, ha, hb]

theorem urlDecoded_escape (ha : isXDigit a) (hb : isXDigit b) :
    urlDecoded (percent :: a :: b :: s) = hexByte a b :: urlDecoded s := by
  have hvalue := stoul_pair (of_decide_eq_true ha) (of_decide_eq_true hb)
  simp [urlDecoded, UrlDecoding.run, UrlDecoding.step, ha, hb, hvalue, hexByte]

theorem replaced_plain (h : c ≠ percent) : replaced (c :: s) = c :: replaced s := by
  rcases s with - | ⟨a, - | ⟨b, s⟩⟩
  · rfl
  · rfl
  · simp [replaced, h]

theorem replaced_percent_other (ha : ¬ isXDigit a) : replaced (percent :: a :: s) = percent :: replaced (a :: s) := by
  cases s with
  | nil => rfl
  | cons b s => simp [replaced, ha]

theorem replaced_digit_other (ha : isXDigit a) (hb : ¬ isXDigit b) :
    replaced (percent :: a :: b :: s) = percent :: a :: replaced (b :: s) := by
  have hap : a ≠ percent := by
    rintro rfl
    simp at ha
  simp [replaced, hb, replaced_plain (b :: s) hap]

theorem replaced_escape (ha : isXDigit a) (hb : isXDigit b) :
    replaced (percent :: a :: b :: s) = hexByte a b :: replaced s := by
  simp [replaced, ha, hb]

theorem complete_plain (h : c ≠ percent) : Complete (c :: s) ↔ Complete s := by
  rcases s with - | ⟨a, - | ⟨b, s⟩⟩
  · simp [Complete, Ne.symm h]
  · simp [Complete, Ne.symm h]
  · simp [Complete, h]

theorem complete_escape (ha : isXDigit a) (hb : isXDigit b) : Complete (percent :: a :: b :: s) ↔ Complete s := by
  simp [Complete, ha, hb]

end

/-! ## No text makes up for what is lost -/

/-- Digits count against a text and all else for it. After a loss the code may
copy two digits that belong to an escape, and the byte that they denote is worth
more than they are. -/
def weight (s : Bytes) : ℤ := (s.map fun c => if isXDigit c then -1 else 3).sum

@[simp]
theorem weight_nil : weight [] = 0 := rfl

theorem weight_cons (c : UInt8) (s : Bytes) : weight (c :: s) = (if isXDigit c then -1 else 3) + weight s := by
  simp [weight]

theorem weight_percent (s : Bytes) : weight (percent :: s) = 3 + weight s := by
  simp [weight_cons]

theorem weight_digit {c : UInt8} (hc : isXDigit c) (s : Bytes) : weight (c :: s) = weight s - 1 := by
  simp [weight_cons, hc]
  omega

theorem weight_other {c : UInt8} (hc : ¬ isXDigit c) (s : Bytes) : weight (c :: s) = weight s + 3 := by
  simp [weight_cons, hc]
  omega

theorem weight_cons_ge (c : UInt8) (s : Bytes) : weight s - 1 ≤ weight (c :: s) := by
  rw [weight_cons]
  split_ifs <;> omega

/-- The character that ends an escape early is worth something. -/
theorem weight_replaced_lt {c : UInt8} (hc : ¬ isXDigit c) (s : Bytes) :
    weight (replaced s) < weight (replaced (c :: s)) := by
  by_cases hp : c = percent
  · subst hp
    rcases s with - | ⟨a, s⟩
    · simp [replaced, weight]
    by_cases ha : isXDigit a
    · rcases s with - | ⟨b, s⟩
      · simp [replaced, weight, ha]
      have hap : a ≠ percent := by
        rintro rfl
        simp at ha
      by_cases hb : isXDigit b
      · have hbp : b ≠ percent := by
          rintro rfl
          simp at hb
        rw [replaced_escape s ha hb, replaced_plain _ hap, replaced_plain _ hbp, weight_digit ha, weight_digit hb]
        have := weight_cons_ge (hexByte a b) (replaced s)
        omega
      · rw [replaced_digit_other s ha hb, replaced_plain _ hap, weight_percent]
        omega
    · rw [replaced_percent_other s ha, weight_percent]
      omega
  · rw [replaced_plain s hp, weight_other hc]
    omega

theorem complete_or_weight_lt (s : Bytes) : Complete s ∧ urlDecoded s = replaced s ∨
    weight (urlDecoded s) < weight (replaced s) := by
  induction hn : s.length using Nat.strong_induction_on generalizing s with
  | _ n ih =>
    have hle : ∀ t : Bytes, t.length < n → weight (urlDecoded t) ≤ weight (replaced t) := by
      intro t ht
      rcases ih _ ht t rfl with h | h
      · exact le_of_eq (congrArg weight h.2)
      · exact le_of_lt h
    subst hn
    rcases s with - | ⟨c, s⟩
    · exact .inl ⟨by simp [Complete], rfl⟩
    by_cases hc : c = percent
    · subst hc
      rcases s with - | ⟨a, s⟩
      · exact .inr (by decide)
      by_cases ha : isXDigit a
      · rcases s with - | ⟨b, s⟩
        · right
          simp [urlDecoded_percent_digit ha, replaced, weight, ha]
        by_cases hb : isXDigit b
        · rw [urlDecoded_escape s ha hb, replaced_escape s ha hb, complete_escape s ha hb]
          rcases ih s.length (by simp only [List.length_cons]; omega) s rfl with ⟨hs, heq⟩ | hlt
          · exact .inl ⟨hs, by rw [heq]⟩
          · right
            simpa [weight_cons] using hlt
        · right
          rw [urlDecoded_digit_other s ha hb, replaced_digit_other s ha hb, weight_percent, weight_percent,
            weight_digit ha, weight_digit ha]
          have := hle s (by simp only [List.length_cons]; omega)
          have := weight_replaced_lt hb s
          omega
      · right
        rw [urlDecoded_percent_other s ha, replaced_percent_other s ha, weight_percent, weight_percent]
        have := hle s (by simp)
        have := weight_replaced_lt ha s
        omega
    · rw [urlDecoded_plain s hc, replaced_plain s hc, complete_plain s hc]
      rcases ih s.length (by simp) s rfl with ⟨hs, heq⟩ | hlt
      · exact .inl ⟨hs, by rw [heq]⟩
      · right
        simpa [weight_cons] using hlt

/-! ## Reading back -/

/-- The text of bytes where only those that may stay are as they are. -/
def percentEncoded (stays : UInt8 → Bool) : Bytes → Bytes
  | [] => []
  | c :: s =>
    if stays c then c :: percentEncoded stays s
    else percent :: hexDigits.getD (c >>> 4).toNat 0 :: hexDigits.getD (c &&& 0xf).toNat 0 :: percentEncoded stays s

theorem isXDigit_hexDigits : ∀ n < 16, isXDigit (hexDigits.getD n 0) = true ∧ charDigit (hexDigits.getD n 0) = n := by
  decide

theorem hexByte_hexDigits (c : UInt8) :
    hexByte (hexDigits.getD (c >>> 4).toNat 0) (hexDigits.getD (c &&& 0xf).toNat 0) = c := by
  have hvalue : ∀ n : Fin 256, hexByte (hexDigits.getD ((UInt8.ofNat n) >>> 4).toNat 0)
      (hexDigits.getD ((UInt8.ofNat n) &&& 0xf).toNat 0) = UInt8.ofNat n := by
    decide +kernel
  simpa using hvalue ⟨c.toNat, c.toNat_lt⟩

/-- Every text of bytes that leaves no `%` as it is, is one. -/
theorem encodes_percentEncoded {stays : UInt8 → Bool} (hstays : stays percent = false) (b : Bytes) :
    Encodes b (percentEncoded stays b) := by
  induction b with
  | nil => exact .nil
  | cons c b ih =>
    by_cases hc : stays c
    · have hne : c ≠ percent := by
        rintro rfl
        simp [hstays] at hc
      simpa [percentEncoded, hc] using Encodes.plain hne ih
    · have hhigh : (c >>> 4).toNat < 16 := by
        have := c.toNat_lt
        simp [Nat.shiftRight_eq_div_pow]
        omega
      have hlow : (c &&& 0xf).toNat < 16 := by
        simpa using Nat.and_lt_two_pow c.toNat (n := 4) (y := 15) (by omega)
      have h := Encodes.escape (isXDigit_hexDigits _ hhigh).1 (isXDigit_hexDigits _ hlow).1 ih
      rw [hexByte_hexDigits] at h
      simpa [percentEncoded, hc] using h

theorem Encodes.decoded {b e : Bytes} (h : Encodes b e) : urlDecoded e = b := by
  induction h with
  | nil => rfl
  | plain hc _ ih => rw [urlDecoded_plain _ hc, ih]
  | escape hx hy _ ih => rw [urlDecoded_escape _ hx hy, ih]

theorem Complete.decoded {s : Bytes} (h : Complete s) : urlDecoded s = replaced s := by
  induction hn : s.length using Nat.strong_induction_on generalizing s with
  | _ n ih =>
    subst hn
    rcases s with - | ⟨c, s⟩
    · rfl
    by_cases hc : c = percent
    · subst hc
      rcases s with - | ⟨a, - | ⟨b, s⟩⟩
      · simp [Complete] at h
      · simp [Complete] at h
      · obtain ⟨ha, hb, hs⟩ : isXDigit a ∧ isXDigit b ∧ Complete s := by simpa [Complete] using h
        rw [urlDecoded_escape s ha hb, replaced_escape s ha hb, ih s.length (by simp only [List.length_cons]; omega) hs rfl]
    · rw [urlDecoded_plain s hc, replaced_plain s hc, ih s.length (by simp) ((complete_plain s hc).1 h) rfl]

/-- Texts without a broken escape are read as they should be, and no others are. -/
theorem urlDecoded_eq_iff (s : Bytes) : (urlDecoded s = replaced s ↔ Complete s) ∧
    ∀ b, Encodes b s → urlDecoded s = b := by
  refine ⟨⟨fun h => ?_, Complete.decoded⟩, fun b => Encodes.decoded⟩
  rcases complete_or_weight_lt s with hs | hlt
  · exact hs.1
  · rw [h] at hlt
    exact absurd hlt (lt_irrefl _)

/-- The blank after a lone `%` is lost. -/
theorem lone_percent_loses : ¬ ∀ s, urlDecoded s = replaced s := by
  intro h
  have := h (ascii "100% sure")
  revert this
  decide

theorem urlDecoded_eq_at : urlDecoded (ascii "a%20b") = replaced (ascii "a%20b") ∧
    urlDecoded (ascii "%20") = ascii " " :=
  ⟨(urlDecoded_eq_iff (ascii "a%20b")).1.2 (by simp [ascii, Complete]; decide),
    (urlDecoded_eq_iff _).2 _ (.escape (x := 0x32) (y := 0x30) (by decide) (by decide) .nil)⟩

example : urlDecoded (ascii "a%20b%2") = ascii "a b" := by decide

end CommonCore
