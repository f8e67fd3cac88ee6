import CommonCore.Patterns
import CommonCore.Escapes
import CommonCore.Base64

/-!
# Values as literals

`Value::to_literal_stream` writes a value as text, and `from_literal` tries one
interpretation of a text after another.
-/

namespace CommonCore

open RegularExpression Patterns

/-- What is computed in floating point or asked of the time zone database. -/
structure Numerics where
  nearest : Bytes → Option Double
  complexOf : Bytes → Option (Double × Double)
  secondsOf : Double → Int
  unitsOf : Bytes → Int
  dateOf : Bytes → Int
  epochOf : Double → Int
  realText : Double → Bytes
  complexText : Double → Double → Bytes
  timepointText : Int → Bytes
  durationText : Int → Bytes

/-! ## Writing -/

section
variable (N : Numerics)

mutual
/-- `to_literal_stream`. -/
def Value.toLiteral : Value → Bytes
  | .none => ascii "null"
  | .bool b => if b then ascii "true" else ascii "false"
  | .char c => [c]
  | .uint n => decimal n.toNat
  | .sint n => decimalInt n.toInt
  | .real r => N.realText r
  | .complex re im => N.complexText re im
  | .string s => strToLiteral s
  | .bytevector b => ascii "\"%" ++ ByteVector.toBase64 b ++ ascii "%\""
  | .timepoint t => quoted (N.timepointText t)
  | .duration d => quoted (N.durationText d)
  | .valuelist l => ascii "[" ++ List.intercalate (ascii ", ") (literalList l) ++ ascii "]"
  | .tvlist l => ascii "[" ++ List.intercalate (ascii ", ") (literalTagged l) ++ ascii "]"
  | .kvmap m => openBrace :: List.intercalate (ascii ", ") (literalKeyed m) ++ [closeBrace]
termination_by structural v => v
def literalList : List Value → List Bytes
  | [] => []
  | v :: l => v.toLiteral :: literalList l
termination_by structural l => l
def literalTag : Option Bytes × Value → Bytes
  | (none, v) => v.toLiteral
  | (some tag, v) => tag ++ ascii "=" ++ v.toLiteral
termination_by structural p => p
def literalTagged : List (Option Bytes × Value) → List Bytes
  | [] => []
  | p :: l => literalTag p :: literalTagged l
termination_by structural l => l
def literalKey : Bytes × Value → Bytes
  | (key, v) => key ++ ascii ": " ++ v.toLiteral
termination_by structural p => p
def literalKeyed : List (Bytes × Value) → List Bytes
  | [] => []
  | p :: m => literalKey p :: literalKeyed m
termination_by structural m => m
end

end

/-! ## Patterns -/

namespace Literal

def allBytes : Bytes := (List.range 256).map UInt8.ofNat

def digit : RegularExpression UInt8 := oneOf (allBytes.filter isDigit)

def space : RegularExpression UInt8 := oneOf (allBytes.filter isSpace)

/-- `.`: anything but the end of a line. -/
def anyByte : RegularExpression UInt8 := oneOf (allBytes.filter fun b => b ≠ 0x0a ∧ b ≠ 0x0d)

/-- A character that stands for itself. -/
def only (c : Char) : RegularExpression UInt8 := char (UInt8.ofNat c.toNat)

/-- `(\d+(?:\.\d*)?)` -/
def amount : RegularExpression UInt8 := some1 digit * opt (only '.' * digit.star)

/-- `\s*(?:…unit)?` -/
def amountOf (unit : RegularExpression UInt8) : RegularExpression UInt8 := space.star * opt (amount * unit)

def rxDuration : RegularExpression UInt8 :=
  opt (oneOf [plus, minus]) *
    opt (only 'P' * amountOf (oneOf (ascii "yY")) * amountOf (oneOf (ascii "mM")) * amountOf (oneOf (ascii "wW")) *
      amountOf (oneOf (ascii "dD"))) *
    (space.star * opt (only 'T') * amountOf (oneOf (ascii "hH")) * amountOf (oneOf (ascii "mM")) *
      amountOf (oneOf (ascii "sS")) * amountOf (word (ascii "ms")) * amountOf (word (ascii "us")) *
      amountOf (word (ascii "ns")))

def rxTimepoint : RegularExpression UInt8 :=
  digit * digit ^ 3 * only '-' * digit ^ 2 * only '-' * digit ^ 2 * anyByte * digit ^ 2 * only ':' * digit ^ 2 *
    only ':' * digit ^ 2 * opt (only '.' * some1 digit) * opt (only 'Z')

def rxNull : RegularExpression UInt8 := opt (word (ascii "null") + word (ascii "NULL") + word (ascii "None"))

/-- What a back reference repeats is one of `openings`. -/
def enclosed (openings : List Bytes) (P : RegularExpression UInt8) : RegularExpression UInt8 :=
  (openings.map fun q => word q * P * word q).sum

def base64Letter : RegularExpression UInt8 := oneOf (allBytes.filter isAlnum ++ ascii "+/")

def rxBytevector : RegularExpression UInt8 :=
  enclosed [[], [apostrophe], [quote]]
    (only '%' * some1 base64Letter * (opt (only '=') * opt (only '=')) * opt (only '%'))

def rxLiteralString : RegularExpression UInt8 :=
  enclosed [[apostrophe], [quote]]
    (char backslash * anyByte + oneOf (allBytes.filter fun b => b ≠ backslash ∧ b ≠ 0x0a ∧ b ≠ 0x0d)).star

end Literal

open Literal

/-! ## Reading -/

/-- How `from_literal` fails: it throws, or reads an empty `optional`. -/
inductive LiteralFault
  | invalidArgument (what : Bytes)
  | emptyOptional

/-- `operator>>` for complex numbers, up to the end of the text: a number, or
one or two of them in parentheses. -/
def convertToComplex (N : Numerics) (s : Bytes) : Option (Double × Double) :=
  match (s.dropWhile isSpace).head? with
  | none => none
  | some b => if isDigit b ∨ b ∈ ascii "+-.(" then N.complexOf s else none

/-- `dt::try_to_duration`. Every digit of a text that matches is in some amount. -/
def tryToDuration (N : Numerics) (input : Bytes) : Option Int :=
  if rxDuration.rmatch input then
    if input.any isDigit then some (N.unitsOf input) else none
  else (convertToReal N.nearest input).map N.secondsOf

def epochNanosLowerLimit : ℕ := 31536000000000000

def scaleToNanos (scalar : ℕ) : ℕ :=
  if 0 < scalar ∧ scalar < epochNanosLowerLimit then scaleToNanos (scalar * 1000) else scalar
termination_by epochNanosLowerLimit - scalar

/-- `dt::try_to_timepoint`. -/
def tryToTimepoint (N : Numerics) (input : Bytes) : Option Int :=
  if rxTimepoint.rmatch input then some (N.dateOf input)
  else
    match convertToUint input with
    | some scalar => some (scaleToNanos scalar.toNat)
    | none => (convertToReal N.nearest input).map N.epochOf

/-- `from_base64` of what `unquoted` leaves, but for its first character. -/
def bytesFromLiteral (literal : Bytes) : Except LiteralFault Value :=
  match unquoted literal with
  | none => .error .emptyOptional
  | some s =>
    match ByteVector.fromBase64 s.tail with
    | .ok b => .ok (.bytevector b)
    | .error what => .error (.invalidArgument what)

def fromLiteral (N : Numerics) (literal : Bytes) : Except LiteralFault Value :=
  if literal = [] then .ok .none
  else if let some n := convertToUint literal then .ok (.uint n)
  else if let some n := convertToSint literal then .ok (.sint n)
  else if let some r := convertToReal N.nearest literal then .ok (.real r)
  else if let some b := convertToBool N.nearest literal then .ok (.bool b)
  else if let some (re, im) := convertToComplex N literal then .ok (.complex re im)
  else if let some d := tryToDuration N literal then .ok (.duration d)
  else if let some t := tryToTimepoint N literal then .ok (.timepoint t)
  else if rxNull.rmatch literal then .ok .none
  else if rxBytevector.rmatch literal then bytesFromLiteral literal
  else if rxLiteralString.rmatch literal then
    match unquoted literal with
    | none => .error .emptyOptional
    | some s => .ok (.string s)
  else .ok (.string literal)

/-! ## Texts that are no number -/

/-- No interpretation before the null takes the text. -/
structure Unconverted (N : Numerics) (s : Bytes) : Prop where
  uint : convertToUint s = none
  sint : convertToSint s = none
  real : convertToReal N.nearest s = none
  bool : convertToBool N.nearest s = none
  complex : convertToComplex N s = none
  duration : rxDuration.rmatch s = false
  timepoint : rxTimepoint.rmatch s = false

variable {N : Numerics}

theorem Unconverted.fromLiteral {s : Bytes} (h : Unconverted N s) (hs : s ≠ []) :
    fromLiteral N s =
      if rxNull.rmatch s then .ok .none
      else if rxBytevector.rmatch s then bytesFromLiteral s
      else if rxLiteralString.rmatch s then
        match unquoted s with
        | none => .error .emptyOptional
        | some t => .ok (.string t)
      else .ok (.string s) := by
  have hduration : tryToDuration N s = none := by simp [tryToDuration, h.duration, h.real]
  have htimepoint : tryToTimepoint N s = none := by simp [tryToTimepoint, h.timepoint, h.uint, h.real]
  unfold CommonCore.fromLiteral
  rw [if_neg hs, h.uint, h.sint, h.real, h.bool, h.complex, hduration, htimepoint]

/-- A date begins with a digit. -/
theorem rxTimepoint_head {b : UInt8} (hb : isDigit b = false) (s : Bytes) : rxTimepoint.rmatch (b :: s) = false := by
  apply rmatch_eq_false
  intro hx
  unfold rxTimepoint at hx
  simp only [matches'_mul, mul_assoc] at hx
  obtain ⟨c, hc, hhead⟩ := head_mem_of_oneOf_mul hx
  rw [List.head?_cons, Option.some.injEq] at hhead
  rw [hhead] at hb
  have := (List.mem_filter.mp hc).2
  simp [hb] at this

theorem unconverted_null : Unconverted N (ascii "null") where
  uint := by decide
  sint := by decide
  real := rfl
  bool := rfl
  complex := rfl
  duration := rmatch_eq_false_of_letter (c := 0x6c) (by decide) (by decide +kernel)
  timepoint := rxTimepoint_head (by decide) _

theorem takeReal_quote (s : Bytes) : takeReal (quote :: s) = none := by
  have hwhole : (quote :: s).takeWhile isDigit = [] := List.takeWhile_cons_of_neg (by decide)
  have hrest : (quote :: s).dropWhile isDigit = quote :: s := List.dropWhile_cons_of_neg (by decide)
  unfold takeReal
  simp [takeSign, takeFraction, hwhole, hrest, show (quote == minus) = false from rfl, show quote ≠ dot by decide]

theorem takeWord_quote {b : UInt8} (hb : b ≠ quote) (w s : Bytes) : takeWord (b :: w) (quote :: s) = none := by
  unfold takeWord
  rw [List.length_cons, List.take_succ_cons, List.map_cons, if_neg]
  intro h
  exact hb (List.cons.inj h).1.symm

theorem takeSpecial_quote (s : Bytes) : takeSpecial (quote :: s) = none := by
  have hinfinity : takeWord (ascii "infinity") (quote :: s) = none := takeWord_quote (by decide) _ s
  have hinf : takeWord (ascii "inf") (quote :: s) = none := takeWord_quote (by decide) _ s
  have hnan : takeWord (ascii "nan") (quote :: s) = none := takeWord_quote (by decide) _ s
  unfold takeSpecial
  simp [takeSign, show (quote == minus) = false from rfl, hinfinity, hinf, hnan]

theorem baseOf_quote (s : Bytes) : baseOf (dropPlus (quote :: s)) = (10, quote :: s) := by
  simp [dropPlus, baseOf, show quote ≠ plus by decide, show quote ≠ 0x30 by decide]

theorem convertToSint_quote (s : Bytes) : convertToSint (quote :: s) = none := by
  unfold convertToSint
  rw [baseOf_quote]
  simp [fromCharsSint, show quote ≠ minus by decide, fromDigits_eq_none (show ¬ isDigitIn 10 quote by decide),
    convertedAll]

theorem convertToReal_quote (nearest : Bytes → Option Double) (s : Bytes) :
    convertToReal nearest (quote :: s) = none := by
  unfold convertToReal
  simp [dropPlus, show quote ≠ plus by decide, fromCharsReal, takeReal_quote, takeSpecial_quote, convertedAll]

theorem unconverted_quote (s : Bytes) : Unconverted N (quote :: s) where
  uint := by
    unfold convertToUint
    rw [baseOf_quote]
    simp [fromCharsUint, fromDigits_eq_none (show ¬ isDigitIn 10 quote by decide), convertedAll]
  sint := convertToSint_quote s
  real := convertToReal_quote N.nearest s
  bool := by
    have hlower : (quote :: s).map toLower = quote :: s.map toLower := rfl
    unfold convertToBool
    rw [hlower, convertToSint_quote, convertToReal_quote, if_neg, if_neg]
    · rfl
    · simp [ascii, quote]
    · simp [ascii, quote]
  complex := by
    unfold convertToComplex
    rw [List.dropWhile_cons_of_neg (by decide), List.head?_cons]
    exact if_neg (by decide)
  duration := rmatch_eq_false_of_letter (c := quote) (by simp) (by decide +kernel)
  timepoint := rxTimepoint_head (by decide) _

/-! ## The round trip -/

theorem fromLiteral_null : fromLiteral N (ascii "null") = .ok .none := by
  rw [unconverted_null.fromLiteral (by decide), if_pos]
  decide +kernel

theorem fromLiteral_bool (b : Bool) : fromLiteral N ((Value.bool b).toLiteral N) = .ok (.bool b) := by
  cases b <;> rfl

theorem fromLiteral_uint (n : UInt64) : fromLiteral N (decimal n.toNat) = .ok (.uint n) := by
  unfold fromLiteral
  rw [if_neg (decimal_ne_nil _), convertToUint_decimal]

theorem fromLiteral_sint {n : Int64} (hn : n.toInt < 0) : fromLiteral N (decimalInt n.toInt) = .ok (.sint n) := by
  have hne : decimalInt n.toInt ≠ [] := by
    unfold decimalInt
    rw [if_pos hn]
    exact List.cons_ne_nil _ _
  unfold fromLiteral
  rw [if_neg hne, convertToUint_decimalInt hn, convertToSint_decimalInt hn]

theorem rxNull_quote (s : Bytes) : rxNull.rmatch (quote :: s) = false :=
  rmatch_eq_false_of_letter (c := quote) (by simp) (by decide)

/-- The quotes make the text longer than the string, and they stay. -/
theorem fromLiteral_string_ne {s : Bytes} (hs : ∀ b ∈ s, Printable b) :
    fromLiteral N (strToLiteral s) ≠ .ok (.string s) := by
  have htext : strToLiteral s = quote :: (escape [quote] s ++ [quote]) := rfl
  have hlonger : ∀ t : Bytes, s.length + 2 ≤ t.length → (.ok (.string t) : Except LiteralFault Value) ≠ .ok (.string s) := by
    intro t ht h
    rw [Value.string.inj (Except.ok.inj h)] at ht
    omega
  rw [htext, (unconverted_quote _).fromLiteral (List.cons_ne_nil _ _), rxNull_quote, if_neg (by decide), ← htext]
  split_ifs
  · unfold bytesFromLiteral
    split
    · nofun
    · split <;> nofun
  · rw [unquoted_strToLiteral hs]
    split_ifs
    · nofun
    · apply hlonger
      rw [List.length_append, List.length_cons, List.length_singleton]
  · exact hlonger _ (length_strToLiteral s)

theorem backslash_notMem_toBase64 (b : Bytes) : backslash ∉ ByteVector.toBase64 b := by
  by_cases hb : b = []
  · rw [hb]
    exact List.not_mem_nil
  · obtain ⟨body, pad, htext, -, hbody, hpad⟩ := ByteVector.toBase64_shape hb
    have htable : backslash ∉ ByteVector.codeTable := by decide
    rw [htext, List.mem_append, not_or]
    refine ⟨fun h => htable (hbody _ h), ?_⟩
    revert hpad
    simp only [List.mem_cons, List.not_mem_nil, or_false]
    rintro (rfl | rfl | rfl) <;> decide

/-- The percent signs and a quote are left, which makes no multiple of four. -/
theorem fromLiteral_bytevector_ne (b : Bytes) :
    fromLiteral N ((Value.bytevector b).toLiteral N) ≠ .ok (.bytevector b) := by
  have htext : (Value.bytevector b).toLiteral N =
      quote :: (ascii "%" ++ ByteVector.toBase64 b ++ ascii "%\"") := by
    simp [Value.toLiteral, ascii, quote]
  have hplain : backslash ∉ quote :: (ascii "%" ++ ByteVector.toBase64 b ++ ascii "%\"") := by
    rw [List.mem_cons, List.mem_append, List.mem_append]
    rintro (h | (h | h) | h)
    · exact absurd h (by decide)
    · exact absurd h (by decide)
    · exact backslash_notMem_toBase64 b h
    · exact absurd h (by decide)
  rw [htext, (unconverted_quote _).fromLiteral (List.cons_ne_nil _ _), rxNull_quote, if_neg (by decide)]
  split_ifs
  · have hthree : 0 < (ascii "%" ++ ByteVector.toBase64 b ++ ascii "%\"").length % 4 := by
      have hlength := ByteVector.length_toBase64 b
      rw [List.length_append, List.length_append, show (ascii "%").length = 1 by decide,
        show (ascii "%\"").length = 2 by decide]
      omega
    unfold bytesFromLiteral
    rw [unquoted_of_plain hplain]
    simp only [List.tail_cons, ByteVector.fromBase64, hthree, if_true]
    nofun
  · rw [unquoted_of_plain hplain]
    nofun
  · nofun

/-- The values whose literals shall be read as they were written. -/
def Value.HasLiteral : Value → Prop
  | .none | .bool _ | .uint _ | .bytevector _ => True
  | .sint n => n.toInt < 0
  | .string s => ∀ b ∈ s, Printable b
  | _ => False

theorem literal_restored_iff {v : Value} (h : v.HasLiteral) :
    fromLiteral N (v.toLiteral N) = .ok v ↔ (∀ s, v ≠ .string s) ∧ ∀ b, v ≠ .bytevector b := by
  cases v with
  | none => exact iff_of_true fromLiteral_null ⟨nofun, nofun⟩
  | bool b => exact iff_of_true (fromLiteral_bool b) ⟨nofun, nofun⟩
  | uint n => exact iff_of_true (fromLiteral_uint n) ⟨nofun, nofun⟩
  | sint n => exact iff_of_true (fromLiteral_sint h) ⟨nofun, nofun⟩
  | string s => exact iff_of_false (fromLiteral_string_ne h) fun hv => hv.1 s rfl
  | bytevector b => exact iff_of_false (fromLiteral_bytevector_ne b) fun hv => hv.2 b rfl
  | _ => exact h.elim

/-- Texts and times as none of the values below needs them. -/
def noNumerics : Numerics :=
  ⟨fun _ => none, fun _ => none, fun _ => 0, fun _ => 0, fun _ => 0, fun _ => 0, fun _ => [], fun _ _ => [],
    fun _ => [], fun _ => []⟩

theorem literal_restored_of_sint : fromLiteral noNumerics (ascii "-42") = .ok (.sint (-42)) :=
  (literal_restored_iff (v := .sint (-42)) (show (-42 : Int64).toInt < 0 by decide)).mpr ⟨nofun, nofun⟩

theorem string_not_restored :
    ¬ ∀ v : Value, v.HasLiteral → fromLiteral noNumerics (v.toLiteral noNumerics) = .ok v := by
  intro hall
  have hstring : ∀ b ∈ ascii "a", Printable b := by decide +kernel
  exact fromLiteral_string_ne hstring (hall (.string (ascii "a")) hstring)

end CommonCore
