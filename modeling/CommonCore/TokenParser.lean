import CommonCore.ParserInput
import CommonCore.FromChars
import CommonCore.Escapes

/-!
# The tokens of JSON

`core::json::TokenParser` over any input. Characters are `int` as the input
gives them, and negative ones, but for the end of the input, fit no case.
-/

namespace CommonCore

namespace Json

open Parsers

inductive TokenIndex
  | none
  | invalid
  | space
  | comma
  | colon
  | lineComment
  | quotedString
  | symbol
  | numeric
  | mapOpen
  | mapClose
  | listOpen
  | listClose
  | nullValue
  | bool
  | finish
  deriving DecidableEq

abbrev TokenPair := TokenIndex × Value

/-- The bits of a mask. `TI_NONE` is none. -/
abbrev TokenMask := List TokenIndex

inductive JsonError
  | missingArgument
  | invalidArgument (position : Int) (token : Bytes)
  | outOfFuel

/-! ## Characters -/

/-- Cases and character classes of an `int`. -/
def isA (p : UInt8 → Bool) (c : Int) : Bool := 0 ≤ c && c < 128 && p (toChar c)

theorem ne_eof_of_isA {p : UInt8 → Bool} {c : Int} (h : isA p c = true) : c ≠ eof := by
  rintro rfl
  cases h

def tokenIndexOf (b : UInt8) : TokenIndex :=
  if b ∈ [0x20, 0x09, 0x0b, 0x0d, 0x0a] then .space
  else if b = 0x23 ∨ b = 0x2f then .lineComment
  else if b = quote ∨ b = apostrophe then .quotedString
  else if b = minus ∨ isDigit b then .numeric
  else if isLower b ∨ isUpper b then .symbol
  else if b = openBrace then .mapOpen
  else if b = closeBrace then .mapClose
  else if b = 0x5b then .listOpen
  else if b = 0x5d then .listClose
  else if b = 0x2c then .comma
  else if b = 0x3a then .colon
  else .none

def tokenIndex (c : Int) : TokenIndex :=
  if c = eof then .finish else if 0 ≤ c ∧ c < 128 then tokenIndexOf (toChar c) else .none

/-- `TokenParser::escape`. -/
def unescape (c : UInt8) : UInt8 :=
  if c = 0x61 then 0x07
  else if c = 0x62 then 0x08
  else if c = 0x74 then 0x09
  else if c = 0x6e then 0x0a
  else if c = 0x72 then 0x0d
  else if c = 0x76 then 0x0b
  else if c = 0x66 then 0x0c
  else if c = 0x65 then 0x1b
  else c

def isIdentifier (b : UInt8) : Bool := isLower b || isUpper b || isDigit b || b == minus || b == 0x5f

/-- The end of a line, as a comment ends there. -/
def isVertical (b : UInt8) : Bool := isSpace b && !isBlank b

def isExponent (b : UInt8) : Bool := b == 0x65 || b == 0x45

def isHexMark (b : UInt8) : Bool := b == 0x78 || b == 0x58

def isSign (b : UInt8) : Bool := b == minus || b == plus

def symbolMap : List (Bytes × TokenPair) :=
  [(ascii "null", (.nullValue, .none)), (ascii "false", (.bool, .bool false)), (ascii "true", (.bool, .bool true))]

/-! ## Loops over the input -/

section
variable {σ : Type} (I : Input σ)

/-- Read on while characters are of a class, append them to the token, and put
the next one back: the loops of `parse_spaces` and `capture_identifier`. -/
def takeWhile (p : UInt8 → Bool) (s : σ) : σ :=
  if _h : isA p (I.getc s).1 then
    takeWhile p (I.appendToToken (toChar (I.getc s).1) (I.getc s).2)
  else I.ungetc (I.getc s).1 (I.getc s).2
termination_by I.unread s
decreasing_by
  rw [I.unread_appendToToken]
  exact I.unread_getc s (ne_eof_of_isA _h)

def parseSpaces (s : σ) : TokenPair × σ :=
  let s := takeWhile I isSpace s
  ((.space, .string (I.token s)), s)

/-- The loop of `parse_number`: were there signs of a real, or of a hexadecimal
number? -/
def takeNumber (last : UInt8) (gotReal gotHex : Bool) (s : σ) : Bool × Bool × σ :=
  let c := (I.getc s).1
  if _h : c = eof then (gotReal, gotHex, I.ungetc c (I.getc s).2)
  else
    let t := I.appendToToken (toChar c) (I.getc s).2
    if isA isDigit c then takeNumber (toChar c) gotReal gotHex t
    else if isA (fun b => b == dot || isExponent b) c then takeNumber (toChar c) true gotHex t
    else if isA isHexMark c then takeNumber (toChar c) gotReal true t
    else if isA isSign c ∧ isExponent last then takeNumber (toChar c) gotReal gotHex t
    else (gotReal, gotHex, I.ungetc c (I.getc s).2)
termination_by I.unread s
decreasing_by
  all_goals
    rw [I.unread_appendToToken]
    exact I.unread_getc s _h

/-- `parse_numeric`: what `std::from_chars` leaves of the token does not count. -/
def parseNumeric {T : Type} (value : T → Value) (converted : Option (T × Bytes)) : TokenPair :=
  match converted with
  | some (number, _) => (.numeric, value number)
  | none => (.invalid, .none)

def numberOf (nearest : Bytes → Option Double) (gotReal gotSign gotHex : Bool) (token : Bytes) : TokenPair :=
  if gotReal then parseNumeric .real (fromCharsReal nearest token)
  else if gotSign then parseNumeric .sint (fromCharsSint 10 token)
  else if gotHex then parseNumeric .uint (fromCharsUint 0 token)
  else parseNumeric .uint (fromCharsUint 10 token)

def parseNumber (nearest : Bytes → Option Double) (s : σ) : TokenPair × σ :=
  let gotSign := (I.token s).head? == some minus
  let (gotReal, gotHex, s) := takeNumber I 0 ((I.token s).head? == some dot) false s
  (numberOf nearest gotReal gotSign gotHex (I.token s), s)

def parseSymbol (s : σ) : TokenPair × σ :=
  let s := takeWhile I isIdentifier s
  ((symbolMap.lookup (I.token s)).getD (.invalid, .none), s)

/-- The loop of `parse_string`, with the characters so far. -/
def takeString (quote : UInt8) (escape : Bool) (string : Bytes) (s : σ) : TokenPair × σ :=
  let c := (I.getc s).1
  if _h : c = eof then ((.finish, .string string), (I.getc s).2)
  else
    let t := I.appendToToken (toChar c) (I.getc s).2
    if escape then takeString quote false (string ++ [unescape (toChar c)]) t
    else if isA (· == backslash) c then takeString quote true string t
    else if isA (· == quote) c then ((.quotedString, .string string), t)
    else takeString quote false (string ++ [toChar c]) t
termination_by I.unread s
decreasing_by
  all_goals
    rw [I.unread_appendToToken]
    exact I.unread_getc s _h

def parseString (quote : UInt8) (s : σ) : TokenPair × σ := takeString I quote false [] s

/-- The loop of `parse_line_comment`. -/
def takeComment (s : σ) : σ :=
  let c := (I.getc s).1
  if _h : c = eof ∨ isA isVertical c then (I.getc s).2
  else takeComment (I.appendToToken (toChar c) (I.getc s).2)
termination_by I.unread s
decreasing_by
  rw [I.unread_appendToToken]
  exact I.unread_getc s fun hc => _h (.inl hc)

/-- Whether it is a comment at all is for the caller to see, who does not look. -/
def parseLineComment (s : σ) : TokenPair × σ :=
  let s := takeComment I s
  let isComment := (I.token s).take 2 = ascii "//" ∨ (I.token s).take 1 = ascii "#"
  ((if isComment then .lineComment else .invalid, .none), s)

theorem unread_takeWhile (p : UInt8 → Bool) (s : σ) : I.unread (takeWhile I p s) ≤ I.unread s := by
  fun_induction takeWhile I p s with
  | case1 s h ih =>
    rw [I.unread_appendToToken] at ih
    exact ih.trans (I.unread_getc_le s)
  | case2 s h => exact I.unread_ungetc s

theorem unread_takeComment (s : σ) : I.unread (takeComment I s) ≤ I.unread s := by
  fun_induction takeComment I s with
  | case1 s c h => exact I.unread_getc_le s
  | case2 s c h ih =>
    rw [I.unread_appendToToken] at ih
    exact ih.trans (I.unread_getc_le s)

theorem unread_parseLineComment (s : σ) : I.unread (parseLineComment I s).2 ≤ I.unread s := unread_takeComment I s

theorem ne_eof_of_tokenIndex {c : Int} (h : tokenIndex c ≠ .finish) : c ≠ eof := fun hc => h (if_pos hc)

/-- A null character ends the loop. -/
def nextToken (nearest : Bytes → Option Double) (s : σ) : TokenPair × σ :=
  let c := (I.getc s).1
  if c = 0 then ((.none, .none), (I.getc s).2)
  else
    let t := I.initToken (toChar c) (I.getc s).2
    match _h : tokenIndex c with
    | .space => nextToken nearest (parseSpaces I t).2
    | .lineComment => nextToken nearest (parseLineComment I t).2
    | .quotedString => parseString I (toChar c) t
    | .numeric => parseNumber I nearest t
    | .symbol => parseSymbol I t
    | ti => ((ti, .string (I.token t)), t)
termination_by I.unread s
decreasing_by
  all_goals
    have hlt := I.unread_getc s (ne_eof_of_tokenIndex (by rw [_h]; nofun))
    rw [← I.unread_initToken (toChar (I.getc s).1) (I.getc s).2] at hlt
  · exact Nat.lt_of_le_of_lt (unread_takeWhile I isSpace _) hlt
  · exact Nat.lt_of_le_of_lt (unread_parseLineComment I _) hlt

def nextOf (nearest : Bytes → Option Double) (expected endTokens : TokenMask) (s : σ) :
    Except JsonError (TokenPair × σ) :=
  let (tp, s) := nextToken I nearest s
  if tp.1 ∈ expected then .ok (tp, s)
  else if tp.1 ∈ endTokens then .ok ((.none, .none), s)
  else if tp.1 = .finish then .error .missingArgument
  else .error (.invalidArgument (I.tokenPosition s) (I.token s))

end

end Json

end CommonCore
