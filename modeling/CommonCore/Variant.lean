import CommonCore.Keyed

/-!
# Variant values

`core::types::Value` and the errors that carry such values. A `std::string` is
a list of bytes, and a `KeyValueMap` the list of its entries in key order.
-/

namespace CommonCore

abbrev Bytes := List UInt8

/-- The bytes of an ASCII literal. -/
def ascii (s : String) : Bytes := s.toList.map fun c => UInt8.ofNat c.toNat

def slash : UInt8 := 0x2f

namespace Dt

def second : Int := 10 ^ 9
def minute : Int := 60 * second
def hour : Int := 60 * minute

end Dt

/-- `largest_real`, exactly. Positive and negative zero, which compare equal,
are one value. -/
inductive Double
  | nan
  | infinite (negative : Bool)
  | finite (q : ℚ)
  deriving DecidableEq

/-- IEEE `==`: no NaN equals itself. -/
def Double.eqv (a b : Double) : Bool := a == b && a != .nan

/-- `core::types::Value`, by `ValueType`. Times are in nanoseconds. -/
inductive Value
  | none
  | bool (b : Bool)
  | char (c : UInt8)
  | uint (n : UInt64)
  | sint (n : Int64)
  | real (r : Double)
  | complex (re im : Double)
  | string (s : Bytes)
  | bytevector (b : Bytes)
  | timepoint (t : Int)
  | duration (d : Int)
  | valuelist (l : List Value)
  | tvlist (l : List (Option Bytes × Value))
  | kvmap (m : List (Bytes × Value))

abbrev KeyValueMap := List (Bytes × Value)

abbrev TaggedValueList := List (Option Bytes × Value)

/-! ## Comparing values -/

section
variable (eq : Double → Double → Bool)

mutual
/-- Values of one type are compared by content, given how reals compare. -/
def Value.eqvBy : Value → Value → Bool
  | .none, .none => true
  | .bool a, .bool b => a == b
  | .char a, .char b => a == b
  | .uint a, .uint b => a == b
  | .sint a, .sint b => a == b
  | .real a, .real b => eq a b
  | .complex a b, .complex c d => eq a c && eq b d
  | .string a, .string b => a == b
  | .bytevector a, .bytevector b => a == b
  | .timepoint a, .timepoint b => a == b
  | .duration a, .duration b => a == b
  | .valuelist a, .valuelist b => eqvList a b
  | .tvlist a, .tvlist b => eqvTagged a b
  | .kvmap a, .kvmap b => eqvKeyed a b
  | _, _ => false
termination_by structural a => a
def eqvList : List Value → List Value → Bool
  | [], [] => true
  | a :: l, b :: m => a.eqvBy b && eqvList l m
  | _, _ => false
termination_by structural a => a
def eqvTag : Option Bytes × Value → Option Bytes × Value → Bool
  | (s, a), (t, b) => s == t && a.eqvBy b
termination_by structural a => a
def eqvTagged : List (Option Bytes × Value) → List (Option Bytes × Value) → Bool
  | [], [] => true
  | p :: l, q :: m => eqvTag p q && eqvTagged l m
  | _, _ => false
termination_by structural a => a
def eqvKey : Bytes × Value → Bytes × Value → Bool
  | (s, a), (t, b) => s == t && a.eqvBy b
termination_by structural a => a
def eqvKeyed : List (Bytes × Value) → List (Bytes × Value) → Bool
  | [], [] => true
  | p :: l, q :: m => eqvKey p q && eqvKeyed l m
  | _, _ => false
termination_by structural a => a
end

variable {eq} (heq : ∀ a b, eq a b = true → a = b)
include heq

set_option linter.unusedSectionVars false in
mutual
theorem Value.eq_of_eqvBy : ∀ {a b : Value}, a.eqvBy eq b = true → a = b
  | .none, b, h => by
    cases b with
    | none => rfl
    | _ => exact absurd h Bool.false_ne_true
  | .bool x, b, h => by
    cases b with
    | bool y => rw [eq_of_beq (show (x == y) = true from h)]
    | _ => exact absurd h Bool.false_ne_true
  | .char x, b, h => by
    cases b with
    | char y => rw [eq_of_beq (show (x == y) = true from h)]
    | _ => exact absurd h Bool.false_ne_true
  | .uint x, b, h => by
    cases b with
    | uint y => rw [eq_of_beq (show (x == y) = true from h)]
    | _ => exact absurd h Bool.false_ne_true
  | .sint x, b, h => by
    cases b with
    | sint y => rw [eq_of_beq (show (x == y) = true from h)]
    | _ => exact absurd h Bool.false_ne_true
  | .real x, b, h => by
    cases b with
    | real y => rw [heq x y h]
    | _ => exact absurd h Bool.false_ne_true
  | .complex x y, b, h => by
    cases b with
    | complex z w =>
      obtain ⟨hx, hy⟩ := Bool.and_eq_true_iff.mp (show (eq x z && eq y w) = true from h)
      rw [heq x z hx, heq y w hy]
    | _ => exact absurd h Bool.false_ne_true
  | .string x, b, h => by
    cases b with
    | string y => rw [eq_of_beq (show (x == y) = true from h)]
    | _ => exact absurd h Bool.false_ne_true
  | .bytevector x, b, h => by
    cases b with
    | bytevector y => rw [eq_of_beq (show (x == y) = true from h)]
    | _ => exact absurd h Bool.false_ne_true
  | .timepoint x, b, h => by
    cases b with
    | timepoint y => rw [eq_of_beq (show (x == y) = true from h)]
    | _ => exact absurd h Bool.false_ne_true
  | .duration x, b, h => by
    cases b with
    | duration y => rw [eq_of_beq (show (x == y) = true from h)]
    | _ => exact absurd h Bool.false_ne_true
  | .valuelist l, b, h => by
    cases b with
    | valuelist m => rw [eq_of_eqvList h]
    | _ => exact absurd h Bool.false_ne_true
  | .tvlist l, b, h => by
    cases b with
    | tvlist m => rw [eq_of_eqvTagged h]
    | _ => exact absurd h Bool.false_ne_true
  | .kvmap l, b, h => by
    cases b with
    | kvmap m => rw [eq_of_eqvKeyed h]
    | _ => exact absurd h Bool.false_ne_true
theorem eq_of_eqvList : ∀ {l m : List Value}, eqvList eq l m = true → l = m
  | [], m, h => by cases m <;> simp_all [eqvList]
  | a :: l, [], h => by simp [eqvList] at h
  | a :: l, b :: m, h => by
    simp only [eqvList, Bool.and_eq_true] at h
    rw [Value.eq_of_eqvBy h.1, eq_of_eqvList h.2]
theorem eq_of_eqvTagged : ∀ {l m : List (Option Bytes × Value)}, eqvTagged eq l m = true → l = m
  | [], m, h => by cases m <;> simp_all [eqvTagged]
  | a :: l, [], h => by simp [eqvTagged] at h
  | (s, a) :: l, (t, b) :: m, h => by
    simp only [eqvTagged, eqvTag, Bool.and_eq_true, beq_iff_eq] at h
    rw [h.1.1, Value.eq_of_eqvBy h.1.2, eq_of_eqvTagged h.2]
theorem eq_of_eqvKeyed : ∀ {l m : List (Bytes × Value)}, eqvKeyed eq l m = true → l = m
  | [], m, h => by cases m <;> simp_all [eqvKeyed]
  | a :: l, [], h => by simp [eqvKeyed] at h
  | (s, a) :: l, (t, b) :: m, h => by
    simp only [eqvKeyed, eqvKey, Bool.and_eq_true, beq_iff_eq] at h
    rw [h.1.1, Value.eq_of_eqvBy h.1.2, eq_of_eqvKeyed h.2]
end

end

/-- `Value::operator==`. -/
def Value.eqv : Value → Value → Bool := Value.eqvBy Double.eqv

/-- `operator==` on maps: the same keys, and equal values. -/
def KeyValueMap.eqv : KeyValueMap → KeyValueMap → Bool := eqvKeyed Double.eqv

theorem Double.eq_of_eqv (a b : Double) (h : a.eqv b = true) : a = b := by
  simp only [Double.eqv, Bool.and_eq_true, beq_iff_eq] at h
  exact h.1

theorem KeyValueMap.eq_of_eqv {l m : KeyValueMap} (h : KeyValueMap.eqv l m = true) : l = m :=
  eq_of_eqvKeyed Double.eq_of_eqv h

/-- `KeyValueMap::update`. -/
def KeyValueMap.update (m other : KeyValueMap) : KeyValueMap := Keyed.putAll m other

/-! ## Errors -/

/-- `core::status::Domain`. -/
inductive Domain
  | none | application | system | process | device | service
  deriving DecidableEq

/-- `core::status::Level`. -/
inductive Level
  | none | trace | debug | info | notice | warning | error | critical | fatal
  deriving DecidableEq

/-- `core::status::Error`, with what it inherits from `Event`. -/
structure Error where
  text : Bytes := []
  domain : Domain := .none
  origin : Bytes := []
  code : Int64 := 0
  symbol : Bytes := []
  level : Level := .none
  timepoint : Int := 0
  attributes : KeyValueMap := []

/-- Do two references name the same error? They are told apart by content. -/
def Error.same (a b : Error) : Bool :=
  a.text == b.text && a.domain == b.domain && a.origin == b.origin && a.code == b.code &&
    a.symbol == b.symbol && a.level == b.level && a.timepoint == b.timepoint &&
    eqvKeyed (· == ·) a.attributes b.attributes

theorem Error.eq_of_same {a b : Error} (h : a.same b = true) : a = b := by
  cases a; cases b
  simp only [Error.same, Bool.and_eq_true, beq_iff_eq] at h
  obtain ⟨⟨⟨⟨⟨⟨⟨rfl, rfl⟩, rfl⟩, rfl⟩, rfl⟩, rfl⟩, rfl⟩, h⟩ := h
  rw [eq_of_eqvKeyed (fun a b h => by simpa using h) h]

/-- The standard exception classes that `map_to_error` tells apart, with what
it reads of each. -/
inductive StdClass
  | filesystemError (category : Bytes) (code : Int64) (path1 path2 : Bytes)
  | systemError (category : Bytes) (code : Int64)
  | invalidArgument
  | outOfRange
  | logicError
  | runtimeError
  | exception
  deriving DecidableEq

/-- What an interceptor may throw: a `std::exception`, which may be a
`status::Error` as well, or anything else. -/
inductive Thrown
  | exception (cls : StdClass) (what : Bytes) (event : Option Error)
  | nonstandard

/-- The `CustomException` constructor. -/
def customError (execName : Bytes) (code : Int64) (symbol text : Bytes) (attributes : KeyValueMap) : Error :=
  { text, domain := .application, origin := execName, code, symbol, level := .error, attributes }

/-- `map_to_error(const std::exception &)`. A `std::out_of_range` is a
`std::logic_error`, whose test comes first. -/
def mapExceptionToError (execName : Bytes) (cls : StdClass) (what : Bytes) : Option Error → Error
  | some event => event
  | none =>
    match cls with
    | .filesystemError category code path1 path2 =>
      { text := what, domain := .system, origin := category, code, symbol := ascii "FilesystemError",
        level := .error,
        attributes := [(ascii "path1", .string path1), (ascii "path2", .string path2)] }
    | .systemError category code =>
      { text := what, domain := .system, origin := category, code, level := .error }
    | .invalidArgument => customError execName 22 (ascii "InvalidArgument") what []
    | .logicError | .outOfRange => customError execName 95 (ascii "FailedPrecondition") what []
    | .runtimeError | .exception => customError execName 4 (ascii "RuntimeError") what []

/-- `map_to_error(std::exception_ptr)`. -/
def mapToError (execName : Bytes) : Option Thrown → Option Error
  | some (.exception cls what event) => some (mapExceptionToError execName cls what event)
  | some .nonstandard =>
    some { text := ascii "Non-standard error", domain := .application, origin := execName,
           symbol := ascii "UNKNOWN", level := .error }
  | none => none

theorem mapToError_isSome (execName : Bytes) (e : Option Thrown) : (mapToError execName e).isSome = e.isSome := by
  rcases e with _ | ⟨_, _, _⟩ | _ <;> rfl

/-- `exception::Cancelled()`. -/
def cancelledError (execName : Bytes) : Error :=
  customError execName 125 (ascii "Cancelled") (ascii "Cancelled") [(ascii "operation", .string [])]

end CommonCore
