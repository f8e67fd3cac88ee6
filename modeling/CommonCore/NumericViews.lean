import CommonCore.FromChars

/-!
# Numeric views of a value

A text that is no number gives the fallback. Bytes that are too few for a number
are reported by an exception, which none of the views catches. Rounding is left
open, as `round` and `nearest`.
-/

namespace CommonCore

/-! ## Types of numbers -/

/-- A type that a value is cast to. -/
structure NumberType (T : Type) where
  /-- `sizeof(T)` -/
  size : ℕ
  ofBool : Bool → T
  ofChar : UInt8 → T
  ofUint : UInt64 → T
  ofSint : Int64 → T
  ofReal : Double → T
  /-- `StringConvert<T>::from_string`, or `none` for an exception. -/
  fromString : Bytes → Option T
  /-- The number that these bytes are in memory. -/
  load : Bytes → T

namespace NumberType

def wrap (signed : Bool) (size : ℕ) (n : Int) : Int := if signed then n.bmod (2 ^ (8 * size)) else n % 2 ^ (8 * size)

def littleEndian (b : Bytes) : ℕ := Nat.ofDigits 256 (b.map UInt8.toNat)

/-- An integer type. A real that is out of range has no defined value. -/
def integral (signed : Bool) (size : ℕ) : NumberType Int where
  size
  ofBool b := if b then 1 else 0
  ofChar c := wrap signed size c.toInt8.toInt
  ofUint n := wrap signed size n.toNat
  ofSint n := wrap signed size n.toInt
  ofReal
    | .finite q => wrap signed size (q.num.tdiv q.den)
    | _ => 0
  fromString s :=
    let n : Option Int := if signed then (convertToSint s).map Int64.toInt else (convertToUint s).map fun n => n.toNat
    n.filter fun n => wrap signed size n = n
  load b := wrap signed size (littleEndian b)

/-- `char` -/
def char : NumberType UInt8 where
  size := 1
  ofBool b := if b then 1 else 0
  ofChar c := c
  ofUint n := n.toUInt8
  ofSint n := n.toInt8.toUInt8
  ofReal r := UInt8.ofInt ((integral true 1).ofReal r)
  fromString s := ((integral true 1).fromString s).map UInt8.ofInt
  load b := b.headD 0

variable (nearest : Bytes → Option Double) (round : ℚ → Double)

def bool : NumberType Bool where
  size := 1
  ofBool b := b
  ofChar c := c ≠ 0
  ofUint n := n ≠ 0
  ofSint n := n ≠ 0
  ofReal r := r ≠ .finite 0
  fromString := convertToBool nearest
  load b := b.headD 0 ≠ 0

/-- The bits of a number with that many bits for its exponent and its fraction. -/
def ieee (exponent fraction : ℕ) (n : ℕ) : Double :=
  let negative := n / 2 ^ (exponent + fraction) % 2 = 1
  let e := n / 2 ^ fraction % 2 ^ exponent
  let f := n % 2 ^ fraction
  let bias : Int := 2 ^ (exponent - 1) - 1 + fraction
  if e = 2 ^ exponent - 1 then if f = 0 then .infinite negative else .nan
  else
    let q : ℚ := if e = 0 then f * 2 ^ (1 - bias) else (2 ^ fraction + f : ℕ) * 2 ^ ((e : Int) - bias)
    .finite (if negative then -q else q)

def rounded : Double → Double
  | .finite q => round q
  | r => r

/-- A type of reals. -/
def real (size exponent fraction : ℕ) : NumberType Double where
  size
  ofBool b := .finite (if b then 1 else 0)
  ofChar c := .finite c.toInt8.toInt
  ofUint n := round n.toNat
  ofSint n := round n.toInt
  ofReal r := rounded round r
  fromString := convertToReal nearest
  load b := ieee exponent fraction (littleEndian b)

/-- `double` -/
def double : NumberType Double := { real nearest round 8 11 52 with ofReal := id }

end NumberType

/-! ## The views -/

namespace Value

/-- `ByteVector::unpack` -/
def unpack {T : Type} (N : NumberType T) (b : Bytes) : Except String T :=
  if b.length < N.size then .error "Not enough bytes to unpack" else .ok (N.load (b.take N.size))

def isNumeric : Value → Bool
  | uint _ | sint _ | real _ | complex _ _ => true
  | _ => false

abbrev Complex := Double × Double

def realPart : Bytes := ascii "real"

def imagPart : Bytes := ascii "imag"

theorem size_find {k : Bytes} {m : List (Bytes × Value)} {v : Value} (h : Keyed.find k m = some v) : sizeOf v < sizeOf (kvmap m) := by
  have hmem := List.sizeOf_lt_of_mem (Keyed.mem_of_find h)
  simp only [Prod.mk.sizeOf_spec, Value.kvmap.sizeOf_spec] at *
  omega

section
variable (nearest : Bytes → Option Double) (round : ℚ → Double)

/-- `dt::to_double` -/
def toDouble (t : Int) : Double :=
  match round t with
  | .finite q => round (q / 10 ^ 9)
  | r => r

/-- `try_numeric_cast`, given what `try_as_complex` makes of a composite value. -/
def tryCast {T : Type} (N : NumberType T) (asComplex : Except String (Option Complex)) : Value → Except String (Option T)
  | none => .ok Option.none
  | bool b => .ok (N.ofBool b)
  | char c => .ok (N.ofChar c)
  | uint n => .ok (N.ofUint n)
  | sint n => .ok (N.ofSint n)
  | real r => .ok (N.ofReal r)
  | complex re _ => .ok (N.ofReal re)
  | string s => .ok (N.fromString s)
  | bytevector b => (unpack N b).map some
  | timepoint t | duration t => .ok (N.ofReal (toDouble round t))
  | valuelist _ | tvlist _ | kvmap _ => asComplex.map (·.map fun c => N.ofReal c.1)

/-- `complex(re.as_real(), im.as_real())` -/
def complexOf (re im : Except String (Option Double)) : Except String (Option Complex) := do
  let re ← re
  let im ← im
  return some (re.getD (.finite 0), im.getD (.finite 0))

def tryAsComplex (v : Value) : Except String (Option Complex) :=
  let asReal (w : Value) (c : Except String (Option Complex)) := tryCast round (.double nearest round) c w
  match v with
  | complex re im => .ok (some (re, im))
  | valuelist [a, b] =>
    if a.isNumeric && b.isNumeric then complexOf (asReal a (tryAsComplex a)) (asReal b (tryAsComplex b)) else .ok Option.none
  | kvmap m =>
    match _ha : Keyed.find realPart m, _hb : Keyed.find imagPart m with
    | some a, some b => complexOf (asReal a (tryAsComplex a)) (asReal b (tryAsComplex b))
    | _, _ => .ok Option.none
  | tvlist [(_, a), (_, b)] =>
    if a.isNumeric && b.isNumeric then complexOf (asReal a (tryAsComplex a)) (asReal b (tryAsComplex b)) else .ok Option.none
  | uint _ | sint _ | real _ => (asReal v (.ok Option.none)).map fun re => some (re.getD (.finite 0), .finite 0)
  | _ => .ok Option.none
termination_by sizeOf v
decreasing_by
  all_goals
    first
    | exact size_find _ha
    | exact size_find _hb
    | simp +arith

def tryNumericCast {T : Type} (N : NumberType T) (v : Value) : Except String (Option T) :=
  tryCast round N (tryAsComplex nearest round v) v

def numericCast {T : Type} (N : NumberType T) (v : Value) (fallback : T) : Except String T :=
  (tryNumericCast nearest round N v).map (·.getD fallback)

def asReal := numericCast nearest round (.double nearest round)

def asFloat (nearestFloat : Bytes → Option Double) (toFloat : ℚ → Double) :=
  numericCast nearest round (.real nearestFloat toFloat 4 8 23)

/-! The integer types with a width in their name are among these. -/

def asUshort := numericCast nearest round (.integral false 2)

def asUint := numericCast nearest round (.integral false 4)

def asUlong := numericCast nearest round (.integral false 8)

def asUint8 := numericCast nearest round (.integral false 1)

def asSshort := numericCast nearest round (.integral true 2)

def asSint := numericCast nearest round (.integral true 4)

def asSlong := numericCast nearest round (.integral true 8)

def asSint8 := numericCast nearest round (.integral true 1)

def asImag (v : Value) (fallback : Double) : Except String Double :=
  match v with
  | uint _ | sint _ | real _ => .ok (.finite 0)
  | complex _ im => .ok im
  | _ => .ok fallback

def asComplex (v : Value) (fallback : Complex) : Except String Complex :=
  (tryAsComplex nearest round v).map (·.getD fallback)

def asBool (v : Value) (fallback : Bool) : Except String Bool :=
  match v with
  | none => .ok false
  | bool b => .ok b
  | char c =>
    if c ∈ ascii "fFnN0" ∨ c = 0 then .ok false else if c ∈ ascii "tTyY123456789" then .ok true else .ok fallback
  | complex re im => do
    let re ← asReal nearest round (complex re im) (.finite 0)
    let im ← asImag (complex re im) (.finite 0)
    return re ≠ .finite 0 ∨ im ≠ .finite 0
  | string s => .ok ((convertToBool nearest s).getD fallback)
  | bytevector b => .ok (b.any (0 < ·))
  | timepoint t | duration t => .ok (t ≠ 0)
  | valuelist l => .ok (l.length > 0)
  | tvlist l => .ok (l.length > 0)
  | kvmap m => .ok (m.length > 0)
  | uint _ | sint _ | real _ => numericCast nearest round (.bool nearest) v fallback

def asChar (v : Value) (fallback : UInt8) : Except String UInt8 :=
  match v with
  | none => .ok fallback
  | char c => .ok c
  | bool b => .ok (if b then 0x74 else 0x66)
  | string s => .ok (s.headD fallback)
  | bytevector b => .ok (if b.length = 1 then b.headD fallback else fallback)
  | v => numericCast nearest round .char v fallback

end

/-! ## What the views return -/

/-- The view returns what was converted, or else the fallback. -/
def Returns {α : Type} (view : α → Except String α) : Prop :=
  ∃ converted : Option α, ∀ fallback, view fallback = .ok (converted.getD fallback)

/-- There are too few bytes for a number of this size, or for one of the parts of
a complex number in a map. -/
inductive TooShort : ℕ → Value → Prop
  | bytes {size : ℕ} {b : Bytes} (h : b.length < size) : TooShort size (bytevector b)
  | real {size : ℕ} {m : KeyValueMap} {re im : Value} (hre : Keyed.find realPart m = some re)
      (him : Keyed.find imagPart m = some im) (h : TooShort 8 re) : TooShort size (kvmap m)
  | imag {size : ℕ} {m : KeyValueMap} {re im : Value} (hre : Keyed.find realPart m = some re)
      (him : Keyed.find imagPart m = some im) (h : TooShort 8 im) : TooShort size (kvmap m)

def IsOk {α : Type} (e : Except String α) : Prop := ∃ a, e = .ok a

theorem isOk_map {α β : Type} {e : Except String α} {f : α → β} : IsOk (e.map f) ↔ IsOk e := by
  cases e with
  | ok a => exact ⟨fun _ => ⟨a, rfl⟩, fun _ => ⟨f a, rfl⟩⟩
  | error s => exact ⟨nofun, nofun⟩

theorem isOk_complexOf {re im : Except String (Option Double)} : IsOk (complexOf re im) ↔ IsOk re ∧ IsOk im := by
  cases re with
  | error s => exact ⟨nofun, nofun⟩
  | ok a =>
    cases im with
    | error s => exact ⟨nofun, nofun⟩
    | ok b => exact ⟨fun _ => ⟨⟨a, rfl⟩, ⟨b, rfl⟩⟩, fun _ => ⟨_, rfl⟩⟩

theorem returns_map {α : Type} (a : α) {e : Except String (Option α)} : Returns (fun fallback => e.map (·.getD fallback)) ↔ IsOk e := by
  cases e with
  | ok c => exact ⟨fun _ => ⟨c, rfl⟩, fun _ => ⟨c, fun _ => rfl⟩⟩
  | error s =>
    constructor
    · intro ⟨_, h⟩
      cases h a
    · exact nofun

theorem isOk_unpack {T : Type} (N : NumberType T) (b : Bytes) : IsOk (unpack N b) ↔ ¬ b.length < N.size := by
  unfold unpack
  split_ifs with h
  · exact ⟨nofun, fun hb => absurd h hb⟩
  · exact ⟨fun _ => h, fun _ => ⟨_, rfl⟩⟩

section
variable {nearest : Bytes → Option Double} {round : ℚ → Double}

theorem tooShort_bytes {size : ℕ} {b : Bytes} : TooShort size (bytevector b) ↔ b.length < size :=
  ⟨fun h => by cases h; assumption, .bytes⟩

theorem tooShort_map {size : ℕ} {m : KeyValueMap} {re im : Value} (hre : Keyed.find realPart m = some re)
    (him : Keyed.find imagPart m = some im) : TooShort size (kvmap m) ↔ TooShort 8 re ∨ TooShort 8 im := by
  constructor
  · intro h
    cases h with
    | real hre' him' h =>
      rw [hre] at hre'
      cases hre'
      exact .inl h
    | imag hre' him' h =>
      rw [him] at him'
      cases him'
      exact .inr h
  · intro h
    rcases h with h | h
    · exact .real hre him h
    · exact .imag hre him h

theorem tooShort_mono {size size' : ℕ} (h : size ≤ size') {v : Value} (hv : TooShort size v) : TooShort size' v := by
  cases hv with
  | bytes hb => exact .bytes (lt_of_lt_of_le hb h)
  | real hre him h => exact .real hre him h
  | imag hre him h => exact .imag hre him h

/-- For a map the size does not matter. -/
theorem tooShort_map_zero {size : ℕ} {m : KeyValueMap} (h : TooShort size (kvmap m)) : TooShort 0 (kvmap m) := by
  cases h with
  | real hre him h => exact .real hre him h
  | imag hre him h => exact .imag hre him h

theorem isOk_tryCast {T : Type} (N : NumberType T) {c : Except String (Option Complex)} {v : Value}
    (hc : IsOk c ↔ ¬ TooShort 0 v) : IsOk (tryCast round N c v) ↔ ¬ TooShort N.size v := by
  cases v with
  | bytevector b => rw [tryCast, isOk_map, isOk_unpack, tooShort_bytes]
  | valuelist l =>
    rw [tryCast, isOk_map, hc]
    exact ⟨fun _ => nofun, fun _ => nofun⟩
  | tvlist l =>
    rw [tryCast, isOk_map, hc]
    exact ⟨fun _ => nofun, fun _ => nofun⟩
  | kvmap m =>
    rw [tryCast, isOk_map, hc]
    exact not_congr ⟨tooShort_mono (Nat.zero_le _), tooShort_map_zero⟩
  | _ => exact ⟨fun _ => nofun, fun _ => ⟨_, rfl⟩⟩

theorem isOk_numeric {v : Value} (hv : v.isNumeric = true) (c : Except String (Option Complex)) :
    IsOk (tryCast round (.double nearest round) c v) := by
  cases v with
  | uint n => exact ⟨_, rfl⟩
  | sint n => exact ⟨_, rfl⟩
  | real r => exact ⟨_, rfl⟩
  | complex re im => exact ⟨_, rfl⟩
  | _ => cases hv

theorem isOk_tryAsComplex (v : Value) : IsOk (tryAsComplex nearest round v) ↔ ¬ TooShort 0 v := by
  fun_induction tryAsComplex nearest round v with
  | case1 re im => exact ⟨fun _ => nofun, fun _ => ⟨_, rfl⟩⟩
  | case2 asReal a b h iha ihb =>
    rw [Bool.and_eq_true] at h
    exact ⟨fun _ => nofun, fun _ => isOk_complexOf.mpr ⟨isOk_numeric h.1 _, isOk_numeric h.2 _⟩⟩
  | case3 a b h => exact ⟨fun _ => nofun, fun _ => ⟨_, rfl⟩⟩
  | case4 asReal m a b ha hb iha ihb =>
    rw [isOk_complexOf, tooShort_map ha hb, not_or]
    exact and_congr (isOk_tryCast _ iha) (isOk_tryCast _ ihb)
  | case5 m h =>
    refine ⟨fun _ hshort => ?_, fun _ => ⟨_, rfl⟩⟩
    cases hshort with
    | real hre him _ => exact h _ _ hre him
    | imag hre him _ => exact h _ _ hre him
  | case6 asReal s a t b h iha ihb =>
    rw [Bool.and_eq_true] at h
    exact ⟨fun _ => nofun, fun _ => isOk_complexOf.mpr ⟨isOk_numeric h.1 _, isOk_numeric h.2 _⟩⟩
  | case7 s a t b h => exact ⟨fun _ => nofun, fun _ => ⟨_, rfl⟩⟩
  | case8 asReal n => exact ⟨fun _ => nofun, fun _ => ⟨_, rfl⟩⟩
  | case9 asReal n => exact ⟨fun _ => nofun, fun _ => ⟨_, rfl⟩⟩
  | case10 asReal r => exact ⟨fun _ => nofun, fun _ => ⟨_, rfl⟩⟩
  | case11 v _ _ hmap _ _ _ _ =>
    refine ⟨fun _ hshort => ?_, fun _ => ⟨_, rfl⟩⟩
    cases hshort with
    | bytes h => exact Nat.not_lt_zero _ h
    | real _ _ _ => exact hmap _ rfl
    | imag _ _ _ => exact hmap _ rfl

theorem returns_numericCast {T : Type} (N : NumberType T) (v : Value) :
    Returns (numericCast nearest round N v) ↔ ¬ TooShort N.size v :=
  (returns_map (N.ofBool true)).trans (isOk_tryCast N (isOk_tryAsComplex v))

theorem returns_asComplex (v : Value) : Returns (asComplex nearest round v) ↔ ¬ TooShort 0 v :=
  (returns_map (.finite 0, .finite 0)).trans (isOk_tryAsComplex v)

theorem returns_asImag (v : Value) : Returns (asImag v) := by
  cases v with
  | uint n => exact ⟨some (.finite 0), fun _ => rfl⟩
  | sint n => exact ⟨some (.finite 0), fun _ => rfl⟩
  | real r => exact ⟨some (.finite 0), fun _ => rfl⟩
  | complex re im => exact ⟨some im, fun _ => rfl⟩
  | _ => exact ⟨Option.none, fun _ => rfl⟩

theorem returns_asBool (v : Value) : Returns (asBool nearest round v) := by
  cases v with
  | char c =>
    by_cases hfalse : c ∈ ascii "fFnN0" ∨ c = 0
    · exact ⟨some false, fun _ => if_pos hfalse⟩
    · by_cases htrue : c ∈ ascii "tTyY123456789"
      · exact ⟨some true, fun _ => (if_neg hfalse).trans (if_pos htrue)⟩
      · exact ⟨Option.none, fun _ => (if_neg hfalse).trans (if_neg htrue)⟩
  | complex re im => exact ⟨some (re ≠ .finite 0 ∨ im ≠ .finite 0), fun _ => rfl⟩
  | string s => exact ⟨convertToBool nearest s, fun _ => rfl⟩
  | uint n => exact (returns_numericCast _ _).mpr nofun
  | sint n => exact (returns_numericCast _ _).mpr nofun
  | real r => exact (returns_numericCast _ _).mpr nofun
  | _ => exact ⟨some _, fun _ => rfl⟩

theorem returns_asChar (v : Value) : Returns (asChar nearest round v) ↔ ¬ TooShort 0 v := by
  cases v with
  | none => exact ⟨fun _ => nofun, fun _ => ⟨Option.none, fun _ => rfl⟩⟩
  | char c => exact ⟨fun _ => nofun, fun _ => ⟨some c, fun _ => rfl⟩⟩
  | bool b => exact ⟨fun _ => nofun, fun _ => ⟨some _, fun _ => rfl⟩⟩
  | string s =>
    refine ⟨fun _ => nofun, fun _ => ⟨s.head?, fun fallback => ?_⟩⟩
    cases s <;> rfl
  | bytevector b =>
    rw [tooShort_bytes]
    refine ⟨fun _ => Nat.not_lt_zero _, fun _ => ?_⟩
    by_cases hb : b.length = 1
    · refine ⟨b.head?, fun fallback => (congrArg Except.ok (if_pos hb)).trans ?_⟩
      cases b <;> rfl
    · exact ⟨Option.none, fun _ => congrArg Except.ok (if_neg hb)⟩
  | kvmap m =>
    exact (returns_numericCast NumberType.char (kvmap m)).trans (not_congr ⟨tooShort_map_zero, tooShort_mono (Nat.zero_le _)⟩)
  | _ => exact ⟨fun _ => nofun, fun _ => (returns_numericCast NumberType.char _).mpr nofun⟩

end

/-- All the views of a value return. -/
structure ViewsReturn (nearest nearestFloat : Bytes → Option Double) (round toFloat : ℚ → Double) (v : Value) : Prop where
  bool : Returns (asBool nearest round v)
  char : Returns (asChar nearest round v)
  ushort : Returns (asUshort nearest round v)
  uint : Returns (asUint nearest round v)
  ulong : Returns (asUlong nearest round v)
  uint8 : Returns (asUint8 nearest round v)
  sshort : Returns (asSshort nearest round v)
  sint : Returns (asSint nearest round v)
  slong : Returns (asSlong nearest round v)
  sint8 : Returns (asSint8 nearest round v)
  real : Returns (asReal nearest round v)
  float : Returns (asFloat nearest round nearestFloat toFloat v)
  imag : Returns (asImag v)
  complex : Returns (asComplex nearest round v)

/-- The views return unless there are too few bytes: for the largest of the
numbers, and for each type in particular. -/
theorem views_return_iff (nearest nearestFloat : Bytes → Option Double) (round toFloat : ℚ → Double) (v : Value) :
    (ViewsReturn nearest nearestFloat round toFloat v ↔ ¬ TooShort 8 v) ∧
      (∀ (T : Type) (N : NumberType T), Returns (numericCast nearest round N v) ↔ ¬ TooShort N.size v) ∧
      (Returns (asChar nearest round v) ↔ ¬ TooShort 0 v) ∧ (Returns (asComplex nearest round v) ↔ ¬ TooShort 0 v) := by
  have hnumber : ∀ (T : Type) (N : NumberType T), Returns (numericCast nearest round N v) ↔ ¬ TooShort N.size v :=
    fun T N => returns_numericCast N v
  refine ⟨⟨fun h => (hnumber _ _).mp h.real, fun h => ?_⟩, hnumber, returns_asChar v, returns_asComplex v⟩
  have hsmaller : ∀ size ≤ 8, ¬ TooShort size v := fun size hsize hv => h (tooShort_mono hsize hv)
  have hviews : ∀ (T : Type) (N : NumberType T), N.size ≤ 8 → Returns (numericCast nearest round N v) :=
    fun T N hsize => (hnumber T N).mpr (hsmaller N.size hsize)
  exact {
    bool := returns_asBool v
    char := (returns_asChar v).mpr (hsmaller 0 (by decide))
    ushort := hviews _ (.integral false 2) (by decide)
    uint := hviews _ (.integral false 4) (by decide)
    ulong := hviews _ (.integral false 8) (by decide)
    uint8 := hviews _ (.integral false 1) (by decide)
    sshort := hviews _ (.integral true 2) (by decide)
    sint := hviews _ (.integral true 4) (by decide)
    slong := hviews _ (.integral true 8) (by decide)
    sint8 := hviews _ (.integral true 1) (by decide)
    real := hviews _ (.double nearest round) le_rfl
    float := hviews _ (.real nearestFloat toFloat 4 8 23) (Nat.le_of_ble_eq_true rfl)
    imag := returns_asImag v
    complex := (returns_asComplex v).mpr (hsmaller 0 (by decide)) }

/-- A byte vector of a single byte. -/
theorem not_views_return : ¬ ∀ (nearest nearestFloat : Bytes → Option Double) (round toFloat : ℚ → Double) (v : Value),
    ViewsReturn nearest nearestFloat round toFloat v := by
  intro hall
  obtain ⟨converted, h⟩ := (hall (fun _ => Option.none) (fun _ => Option.none) .finite .finite (bytevector [1])).uint
  cases h 0

end Value

end CommonCore
