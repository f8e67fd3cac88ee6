import CommonCore.DdsVariants
import CommonCore.SettingsDelta

/-!
# Variant values in Avro values

`set_value` fills an Avro value from a variant value, and `get_value` reads it
back. The library tells success by a status of zero.
-/

namespace CommonCore

namespace Avro

inductive Schema
  | string
  | bytes
  | int
  | long
  | boolean
  | null
  | enum (symbols : List Bytes)
  | array (items : Schema)
  | map (values : Schema)
  | record (fields : List (Bytes × Schema))
  | union (branches : List Schema)

/-- What an `avro_value_t` holds once it is set. -/
inductive Datum
  | string (s : Bytes)
  | bytes (b : Bytes)
  | int (n : Int32)
  | long (n : Int64)
  | boolean (b : Bool)
  | null
  | enum (symbols : List Bytes) (value : Int)
  | array (elements : List Datum)
  | map (elements : List (Bytes × Datum))
  | record (fields : List (Bytes × Datum))
  | union (discriminant : ℕ) (branch : Datum)

/-! ## Conversions -/

/-- How values of other types are converted. -/
structure Casts where
  uint : Value → UInt32
  sint32 : Value → Int32
  sint64 : Value → Int64
  bool : Value → Bool
  bytevector : Value → Bytes
  string : Value → Bytes

section
variable (C : Casts)

def asUint : Value → UInt32
  | .uint n => n.toUInt32
  | .sint n => n.toInt32.toUInt32
  | v => C.uint v

def asSint32 : Value → Int32
  | .uint n => n.toInt64.toInt32
  | .sint n => n.toInt32
  | v => C.sint32 v

def asSint64 : Value → Int64
  | .uint n => n.toInt64
  | .sint n => n
  | v => C.sint64 v

def asBool : Value → Bool
  | .none => false
  | .bool b => b
  | v => C.bool v

def asBytevector : Value → Bytes
  | .none => []
  | .bytevector b => b
  | v => C.bytevector v

def asString : Value → Bytes
  | .string s => s
  | v => C.string v

end

def getString : Value → Bytes
  | .string s => s
  | _ => []

def getValuelist : Value → List Value
  | .valuelist l => l
  | _ => []

def getKvmap (v : Value) : KeyValueMap := v.getIfMap.getD []

def isNumeric : Value → Bool
  | .uint _ | .sint _ | .real _ | .complex _ _ => true
  | _ => false

def isIntegral : Value → Bool
  | .uint _ | .sint _ => true
  | _ => false

def isString : Value → Bool
  | .string _ => true
  | _ => false

def isBytevector : Value → Bool
  | .bytevector _ => true
  | _ => false

def isBool : Value → Bool
  | .bool _ => true
  | _ => false

def isMappable : Value → Bool
  | .kvmap _ | .tvlist _ => true
  | _ => false

def isSequence : Value → Bool
  | .valuelist _ | .tvlist _ => true
  | _ => false

def empty : Value → Bool
  | .none => true
  | _ => false

/-- The text up to its NUL. -/
def cstr (s : Bytes) : Bytes := s.takeWhile (· ≠ 0)

/-! ## Setting values -/

/-- Whether a branch of a union takes a value. -/
def hit : Schema → Value → Bool
  | .string, v => empty v
  | .bytes, v => isBytevector v
  | .int, v | .long, v => isIntegral v
  | .boolean, v => isBool v
  | .enum _, v => isIntegral v || isString v
  | .record _, v | .map _, v => isMappable v
  | .array _, v => isSequence v
  | .union _, _ => false
  | .null, v => empty v

def enumGetByName (symbols : List Bytes) (name : Bytes) : Int :=
  match symbols.idxOf? name with
  | some i => i
  | none => -1

/-- Without a result an exception is thrown. -/
def checkstatus (status : Int) : Option Unit := if status ≠ 0 then none else some ()

def setEnum (symbols : List Bytes) (enumsymbol : Bytes) : Option Datum :=
  let enumValue := enumGetByName symbols (cstr enumsymbol)
  (checkstatus enumValue).map fun _ => .enum symbols enumValue

variable (C : Casts)

mutual
/-- What a fresh value holds afterwards; `avro_value_add` takes keys up to their NUL. -/
def setValue : Schema → Value → Option Datum
  | .string, v => some (.string (getString v))
  | .bytes, v => some (.bytes (asBytevector C v))
  | .int, v => some (.int (asSint32 C v))
  | .long, v => some (.long (asSint64 C v))
  | .boolean, v => some (.boolean (asBool C v))
  | .null, _ => some .null
  | .enum symbols, v =>
    if isNumeric v then some (.enum symbols (asUint C v).toInt32.toInt) else setEnum symbols (asString C v)
  | .array items, v => ((getValuelist v).mapM fun x => setValue items x).map .array
  | .map values, v => ((getKvmap v).mapM fun e => (setValue values e.2).map (Prod.mk (cstr e.1))).map .map
  | .record fields, v => (setRecord fields (getKvmap v)).map .record
  | .union branches, v => setUnion branches 0 v
termination_by structural s => s
def setField : Bytes × Schema → KeyValueMap → Option (Bytes × Datum)
  | (name, s), m => (setValue s ((Keyed.find name m).getD .none)).map (Prod.mk name)
termination_by structural f => f
def setRecord : List (Bytes × Schema) → KeyValueMap → Option (List (Bytes × Datum))
  | [], _ => some []
  | f :: fields, m => (setField f m).bind fun field => (setRecord fields m).map (field :: ·)
termination_by structural fields => fields
/-- From the branch with the given index on. -/
def setUnion : List Schema → ℕ → Value → Option Datum
  | [], _, _ => none
  | b :: branches, i, v => if hit b v then (setValue b v).map (.union i) else setUnion branches (i + 1) v
termination_by structural branches => branches
end

/-! ## Getting values -/

/-- What the library returns when a value is there. -/
def success : Int := 0

def getInt (n : Int32) : Value := if success = 0 then .sint n.toInt64 else .none

def getLong (n : Int64) : Value := if success = 0 then .sint n else .none

/-- Success is taken for a failure here, and in `getEnumValue`. -/
def getBoolean (b : Bool) : Value := if success ≠ 0 then .bool b else .none

def getEnumValue (n : Int) : Value := if success ≠ 0 then .sint (Int64.ofInt n) else .none

def getEnumSymbol (symbols : List Bytes) (enumValue : Int) : Option Value :=
  if enumValue < symbols.length then
    if 0 ≤ enumValue then (symbols[enumValue.toNat]?).map .string else none
  else some .none

/-- The element of an array or a map: the value that is read is the one that is
being declared, which is not set. -/
def getByIndex (_ : Datum) : Option Value := none

/-- Without a result the behaviour is undefined. -/
def getValue (enumsAsStrings : Bool) : Datum → Option Value
  | .string s => some (.string s)
  | .bytes b => some (.bytevector b)
  | .int n => some (getInt n)
  | .long n => some (getLong n)
  | .boolean b => some (getBoolean b)
  | .null => some .none
  | .enum symbols n => if enumsAsStrings then getEnumSymbol symbols n else some (getEnumValue n)
  | .array elements => (elements.mapM getByIndex).map .valuelist
  | .map elements | .record elements =>
    (elements.mapM fun e => (getByIndex e.2).map (Prod.mk e.1)).map fun l => .kvmap (Keyed.putAll [] l)
  | .union _ branch => getValue enumsAsStrings branch

/-! ## What conforms to a schema -/

mutual
def Conforms : Schema → Value → Prop
  | .string, .string _ => True
  | .bytes, .bytevector _ => True
  | .int, .uint n => n.toNat < 2 ^ 31
  | .int, .sint n => -2 ^ 31 ≤ n.toInt ∧ n.toInt < 2 ^ 31
  | .long, .uint n => n.toNat < 2 ^ 63
  | .long, .sint _ => True
  | .boolean, .bool _ => True
  | .null, .none => True
  | .enum symbols, .string s => s ∈ symbols ∧ 0 ∉ s
  | .array items, .valuelist l => ∀ x ∈ l, Conforms items x
  | .map values, .kvmap m => ∀ e ∈ m, Conforms values e.2
  | .record fields, .kvmap m => (∀ e ∈ m, e.1 ∈ fields.map Prod.fst) ∧ ConformsFields fields m
  | .union branches, v => ConformsSome branches v
  | _, _ => False
termination_by structural s => s
def ConformsField : Bytes × Schema → KeyValueMap → Prop
  | (name, s), m => ∃ v, Keyed.find name m = some v ∧ Conforms s v
termination_by structural f => f
def ConformsFields : List (Bytes × Schema) → KeyValueMap → Prop
  | [], _ => True
  | f :: fields, m => ConformsField f m ∧ ConformsFields fields m
termination_by structural fields => fields
def ConformsSome : List Schema → Value → Prop
  | [], _ => False
  | b :: branches, v => Conforms b v ∨ ConformsSome branches v
termination_by structural branches => branches
end

inductive Kind
  | text | bytes | integer | boolean | null | mappable | sequence
  deriving DecidableEq

def Schema.kinds : Schema → List Kind
  | .string => [.text]
  | .bytes => [.bytes]
  | .int | .long => [.integer]
  | .boolean => [.boolean]
  | .null => [.null]
  | .enum _ => [.text, .integer]
  | .array _ => [.sequence]
  | .map _ | .record _ => [.mappable]
  | .union _ => []

/-- No two branches are of one kind, and none is a union. -/
structure Distinct (branches : List Schema) : Prop where
  kinds : branches.Pairwise fun a b => a.kinds.Disjoint b.kinds
  plain : ∀ b ∈ branches, b.kinds ≠ []

/-! ## What is set, and what comes back -/

mutual
/-- A symbol is the first of its enumeration, and a union has a branch that is hit. -/
def Accepts : Schema → Value → Prop
  | .enum symbols, v => isNumeric v = true ∨ symbols.head? = some (cstr (asString C v))
  | .array items, v => ∀ x ∈ getValuelist v, Accepts items x
  | .map values, v => ∀ e ∈ getKvmap v, Accepts values e.2
  | .record fields, v => AcceptsFields fields (getKvmap v)
  | .union branches, v => AcceptsFirst branches v
  | _, _ => True
termination_by structural s => s
def AcceptsField : Bytes × Schema → KeyValueMap → Prop
  | (name, s), m => Accepts s ((Keyed.find name m).getD .none)
termination_by structural f => f
def AcceptsFields : List (Bytes × Schema) → KeyValueMap → Prop
  | [], _ => True
  | f :: fields, m => AcceptsField f m ∧ AcceptsFields fields m
termination_by structural fields => fields
def AcceptsFirst : List Schema → Value → Prop
  | [], _ => False
  | b :: branches, v => if hit b v then Accepts b v else AcceptsFirst branches v
termination_by structural branches => branches
end

/-- Neither a boolean, nor a list or map with anything in it. -/
def KeptPlain : Schema → Value → Prop
  | .boolean, _ => False
  | .array _, v => v = .valuelist []
  | .map _, v | .record _, v => v = .kvmap []
  | .union _, _ => False
  | _, _ => True

/-- A null is not taken by a branch for strings. -/
def Kept : Schema → Value → Prop
  | .union branches, v => ∃ b, branches.find? (hit · v) = some b ∧ b ≠ .string ∧ KeptPlain b v
  | s, v => KeptPlain s v

mutual
/-- Integers as signed ones, where these suffice. -/
def signed : Value → Value
  | .uint n => if n.toNat < 2 ^ 63 then .sint n.toInt64 else .uint n
  | .valuelist l => .valuelist (signedList l)
  | .tvlist l => .tvlist (signedTagged l)
  | .kvmap m => .kvmap (signedKeyed m)
  | v => v
termination_by structural v => v
def signedList : List Value → List Value
  | [] => []
  | v :: l => signed v :: signedList l
termination_by structural l => l
def signedTag : Option Bytes × Value → Option Bytes × Value
  | (t, v) => (t, signed v)
termination_by structural e => e
def signedTagged : List (Option Bytes × Value) → List (Option Bytes × Value)
  | [] => []
  | e :: l => signedTag e :: signedTagged l
termination_by structural l => l
def signedKey : Bytes × Value → Bytes × Value
  | (k, v) => (k, signed v)
termination_by structural e => e
def signedKeyed : List (Bytes × Value) → List (Bytes × Value)
  | [] => []
  | e :: l => signedKey e :: signedKeyed l
termination_by structural l => l
end

/-- What is set is read as it was, up to the signs of integers, and a union
takes what one of its branches takes. -/
structure Restored (s : Schema) (v : Value) : Prop where
  read : ∀ a, setValue C s v = some a → (getValue true a).map signed = some (signed v)
  selected : ∀ branches, s = .union branches → ∀ i b, branches[i]? = some b → Conforms b v →
    ∃ d, setUnion C branches 0 v = some (.union i d)

/-! ## When a value is set -/

theorem isSome_mapM {α β : Type} {f : α → Option β} {l : List α} : (l.mapM f).isSome = true ↔ ∀ x ∈ l, (f x).isSome = true := by
  induction l with
  | nil => simp
  | cons x l ih =>
    rw [List.forall_mem_cons, ← ih, List.mapM_cons]
    cases f x <;> cases l.mapM f <;> simp

theorem enumGetByName_eq_zero {symbols : List Bytes} {name : Bytes} :
    enumGetByName symbols name = 0 ↔ symbols.head? = some name := by
  cases symbols with
  | nil => simp [enumGetByName]
  | cons s symbols =>
    by_cases h : s = name
    · simp [enumGetByName, List.idxOf?_cons, h]
    · cases hi : symbols.idxOf? name <;> simp [enumGetByName, List.idxOf?_cons, h, hi]
      omega

theorem isSome_setEnum {symbols : List Bytes} {enumsymbol : Bytes} :
    (setEnum symbols enumsymbol).isSome = true ↔ symbols.head? = some (cstr enumsymbol) := by
  rw [← enumGetByName_eq_zero, setEnum, checkstatus, Option.isSome_map]
  by_cases h : enumGetByName symbols (cstr enumsymbol) = 0 <;> simp [h]

section
variable {C}

mutual
theorem isSome_setValue : ∀ (s : Schema) (v : Value), (setValue C s v).isSome = true ↔ Accepts C s v
  | .string, _ | .bytes, _ | .int, _ | .long, _ | .boolean, _ | .null, _ => by simp [setValue, Accepts]
  | .enum symbols, v => by
    rw [setValue, Accepts, ← isSome_setEnum]
    cases isNumeric v <;> simp
  | .array items, v => by
    rw [setValue, Accepts, Option.isSome_map, isSome_mapM]
    exact forall₂_congr fun x _ => isSome_setValue items x
  | .map values, v => by
    rw [setValue, Accepts, Option.isSome_map, isSome_mapM]
    refine forall₂_congr fun e _ => ?_
    rw [Option.isSome_map]
    exact isSome_setValue values e.2
  | .record fields, v => by
    rw [setValue, Accepts, Option.isSome_map]
    exact isSome_setRecord fields (getKvmap v)
  | .union branches, v => by
    rw [setValue, Accepts]
    exact isSome_setUnion branches 0 v
theorem isSome_setField : ∀ (f : Bytes × Schema) (m : KeyValueMap), (setField C f m).isSome = true ↔ AcceptsField C f m
  | (name, s), m => by
    rw [setField, AcceptsField, Option.isSome_map]
    exact isSome_setValue s _
theorem isSome_setRecord : ∀ (fields : List (Bytes × Schema)) (m : KeyValueMap),
    (setRecord C fields m).isSome = true ↔ AcceptsFields C fields m
  | [], _ => by simp [setRecord, AcceptsFields]
  | f :: fields, m => by
    rw [setRecord, AcceptsFields, ← isSome_setField f m, ← isSome_setRecord fields m]
    cases setField C f m <;> simp
theorem isSome_setUnion : ∀ (branches : List Schema) (i : ℕ) (v : Value),
    (setUnion C branches i v).isSome = true ↔ AcceptsFirst C branches v
  | [], _, _ => by simp [setUnion, AcceptsFirst]
  | b :: branches, i, v => by
    rw [setUnion, AcceptsFirst]
    split
    · rw [Option.isSome_map]
      exact isSome_setValue b v
    · exact isSome_setUnion branches (i + 1) v
end

/-! ## The branch of a union -/

variable {v : Value} {b : Schema} {before after : List Schema}

theorem setUnion_append (after : List Schema) (hb : hit b v = true) (h : ∀ a ∈ before, hit a v = false) (i : ℕ) :
    setUnion C (before ++ b :: after) i v = (setValue C b v).map (.union (i + before.length)) := by
  induction before generalizing i with
  | nil => rw [List.nil_append, setUnion, if_pos hb, List.length_nil, Nat.add_zero]
  | cons a before ih =>
    have ha := h a (List.mem_cons_self ..)
    rw [List.cons_append, setUnion, ha, if_neg Bool.false_ne_true, ih fun c hc => h c (List.mem_cons_of_mem _ hc),
      List.length_cons, Nat.add_assoc, Nat.add_comm 1]

theorem setUnion_none {branches : List Schema} (h : ∀ a ∈ branches, hit a v = false) (i : ℕ) :
    setUnion C branches i v = none := by
  induction branches generalizing i with
  | nil => rfl
  | cons a branches ih =>
    rw [setUnion, h a (List.mem_cons_self ..), if_neg Bool.false_ne_true]
    exact ih (fun c hc => h c (List.mem_cons_of_mem _ hc)) _

def kindOf : Value → Option Kind
  | .none => some .null
  | .bool _ => some .boolean
  | .uint _ | .sint _ => some .integer
  | .string _ => some .text
  | .bytevector _ => some .bytes
  | .valuelist _ => some .sequence
  | .kvmap _ => some .mappable
  | _ => none

theorem kindOf_of_conforms (hb : b.kinds ≠ []) (h : Conforms b v) : ∃ k ∈ b.kinds, kindOf v = some k := by
  cases b <;> cases v <;> simp_all [Conforms, Schema.kinds, kindOf]

theorem kinds_of_hit (hs : b ≠ .string) (hb : hit b v = true) {k : Kind} (hk : kindOf v = some k) : k ∈ b.kinds := by
  cases b <;> cases v <;> simp_all [hit, Schema.kinds, kindOf, empty, isBytevector, isIntegral, isBool, isString, isMappable, isSequence]

theorem exists_of_conformsSome {branches : List Schema} (h : ConformsSome branches v) :
    ∃ (i : ℕ) (b : Schema), branches[i]? = some b ∧ Conforms b v := by
  induction branches with
  | nil => exact h.elim
  | cons a branches ih =>
    rcases h with h | h
    · exact ⟨0, a, rfl, h⟩
    · obtain ⟨i, b, hb, hc⟩ := ih h
      exact ⟨i + 1, b, hb, hc⟩

theorem Distinct.disjoint {branches : List Schema} (hd : Distinct branches) {i j : ℕ} {a c : Schema} (hij : i < j)
    (hi : branches[i]? = some a) (hj : branches[j]? = some c) : a.kinds.Disjoint c.kinds := by
  obtain ⟨_, rfl⟩ := List.getElem?_eq_some_iff.1 hi
  obtain ⟨_, rfl⟩ := List.getElem?_eq_some_iff.1 hj
  exact List.pairwise_iff_getElem.1 hd.kinds _ _ _ _ hij

/-- A branch that is hit, and that is not for strings, is the one that the value
conforms to. -/
theorem index_of_hit (hd : Distinct (before ++ b :: after)) (hs : b ≠ .string) (hb : hit b v = true) {i : ℕ} {c : Schema}
    (hi : (before ++ b :: after)[i]? = some c) (hc : Conforms c v) : i = before.length ∧ c = b := by
  obtain ⟨k, hk, hv⟩ := kindOf_of_conforms (hd.plain c (List.mem_of_getElem? hi)) hc
  have hkb := kinds_of_hit hs hb hv
  have hj : (before ++ b :: after)[before.length]? = some b := by simp
  have hij : i = before.length := by
    rcases Nat.lt_trichotomy i before.length with h | h | h
    · exact (hd.disjoint h hi hj hk hkb).elim
    · exact h
    · exact (hd.disjoint h hj hi hkb hk).elim
  subst hij
  exact ⟨rfl, Option.some.inj (hi.symm.trans hj)⟩

/-! ## What comes back -/

theorem cstr_eq {s : Bytes} (h : 0 ∉ s) : cstr s = s := by
  rw [cstr, List.takeWhile_eq_self_iff]
  intro x hx
  have : x ≠ 0 := fun h0 => h (h0 ▸ hx)
  simpa using this

theorem length_of_mapM {α β : Type} {f : α → Option β} {l : List α} {r : List β} (h : l.mapM f = some r) :
    r.length = l.length := by
  induction l generalizing r with
  | nil =>
    cases h
    rfl
  | cons x l ih =>
    rw [List.mapM_cons] at h
    obtain ⟨y, -, h⟩ := Option.bind_eq_some_iff.1 h
    obtain ⟨ys, hys, h⟩ := Option.bind_eq_some_iff.1 h
    cases h
    rw [List.length_cons, ih hys, List.length_cons]

theorem length_of_setRecord {fields : List (Bytes × Schema)} {m : KeyValueMap} {r : List (Bytes × Datum)}
    (h : setRecord C fields m = some r) : r.length = fields.length := by
  induction fields generalizing r with
  | nil =>
    cases h
    rfl
  | cons f fields ih =>
    rw [setRecord] at h
    obtain ⟨field, -, h⟩ := Option.bind_eq_some_iff.1 h
    obtain ⟨r', hr, rfl⟩ := Option.map_eq_some_iff.1 h
    rw [List.length_cons, ih hr, List.length_cons]

theorem toInt_toInt64 {n : UInt64} (h : n.toNat < 2 ^ 63) : n.toInt64.toInt = n.toNat := by
  show n.toBitVec.toInt = _
  rw [BitVec.toInt_eq_toNat_of_lt]
  · rfl
  · show 2 * n.toNat < 2 ^ 64
    omega

/-- For a schema that is not a union. -/
theorem plain_restored_iff (hb : b.kinds ≠ []) (hc : Conforms b v) {a : Datum} (h : setValue C b v = some a) :
    (getValue true a).map signed = some (signed v) ↔ KeptPlain b v := by
  cases b with
  | string =>
    cases v <;> simp only [Conforms] at hc
    cases h
    simp [getValue, getString, KeptPlain]
  | bytes =>
    cases v <;> simp only [Conforms] at hc
    cases h
    simp [getValue, asBytevector, KeptPlain]
  | int =>
    cases v <;> simp only [Conforms] at hc
    · rename_i n
      cases h
      have hn := toInt_toInt64 (n := n) (by omega)
      have := (Dds.sint_fits n.toInt64).2 (by omega)
      simp [getValue, getInt, success, asSint32, signed, KeptPlain, this]
      omega
    · rename_i n
      cases h
      simp [getValue, getInt, success, asSint32, signed, KeptPlain, (Dds.sint_fits n).2 hc]
  | long =>
    cases v <;> simp only [Conforms] at hc
    · cases h
      simp [getValue, getLong, success, asSint64, signed, KeptPlain]
      omega
    · cases h
      simp [getValue, getLong, success, asSint64, signed, KeptPlain]
  | boolean =>
    cases v <;> simp only [Conforms] at hc
    cases h
    simp [getValue, getBoolean, success, KeptPlain, signed]
  | null =>
    cases v <;> simp only [Conforms] at hc
    cases h
    simp [getValue, KeptPlain]
  | enum symbols =>
    cases v <;> simp only [Conforms] at hc
    rename_i s
    have hh : symbols.head? = some s := by
      have : (setEnum symbols s).isSome = true := Option.isSome_of_eq_some h
      rwa [isSome_setEnum, cstr_eq hc.2] at this
    obtain ⟨symbols, rfl⟩ : ∃ rest, symbols = s :: rest := ⟨symbols.tail, List.head?_eq_some_iff.1 hh |>.elim fun _ h => by simp [h]⟩
    have : setEnum (s :: symbols) s = some a := h
    simp [setEnum, cstr_eq hc.2, enumGetByName, List.idxOf?_cons, checkstatus] at this
    subst this
    simp [getValue, getEnumSymbol, KeptPlain]
  | array items =>
    cases v <;> simp only [Conforms] at hc
    rename_i l
    obtain ⟨ds, hds, rfl⟩ := Option.map_eq_some_iff.1 h
    have hlen := length_of_mapM hds
    simp only [getValuelist] at hlen
    cases l <;> cases ds <;> simp_all [getValue, getByIndex, KeptPlain, signed, signedList]
  | map values =>
    cases v <;> simp only [Conforms] at hc
    rename_i m
    obtain ⟨ds, hds, rfl⟩ := Option.map_eq_some_iff.1 h
    have hlen := length_of_mapM hds
    simp only [getKvmap, Value.getIfMap, Option.getD_some] at hlen
    cases m <;> cases ds <;> simp_all [getValue, getByIndex, KeptPlain, signed, signedKeyed, Keyed.putAll]
  | record fields =>
    cases v <;> simp only [Conforms] at hc
    rename_i m
    obtain ⟨ds, hds, rfl⟩ := Option.map_eq_some_iff.1 h
    have hlen := length_of_setRecord hds
    cases fields with
    | nil =>
      obtain rfl : m = [] := List.eq_nil_iff_forall_not_mem.2 fun e he => by simpa using hc.1 e he
      cases ds <;> simp_all [getValue, KeptPlain, signed, signedKeyed, Keyed.putAll]
    | cons f fields =>
      obtain ⟨name, field⟩ := f
      obtain ⟨w, hw, -⟩ : ∃ w, Keyed.find name m = some w ∧ Conforms field w := hc.2.1
      have hm : m ≠ [] := by
        rintro rfl
        cases hw
      cases ds <;> simp_all [getValue, getByIndex, KeptPlain]
  | union branches => exact absurd rfl hb

theorem union_restored_iff {branches : List Schema} (hd : Distinct branches) (hc : Conforms (.union branches) v) :
    Restored C (.union branches) v ↔ Accepts C (.union branches) v ∧ Kept (.union branches) v := by
  obtain ⟨i, c, hi, hcv⟩ := exists_of_conformsSome hc
  constructor
  · intro h
    obtain ⟨d, hset⟩ := h.selected branches rfl i c hi hcv
    refine ⟨(isSome_setValue (.union branches) v).1 (Option.isSome_of_eq_some hset), ?_⟩
    cases hf : branches.find? (hit · v) with
    | none =>
      rw [setUnion_none (by simpa using hf)] at hset
      cases hset
    | some b =>
      obtain ⟨hb, before, after, rfl, hbefore⟩ := List.find?_eq_some_iff_append.1 hf
      rw [setUnion_append _ hb (by simpa using hbefore)] at hset
      obtain ⟨d', hd', heq⟩ := Option.map_eq_some_iff.1 hset
      obtain ⟨hlen, rfl⟩ := Datum.union.inj heq
      rw [← hlen, Nat.zero_add, List.getElem?_append_right le_rfl, Nat.sub_self] at hi
      obtain rfl : b = c := Option.some.inj hi
      have hplain := hd.plain b (by simp)
      refine ⟨b, hf, ?_, (plain_restored_iff hplain hcv hd').1 (h.read (.union i d') ?_)⟩
      · rintro rfl
        cases v <;> simp [hit, empty, Conforms] at hb hcv
      · rw [setValue, setUnion_append _ hb (by simpa using hbefore), hd', ← hlen]
        rfl
  · rintro ⟨ha, b, hf, hs, hk⟩
    obtain ⟨hb, before, after, rfl, hbefore⟩ := List.find?_eq_some_iff_append.1 hf
    have hunion := setUnion_append (C := C) after hb (by simpa using hbefore) 0
    obtain ⟨rfl, rfl⟩ := index_of_hit hd hs hb hi hcv
    obtain ⟨a, hset⟩ := Option.isSome_iff_exists.1 ((isSome_setValue _ v).2 ha)
    rw [setValue, hunion] at hset
    obtain ⟨d, hd', -⟩ := Option.map_eq_some_iff.1 hset
    refine ⟨fun a' ha' => ?_, ?_⟩
    · rw [setValue, hunion, hd'] at ha'
      obtain rfl := Option.some.inj ha'
      exact (plain_restored_iff (hd.plain _ (by simp)) hcv hd').2 hk
    · rintro _ heq j e hj hev
      obtain rfl := Schema.union.inj heq
      obtain ⟨rfl, rfl⟩ := index_of_hit hd hs hb hj hev
      exact ⟨d, by rw [hunion, hd', Nat.zero_add]; rfl⟩

/-- What is read is what was set if and only if `set_value` throws or the value
is kept; a union has to accept it as well. -/
theorem avro_restored_iff {s : Schema} (hd : ∀ branches, s = .union branches → Distinct branches) (hc : Conforms s v) :
    Restored C s v ↔ (Accepts C s v → Kept s v) ∧ ((∃ branches, s = .union branches) → Accepts C s v) := by
  have plain : s.kinds ≠ [] → (∀ branches, s ≠ .union branches) → Kept s v = KeptPlain s v →
      (Restored C s v ↔ (Accepts C s v → Kept s v) ∧ ((∃ branches, s = .union branches) → Accepts C s v)) := by
    intro hk hu hkept
    rw [hkept, and_iff_left fun h => absurd h.choose_spec (hu _), ← isSome_setValue, Option.isSome_iff_exists]
    constructor
    · rintro h ⟨a, ha⟩
      exact (plain_restored_iff hk hc ha).1 (h.read a ha)
    · intro h
      exact ⟨fun a ha => (plain_restored_iff hk hc ha).2 (h ⟨a, ha⟩), fun _ heq => absurd heq (hu _)⟩
  cases s with
  | union branches =>
    rw [union_restored_iff (hd branches rfl) hc]
    exact ⟨fun h => ⟨fun _ => h.2, fun _ => h.1⟩, fun h => ⟨h.2 ⟨_, rfl⟩, h.1 (h.2 ⟨_, rfl⟩)⟩⟩
  | string | bytes | int | long | boolean | null | enum | array | map | record =>
    exact plain (by simp [Schema.kinds]) (by simp) (by simp [Kept])

end

/-- Neither conversion is needed for an integer. -/
def noCasts : Casts := ⟨fun _ => 0, fun _ => 0, fun _ => 0, fun _ => false, fun _ => [], fun _ => []⟩

def optionalLong : Schema := .union [.null, .long]

theorem long_restored : Restored noCasts optionalLong (.uint 7) := by
  have hc : Conforms optionalLong (.uint 7) := by simp [optionalLong, Conforms, ConformsSome]
  refine (avro_restored_iff ?_ hc).2 ⟨fun _ => ⟨.long, rfl, by simp, trivial⟩, fun _ => ?_⟩
  · intro branches h
    obtain rfl := Schema.union.inj h
    exact ⟨by simp [Schema.kinds], by simp [Schema.kinds]⟩
  · exact (isSome_setValue optionalLong (.uint 7)).1 rfl

theorem boolean_not_restored :
    ¬ ∀ s v, (∀ branches, s = .union branches → Distinct branches) → Conforms s v → Restored noCasts s v := by
  intro h
  have := (h .boolean (.bool true) (by simp) trivial).read _ rfl
  cases this

end Avro

end CommonCore
