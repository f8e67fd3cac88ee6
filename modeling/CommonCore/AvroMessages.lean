import CommonCore.Variant

/-!
# ProtoBuf messages in Avro values

One recursion over the fields of a message type builds a schema, and another one
fills an Avro value of that schema from a message of the type.
-/

namespace CommonCore.AvroProto

/-! ## Message types -/

/-- The scalar types of a field. -/
inductive Scalar
  | int32 | sint32 | sfixed32 | uint32 | fixed32
  | int64 | sint64 | sfixed64 | uint64 | fixed64
  | double | float | bool | string | bytes
  deriving DecidableEq

def Scalar.Val : Scalar → Type
  | .int32 | .sint32 | .sfixed32 => Int32
  | .uint32 | .fixed32 => UInt32
  | .int64 | .sint64 | .sfixed64 => Int64
  | .uint64 | .fixed64 => UInt64
  | .double | .float => Double
  | .bool => Bool
  | .string | .bytes => Bytes

/-- The well-known types that have a conversion of their own. -/
inductive WellKnown
  | doubleValue | floatValue | int64Value | uint64Value | int32Value | uint32Value | stringValue | bytesValue | boolValue
  | duration | timestamp | value | listValue | struct
  deriving DecidableEq

/-- The types of the package `cc.protobuf.variant` that have one. -/
inductive VariantType
  | value | valueList | keyValueMap
  deriving DecidableEq

/-- A message holds what it is decoded to; times are in nanoseconds. -/
def VariantType.Val : VariantType → Type
  | .value => Value
  | .valueList => List Value
  | .keyValueMap => KeyValueMap

def WellKnown.Val : WellKnown → Type
  | .doubleValue | .floatValue => Double
  | .int64Value | .duration | .timestamp => Int64
  | .uint64Value => UInt64
  | .int32Value => Int32
  | .uint32Value => UInt32
  | .stringValue | .bytesValue => Bytes
  | .boolValue => Bool
  | .value => Value
  | .listValue => List Value
  | .struct => KeyValueMap

/-- An enumeration has a name and a number for each of its values. The names are
without the prefix that they share. -/
structure EnumDescriptor where
  name : Bytes
  values : List (Bytes × Int32)
  deriving DecidableEq

inductive Label
  | single
  /-- In a `oneof`, which an optional field is by itself. -/
  | optional
  | repeated
  | map (key : Scalar)
  deriving DecidableEq

structure FieldInfo where
  name : Bytes
  label : Label
  deriving DecidableEq

/-- The type of a field, and of a message. A type that is not recursive is a
tree. -/
inductive Ty
  | scalar (s : Scalar)
  | enum (e : EnumDescriptor)
  | wellKnown (w : WellKnown)
  | variant (v : VariantType)
  /-- `known` of well-known types without a conversion. -/
  | message (known : Bool) (name : Bytes) (fields : List (FieldInfo × Ty))

/-- The value of a field, by its label. A map has an entry for each key. -/
def Label.Of (α : Type) : Label → Type
  | .single => α
  | .optional => Option α
  | .repeated => List α
  | .map key => List (key.Val × α)

mutual
/-- A message of the type, with a value for each field. -/
def Ty.Val : Ty → Type
  | .scalar s => s.Val
  | .enum _ => Int32
  | .wellKnown w => w.Val
  | .variant v => v.Val
  | .message _ _ fields => FieldsVal fields
termination_by structural t => t
def FieldVal : FieldInfo × Ty → Type
  | (info, t) => info.label.Of t.Val
termination_by structural f => f
def FieldsVal : List (FieldInfo × Ty) → Type
  | [] => Unit
  | f :: fields => FieldVal f × FieldsVal fields
termination_by structural fields => fields
end

/-! ## Schemas -/

inductive Prim
  | null | boolean | int | long | float | double | string | bytes
  deriving DecidableEq

/-- A schema, in which a name stands for what it was given to before. -/
inductive Schema
  | prim (p : Prim)
  | ref (name : Bytes)
  | enum (name : Bytes) (symbols : List Bytes)
  | array (items : Schema)
  | map (values : Schema)
  | record (name : Bytes) (fields : List (Bytes × Schema))
  | union (branches : List Schema)

def Prim.name : Prim → Bytes
  | .null => ascii "null"
  | .boolean => ascii "boolean"
  | .int => ascii "int"
  | .long => ascii "long"
  | .float => ascii "float"
  | .double => ascii "double"
  | .string => ascii "string"
  | .bytes => ascii "bytes"

def Prim.all : List Prim := [.null, .boolean, .int, .long, .float, .double, .string, .bytes]

/-- A schema that is only a name. -/
def ofName (name : Bytes) : Schema :=
  match Prim.all.find? fun p => p.name = name with
  | some p => .prim p
  | none => .ref name

def typeNameVariant : Bytes := ascii "Variant"

def schemaFieldVariantValue : Bytes := ascii "value"

/-- `BuilderContext::build`, given what is already defined. -/
def build (defined : List Bytes) (name : Bytes) (schema : Schema) : Schema × List Bytes :=
  if defined.any fun n => n = name then (ofName name, defined) else (schema, name :: defined)

/-- The scalar part of `field_schema`. -/
def Scalar.schema : Scalar → Prim
  | .int32 | .sint32 | .sfixed32 | .uint32 | .fixed32 => .int
  | .int64 | .sint64 | .sfixed64 | .uint64 | .fixed64 => .long
  | .double => .double
  | .float => .float
  | .bool => .boolean
  | .string => .string
  | .bytes => .bytes

def variantAlternates : List Schema :=
  [.prim .null, .prim .string, .prim .bytes, .prim .boolean, .prim .long, .prim .double]

def variantSchema (defined : List Bytes) : Schema × List Bytes :=
  build defined typeNameVariant (.record typeNameVariant [(schemaFieldVariantValue, .union variantAlternates)])

def variantListSchema (defined : List Bytes) : Schema × List Bytes := (variantSchema defined).map .array id

def variantMapSchema (defined : List Bytes) : Schema × List Bytes := (variantSchema defined).map .map id

/-- The well-known types of `from_descriptor`. -/
def WellKnown.schema : WellKnown → List Bytes → Schema × List Bytes
  | .doubleValue, defined => (.prim .double, defined)
  | .floatValue, defined => (.prim .float, defined)
  | .int64Value, defined | .uint64Value, defined => (.prim .long, defined)
  | .int32Value, defined | .uint32Value, defined => (.prim .int, defined)
  | .stringValue, defined => (.prim .string, defined)
  | .bytesValue, defined => (.prim .bytes, defined)
  | .boolValue, defined => (.prim .boolean, defined)
  | .duration, defined | .timestamp, defined => (.prim .long, defined)
  | .value, defined => variantSchema defined
  | .listValue, defined => variantListSchema defined
  | .struct, defined => variantMapSchema defined

def VariantType.schema : VariantType → List Bytes → Schema × List Bytes
  | .value, defined => variantSchema defined
  | .keyValueMap, defined => variantMapSchema defined
  | .valueList, defined => variantListSchema defined

/-- `field` and the `oneof` part of `add_fields`. A map field is also repeated. -/
def wrap : Label → Schema → Schema
  | .single, schema => schema
  | .optional, schema => .union [.prim .null, schema]
  | .repeated, schema => .array schema
  | .map _, schema => .array (.map schema)

mutual
/-- `field_schema` and `from_descriptor`. The fields of a type that is already
defined are visited all the same. -/
def Ty.schema : Ty → List Bytes → Schema × List Bytes
  | .scalar s, defined => (.prim s.schema, defined)
  | .enum e, defined => build defined e.name (.enum e.name (e.values.map Prod.fst))
  | .wellKnown w, defined => w.schema defined
  | .variant v, defined => v.schema defined
  | .message _ name fields, defined =>
    if defined.any fun n => n = name then (ofName name, (fieldsSchema fields defined).2)
    else
      let r := fieldsSchema fields (name :: defined)
      (.record name r.1, r.2)
termination_by structural t => t
def fieldSchema : FieldInfo × Ty → List Bytes → (Bytes × Schema) × List Bytes
  | (info, t), defined =>
    let r := t.schema defined
    ((info.name, wrap info.label r.1), r.2)
termination_by structural f => f
def fieldsSchema : List (FieldInfo × Ty) → List Bytes → List (Bytes × Schema) × List Bytes
  | [], defined => ([], defined)
  | f :: fields, defined =>
    let r := fieldSchema f defined
    let rest := fieldsSchema fields r.2
    (r.1 :: rest.1, rest.2)
termination_by structural fields => fields
end

mutual
/-- The names that a schema defines, after those defined before it, or `none`
where it uses one that is not defined. -/
def Schema.declare : Schema → List Bytes → Option (List Bytes)
  | .prim _, known => some known
  | .ref name, known => if known.any fun n => n = name then some known else none
  | .enum name _, known => some (name :: known)
  | .array items, known => items.declare known
  | .map values, known => values.declare known
  | .record name fields, known => declareFields fields (name :: known)
  | .union branches, known => declareBranches branches known
termination_by structural s => s
def declareField : Bytes × Schema → List Bytes → Option (List Bytes)
  | (_, s), known => s.declare known
termination_by structural f => f
def declareFields : List (Bytes × Schema) → List Bytes → Option (List Bytes)
  | [], known => some known
  | f :: fields, known => (declareField f known).bind (declareFields fields)
termination_by structural fields => fields
def declareBranches : List Schema → List Bytes → Option (List Bytes)
  | [], known => some known
  | b :: branches, known => (b.declare known).bind (declareBranches branches)
termination_by structural branches => branches
end

mutual
/-- The definitions in a schema. -/
def Schema.defs : Schema → List (Bytes × Schema)
  | .prim _ | .ref _ => []
  | .enum name symbols => [(name, .enum name symbols)]
  | .array items => items.defs
  | .map values => values.defs
  | .record name fields => (name, .record name fields) :: fieldsDefs fields
  | .union branches => branchesDefs branches
termination_by structural s => s
def fieldDefs : Bytes × Schema → List (Bytes × Schema)
  | (_, s) => s.defs
termination_by structural f => f
def fieldsDefs : List (Bytes × Schema) → List (Bytes × Schema)
  | [] => []
  | f :: fields => fieldDefs f ++ fieldsDefs fields
termination_by structural fields => fields
def branchesDefs : List Schema → List (Bytes × Schema)
  | [] => []
  | b :: branches => b.defs ++ branchesDefs branches
termination_by structural branches => branches
end

/-! ## Values -/

/-- What the Avro values hold. A number is the one that is given to the library,
before it is converted to the type that holds it, and the index of an enumerator
is `none` where it is not one of the enumeration's. -/
inductive Datum
  | null
  | boolean (b : Bool)
  | int (n : Int)
  | long (n : Int)
  | float (x : Double)
  | double (x : Double)
  | string (s : Bytes)
  | bytes (b : Bytes)
  | enum (symbols : List Bytes) (index : Option ℕ)
  | array (elements : List Datum)
  | map (elements : List (Bytes × Datum))
  | record (fields : List (Bytes × Datum))
  | union (discriminant : ℕ) (branch : Datum)

inductive Failure
  | schema
  /-- A status of the Avro library that is not zero. -/
  | status
  | mismatchedName
  | assertion
  deriving DecidableEq

/-- What `set_int` and its likes are called with. -/
structure Setter where
  prim : Prim
  datum : Datum

section
variable (charText : UInt8 → Bytes) (G : List (Bytes × Schema))

/-- The schema that a name stands for. -/
def resolve : Schema → Schema
  | .ref name => (G.lookup name).getD (.ref name)
  | schema => schema

def Setter.set (schema : Schema) (s : Setter) : Except Failure Datum :=
  match resolve G schema with
  | .prim p => if p = s.prim then .ok s.datum else .error .status
  | _ => .error .status

def getFieldByIndex (schema : Schema) (index : ℕ) (expectedName : Bytes) : Except Failure Schema :=
  match resolve G schema with
  | .record _ fields =>
    match fields[index]? with
    | some (name, field) => if name = expectedName then .ok field else .error .mismatchedName
    | none => .error .status
  | _ => .error .status

def setBranch (schema : Schema) (discriminant : ℕ) : Except Failure Schema :=
  match resolve G schema with
  | .union branches =>
    match branches[discriminant]? with
    | some branch => .ok branch
    | none => .error .status
  | _ => .error .status

/-- The number of the enumerator is sought among those of the enumeration. -/
def setEnum (e : EnumDescriptor) (schema : Schema) (number : Int32) : Except Failure Datum :=
  match resolve G schema with
  | .enum _ symbols => .ok (.enum symbols (e.values.findIdx? fun v => v.2 = number))
  | _ => .error .status

/-- The elements of an array. -/
def setArray {α : Type} (assign : Schema → α → Except Failure Datum) (schema : Schema) (elements : List α) : Except Failure Datum :=
  match resolve G schema with
  | .array items => (elements.mapM (assign items)).map .array
  | _ => .error .assertion

/-- The elements of a map. -/
def setMap {α : Type} (assign : Schema → α → Except Failure Datum) (schema : Schema) (elements : List (Bytes × α)) :
    Except Failure Datum :=
  match resolve G schema with
  | .map values => (elements.mapM fun e => (assign values e.2).map (Prod.mk e.1)).map .map
  | _ => .error .assertion

/-- By the type that the reflection reads the field as. -/
def Scalar.setter : (s : Scalar) → s.Val → Setter
  | .int32, n | .sint32, n | .sfixed32, n => ⟨.int, .int (Int32.toInt n)⟩
  | .int64, n | .sint64, n | .sfixed64, n => ⟨.long, .long (Int64.toInt n)⟩
  | .uint32, n | .fixed32, n => ⟨.int, .int (UInt32.toNat n)⟩
  | .uint64, n | .fixed64, n => ⟨.long, .long (UInt64.toNat n)⟩
  | .double, x => ⟨.double, .double x⟩
  | .float, x => ⟨.float, .float x⟩
  | .bool, b => ⟨.boolean, .boolean b⟩
  | .string, s => ⟨.string, .string s⟩
  | .bytes, b => ⟨.bytes, .bytes b⟩

def milliseconds (nanoseconds : Int) : Int := nanoseconds / 10 ^ 6

/-- The branch of a variant value, and what is set there. Lists and maps are
left out. -/
def variantSetter : Value → ℕ × Setter
  | .none => (0, ⟨.null, .null⟩)
  | .bool b => (3, ⟨.boolean, .boolean b⟩)
  | .uint n => (4, ⟨.long, .long n.toNat⟩)
  | .sint n => (4, ⟨.long, .long n.toInt⟩)
  | .char c => (1, ⟨.string, .string (charText c)⟩)
  | .string s => (1, ⟨.string, .string s⟩)
  | .real r => (5, ⟨.double, .double r⟩)
  | .bytevector b => (2, ⟨.bytes, .bytes b⟩)
  | .timepoint t => (4, ⟨.long, .long (milliseconds t)⟩)
  | .duration d => (4, ⟨.long, .long (milliseconds d)⟩)
  | _ => (0, ⟨.null, .null⟩)

def setVariant (schema : Schema) (variant : Value) : Except Failure Datum :=
  (getFieldByIndex G schema 0 schemaFieldVariantValue).bind fun field =>
    (setBranch G field (variantSetter charText variant).1).bind fun branch =>
      ((variantSetter charText variant).2.set G branch).map fun datum =>
        .record [(schemaFieldVariantValue, .union (variantSetter charText variant).1 datum)]

/-- `assign_from_wellknown`, by the C++ class of the message. -/
def WellKnown.assign : (w : WellKnown) → Schema → w.Val → Except Failure Datum
  | .timestamp, schema, t => Setter.set G schema ⟨.long, .long (milliseconds (Int64.toInt t))⟩
  | .duration, schema, d => Setter.set G schema ⟨.long, .long (milliseconds (Int64.toInt d))⟩
  | .value, schema, v => setVariant charText G schema v
  | .listValue, schema, l => setArray G (setVariant charText G) schema l
  | .struct, schema, m => setMap G (setVariant charText G) schema m
  | .boolValue, schema, b => Setter.set G schema ⟨.boolean, .boolean b⟩
  | .doubleValue, schema, x => Setter.set G schema ⟨.double, .double x⟩
  | .floatValue, schema, x => Setter.set G schema ⟨.float, .float x⟩
  | .int64Value, schema, n => Setter.set G schema ⟨.long, .long (Int64.toInt n)⟩
  | .uint64Value, schema, n => Setter.set G schema ⟨.long, .long (UInt64.toNat n)⟩
  | .int32Value, schema, n => Setter.set G schema ⟨.int, .int (Int32.toInt n)⟩
  | .uint32Value, schema, n => Setter.set G schema ⟨.int, .int (UInt32.toNat n)⟩
  | .stringValue, schema, s => Setter.set G schema ⟨.string, .string s⟩
  | .bytesValue, schema, b => Setter.set G schema ⟨.bytes, .bytes b⟩

def VariantType.assign : (v : VariantType) → Schema → v.Val → Except Failure Datum
  | .value, schema, v => setVariant charText G schema v
  | .valueList, schema, l => setArray G (setVariant charText G) schema l
  | .keyValueMap, schema, m => setMap G (setVariant charText G) schema m

/-- `assign_from_repeated_field`, `assign_from_mapped_field`, and what
`assign_from_field` does for a field of a `oneof` and for any other, given how
the items of the field are assigned. -/
def assignLabel {α : Type} (assign : Schema → α → Except Failure Datum) :
    (label : Label) → Schema → label.Of α → Except Failure Datum
  | .map .string, schema, elements => setMap G assign schema elements
  | .map _, _, _ => .error .assertion
  | .repeated, schema, elements => setArray G assign schema elements
  | .optional, schema, some a => (setBranch G schema 1).bind fun branch => (assign branch a).map (.union 1)
  | .optional, schema, none => (setBranch G schema 0).bind fun branch => (Setter.set G branch ⟨.null, .null⟩).map (.union 0)
  | .single, schema, a => assign schema a

mutual
/-- `assign_from_single_field`, and `assign_from_message` for a message. -/
def Ty.assign : (t : Ty) → Schema → t.Val → Except Failure Datum
  | .scalar s, schema, v => Setter.set G schema (s.setter v)
  | .enum e, schema, number => setEnum G e schema number
  | .wellKnown w, schema, v => w.assign charText G schema v
  | .variant v, schema, x => v.assign charText G schema x
  | .message known _ fields, schema, v =>
    -- There is no conversion from other well-known types.
    if known then Setter.set G schema ⟨.null, .null⟩
    else (assignFields fields schema 0 v).map .record
termination_by structural t => t
def assignField : (f : FieldInfo × Ty) → Schema → FieldVal f → Except Failure Datum
  | (info, t), schema, v => assignLabel G t.assign info.label schema v
termination_by structural f => f
/-- `assign_from_custom`, from the field with that index on. -/
def assignFields : (fields : List (FieldInfo × Ty)) → Schema → ℕ → FieldsVal fields → Except Failure (List (Bytes × Datum))
  | [], _, _, _ => .ok []
  | f :: fields, schema, index, v =>
    (getFieldByIndex G schema index f.1.name).bind fun field =>
      (assignField f field v.1).bind fun datum =>
        (assignFields fields schema (index + 1) v.2).map ((f.1.name, datum) :: ·)
termination_by structural fields => fields
end

end

/-- `ProtoBufValue`, of a message of that type. -/
def convert (charText : UInt8 → Bytes) (t : Ty) (msg : t.Val) : Except Failure Datum :=
  let schema := (t.schema []).1
  match schema.declare [] with
  | none => .error .schema
  | some _ => t.assign charText schema.defs schema msg

/-! ## Agreement -/

def FitsInt (n : Int) : Prop := -2 ^ 31 ≤ n ∧ n < 2 ^ 31

def FitsLong (n : Int) : Prop := -2 ^ 63 ≤ n ∧ n < 2 ^ 63

mutual
/-- Each number lies in the range of the type that holds it, and each enumerator
is one of the symbols. -/
def Datum.InRange : Datum → Prop
  | .int n => FitsInt n
  | .long n => FitsLong n
  | .enum symbols index => ∃ i, index = some i ∧ i < symbols.length
  | .array elements => elementsInRange elements
  | .map elements => entriesInRange elements
  | .record fields => entriesInRange fields
  | .union _ branch => branch.InRange
  | .null | .boolean _ | .float _ | .double _ | .string _ | .bytes _ => True
termination_by structural d => d
def elementsInRange : List Datum → Prop
  | [] => True
  | d :: elements => d.InRange ∧ elementsInRange elements
termination_by structural l => l
def entryInRange : Bytes × Datum → Prop
  | (_, d) => d.InRange
termination_by structural e => e
def entriesInRange : List (Bytes × Datum) → Prop
  | [] => True
  | e :: entries => entryInRange e ∧ entriesInRange entries
termination_by structural l => l
end

/-- The schema and the value of a message agree. -/
def Agrees (charText : UInt8 → Bytes) (t : Ty) (msg : t.Val) : Prop :=
  ∃ datum, convert charText t msg = .ok datum ∧ datum.InRange

/-! ## What is converted -/

/-- Unsigned numbers share the types of the signed ones. -/
def Scalar.Fits : (s : Scalar) → s.Val → Prop
  | .uint32, n | .fixed32, n => UInt32.toNat n < 2 ^ 31
  | .uint64, n | .fixed64, n => UInt64.toNat n < 2 ^ 63
  | .int32, _ | .sint32, _ | .sfixed32, _ | .int64, _ | .sint64, _ | .sfixed64, _ | .double, _ | .float, _ | .bool, _ | .string, _
  | .bytes, _ => True

/-- As every time of 64 bits does. -/
def VariantFits : Value → Prop
  | .uint n => n.toNat < 2 ^ 63
  | .timepoint t | .duration t => FitsLong (milliseconds t)
  | _ => True

def AllFit (l : List Value) : Prop := ∀ v ∈ l, VariantFits v

def EntriesFit (m : KeyValueMap) : Prop := ∀ e ∈ m, VariantFits e.2

def WellKnown.Fits : (w : WellKnown) → w.Val → Prop
  | .uint32Value, n => UInt32.toNat n < 2 ^ 31
  | .uint64Value, n => UInt64.toNat n < 2 ^ 63
  | .value, v => VariantFits v
  | .listValue, l => AllFit l
  | .struct, m => EntriesFit m
  | _, _ => True

def VariantType.Fits : (v : VariantType) → v.Val → Prop
  | .value, v => VariantFits v
  | .valueList, l => AllFit l
  | .keyValueMap, m => EntriesFit m

def Each {α : Type} (P : α → Prop) (l : List α) : Prop := ∀ a ∈ l, P a

/-- There is no map field, and all items of the field are converted. -/
def LabelConvertible {α : Type} (convertible : α → Prop) : (label : Label) → label.Of α → Prop
  | .map _, _ => False
  | .repeated, elements => Each convertible elements
  | .optional, some a => convertible a
  | .optional, none => True
  | .single, a => convertible a

mutual
/-- Neither the message nor one that is reached in it has a map field or is of a
well-known type without a conversion, enumerators are known, and unsigned
numbers are small. -/
def Ty.Convertible : (t : Ty) → t.Val → Prop
  | .scalar s, v => s.Fits v
  | .enum e, number => number ∈ e.values.map Prod.snd
  | .wellKnown w, v => w.Fits v
  | .variant v, x => v.Fits x
  | .message known _ fields, v => known = false ∧ FieldsConvertible fields v
termination_by structural t => t
def FieldConvertible : (f : FieldInfo × Ty) → FieldVal f → Prop
  | (info, t), v => LabelConvertible t.Convertible info.label v
termination_by structural f => f
def FieldsConvertible : (fields : List (FieldInfo × Ty)) → FieldsVal fields → Prop
  | [], _ => True
  | f :: fields, v => FieldConvertible f v.1 ∧ FieldsConvertible fields v.2
termination_by structural fields => fields
end

mutual
/-- The types to which a message type gives names, also inside it. -/
def Ty.named : Ty → List (Bytes × Ty)
  | .scalar _ => []
  | .enum e => [(e.name, .enum e)]
  | .wellKnown w => match w with
    | .value | .listValue | .struct => [(typeNameVariant, .variant .value)]
    | _ => []
  | .variant _ => [(typeNameVariant, .variant .value)]
  | .message known name fields => (name, .message known name fields) :: fieldsNamed fields
termination_by structural t => t
def fieldNamed : FieldInfo × Ty → List (Bytes × Ty)
  | (_, t) => t.named
termination_by structural f => f
def fieldsNamed : List (FieldInfo × Ty) → List (Bytes × Ty)
  | [] => []
  | f :: fields => fieldNamed f ++ fieldsNamed fields
termination_by structural fields => fields
end

/-- No two types have the same simple name, and none that of an Avro type. -/
structure Unambiguous (named : List (Bytes × Ty)) : Prop where
  unique : ∀ n t u, (n, t) ∈ named → (n, u) ∈ named → t = u
  unreserved : ∀ n t, (n, t) ∈ named → n ∉ Prim.all.map Prim.name

end CommonCore.AvroProto
