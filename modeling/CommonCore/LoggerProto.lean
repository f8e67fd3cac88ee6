import CommonCore.EventProto
import CommonCore.LoggerTypes

/-!
# Logger specifications and items in protobuf messages

What a client of the logger sends: the specification of a sink or a listener,
and what it logs.
-/

namespace CommonCore.Logging

open Netconfig (Enumeration castFrom)

/-! ## Messages -/

instance : Enumeration TimeUnit where
  number unit := unit.ctorIdx
  cast := castFrom (fun unit => unit.ctorIdx) .zeroTime
    [.nanosecond, .microsecond, .millisecond, .second, .minute, .hour, .day, .week, .month, .year, .eternity]
  cast_number unit := by cases unit <;> rfl

namespace Proto

inductive ColumnType
  | coltypeNone | coltypeBool | coltypeInt | coltypeReal | coltypeText | coltypeBlob | coltypeDatetime
  deriving DecidableEq

structure ColumnSpec where
  fieldName : Bytes
  columnName : Option Bytes
  columnType : ColumnType

structure Interval where
  unit : Int
  count : Int64

structure SinkSpec where
  sinkId : Bytes
  sinkType : Bytes
  filenameTemplate : Bytes
  rotationInterval : Interval
  useLocalTime : Bool
  minLevel : Int
  contractId : Option Bytes
  columns : List ColumnSpec

structure ListenerSpec where
  sinkId : Bytes
  minLevel : Int
  contractId : Option Bytes
  hosts : List Bytes
  applications : List Bytes

structure Message where
  text : Bytes
  timestamp : Int × Int
  level : Int
  host : Bytes
  application : Bytes
  logScope : Bytes
  threadId : Int32
  threadName : Bytes
  taskName : Bytes
  sourcePath : Bytes
  sourceLine : UInt32
  functionName : Bytes
  attributes : List (Bytes × CommonCore.Message)

structure Data where
  contractId : Bytes
  timestamp : Int × Int
  attributes : List (Bytes × CommonCore.Message)

/-- `event_type_case` -/
inductive Loggable
  | notSet
  | message (message : Message)
  | data (data : Data)
  | error (error : CommonCore.Proto.Error)

end Proto

/-! ## Encoding -/

def encodeTimestamp (tp : Int) : Int × Int := ((toTimespec tp).1, toInt32 (toTimespec tp).2)

def Message.encode (native : Message) : Proto.Message where
  text := native.text
  timestamp := encodeTimestamp native.timepoint
  level := Enumeration.number native.level
  host := native.host
  application := native.origin
  logScope := native.scopename
  threadId := native.threadId
  threadName := native.threadName
  taskName := native.taskName
  sourcePath := native.path
  sourceLine := native.lineno
  functionName := native.function
  attributes := encodeKeyed native.attributes

def Data.encode (native : Data) : Proto.Data where
  contractId := native.contractId
  timestamp := encodeTimestamp native.timepoint
  attributes := encodeKeyed native.attributes

def Loggable.encode : Loggable → Proto.Loggable
  | .message m => .message m.encode
  | .data d => .data d.encode
  | .error e => .error e.encode

/-- The types that columns have in messages. -/
def coltypeMap : List (ValueType × Proto.ColumnType) :=
  [(.none, .coltypeNone), (.bool, .coltypeBool), (.sint, .coltypeInt), (.real, .coltypeReal),
    (.string, .coltypeText), (.bytevector, .coltypeBlob), (.timepoint, .coltypeDatetime)]

def encodeColumnType (native : ValueType) : Proto.ColumnType := (coltypeMap.lookup native).getD .coltypeNone

def ColumnSpec.encode (native : ColumnSpec) : Proto.ColumnSpec where
  fieldName := native.fieldName
  columnName := native.columnName
  columnType := encodeColumnType native.columnType

/-- `compress_after_use` and `expiration_interval` have no part in it. -/
def SinkSpec.encode (native : SinkSpec) : Proto.SinkSpec where
  sinkId := native.sinkId
  sinkType := native.sinkType
  filenameTemplate := native.filenameTemplate
  rotationInterval := { unit := Enumeration.number native.rotationInterval.unit, count := native.rotationInterval.count }
  useLocalTime := native.useLocalTime
  minLevel := Enumeration.number native.minLevel
  contractId := native.contractId
  columns := native.columns.map ColumnSpec.encode

def ListenerSpec.encode (native : ListenerSpec) : Proto.ListenerSpec where
  sinkId := native.sinkId
  minLevel := Enumeration.number native.minLevel
  contractId := native.contractId
  hosts := native.hosts.toList
  applications := native.applications.toList

/-! ## Decoding -/

section
variable (V : Visiting)

/-- A process in which messages are decoded: its scopes, and the one that is used
where a message names none. -/
structure Receiver where
  scopes : Scopes
  logScope : Scope
  defaultHost : Bytes

def Proto.Message.decode (R : Receiver) (proto : Proto.Message) : Logging.Message × Scopes :=
  let level : Level := Enumeration.cast proto.level
  let (scope, scopes) :=
    if proto.logScope ≠ [] then Scope.create R.scopes proto.logScope level else (R.logScope, R.scopes)
  let host := if proto.host ≠ [] then proto.host else R.defaultHost
  ({ text := proto.text
     level
     scope
     origin := proto.application
     timepoint := toTimepoint proto.timestamp.1 proto.timestamp.2
     path := proto.sourcePath
     lineno := proto.sourceLine
     function := proto.functionName
     threadId := proto.threadId
     threadName := proto.threadName
     taskName := proto.taskName
     host
     attributes := decodeAttributes V proto.attributes },
    scopes)

def Proto.Data.decode (proto : Proto.Data) : Logging.Data where
  contractId := proto.contractId
  timepoint := toTimepoint proto.timestamp.1 proto.timestamp.2
  attributes := decodeAttributes V proto.attributes

/-- `decode_loggable`. -/
def Proto.Loggable.decode (R : Receiver) : Proto.Loggable → Option Logging.Loggable
  | .message m => some (.message (m.decode V R).1)
  | .data d => some (.data (d.decode V))
  | .error e => some (.error (e.decode V))
  | .notSet => none

end

def decodeColumnType (proto : Proto.ColumnType) : ValueType :=
  coltypeMap.foldl (fun native candidate => if candidate.2 = proto then candidate.1 else native) .none

def Proto.ColumnSpec.decode (proto : Proto.ColumnSpec) : Logging.ColumnSpec where
  fieldName := proto.fieldName
  columnName := proto.columnName
  columnType := decodeColumnType proto.columnType

def Proto.SinkSpec.decode (proto : Proto.SinkSpec) : Logging.SinkSpec where
  sinkId := proto.sinkId
  sinkType := proto.sinkType
  filenameTemplate := proto.filenameTemplate
  rotationInterval := { unit := Enumeration.cast proto.rotationInterval.unit, count := proto.rotationInterval.count }
  useLocalTime := proto.useLocalTime
  minLevel := Enumeration.cast proto.minLevel
  contractId := proto.contractId
  columns := proto.columns.map Proto.ColumnSpec.decode

def Proto.ListenerSpec.decode (proto : Proto.ListenerSpec) : Logging.ListenerSpec where
  sinkId := proto.sinkId
  minLevel := Enumeration.cast proto.minLevel
  contractId := proto.contractId
  hosts := .ofList proto.hosts compare
  applications := .ofList proto.applications compare

/-! ## What comes back -/

/-- Every field is the same; scopes are the same if they have one name. -/
def Loggable.Same : Loggable → Loggable → Prop
  | .message m, .message m' => m' = { m with scope := m'.scope } ∧ m'.scopename = m.scopename
  | .data d, .data d' => d' = d
  | .error e, .error e' => e' = e
  | _, _ => False

def Loggable.attributes : Loggable → KeyValueMap
  | .message m => m.attributes
  | .data d => d.attributes
  | .error e => e.attributes

/-- A message has a host and a scope. -/
def Loggable.Named : Loggable → Prop
  | .message m => m.host ≠ [] ∧ m.scopename ≠ []
  | _ => True

theorem decode_encodeTimestamp (tp : Int) : toTimepoint (encodeTimestamp tp).1 (encodeTimestamp tp).2 = tp :=
  toTimepoint_toTimespec tp

theorem Scope.create_name (scopes : Scopes) (name : Bytes) (threshold : Level) : (Scope.create scopes name threshold).1.name = name := by
  unfold create
  cases hget : scopes.get? name with
  | none => rfl
  | some scope => exact Keyed.Filed.name_of_get? hget

theorem Message.decode_encode (V : Visiting) (R : Receiver) {m : Message} (hhost : m.host ≠ []) (hscope : m.scopename ≠ []) :
    (m.encode.decode V R).1 =
      { m with
        scope := (Scope.create R.scopes m.scopename m.level).1
        attributes := decodeAttributes V (encodeKeyed m.attributes) } := by
  simp [encode, Proto.Message.decode, hhost, hscope, Enumeration.cast_number, decode_encodeTimestamp]

theorem Loggable.decode_encode_iff (V : Visiting) (R : Receiver) {l : Loggable} (h : KeyValueMap.Sorted l.attributes)
    (hn : l.Named) : (∃ l', l.encode.decode V R = some l' ∧ l.Same l') ↔ TransferableMap l.attributes := by
  rw [← decodeAttributes_encodeKeyed_iff V h]
  cases l with
  | message m =>
    obtain ⟨hhost, hscope⟩ := hn
    simp only [encode, Proto.Loggable.decode, Message.decode_encode V R hhost hscope, Option.some.injEq,
      exists_eq_left', Same, attributes]
    simp only [Message.mk.injEq, true_and, and_true, Message.scopename, Scope.create_name]
  | data d =>
    obtain ⟨⟩ := d
    simp [encode, Data.encode, Proto.Loggable.decode, Proto.Data.decode, Same, attributes, decode_encodeTimestamp]
  | error e =>
    have he := (Error.decode_encode_iff V h).trans (decodeAttributes_encodeKeyed_iff V h).symm
    simpa [encode, Proto.Loggable.decode, Same] using he

theorem decodeColumnType_iff (t : ValueType) : decodeColumnType (encodeColumnType t) = t ↔ t ∈ coltypeMap.map Prod.fst := by
  cases t <;> decide

theorem ColumnSpec.decode_encode_iff (c : ColumnSpec) : c.encode.decode = c ↔ c.columnType ∈ coltypeMap.map Prod.fst := by
  rw [← decodeColumnType_iff]
  obtain ⟨⟩ := c
  simp [encode, Proto.ColumnSpec.decode]

theorem SinkSpec.decode_encode_iff (spec : SinkSpec) :
    spec.encode.decode = spec ↔
      spec.compressAfterUse = true ∧ spec.expirationInterval = {} ∧
        ∀ c ∈ spec.columns, c.columnType ∈ coltypeMap.map Prod.fst := by
  have hcolumns : (spec.columns.map ColumnSpec.encode).map Proto.ColumnSpec.decode = spec.columns ↔
      ∀ c ∈ spec.columns, c.columnType ∈ coltypeMap.map Prod.fst := by
    rw [List.map_map, map_eq_self_iff]
    exact forall₂_congr fun c _ => c.decode_encode_iff
  rw [← hcolumns]
  obtain ⟨⟩ := spec
  simp only [encode, Proto.SinkSpec.decode, Enumeration.cast_number, SinkSpec.mk.injEq, true_and, eq_comm (a := true),
    eq_comm (a := ({} : DateTimeInterval))]

theorem ListenerSpec.decode_encode (spec : ListenerSpec) : spec.encode.decode = spec := by
  obtain ⟨⟩ := spec
  simp only [encode, Proto.ListenerSpec.decode, Enumeration.cast_number, Keyed.treeSet_ofList_of_perm (.refl _)]

/-- Sinks come back exactly where nothing is set that their messages leave out,
listeners always, and items where all their attributes are transferable. -/
theorem logger_restored_iff (V : Visiting) :
    (∀ spec : SinkSpec, spec.encode.decode = spec ↔
      spec.compressAfterUse = true ∧ spec.expirationInterval = {} ∧
        ∀ c ∈ spec.columns, c.columnType ∈ coltypeMap.map Prod.fst) ∧
    (∀ spec : ListenerSpec, spec.encode.decode = spec) ∧
    ∀ (R : Receiver) (l : Loggable), KeyValueMap.Sorted l.attributes → l.Named →
      ((∃ l', l.encode.decode V R = some l' ∧ l.Same l') ↔ TransferableMap l.attributes) :=
  ⟨SinkSpec.decode_encode_iff, ListenerSpec.decode_encode, fun R _ h hn => Loggable.decode_encode_iff V R h hn⟩

def bootMessage : Loggable :=
  .message
    { text := ascii "booted"
      level := .notice
      scope := some { name := ascii "kernel", threshold := .none }
      timepoint := -1
      host := ascii "node"
      attributes := [(ascii "cores", .uint 4), (ascii "uptime", .duration (-2))] }

theorem bootMessage_restored (R : Receiver) : ∃ l', bootMessage.encode.decode inReverse R = some l' ∧ bootMessage.Same l' := by
  have hsorted : KeyValueMap.Sorted bootMessage.attributes := by
    refine ⟨?_, trivial, trivial, trivial⟩
    show List.Pairwise _ _
    decide
  have hnamed : bootMessage.Named := ⟨by decide, by decide⟩
  exact ((logger_restored_iff inReverse).2.2 R bootMessage hsorted hnamed).mpr ⟨trivial, trivial, trivial⟩

/-- Logs that expire after a month come back as logs that do not expire. -/
theorem expiration_not_restored : ¬ ∀ spec : SinkSpec, spec.encode.decode = spec := by
  intro h
  exact absurd (h { expirationInterval := { unit := .month, count := 1 } }) (by decide)

end CommonCore.Logging
