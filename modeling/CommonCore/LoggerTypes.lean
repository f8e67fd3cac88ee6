import CommonCore.Variant

/-!
# Loggable items and log sinks

The data types of the logger: what is logged, and the specifications of sinks
and of listeners.
-/

namespace CommonCore

/-- `core::types::ValueType`. -/
inductive ValueType
  | none | bool | char | uint | sint | real | complex | string | bytevector | timepoint | duration
  | valuelist | tvlist | kvmap
  deriving DecidableEq

/-- `core::dt::TimeUnit`. -/
inductive TimeUnit
  | zeroTime | nanosecond | microsecond | millisecond | second | minute | hour | day | week | month | year | eternity
  deriving DecidableEq

structure DateTimeInterval where
  unit : TimeUnit := .zeroTime
  count : Int64 := 0
  deriving DecidableEq

namespace Logging

/-! ## Items -/

structure Scope where
  name : Bytes
  threshold : Level

abbrev Scopes := Keyed.Filed Bytes Scope Scope.name

/-- A scope stays as it was created first. -/
def Scope.create (scopes : Scopes) (name : Bytes) (threshold : Level) : Scope × Scopes :=
  match scopes.get? name with
  | some scope => (scope, scopes)
  | none => ({ name, threshold }, scopes.insertOrAssign { name, threshold })

/-- `core::logging::Message`, with what it inherits from `Event`. -/
structure Message where
  text : Bytes := []
  level : Level := .none
  scope : Option Scope := none
  origin : Bytes := []
  timepoint : Int := 0
  path : Bytes := []
  lineno : UInt32 := 0
  function : Bytes := []
  threadId : Int32 := 0
  threadName : Bytes := []
  taskName : Bytes := []
  host : Bytes := []
  attributes : KeyValueMap := []

def Message.scopename (message : Message) : Bytes :=
  match message.scope with
  | some scope => scope.name
  | none => []

structure Data where
  contractId : Bytes := []
  timepoint : Int := 0
  attributes : KeyValueMap := []

/-- The specializations of `core::types::Loggable` that are sent to a logger. -/
inductive Loggable
  | message (message : Message)
  | data (data : Data)
  | error (error : Error)

/-! ## Specifications -/

structure ColumnSpec where
  fieldName : Bytes
  columnName : Option Bytes := none
  columnType : ValueType := .none
  deriving DecidableEq

structure SinkSpec where
  sinkId : Bytes := []
  sinkType : Bytes := []
  contractId : Option Bytes := none
  minLevel : Level := .none
  filenameTemplate : Bytes := []
  rotationInterval : DateTimeInterval := {}
  useLocalTime : Bool := true
  compressAfterUse : Bool := true
  expirationInterval : DateTimeInterval := {}
  columns : List ColumnSpec := []
  deriving DecidableEq

structure ListenerSpec where
  sinkId : Bytes := []
  minLevel : Level := .none
  contractId : Option Bytes := none
  hosts : Std.ExtTreeSet Bytes compare := ∅
  applications : Std.ExtTreeSet Bytes compare := ∅

end Logging

end CommonCore
