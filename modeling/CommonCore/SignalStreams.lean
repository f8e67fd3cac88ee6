import CommonCore.Histories
import CommonCore.QueuedReplicas
import CommonCore.Replicas

/-!
# Signals streamed over gRPC

A server connects the queue of a new stream to its signals one after the other,
each of which replays its cache into it, and then appends an empty message. The
client makes what it receives emissions of its own signals, whose caches outlive
the stream.
-/

namespace CommonCore

namespace SignalStream

/-- The fields of the `oneof`, by the kind of signal that is encoded in them. -/
inductive Name (δ π σ μ : Type)
  | data (i : δ)
  /-- A `DataSignal` of pointers. -/
  | pointer (i : π)
  | shared (i : σ)
  | mapping (i : μ)
  deriving DecidableEq

variable {δ π σ μ V : Type}

def Name.mapping? : Name δ π σ μ → Option μ
  | .mapping i => some i
  | _ => none

abbrev Entries (V : Type) := List (Sigma fun _ : String => V)

/-- The `Signal` message of the service. -/
structure Msg (δ π σ μ V : Type) where
  mappingAction : MappingAction := .none
  mappingKey : String := ""
  signal : Option (Name δ π σ μ × V) := none

/-- What the signals of a process have cached. -/
structure Caches (δ π σ μ V : Type) where
  data : δ → Option V := fun _ => none
  /-- A value is cached, which is a pointer, and may be empty. -/
  pointer : π → Option (Option V) := fun _ => none
  /-- A pointer, which may be empty. -/
  shared : σ → Option V := fun _ => none
  mapping : μ → AList fun _ : String => V := fun _ => ∅

/-! ## The slots of a queue -/

def isMapped : MappingAction → Option Bool
  | .addition | .update => some true
  | .removal => some false
  | .none => none

/-- The handlers decode a pointer if `is_mapped` has an answer, whichever it is. -/
def decodedShared (action : MappingAction) (v : V) : Option V := if (isMapped action).isSome then some v else none

def booleanMapping (present : Bool) : MappingAction := if present then .update else .removal

namespace Msg

def ofData (i : δ) (value : V) : Msg δ π σ μ V := { signal := some (.data i, value) }

/-- `encode_shared` leaves the field of an empty pointer as it was created. Of the
services, one sets no mapping action, and its handler does not ask for any. -/
def ofPointer [Inhabited V] (i : π) (value : Option V) : Msg δ π σ μ V :=
  { mappingAction := booleanMapping value.isSome, signal := some (.pointer i, value.getD default) }

/-- The message is encoded only if there is a value. -/
def ofShared (i : σ) (value : Option V) : Msg δ π σ μ V := { signal := value.map fun v => (.shared i, v) }

def ofMapping (i : μ) (action : MappingAction) (key : String) (value : V) : Msg δ π σ μ V :=
  { mappingAction := action, mappingKey := key, signal := some (.mapping i, value) }

end Msg

namespace Caches

/-- `emit_cached_to`, where `entries` are those of the cache if the signal has a mapping. -/
def cachedMessages [Inhabited V] (c : Caches δ π σ μ V) (entries : Entries V) : Name δ π σ μ → List (Msg δ π σ μ V)
  | .data i => ((c.data i).map (Msg.ofData i)).toList
  | .pointer i => ((c.pointer i).map (Msg.ofPointer i)).toList
  | .shared i => ((c.shared i).map fun v => Msg.ofShared i (some v)).toList
  | .mapping i => entries.map fun e => .ofMapping i .addition e.1 e.2

/-- These are the entries that the signal replays. -/
def Replays (c : Caches δ π σ μ V) (entries : Entries V) : Name δ π σ μ → Prop
  | .mapping i => entries.Perm (c.mapping i).entries
  | _ => True

instance [DecidableEq V] (c : Caches δ π σ μ V) (entries : Entries V) (n : Name δ π σ μ) : Decidable (c.Replays entries n) :=
  match n with
  | .mapping i => inferInstanceAs (Decidable (entries.Perm (c.mapping i).entries))
  | .data _ | .pointer _ | .shared _ => inferInstanceAs (Decidable True)

variable [DecidableEq δ] [DecidableEq π] [DecidableEq σ] [DecidableEq μ]

def emitData (c : Caches δ π σ μ V) (i : δ) (value : V) : Caches δ π σ μ V :=
  { c with data := Function.update c.data i (some value) }

def emitPointer (c : Caches δ π σ μ V) (i : π) (value : Option V) : Caches δ π σ μ V :=
  { c with pointer := Function.update c.pointer i (some value) }

def emitShared (c : Caches δ π σ μ V) (i : σ) (value : Option V) : Caches δ π σ μ V :=
  { c with shared := Function.update c.shared i value }

def emitMapping (c : Caches δ π σ μ V) (i : μ) (action : MappingAction) (key : String) (value : V) : Caches δ π σ μ V :=
  let signal : MappingSignal String V := { caching := true, cached := c.mapping i }
  { c with mapping := Function.update c.mapping i (signal.emitAction action key value).cached }

/-- The handlers of a client: `on_init_complete` leaves the signals as they are. -/
def process (c : Caches δ π σ μ V) (msg : Msg δ π σ μ V) : Caches δ π σ μ V :=
  match msg.signal with
  | none => c
  | some (.data i, v) => c.emitData i v
  | some (.pointer i, v) => c.emitPointer i (decodedShared msg.mappingAction v)
  | some (.shared i, v) => c.emitShared i (some v)
  | some (.mapping i, v) => c.emitMapping i msg.mappingAction msg.mappingKey v

end Caches

/-! ## The stream -/

/-- Why a message is in the queue. -/
inductive Origin
  | replayed | emitted | completion
  deriving DecidableEq

abbrev Queue (δ π σ μ V : Type) := List (Origin × Msg δ π σ μ V)

structure Stream (δ π σ μ V : Type) where
  connected : List (Name δ π σ μ) := []
  toConnect : List (Name δ π σ μ)
  /-- The empty message is in the queue, and the queue is written to the client. -/
  initialized : Bool := false
  queue : Queue δ π σ μ V := []
  /-- The client has received the empty message that ends the cache. -/
  complete : Bool := false

structure Link (δ π σ μ V : Type) where
  server : Caches δ π σ μ V := {}
  client : Caches δ π σ μ V := {}
  stream : Option (Stream δ π σ μ V) := none

inductive Action (δ π σ μ V : Type)
  | emitData (i : δ) (value : V)
  | emitPointer (i : π) (value : Option V)
  | emitShared (i : σ) (value : Option V)
  | emitMapping (i : μ) (action : MappingAction) (key : String) (value : V)
  | watch
  | connect (entries : Entries V)
  | complete
  | deliver
  | disconnect

inductive Event (δ π σ μ V : Type)
  /-- `on_init_complete` is called for a message, before the replayed ones that are left. -/
  | initComplete (origin : Origin) (left : Queue δ π σ μ V)

/-- The signals of a service that a client watches. -/
structure Watched (δ π σ μ : Type) where
  names : List (Name δ π σ μ)
  nodup : names.Nodup

namespace Link

variable [DecidableEq δ] [DecidableEq π] [DecidableEq σ] [DecidableEq μ]

def forward (s : Link δ π σ μ V) (n : Name δ π σ μ) (msg : Msg δ π σ μ V) : Link δ π σ μ V :=
  { s with
    stream := s.stream.map fun st =>
      if n ∈ st.connected then { st with queue := st.queue ++ [(.emitted, msg)] } else st }

/-- The next signal is connected, and its cache replayed. -/
def connect [Inhabited V] (s : Link δ π σ μ V) (st : Stream δ π σ μ V) (n : Name δ π σ μ) (rest : List (Name δ π σ μ)) (entries : Entries V) :
    Link δ π σ μ V :=
  { s with
    stream := some { st with
      connected := st.connected ++ [n]
      toConnect := rest
      queue := st.queue ++ (s.server.cachedMessages entries n).map (Prod.mk .replayed) } }

def step [DecidableEq V] [Inhabited V] (watched : Watched δ π σ μ) (s : Link δ π σ μ V) : Action δ π σ μ V → Option (Link δ π σ μ V)
  | .emitData i value => some ({ s with server := s.server.emitData i value }.forward (.data i) (.ofData i value))
  | .emitPointer i value =>
    some ({ s with server := s.server.emitPointer i value }.forward (.pointer i) (.ofPointer i value))
  | .emitShared i value =>
    some ({ s with server := s.server.emitShared i value }.forward (.shared i) (.ofShared i value))
  | .emitMapping i action key value =>
    some ({ s with server := s.server.emitMapping i action key value }.forward (.mapping i)
      (.ofMapping i action key value))
  | .watch =>
    match s.stream with
    | none => some { s with stream := some { toConnect := watched.names } }
    | some _ => none
  | .connect entries =>
    match s.stream with
    | some st =>
      match st.toConnect with
      | n :: rest => if s.server.Replays entries n then some (s.connect st n rest entries) else none
      | [] => none
    | none => none
  | .complete =>
    match s.stream with
    | some st =>
      if st.toConnect = [] ∧ st.initialized = false then
        some { s with stream := some { st with initialized := true, queue := st.queue ++ [(.completion, {})] } }
      else none
    | none => none
  | .deliver =>
    match s.stream with
    | some st =>
      match st.initialized, st.queue with
      | true, (origin, msg) :: rest =>
        some { s with
          client := s.client.process msg
          stream := some { st with queue := rest, complete := st.complete || origin == .completion } }
      | _, _ => none
    | none => none
  | .disconnect => s.stream.map fun _ => { s with stream := none }

def event (s : Link δ π σ μ V) : Action δ π σ μ V → Option (Event δ π σ μ V)
  | .deliver =>
    match s.stream with
    | some st =>
      match st.initialized, st.queue with
      | true, (origin, msg) :: rest =>
        if msg.signal.isNone then some (.initComplete origin (rest.filter fun e => e.1 = .replayed)) else none
      | _, _ => none
    | none => none
  | _ => none

/-- The signal that is connected next. -/
def next (s : Link δ π σ μ V) : Option (Name δ π σ μ) := s.stream.bind fun st => st.toConnect.head?

/-- The client has received the end of the cache, and all that has followed. -/
def Settled (s : Link δ π σ μ V) : Prop := ∃ st, s.stream = some st ∧ st.complete = true ∧ st.queue = []

end Link

def watch [DecidableEq δ] [DecidableEq π] [DecidableEq σ] [DecidableEq μ] [DecidableEq V] [Inhabited V]
    (watched : Watched δ π σ μ) : Machine (Link δ π σ μ V) (Action δ π σ μ V) (Event δ π σ μ V) :=
  { step := Link.step watched, event := Link.event }

/-! ## Caches as cells -/

/-- What a cache holds one value for. -/
inductive Cell (δ π σ μ : Type)
  | data (i : δ)
  | pointer (i : π)
  | shared (i : σ)
  | mapping (i : μ) (key : String)
  deriving DecidableEq

def Cell.name : Cell δ π σ μ → Name δ π σ μ
  | .data i => .data i
  | .pointer i => .pointer i
  | .shared i => .shared i
  | .mapping i _ => .mapping i

/-- The value that is cached in a cell, which is empty in a pointer only. -/
def Caches.cell (c : Caches δ π σ μ V) : Cell δ π σ μ → Option (Option V)
  | .data i => (c.data i).map some
  | .pointer i => c.pointer i
  | .shared i => (c.shared i).map some
  | .mapping i key => ((c.mapping i).lookup key).map some

/-- The cell that a message writes. -/
def Msg.effect (msg : Msg δ π σ μ V) : Option (Cell δ π σ μ × Option (Option V)) :=
  match msg.signal with
  | none => none
  | some (.data i, v) => some (.data i, some (some v))
  | some (.pointer i, v) => some (.pointer i, some (decodedShared msg.mappingAction v))
  | some (.shared i, v) => some (.shared i, some (some v))
  | some (.mapping i, v) =>
    match msg.mappingAction with
    | .addition | .update => some (.mapping i msg.mappingKey, some (some v))
    | .removal => some (.mapping i msg.mappingKey, none)
    | .none => none

open QueuedReplica

section Cells

variable [DecidableEq δ] [DecidableEq π] [DecidableEq σ] [DecidableEq μ] (c : Caches δ π σ μ V)

theorem cell_emitData (i : δ) (value : V) :
    (c.emitData i value).cell = write (some (.data i, some (some value))) c.cell := by
  funext x
  cases x with
  | data j => by_cases e : j = i <;> simp [Caches.emitData, Caches.cell, write, e]
  | pointer | shared | mapping => simp [Caches.emitData, Caches.cell, write]

theorem cell_emitPointer (i : π) (value : Option V) :
    (c.emitPointer i value).cell = write (some (.pointer i, some value)) c.cell := by
  funext x
  cases x with
  | pointer j => by_cases e : j = i <;> simp [Caches.emitPointer, Caches.cell, write, e]
  | data | shared | mapping => simp [Caches.emitPointer, Caches.cell, write]

theorem cell_emitShared (i : σ) (value : Option V) :
    (c.emitShared i value).cell = write (some (.shared i, value.map some)) c.cell := by
  funext x
  cases x with
  | shared j => by_cases e : j = i <;> simp [Caches.emitShared, Caches.cell, write, e]
  | data | pointer | mapping => simp [Caches.emitShared, Caches.cell, write]

theorem cell_emitMapping (i : μ) (action : MappingAction) (key : String) (value : V) :
    (c.emitMapping i action key value).cell = write (Msg.ofMapping i action key value : Msg δ π σ μ V).effect c.cell := by
  have looked : ∀ k, ((c.emitMapping i action key value).mapping i).lookup k =
      action.on key value (fun k => (c.mapping i).lookup k) k := by
    intro k
    simp only [Caches.emitMapping, Function.update_self]
    exact MappingSignal.emitAction_lookup rfl action key value k
  funext x
  cases x with
  | data | pointer | shared =>
    cases action <;> simp [Caches.emitMapping, Caches.cell, Msg.effect, Msg.ofMapping, write]
  | mapping j k =>
    by_cases e : j = i
    · subst e
      rw [Caches.cell, looked]
      by_cases named : k = key <;> cases action <;>
        simp [Caches.cell, Msg.effect, Msg.ofMapping, write, MappingAction.on, named]
    · cases action <;>
        simp [Caches.emitMapping, Caches.cell, Msg.effect, Msg.ofMapping, write, e]

/-- A client makes of a message what it says of the cell. -/
theorem cell_process (msg : Msg δ π σ μ V) : (c.process msg).cell = write msg.effect c.cell := by
  obtain ⟨action, key, signal⟩ := msg
  rcases signal with _ | ⟨i | i | i | i, v⟩
  · rfl
  · exact cell_emitData c i v
  · exact cell_emitPointer c i _
  · exact cell_emitShared c i (some v)
  · exact cell_emitMapping c i action key v

end Cells

end SignalStream

end CommonCore
