import CommonCore.Histories
import CommonCore.VariantProto

/-!
# Requests and replies over ZeroMQ

A client calls one method after the other over a socket that sends and receives
in turn. A request that cannot be sent and a reply that has not come in time are
not told apart by what the client does next; the server answers a request when it
gets to it.
-/

namespace CommonCore

namespace ZeroMQ

inductive StatusCode
  | ok | accepted | invalid | cancelled | failed
  | other (code : Int)
  deriving DecidableEq

variable {D : Type}

structure Status (D : Type) where
  code : StatusCode
  details : D

/-- The `oneof` of a parameter. -/
inductive Parameter
  | unset
  | variantValue (m : Message)
  | serializedProto (b : Bytes)

/-- A field that is not selected reads as the empty message. -/
def Parameter.variant : Parameter → Message
  | .variantValue m => m
  | _ => .unset

structure Request where
  clientId : UInt32
  requestId : UInt32
  interfaceName : Bytes
  methodName : Bytes
  param : Parameter

structure Reply (D : Type) where
  clientId : UInt32
  requestId : UInt32
  status : Status D
  param : Parameter

/-- What a call returns or throws on what it has received. -/
def callResult (order : KeyValueMap → KeyValueMap) : Option (Reply D) → Except (Status D) Value
  | none => .ok .none
  | some reply =>
    match reply.status.code with
    | .ok | .accepted => .ok (reply.param.variant.decode order)
    | _ => .error reply.status

/-- A client with its socket, the server's side of it included. -/
structure ProtoBufClient (D : Type) where
  clientId : UInt32
  interfaceName : Bytes
  lastRequestId : UInt32 := 0
  /-- How many calls have been made. -/
  calls : ℕ := 0
  /-- The call that is being made, with whether its request has been sent. -/
  call : Option Bool := none
  /-- The socket has sent, and is to receive before it sends again. -/
  outstanding : Bool := false
  /-- What the server has yet to answer, with the number of the call. -/
  requests : List (ℕ × Request) := []
  replies : List (Reply D) := []

inductive Action (D : Type)
  /-- `delivered` is whether the socket takes the message, if it is to send. -/
  | call (methodName : Bytes) (request : Value) (delivered : Bool)
  | respond (i : ℕ) (status : Status D) (param : Parameter)
  /-- `failed` is whether there is an error although a reply is there. -/
  | receive (failed : Bool)

inductive Event (D : Type)
  | replied (number : ℕ) (reply : Reply D)
  | returned (number : ℕ) (received : Option (Reply D)) (result : Except (Status D) Value)

namespace ProtoBufClient

def send (s : ProtoBufClient D) (request : Request) (delivered : Bool) : ProtoBufClient D :=
  if s.outstanding || !delivered then { s with call := some false } -- logged by send_request
  else
    { s with
      call := some true
      outstanding := true
      requests := s.requests ++ [(s.calls, request)] }

def sendInvocation (s : ProtoBufClient D) (methodName : Bytes) (param : Parameter) (delivered : Bool) :
    ProtoBufClient D :=
  let requestId := s.lastRequestId + 1
  { s with lastRequestId := requestId, calls := s.calls + 1 }.send
    { clientId := s.clientId, requestId := requestId, interfaceName := s.interfaceName
      methodName := methodName, param := param } delivered

/-- `receive_reply`: without an outstanding reply the socket does not receive. -/
def receiveReply (s : ProtoBufClient D) (failed : Bool) : Option (Reply D) × ProtoBufClient D :=
  match s.outstanding && !failed, s.replies with
  | true, reply :: rest => (some reply, { s with outstanding := false, replies := rest })
  | _, _ => (none, s)

/-- `process_protobuf_request`, with what the handler has answered. -/
def reply (request : Request) (status : Status D) (param : Parameter) : Reply D :=
  { clientId := request.clientId, requestId := request.requestId, status := status, param := param }

def step (s : ProtoBufClient D) : Action D → Option (ProtoBufClient D)
  | .call methodName request delivered =>
    match s.call with
    | none => some (s.sendInvocation methodName (.variantValue request.encode) delivered)
    | some _ => none
  | .respond i status param =>
    s.requests[i]?.map fun p =>
      { s with requests := s.requests.eraseIdx i, replies := s.replies ++ [reply p.2 status param] }
  | .receive failed => s.call.map fun _ => { (s.receiveReply failed).2 with call := none }

def event (order : KeyValueMap → KeyValueMap) (s : ProtoBufClient D) : Action D → Option (Event D)
  | .call _ _ _ => none
  | .respond i status param => s.requests[i]?.map fun p => .replied p.1 (reply p.2 status param)
  | .receive failed =>
    s.call.map fun _ => .returned s.calls (s.receiveReply failed).1 (callResult order (s.receiveReply failed).1)

end ProtoBufClient

def rpc (D : Type) (order : KeyValueMap → KeyValueMap) : Machine (ProtoBufClient D) (Action D) (Event D) :=
  { step := ProtoBufClient.step, event := ProtoBufClient.event order }

/-- Every call gets the reply that its own request has had, or none, and its result is from that. -/
def Correlated (order : KeyValueMap → KeyValueMap) (h : List (Event D)) : Prop :=
  ∀ later number received result earlier, h = later ++ .returned number received result :: earlier →
    (∀ reply, received = some reply → .replied number reply ∈ earlier) ∧ result = callResult order received

/-- A call that could not send its request does not come upon a reply. -/
def Orderly (_ : List (Event D)) (s : ProtoBufClient D) : Action D → Prop
  | .receive false => s.call = some false → s.replies = []
  | _ => True

/-! ## What is under way -/

variable {order : KeyValueMap → KeyValueMap} {h : List (Event D)} {s s' : ProtoBufClient D}

/-- At most one request is under way, and by its number it is told from the current call. -/
structure Tracked (h : List (Event D)) (s : ProtoBufClient D) : Prop where
  single : s.requests.length + s.replies.length ≤ 1
  quiet : s.outstanding = false → s.requests = [] ∧ s.replies = []
  asked : ∀ p ∈ s.requests, p.1 ≤ s.calls
  replied : ∀ n reply, .replied n reply ∈ h → n ≤ s.calls
  sent : s.call = some true → (∀ p ∈ s.requests, p.1 = s.calls) ∧ ∀ reply ∈ s.replies, .replied s.calls reply ∈ h
  unsent : s.call = some false →
    (∀ p ∈ s.requests, p.1 < s.calls) ∧ ∀ n reply, .replied n reply ∈ h → n < s.calls

theorem tracked_start (clientId : UInt32) (interfaceName : Bytes) :
    Tracked ([] : List (Event D)) { clientId := clientId, interfaceName := interfaceName } := by
  constructor <;> simp

theorem Tracked.call (tracked : Tracked h s) (methodName : Bytes) (param : Parameter) (delivered : Bool) :
    Tracked h (s.sendInvocation methodName param delivered) := by
  simp only [ProtoBufClient.sendInvocation, ProtoBufClient.send]
  split
  next => -- the call's number is new, and nothing under way bears it
    refine { single := tracked.single, quiet := tracked.quiet, asked := ?_, replied := ?_, sent := ?_, unsent := ?_ }
    · intro p mem
      exact Nat.le_succ_of_le (tracked.asked p mem)
    · intro n reply mem
      exact Nat.le_succ_of_le (tracked.replied n reply mem)
    · simp
    · intro _
      exact ⟨fun p mem => Nat.lt_succ_of_le (tracked.asked p mem),
        fun n reply mem => Nat.lt_succ_of_le (tracked.replied n reply mem)⟩
  next idle =>
    have free : s.outstanding = false := by
      cases e : s.outstanding
      · rfl
      · simp [e] at idle
    obtain ⟨no_request, no_reply⟩ := tracked.quiet free
    refine { single := ?_, quiet := ?_, asked := ?_, replied := ?_, sent := ?_, unsent := ?_ }
    · simp [no_request, no_reply]
    · simp
    · simp [no_request]
    · intro n reply mem
      exact Nat.le_succ_of_le (tracked.replied n reply mem)
    · simp [no_request, no_reply]
    · simp

theorem Tracked.respond (tracked : Tracked h s) {i : ℕ} {p : ℕ × Request} (found : s.requests[i]? = some p)
    (reply : Reply D) :
    Tracked (.replied p.1 reply :: h)
      { s with requests := s.requests.eraseIdx i, replies := s.replies ++ [reply] } := by
  obtain ⟨only, no_reply⟩ : s.requests = [p] ∧ s.replies = [] := by
    have mem := List.mem_of_getElem? found
    have single := tracked.single
    cases e : s.requests with
    | nil => simp [e] at mem
    | cons q rest =>
      cases e' : s.replies with
      | nil =>
        cases rest with
        | nil =>
          simp only [e, List.mem_singleton] at mem
          simp [mem]
        | cons =>
          simp only [e, List.length_cons] at single
          omega
      | cons =>
        simp only [e, e', List.length_cons] at single
        omega
  have i_zero : i = 0 := by
    have := (List.getElem?_eq_some_iff.mp found).1
    simpa [only] using this
  subst i_zero
  refine { single := ?_, quiet := ?_, asked := ?_, replied := ?_, sent := ?_, unsent := ?_ }
  · simp [only, no_reply]
  · intro free
    simpa [only] using (tracked.quiet free).1
  · simp [only]
  · intro n r mem
    rcases List.mem_cons.mp mem with e | mem
    · obtain ⟨rfl, rfl⟩ := Event.replied.inj e
      exact tracked.asked p (by simp [only])
    · exact tracked.replied n r mem
  · intro call
    have number := (tracked.sent call).1 p (by simp [only])
    simp [only, no_reply, number]
  · intro call
    refine ⟨by simp [only], ?_⟩
    intro n r mem
    rcases List.mem_cons.mp mem with e | mem
    · obtain ⟨rfl, rfl⟩ := Event.replied.inj e
      exact (tracked.unsent call).1 p (by simp [only])
    · exact (tracked.unsent call).2 n r mem

theorem receiveReply_cases (s : ProtoBufClient D) (failed : Bool) :
    s.receiveReply failed = (none, s) ∨
      ∃ reply rest, failed = false ∧ s.replies = reply :: rest ∧
        s.receiveReply failed = (some reply, { s with outstanding := false, replies := rest }) := by
  unfold ProtoBufClient.receiveReply
  split
  next reply rest ready found =>
    refine .inr ⟨reply, rest, ?_, found, rfl⟩
    cases failed
    · rfl
    · simp at ready
  next => exact .inl rfl

theorem Tracked.receive (tracked : Tracked h s) (failed : Bool) (received : Option (Reply D))
    (result : Except (Status D) Value) :
    Tracked (.returned s.calls received result :: h) { (s.receiveReply failed).2 with call := none } := by
  have replied : ∀ n reply, .replied n reply ∈ Event.returned s.calls received result :: h → n ≤ s.calls := by
    intro n reply mem
    exact tracked.replied n reply (by simpa using mem)
  rcases receiveReply_cases s failed with e | ⟨reply, rest, -, found, e⟩
  · rw [e]
    exact { single := tracked.single, quiet := tracked.quiet, asked := tracked.asked, replied := replied
            sent := by simp, unsent := by simp }
  · have single := tracked.single
    simp only [found, List.length_cons] at single
    have no_request : s.requests = [] := List.eq_nil_of_length_eq_zero (by omega)
    have no_more : rest = [] := List.eq_nil_of_length_eq_zero (by omega)
    rw [e]
    exact { single := by simp [no_request, no_more], quiet := by simp [no_request, no_more]
            asked := by simp [no_request], replied := replied, sent := by simp, unsent := by simp }

theorem tracked_step (tracked : Tracked h s) (a : Action D) (stepped : s.step a = some s') :
    Tracked ((rpc D order).log h s a) s' := by
  cases a with
  | call methodName request delivered =>
    simp only [ProtoBufClient.step] at stepped
    split at stepped
    · obtain rfl := Option.some.inj stepped
      exact tracked.call _ _ _
    · cases stepped
  | respond i status param =>
    obtain ⟨p, found, rfl⟩ := Option.map_eq_some_iff.mp stepped
    have e : (rpc D order).event s (.respond i status param) = some (.replied p.1 (ProtoBufClient.reply p.2 status param)) := by
      simp [rpc, ProtoBufClient.event, found]
    rw [Machine.log_of_some _ e]
    exact tracked.respond found _
  | receive failed =>
    obtain ⟨sent, call, rfl⟩ := Option.map_eq_some_iff.mp stepped
    have e : (rpc D order).event s (.receive failed) =
        some (.returned s.calls (s.receiveReply failed).1 (callResult order (s.receiveReply failed).1)) := by
      simp [rpc, ProtoBufClient.event, call]
    rw [Machine.log_of_some _ e]
    exact tracked.receive failed _ _

variable {clientId : UInt32} {interfaceName : Bytes}

/-- A client before its first call. -/
def start (D : Type) (clientId : UInt32) (interfaceName : Bytes) : ProtoBufClient D :=
  { clientId := clientId, interfaceName := interfaceName }

theorem tracked_of_run {allowed : List (Event D) → ProtoBufClient D → Action D → Prop}
    (run : (rpc D order).Run allowed (start D clientId interfaceName) h s) : Tracked h s :=
  run.invariant (tracked_start clientId interfaceName) fun _ _ a _ tracked _ stepped => tracked_step tracked a stepped

/-! ## Whose reply a call gets -/

theorem correlated_cons (e : Event D) (h : List (Event D)) : Correlated order (e :: h) ↔ Correlated order h ∧
    ∀ number received result, e = .returned number received result →
      (∀ reply, received = some reply → .replied number reply ∈ h) ∧ result = callResult order received := by
  constructor
  · intro correlated
    refine ⟨?_, ?_⟩
    · rintro later number received result earlier rfl
      exact correlated (e :: later) number received result earlier rfl
    · rintro number received result rfl
      exact correlated [] number received result h rfl
  · rintro ⟨correlated, new⟩ later number received result earlier split
    cases later with
    | nil =>
      obtain ⟨returned, rfl⟩ := List.cons.inj split
      exact new number received result returned
    | cons _ later =>
      obtain ⟨-, split⟩ := List.cons.inj split
      exact correlated later number received result earlier split

theorem correlated_step (tracked : Tracked h s) (correlated : Correlated order h) {a : Action D}
    (ok : Orderly h s a) (stepped : s.step a = some s') : Correlated order ((rpc D order).log h s a) := by
  cases e : (rpc D order).event s a with
  | none => rwa [Machine.log_of_none _ e]
  | some x =>
    rw [Machine.log_of_some _ e]
    refine (correlated_cons x h).mpr ⟨correlated, ?_⟩
    rintro number received result rfl
    cases a with
    | call => cases e
    | respond i status param => simp [rpc, ProtoBufClient.event] at e
    | receive failed =>
      obtain ⟨sent, call, e⟩ := Option.map_eq_some_iff.mp e
      obtain ⟨rfl, rfl, rfl⟩ := Event.returned.inj e
      refine ⟨?_, rfl⟩
      intro reply got
      rcases receiveReply_cases s failed with none | ⟨reply', rest, rfl, found, some⟩
      · simp [none] at got
      · rw [some] at got
        obtain rfl := Option.some.inj got
        cases sent with
        | false => simp [ok call] at found
        | true => exact (tracked.sent call).2 reply' (by simp [found])

/-- A call that could not send its request gets a reply to another one. -/
theorem orderly_of_correlated (tracked : Tracked h s) (a : Action D) (stepped : s.step a = some s')
    (correlated : Correlated order ((rpc D order).log h s a)) : Orderly h s a := by
  cases a with
  | call | respond => trivial
  | receive failed =>
    cases failed with
    | true => trivial
    | false =>
      intro call
      by_contra ready
      obtain ⟨reply, rest, found⟩ := List.exists_cons_of_ne_nil ready
      have outstanding : s.outstanding = true := by
        by_contra free
        exact ready (tracked.quiet (by simpa using free)).2
      have e : (rpc D order).event s (.receive false) =
          some (.returned s.calls (some reply) (callResult order (some reply))) := by
        simp [rpc, ProtoBufClient.event, call, ProtoBufClient.receiveReply, outstanding, found]
      rw [Machine.log_of_some _ e] at correlated
      have answered := (((correlated_cons _ h).mp correlated).2 _ _ _ rfl).1 reply rfl
      have earlier := (tracked.unsent call).2 s.calls reply answered
      omega

/-- The runs in which every call gets the reply to its own request, or none. -/
theorem correlated_iff (clientId : UInt32) (interfaceName : Bytes) (h : List (Event D)) (s : ProtoBufClient D) :
    (rpc D order).Run Machine.anyStep (start D clientId interfaceName) h s ∧ Correlated order h ↔
      (rpc D order).Run Orderly (start D clientId interfaceName) h s := by
  constructor
  · rintro ⟨run, correlated⟩
    refine run.confine (fun x h ok => ((correlated_cons x h).mp ok).1) ?_ correlated
    intro h s a s' run stepped ok
    exact orderly_of_correlated (tracked_of_run run) a stepped ok
  · intro run
    refine ⟨run.mono fun _ _ _ _ => trivial, ?_⟩
    have both : Tracked h s ∧ Correlated order h := by
      refine run.invariant (I := fun h s => Tracked h s ∧ Correlated order h)
        ⟨tracked_start clientId interfaceName, ?_⟩ ?_
      · intro later number received result earlier split
        simp at split
      · intro h s a s' both ok stepped
        exact ⟨tracked_step both.1 a stepped, correlated_step both.1 both.2 ok stepped⟩
    exact both.2

def lateReply : Reply Unit :=
  { clientId := 1, requestId := 1, status := { code := .ok, details := () }, param := .variantValue (.bool true) }

/-- A reply that comes after its call has given up, and before the next call has. -/
def lateReplied : List (Action Unit) :=
  [.call [] .none true, .receive false, .respond 0 lateReply.status lateReply.param,
    .call [] .none true, .receive false]

theorem lateReplied_not_correlated : ¬ ∀ (h : List (Event Unit)) (s : ProtoBufClient Unit),
    (rpc Unit id).Run Machine.anyStep (start Unit 1 []) h s → Correlated id h := by
  intro all
  have run := Machine.Run.exec .start
    (show (rpc Unit id).exec Machine.anyStep lateReplied ([], start Unit 1 []) = some (_, _) from rfl)
  have answered : .replied 2 lateReply ∈ [Event.replied 1 lateReply, .returned 1 none (.ok .none)] :=
    (((correlated_cons _ _).mp (all _ _ run)).2 2 (some lateReply) _ rfl).1 lateReply rfl
  simp at answered

end ZeroMQ

end CommonCore
