import CommonCore.Keyed
import CommonCore.Signal
import CommonCore.Variant

/-!
# Switches and their provider

A switch has a specification (aliases, dependencies on other switches,
interceptors) and a status. A `Board` is a provider with its switches, the
status signal they share, and what runs besides: the detached threads that
`updateDescendants` has started.

What a switch computes from its surroundings (`find`, `autoState`,
`getSuccessors`, ...) is a function of the board.
-/

namespace CommonCore

abbrev SwitchName := String

abbrev InterceptorName := String

/-! ## States and policies -/

/-- `switchboard::State`. -/
inductive State
  | unset | activating | active | deactivating | inactive | failing | failed
  deriving DecidableEq

abbrev StateMask := UInt32

namespace State

/-- Powers of two, for use in masks. -/
def value : State → StateMask
  | unset => 0x00
  | activating => 0x01
  | active => 0x02
  | deactivating => 0x04
  | inactive => 0x08
  | failing => 0x10
  | failed => 0x20

def isSettled : State → Bool
  | inactive | active | failed => true
  | _ => false

/-- `Switch::target_state(State)`. -/
def targetState : State → State
  | activating => active
  | deactivating => inactive
  | failing => failed
  | current => current

/-- `LocalSwitch::transition_state`. -/
def transitionState : State → State
  | active => activating
  | inactive => deactivating
  | failed => failing
  | _ => unset

/-- `LocalSwitch::target_position`. -/
def targetPosition (state : State) (current : Bool) : Bool :=
  match state with
  | inactive => false
  | active => true
  | _ => current

/-- `Switch::target_state(bool)`. -/
def ofActive (active : Bool) : State := if active then .active else .inactive

/-- `Dependency::inverted`. -/
def inverted : State → State
  | deactivating => activating
  | inactive => active
  | activating => deactivating
  | active => inactive
  | state => state

theorem transitionState_ne (t : State) (h : t ≠ unset) : t.transitionState ≠ t := by
  cases t <;> simp [transitionState] at h ⊢

theorem transitionState_ne_unset (t : State) : t.transitionState ≠ unset ↔ t.isSettled = true := by
  cases t <;> simp [transitionState, isSettled]

theorem isSettled_transitionState (t : State) : t.transitionState.isSettled = false := by
  cases t <;> rfl

theorem isSettled_ofActive (active : Bool) : (ofActive active).isSettled = true := by
  cases active <;> rfl

end State

def settledStates : StateMask := State.active.value ||| State.inactive.value ||| State.failed.value

def activationStates : StateMask := State.activating.value ||| State.deactivating.value

/-- `switchboard::ExceptionHandling`. -/
inductive ExceptionHandling
  | default | ignore | abort | fail | revert
  deriving DecidableEq

/-- Policies are compared by their place in the enumeration. -/
def ExceptionHandling.value : ExceptionHandling → ℕ
  | default => 0
  | ignore => 1
  | abort => 2
  | fail => 3
  | revert => 4

/-- `switchboard::DependencyPolarity`. -/
inductive DependencyPolarity
  | toggle | positive | negative
  deriving DecidableEq

/-- `switchboard::InterceptorPhase`. -/
inductive InterceptorPhase
  | early | normal | late
  deriving DecidableEq

/-! ## Specifications -/

/-- `switchboard::Dependency`. -/
structure Dependency where
  predecessorName : SwitchName
  triggerStates : StateMask := 0
  polarity : DependencyPolarity := .positive
  hard : Bool := false
  sufficient : Bool := false
  deriving DecidableEq

def Dependency.autoTrigger (d : Dependency) (predState : State) : Bool :=
  d.triggerStates &&& predState.value != 0

/-- `switchboard::Interceptor`, less its invocation: what that does is the
environment's choice. -/
structure Interceptor where
  name : InterceptorName
  owner : String := ""
  stateTransitions : StateMask := activationStates
  phase : InterceptorPhase := .normal
  asynchronous : Bool := false
  rerun : Bool := false
  onCancel : ExceptionHandling := .abort
  onError : ExceptionHandling := .fail
  logFailureLevel : Level := .notice
  deriving DecidableEq

/-- `applicable(State)`. -/
def Interceptor.applicable (ic : Interceptor) (state : State) : Bool :=
  ic.stateTransitions &&& state.value != 0

/-- `applicable(State, InterceptorPhase)`. -/
def Interceptor.applicableIn (ic : Interceptor) (state : State) (phase : InterceptorPhase) : Bool :=
  ic.applicable state && phase == ic.phase

abbrev DependencyMap := Keyed.Filed SwitchName Dependency Dependency.predecessorName

abbrev InterceptorMap := Keyed.Filed InterceptorName Interceptor Interceptor.name

/-- `switchboard::Localization`. -/
structure Localization where
  description : String := ""
  targetTexts : List (Bool × String) := []
  stateTexts : List (State × String) := []
  deriving DecidableEq

/-- `switchboard::Specification`. -/
structure Specification where
  primary : Bool := false
  aliases : Std.ExtTreeSet SwitchName compare := ∅
  localizations : Std.ExtTreeMap String Localization compare := ∅
  dependencies : DependencyMap := .empty
  interceptors : InterceptorMap := .empty

/-! ## Statuses -/

/-- `switchboard::Status`. -/
structure Status where
  currentState : State := .unset
  settledState : State := .unset
  active : Bool := false
  pending : Bool := false
  error : Option Error := none
  attributes : KeyValueMap := []

def sameError : Option Error → Option Error → Bool
  | none, none => true
  | some a, some b => a.same b
  | _, _ => false

theorem eq_of_sameError {a b : Option Error} (h : sameError a b = true) : a = b := by
  cases a <;> cases b <;> simp only [sameError, Bool.false_eq_true] at h
  · rfl
  · rw [Error.eq_of_same h]

/-- `operator==`, which leaves out `pending`. -/
instance : BEq Status where
  beq a b := a.currentState == b.currentState && a.settledState == b.settledState &&
    a.active == b.active && sameError a.error b.error && KeyValueMap.eqv a.attributes b.attributes

/-- Statuses that compare equal differ in `pending` at most. -/
theorem Status.eq_of_beq {a b : Status} (h : (a == b) = true) : a = { b with pending := a.pending } := by
  cases a; cases b
  simp only [BEq.beq, Bool.and_eq_true, decide_eq_true_eq] at h
  obtain ⟨⟨⟨⟨rfl, rfl⟩, rfl⟩, he⟩, ha⟩ := h
  rw [eq_of_sameError he, KeyValueMap.eq_of_eqv ha]

def Status.enter (s : Status) (state : State) : Status :=
  { s with
    currentState := state
    settledState := if state.isSettled then state else s.settledState }

/-- Write attributes, after clearing the existing ones or over them. -/
def Status.writeAttributes (s : Status) (attributes : KeyValueMap) (clearExisting : Bool) : Status :=
  { s with attributes := if clearExisting then attributes else KeyValueMap.update s.attributes attributes }

/-! ## Boards -/

/-- A detached thread that is to call `set_auto` on a switch. -/
structure Task where
  switch : SwitchName
  invokeInterceptors : Bool
  deriving DecidableEq

/-- A provider, `signal_status`, the detached threads, the name of the
executable (which errors mention), and the trace of the states that
`set_current_state` has entered, latest first. -/
structure Board where
  execName : Bytes
  /-- A log sink accepts messages at DEBUG. -/
  debugSink : Bool
  /-- A null pointer has been dereferenced. -/
  crashed : Bool
  switches : Std.ExtTreeSet SwitchName compare
  spec : SwitchName → Specification
  status : SwitchName → Status
  signalStatus : MappingSignal SwitchName Status
  threads : List Task
  entered : List (SwitchName × State)

namespace Board

/-- Switches as constructed, with their specifications. -/
def new (execName : Bytes) (switches : List SwitchName) (spec : SwitchName → Specification) : Board where
  execName
  debugSink := false
  crashed := false
  switches := switches.foldl (fun s n => s.insert n) ∅
  spec
  status _ := {}
  signalStatus := { caching := true }
  threads := []
  entered := []

/-- `Provider::find`: by name, else the first switch with such an alias. -/
def find (b : Board) (name : SwitchName) : Option SwitchName :=
  if name ∈ b.switches then some name
  else b.switches.toList.find? fun n => name ∈ (b.spec n).aliases

/-- `Dependency::predecessor`. -/
def predecessor (b : Board) (d : Dependency) : Option SwitchName := b.find d.predecessorName

/-- `Dependency::predecessor_state`. -/
def predecessorState (b : Board) (d : Dependency) : State :=
  match b.predecessor d with
  | some p => (b.status p).currentState
  | none => .unset

/-- `Dependency::derived_state`. -/
def derivedState (b : Board) (d : Dependency) (active : Bool) : State :=
  match d.polarity with
  | .positive => b.predecessorState d
  | .negative => (b.predecessorState d).inverted
  | .toggle => .ofActive (if d.autoTrigger (b.predecessorState d) then !active else active)

def getPredecessors (b : Board) (n : SwitchName) : List SwitchName :=
  (b.spec n).dependencies.values.filterMap b.predecessor

def getSuccessors (b : Board) (n : SwitchName) : List SwitchName :=
  b.switches.toList.filter fun q => ((b.spec q).dependencies.get? n).isSome

end Board

/-! ### The automatic state -/

/-- A mask of `SatisfactionLevel`s. -/
structure Satisfaction where
  pending : Bool := false
  weak : Bool := false
  strong : Bool := false
  deriving DecidableEq

/-- What `auto_state` collects from the dependencies. -/
structure Tally where
  satisfied : Satisfaction := {}
  unsatisfied : Satisfaction := {}
  failed : Satisfaction := {}
  undetermined : Satisfaction := {}
  deriving DecidableEq

/-- `|= STRONG` or `|= WEAK`. -/
def Satisfaction.raise (s : Satisfaction) (strong : Bool) : Satisfaction :=
  if strong then { s with strong := true } else { s with weak := true }

def Tally.add (t : Tally) (derived : State) (sufficient : Bool) : Tally :=
  match derived with
  | .activating => { t with satisfied := { t.satisfied with pending := true } }
  | .active => { t with satisfied := t.satisfied.raise sufficient }
  | .deactivating => { t with unsatisfied := { t.unsatisfied with pending := true } }
  | .inactive => { t with unsatisfied := t.unsatisfied.raise !sufficient }
  -- assigned, where the other levels are accumulated
  | .failing => { t with failed := { pending := true } }
  | .failed => { t with failed := { strong := true } }
  | .unset => { t with undetermined := t.undetermined.raise !sufficient }

/-- What the dependencies decide on, before the switch's own status is asked. -/
def Tally.verdict (t : Tally) : Option State :=
  if t.failed.strong then some .failed
  else if t.satisfied.strong then some .active
  else if t.unsatisfied.strong then some .inactive
  else if t.undetermined.strong then some .unset
  else if t.failed.pending then some .failing
  else if t.satisfied.pending then some .activating
  else if t.unsatisfied.pending then some .deactivating
  else if t.satisfied.weak then some .active
  else if t.unsatisfied.weak then some .inactive
  else none

/-- The state that a tally stands for, in a switch with the given status. -/
def Tally.state (t : Tally) (s : Status) : State :=
  match t.verdict with
  | some state => state
  | none =>
    if s.currentState.isSettled then s.currentState
    else if t.undetermined.weak then .unset
    else if s.active then .active
    else .inactive

namespace Board

def tally (b : Board) (n : SwitchName) : Tally :=
  (b.spec n).dependencies.values.foldl
    (fun t d => t.add (b.derivedState d (b.status n).active) d.sufficient) {}

/-- `Switch::auto_state`. -/
def autoState (b : Board) (n : SwitchName) : State := (b.tally n).state (b.status n)

/-! ### Changing a board -/

def setStatus (b : Board) (n : SwitchName) (s : Status) : Board :=
  { b with status := Function.update b.status n s }

def setSpec (b : Board) (n : SwitchName) (s : Specification) : Board :=
  { b with spec := Function.update b.spec n s }

def notifyStatus (b : Board) (n : SwitchName) : Board :=
  { b with signalStatus := (b.signalStatus.emitIfChanged n (b.status n)).2 }

/-- `notify_status`, once for each element of a list. -/
def notifyEach {α : Type} (b : Board) (n : SwitchName) (l : List α) : Board :=
  l.foldl (fun b _ => b.notifyStatus n) b

/-- The start of `set_current_state`: the state is logged and entered. -/
def enter (b : Board) (n : SwitchName) (state : State) : Board :=
  { b.setStatus n ((b.status n).enter state) with entered := (n, state) :: b.entered }

/-- `handle_diversion` logs the error that its pointer points to. -/
def logDiversion (b : Board) : Option Error → Board
  | some _ => b
  | none => { b with crashed := b.crashed || b.debugSink }

def setPending (b : Board) (n : SwitchName) (pending : Bool) : Board :=
  b.setStatus n { b.status n with pending }

/-- Detach new threads. -/
def detach (b : Board) (ts : List Task) : Board := { b with threads := b.threads ++ ts }

/-- Does the state of `n` trigger its successor `q`? -/
def triggers (b : Board) (n q : SwitchName) : Bool :=
  match (b.spec q).dependencies.get? n with
  | some dep => dep.autoTrigger (b.status n).currentState
  | none => false

/-- `update_descendants`: start a thread for each successor that the state of
this switch triggers. -/
def updateDescendants (b : Board) (n : SwitchName) (invokeInterceptors : Bool) : Board :=
  (b.getSuccessors n).foldl
    (fun b q => if b.triggers n q then (b.notifyStatus n).detach [⟨q, invokeInterceptors⟩] else b) b

end Board

/-! ## What the changes leave alone -/

namespace Board

section
variable {α : Type} (b : Board) (n : SwitchName)

@[simp] theorem setStatus_status_self (s : Status) : (b.setStatus n s).status n = s := Function.update_self ..

@[simp] theorem setStatus_status_of_ne {m : SwitchName} (h : m ≠ n) (s : Status) :
    (b.setStatus n s).status m = b.status m := Function.update_of_ne h ..

@[simp] theorem setStatus_spec (s : Status) : (b.setStatus n s).spec = b.spec := rfl

@[simp] theorem setStatus_switches (s : Status) : (b.setStatus n s).switches = b.switches := rfl

@[simp] theorem setStatus_threads (s : Status) : (b.setStatus n s).threads = b.threads := rfl

@[simp] theorem setStatus_entered (s : Status) : (b.setStatus n s).entered = b.entered := rfl

@[simp] theorem setStatus_signalStatus (s : Status) : (b.setStatus n s).signalStatus = b.signalStatus := rfl

@[simp] theorem setStatus_execName (s : Status) : (b.setStatus n s).execName = b.execName := rfl

@[simp] theorem setStatus_self : b.setStatus n (b.status n) = b := by
  simp [setStatus]

@[simp] theorem setStatus_setStatus (s t : Status) : (b.setStatus n s).setStatus n t = b.setStatus n t := by
  simp [setStatus]

@[simp] theorem enter_status_self (state : State) : (b.enter n state).status n = (b.status n).enter state :=
  Function.update_self ..

@[simp] theorem enter_status_of_ne {m : SwitchName} (h : m ≠ n) (state : State) :
    (b.enter n state).status m = b.status m := Function.update_of_ne h ..

@[simp] theorem enter_spec (state : State) : (b.enter n state).spec = b.spec := rfl

@[simp] theorem enter_switches (state : State) : (b.enter n state).switches = b.switches := rfl

@[simp] theorem enter_threads (state : State) : (b.enter n state).threads = b.threads := rfl

@[simp] theorem setPending_status_self (pending : Bool) :
    (b.setPending n pending).status n = { b.status n with pending } := Function.update_self ..

@[simp] theorem setPending_status_of_ne {m : SwitchName} (h : m ≠ n) (pending : Bool) :
    (b.setPending n pending).status m = b.status m := Function.update_of_ne h ..

@[simp] theorem setPending_spec (pending : Bool) : (b.setPending n pending).spec = b.spec := rfl

@[simp] theorem setPending_entered (pending : Bool) : (b.setPending n pending).entered = b.entered := rfl

@[simp] theorem logDiversion_some (error : Error) : b.logDiversion (some error) = b := rfl

@[simp] theorem logDiversion_status (error : Option Error) : (b.logDiversion error).status = b.status := by
  cases error <;> rfl

@[simp] theorem logDiversion_spec (error : Option Error) : (b.logDiversion error).spec = b.spec := by
  cases error <;> rfl

@[simp] theorem logDiversion_switches (error : Option Error) : (b.logDiversion error).switches = b.switches := by
  cases error <;> rfl

@[simp] theorem logDiversion_threads (error : Option Error) : (b.logDiversion error).threads = b.threads := by
  cases error <;> rfl

@[simp] theorem logDiversion_entered (error : Option Error) : (b.logDiversion error).entered = b.entered := by
  cases error <;> rfl

@[simp] theorem logDiversion_signalStatus (error : Option Error) :
    (b.logDiversion error).signalStatus = b.signalStatus := by
  cases error <;> rfl

@[simp] theorem logDiversion_execName (error : Option Error) : (b.logDiversion error).execName = b.execName := by
  cases error <;> rfl

@[simp] theorem setSpec_status (s : Specification) : (b.setSpec n s).status = b.status := rfl

@[simp] theorem setSpec_entered (s : Specification) : (b.setSpec n s).entered = b.entered := rfl

@[simp] theorem setSpec_signalStatus (s : Specification) : (b.setSpec n s).signalStatus = b.signalStatus := rfl

@[simp] theorem notifyStatus_status : (b.notifyStatus n).status = b.status := rfl

@[simp] theorem notifyStatus_spec : (b.notifyStatus n).spec = b.spec := rfl

@[simp] theorem notifyStatus_switches : (b.notifyStatus n).switches = b.switches := rfl

@[simp] theorem notifyStatus_threads : (b.notifyStatus n).threads = b.threads := rfl

@[simp] theorem notifyStatus_entered : (b.notifyStatus n).entered = b.entered := rfl

@[simp] theorem notifyStatus_execName : (b.notifyStatus n).execName = b.execName := rfl

/-- Notifications change the signal, and nothing else. -/
theorem notifyEach_eq (l : List α) :
    b.notifyEach n l = { b with signalStatus := (b.notifyEach n l).signalStatus } := by
  induction l generalizing b with
  | nil => rfl
  | cons a l ih => exact ih (b.notifyStatus n)

@[simp] theorem notifyEach_status (l : List α) : (b.notifyEach n l).status = b.status := by
  rw [notifyEach_eq]

@[simp] theorem notifyEach_spec (l : List α) : (b.notifyEach n l).spec = b.spec := by
  rw [notifyEach_eq]

@[simp] theorem notifyEach_switches (l : List α) : (b.notifyEach n l).switches = b.switches := by
  rw [notifyEach_eq]

@[simp] theorem notifyEach_threads (l : List α) : (b.notifyEach n l).threads = b.threads := by
  rw [notifyEach_eq]

@[simp] theorem notifyEach_entered (l : List α) : (b.notifyEach n l).entered = b.entered := by
  rw [notifyEach_eq]

@[simp] theorem notifyEach_execName (l : List α) : (b.notifyEach n l).execName = b.execName := by
  rw [notifyEach_eq]

theorem notifyEach_detach (ts : List Task) (l : List α) :
    (b.detach ts).notifyEach n l = (b.notifyEach n l).detach ts := by
  induction l generalizing b with
  | nil => rfl
  | cons a l ih => exact ih (b.notifyStatus n)

theorem detach_detach (ts us : List Task) : (b.detach ts).detach us = b.detach (ts ++ us) := by
  simp [detach]

/-- The successors for which `update_descendants` starts a thread. -/
def triggered : List SwitchName := (b.getSuccessors n).filter (b.triggers n)

theorem updateDescendants_eq (invokes : Bool) :
    b.updateDescendants n invokes =
      (b.notifyEach n (b.triggered n)).detach ((b.triggered n).map fun q => ⟨q, invokes⟩) := by
  have key : ∀ (l : List SwitchName) (c : Board), c.status = b.status → c.spec = b.spec →
      l.foldl (fun b q => if b.triggers n q then (b.notifyStatus n).detach [⟨q, invokes⟩] else b) c =
        (c.notifyEach n (l.filter (b.triggers n))).detach
          ((l.filter (b.triggers n)).map fun q => ⟨q, invokes⟩) := by
    intro l
    induction l with
    | nil => intro c _ _; simp [notifyEach, detach]
    | cons q l ih =>
      intro c hs hp
      have ht : c.triggers n q = b.triggers n q := by simp only [triggers, hs, hp]
      rw [List.foldl_cons, ht]
      by_cases hq : b.triggers n q = true
      · rw [if_pos hq, ih ((c.notifyStatus n).detach [⟨q, invokes⟩]) hs hp, List.filter_cons_of_pos hq,
          notifyEach_detach, detach_detach]
        rfl
      · rw [if_neg hq, ih c hs hp, List.filter_cons_of_neg hq]
  exact key _ b rfl rfl

variable (invokes : Bool)

@[simp] theorem updateDescendants_status : (b.updateDescendants n invokes).status = b.status := by
  rw [updateDescendants_eq]; exact notifyEach_status ..

@[simp] theorem updateDescendants_spec : (b.updateDescendants n invokes).spec = b.spec := by
  rw [updateDescendants_eq]; exact notifyEach_spec ..

@[simp] theorem updateDescendants_switches : (b.updateDescendants n invokes).switches = b.switches := by
  rw [updateDescendants_eq]; exact notifyEach_switches ..

@[simp] theorem updateDescendants_entered : (b.updateDescendants n invokes).entered = b.entered := by
  rw [updateDescendants_eq]; exact notifyEach_entered ..

@[simp] theorem updateDescendants_threads : (b.updateDescendants n invokes).threads =
    b.threads ++ (b.triggered n).map fun q => ⟨q, invokes⟩ := by
  rw [updateDescendants_eq]
  simp [detach]

end

end Board

end CommonCore
