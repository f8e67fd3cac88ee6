import CommonCore.Coop
import CommonCore.Switch

/-!
# Local switches

The operations of `LocalSwitch` as cooperative programs over the board. A
thread waits where `invoke_interceptors` waits for the interceptors it has
launched; the answer is the exceptions they threw. `set_target` and
`set_current_state`, which call each other through `handle_diversion`, are the
procedures.
-/

namespace CommonCore

open Coop Coop.Prog

/-- The arguments of `set_target`, with their defaults. -/
structure TargetArgs where
  targetState : State
  error : Option Error := none
  attributes : KeyValueMap := []
  clearExisting : Bool := false
  invokeInterceptors : Bool := true
  triggerDescendants : Bool := true
  reevaluate : Bool := false
  onCancel : ExceptionHandling := .default
  onError : ExceptionHandling := .default

inductive Call
  | setTarget (n : SwitchName) (args : TargetArgs)
  | setCurrentState (n : SwitchName) (state : State) (invokeInterceptors triggerDescendants : Bool)
      (onCancel onError : ExceptionHandling)

/-- The synchronous interceptors that a thread has launched and waits for. -/
structure Launch where
  switch : SwitchName
  state : State
  phase : InterceptorPhase
  interceptors : List Interceptor

/-- What the interceptors threw, in the order in which the `errors` map is
iterated. -/
structure Failures where
  thrown : List (InterceptorName × Thrown)
  distinct : (thrown.map Prod.fst).Nodup

def Failures.none : Failures := ⟨[], by simp⟩

abbrev M := Prog Board Call Bool Launch Failures

/-! ## Status -/

def Status.writeTarget (s : Status) (target : State) (args : TargetArgs) : Status :=
  { s with active := target.targetPosition s.active, error := args.error }.writeAttributes
    args.attributes args.clearExisting

namespace Board

def interceptors (b : Board) (n : SwitchName) : List Interceptor := (b.spec n).interceptors.values

/-- `Switch::pending()`, which is not about the status field of that name. -/
def pending (b : Board) (n : SwitchName) : Bool := !(b.status n).currentState.isSettled

/-- The interceptors that `invoke_interceptors` launches in a phase. -/
def applicable (b : Board) (n : SwitchName) (state : State) (phase : InterceptorPhase) : List Interceptor :=
  (b.interceptors n).filter fun ic => ic.applicableIn state phase

/-- An unset target is inferred. -/
def resolveTarget (b : Board) (n : SwitchName) (args : TargetArgs) : State :=
  if args.targetState = .unset then
    if args.error.isSome then .failed else b.autoState n
  else args.targetState

/-- What `set_target` writes before it enters the target state. -/
def writeTarget (b : Board) (n : SwitchName) (target : State) (args : TargetArgs) : Board :=
  b.setStatus n ((b.status n).writeTarget target args)

end Board

/-- `LocalSwitch::set_attributes`. -/
def setAttributes (n : SwitchName) (attributes : KeyValueMap) (clearExisting : Bool) : M Bool := do
  modify fun b => b.setStatus n ((b.status n).writeAttributes attributes clearExisting)
  modify fun b => b.notifyStatus n
  pure true

/-! ## Diversions -/

/-- `set_error`, with the arguments that `handle_diversion` leaves at their
defaults. -/
def Board.errorArgs (b : Board) (n : SwitchName) (error : Option Error) : TargetArgs :=
  { targetState := if error.isSome then .failed else .ofActive (b.status n).active, error }

/-- Back to the settled state, through `set_target`. -/
def Board.revertArgs (b : Board) (n : SwitchName) : TargetArgs :=
  { targetState := (b.status n).settledState, error := (b.status n).error, triggerDescendants := false }

def handleDiversion (n : SwitchName) (error : Option Error) (eh ehDefault : ExceptionHandling) : M Bool := do
  let eh := if eh = .default then ehDefault else eh
  modify fun b => b.logDiversion error
  let b ← get id
  match if eh = .default then ehDefault else eh with
  | .fail => do
    let _ ← invoke (.setTarget n (b.errorArgs n error))
    pure true
  | .ignore => pure false
  | .abort => do
    let _ ← invoke (.setCurrentState n (b.status n).settledState false false .default .default)
    pure true
  | .revert => do
    let _ ← invoke (.setTarget n (b.revertArgs n))
    pure true
  | .default => pure true

/-- The higher of the policies, starting from `eh`. -/
def maxCancel (launched : List Interceptor) (eh : ExceptionHandling) : ExceptionHandling :=
  launched.foldl (fun eh ic => if ic.onCancel.value > eh.value then ic.onCancel else eh) eh

def handleCancel (n : SwitchName) (launched : List Interceptor) (eh : ExceptionHandling) : M Bool := do
  let execName ← get Board.execName
  let eh := if eh = .default then maxCancel launched eh else eh
  handleDiversion n (some (cancelledError execName)) eh .ignore

/-- The highest policy, and the error of the first interceptor that has it. -/
def maxError (errors : List (Interceptor × Thrown)) (eh : ExceptionHandling × Option Thrown) :
    ExceptionHandling × Option Thrown :=
  errors.foldl (fun eh e => if e.1.onError.value > eh.1.value then (e.1.onError, some e.2) else eh) eh

def handleErrors (n : SwitchName) (errors : List (Interceptor × Thrown)) (eh : ExceptionHandling) : M Bool := do
  let execName ← get Board.execName
  let (eh, dominatingError) := if eh = .default then maxError errors (eh, none) else (eh, none)
  handleDiversion n (mapToError execName dominatingError) eh .fail

/-! ## Interceptors -/

/-- The errors of the interceptors that were waited for. -/
def collectErrors (results : List Interceptor) (r : Failures) : List (Interceptor × Thrown) :=
  r.thrown.filterMap fun f => (results.find? fun ic => ic.name = f.1).map fun ic => (ic, f.2)

/-- `invoke_interceptors` for one phase. -/
def invokePhase (n : SwitchName) (state : State) (phase : InterceptorPhase)
    (onCancel onError : ExceptionHandling) : M Bool := do
  let launched ← get fun b => b.applicable n state phase
  modify fun b => b.notifyEach n launched
  let results := launched.filter fun ic => !ic.asynchronous
  let errors ←
    if results.isEmpty then pure []
    else do
      let r ← wait { switch := n, state, phase, interceptors := results }
      pure (collectErrors results r)
  let current ← get fun b => (b.status n).currentState
  if current ≠ state then do
    let diverted ← handleCancel n launched onCancel
    pure !diverted
  else if errors.isEmpty then pure true
  else do
    let diverted ← handleErrors n errors onError
    pure !diverted

def invokeInterceptors (n : SwitchName) (state : State) (onCancel onError : ExceptionHandling) : M Bool := do
  let early ← invokePhase n state .early onCancel onError
  if early then do
    let normal ← invokePhase n state .normal onCancel onError
    if normal then invokePhase n state .late onCancel onError else pure false
  else pure false

/-! ## State changes -/

def setCurrentState (n : SwitchName) (state : State) (invokes triggerDescendants : Bool)
    (onCancel onError : ExceptionHandling) : M Bool := do
  modify fun b => b.enter n state
  let success ←
    if invokes then do
      modify fun b => b.setPending n true
      let success ← invokeInterceptors n state onCancel onError
      modify fun b => b.setPending n false
      pure success
    else pure true
  modify fun b => if triggerDescendants then b.updateDescendants n invokes else b
  modify fun b => b.notifyStatus n
  pure success

/-- `set_target`, once the target is known. -/
def applyTarget (n : SwitchName) (target : State) (args : TargetArgs) : M Bool := do
  let b ← get id
  let state := (b.status n).currentState
  if args.reevaluate || state != target then do
    let transition := target.transitionState
    let proceed ←
      if transition = .unset then pure true
      else if state = transition then pure !b.pending n
      else if (b.interceptors n).isEmpty then pure true
      else
        invoke (.setCurrentState n transition args.invokeInterceptors args.triggerDescendants
          args.onCancel args.onError)
    if proceed then do
      modify fun b => b.writeTarget n target args
      invoke (.setCurrentState n target args.invokeInterceptors args.triggerDescendants .ignore .ignore)
    else pure false
  else if !args.attributes.isEmpty ||
      (args.clearExisting && !KeyValueMap.eqv args.attributes (b.status n).attributes) then do
    let _ ← setAttributes n args.attributes args.clearExisting
    pure false
  else pure false

def setTarget (n : SwitchName) (args : TargetArgs) : M Bool := do
  let target ← get fun b => b.resolveTarget n args
  applyTarget n target args

def body : Call → M Bool
  | .setTarget n args => setTarget n args
  | .setCurrentState n state invokes triggers onCancel onError =>
    setCurrentState n state invokes triggers onCancel onError

/-! ## Operations -/

def setActive (n : SwitchName) (active : Bool) (args : TargetArgs) : M Bool :=
  setTarget n { args with targetState := .ofActive active, error := none }

def setError (n : SwitchName) (error : Option Error) (args : TargetArgs) : M Bool := do
  let active ← get fun b => (b.status n).active
  setTarget n { args with targetState := if error.isSome then .failed else .ofActive active, error }

def setAuto (n : SwitchName) (args : TargetArgs) : M Bool :=
  setTarget n { args with targetState := .unset, error := none }

def addDependency (n : SwitchName) (dependency : Dependency) (allowUpdate reevaluate : Bool) : M Bool := do
  let spec ← get fun b => b.spec n
  let present := (spec.dependencies.get? dependency.predecessorName).isSome
  if allowUpdate || !present then do
    modify fun b => b.setSpec n { spec with dependencies := spec.dependencies.insertOrAssign dependency }
    let _ ← if !present && reevaluate then setAuto n { targetState := .unset } else pure false
    pure !present
  else pure false

def removeDependency (n : SwitchName) (predecessorName : SwitchName) (reevaluate : Bool) : M Bool := do
  let spec ← get fun b => b.spec n
  let erased := (spec.dependencies.get? predecessorName).isSome
  if erased then do
    modify fun b => b.setSpec n { spec with dependencies := spec.dependencies.erase predecessorName }
    let _ ← if reevaluate then setAuto n { targetState := .unset } else pure false
    pure true
  else pure false

/-- `add_interceptor`. With `immediate` an interceptor that applies is also
launched, and not waited for. -/
def addInterceptor (n : SwitchName) (interceptor : Interceptor) : M Bool := do
  let spec ← get fun b => b.spec n
  modify fun b => b.setSpec n { spec with interceptors := spec.interceptors.insertOrAssign interceptor }
  pure (spec.interceptors.get? interceptor.name).isNone

def removeInterceptor (n : SwitchName) (id : InterceptorName) : M Bool := do
  let spec ← get fun b => b.spec n
  if (spec.interceptors.get? id).isSome then do
    modify fun b => b.setSpec n { spec with interceptors := spec.interceptors.erase id }
    pure true
  else pure false

/-- The arguments of `update_spec`. -/
structure SpecUpdate where
  primary : Option Bool
  aliases : Std.ExtTreeSet SwitchName compare
  replaceAliases : Bool
  localizations : Std.ExtTreeMap String Localization compare
  replaceLocalizations : Bool
  dependencies : DependencyMap
  replaceDependencies : Bool
  interceptors : InterceptorMap
  replaceInterceptors : Bool
  updateState : Bool

def SpecUpdate.apply (u : SpecUpdate) (spec : Specification) : Specification where
  primary := u.primary.getD spec.primary
  aliases := if u.replaceAliases then u.aliases else u.aliases.toList.foldl (fun a n => a.insert n) spec.aliases
  localizations :=
    if u.replaceLocalizations then u.localizations
    else u.localizations.toList.foldl (fun m e => m.insertIfNew e.1 e.2) spec.localizations
  dependencies :=
    if u.replaceDependencies then u.dependencies else spec.dependencies.insertAll u.dependencies
  interceptors :=
    if u.replaceInterceptors then u.interceptors else spec.interceptors.insertAll u.interceptors

def updateSpec (n : SwitchName) (u : SpecUpdate) : M Bool := do
  modify fun b => b.setSpec n (u.apply (b.spec n))
  if u.updateState then setAuto n { targetState := .unset } else pure false

/-- What a client of the provider, or a detached thread, may do. -/
inductive Op
  | setTarget (n : SwitchName) (args : TargetArgs)
  | setActive (n : SwitchName) (active : Bool) (args : TargetArgs)
  | setAuto (n : SwitchName) (args : TargetArgs)
  | setError (n : SwitchName) (error : Option Error) (args : TargetArgs)
  | setAttributes (n : SwitchName) (attributes : KeyValueMap) (clearExisting : Bool)
  | addDependency (n : SwitchName) (dependency : Dependency) (allowUpdate reevaluate : Bool)
  | removeDependency (n : SwitchName) (predecessorName : SwitchName) (reevaluate : Bool)
  | addInterceptor (n : SwitchName) (interceptor : Interceptor)
  | removeInterceptor (n : SwitchName) (id : InterceptorName)
  | setSpec (n : SwitchName) (spec : Specification)
  | updateSpec (n : SwitchName) (u : SpecUpdate)
  | runTask (t : Task)

/-- A detached thread of `update_descendants`. -/
def runTask (t : Task) : M Bool := do
  modify fun b => { b with threads := b.threads.erase t }
  setAuto t.switch { targetState := .unset, invokeInterceptors := t.invokeInterceptors }

def Op.prog : Op → M Bool
  | setTarget n args => CommonCore.setTarget n args
  | setActive n active args => CommonCore.setActive n active args
  | setAuto n args => CommonCore.setAuto n args
  | setError n error args => CommonCore.setError n error args
  | setAttributes n attributes clearExisting => CommonCore.setAttributes n attributes clearExisting
  | addDependency n dependency allowUpdate reevaluate =>
    CommonCore.addDependency n dependency allowUpdate reevaluate
  | removeDependency n predecessorName reevaluate =>
    CommonCore.removeDependency n predecessorName reevaluate
  | addInterceptor n interceptor => CommonCore.addInterceptor n interceptor
  | removeInterceptor n id => CommonCore.removeInterceptor n id
  | setSpec n spec => do
    modify fun b => b.setSpec n spec
    pure true
  | updateSpec n u => CommonCore.updateSpec n u
  | runTask t => CommonCore.runTask t

end CommonCore
