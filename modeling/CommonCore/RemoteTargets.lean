import CommonCore.Agreement
import CommonCore.Settling
import CommonCore.SwitchProto

/-!
# Targets that are set remotely

`RemoteSwitch::set_target` sends its arguments in a message, and the server calls
the switch with what it decodes. An error is always decoded, also where none was
encoded.
-/

namespace CommonCore

open Coop Coop.Prog
open Netconfig (Enumeration)

/-! ## Requests -/

namespace Proto

/-- The default instance of a message. -/
def Error.absent : Proto.Error where
  domain := 0
  origin := []
  level := 0
  code := 0
  symbol := []
  timestamp := (0, 0)
  attributes := []
  text := []

structure SetTargetRequest where
  switchName : SwitchName
  targetState : Int
  error : Option Proto.Error
  attributes : Option (List (Bytes × Message))
  clearExisting : Bool
  withInterceptors : Bool
  triggerDescendants : Bool
  reevaluate : Bool
  onCancel : Int
  onError : Int

end Proto

/-- `encode_shared`. -/
def encodeShared (error : Option Error) (msg : Proto.Error) : Proto.Error :=
  match error with
  | some error => error.encode
  | none => msg

/-- The request of `RemoteSwitch::set_target`. -/
def TargetArgs.request (args : TargetArgs) (n : SwitchName) : Proto.SetTargetRequest where
  switchName := n
  targetState := Enumeration.number args.targetState
  error := some (encodeShared args.error Proto.Error.absent)
  attributes := some (encodeKeyed args.attributes)
  clearExisting := args.clearExisting
  withInterceptors := args.invokeInterceptors
  triggerDescendants := args.triggerDescendants
  reevaluate := args.reevaluate
  onCancel := Enumeration.number args.onCancel
  onError := Enumeration.number args.onError

section
variable (V : Visiting)

/-- `decoded_shared`. -/
def decodedShared (msg : Proto.Error) : Option Error := some (msg.decode V)

/-- What `RequestHandler::SetTarget` passes on. -/
def Proto.SetTargetRequest.args (request : Proto.SetTargetRequest) : TargetArgs where
  targetState := Enumeration.cast request.targetState
  error := decodedShared V (request.error.getD Proto.Error.absent)
  attributes := decodeAttributes V (request.attributes.getD [])
  clearExisting := request.clearExisting
  invokeInterceptors := request.withInterceptors
  triggerDescendants := request.triggerDescendants
  reevaluate := request.reevaluate
  onCancel := Enumeration.cast request.onCancel
  onError := Enumeration.cast request.onError

/-- `RequestHandler::SetTarget`. Without such a switch, the call fails. -/
def requestSetTarget (request : Proto.SetTargetRequest) : Prog Board Call Bool Launch Failures (Option Bool) := do
  match ← get fun b => b.find request.switchName with
  | some n => do
    let updated ← setTarget n (request.args V)
    pure (some updated)
  | none => pure none

/-- `RemoteSwitch::set_target`. -/
def remoteSetTarget (n : SwitchName) (args : TargetArgs) : Prog Board Call Bool Launch Failures (Option Bool) :=
  requestSetTarget V (args.request n)

end

/-! ## Statuses but for the error -/

/-- `t` is `s` with another error, if there is one. -/
structure Status.Same (s t : Status) : Prop where
  rest : t = { s with error := t.error }
  error : t.error.isSome = s.error.isSome

structure Board.Same (b c : Board) : Prop where
  status : ∀ n, (b.status n).Same (c.status n)
  spec : c.spec = b.spec
  switches : c.switches = b.switches
  execName : c.execName = b.execName

structure TargetArgs.Same (args args' : TargetArgs) : Prop where
  rest : args' = { args with error := args'.error }
  error : args'.error.isSome = args.error.isSome

inductive Call.Same : Call → Call → Prop
  | setTarget {n args args'} (h : args.Same args') : Call.Same (.setTarget n args) (.setTarget n args')
  | setCurrentState {n state invokes triggers onCancel onError} :
      Call.Same (.setCurrentState n state invokes triggers onCancel onError)
        (.setCurrentState n state invokes triggers onCancel onError)

namespace Status.Same

variable {s t : Status}

theorem refl (s : Status) : s.Same s := ⟨rfl, rfl⟩

theorem symm (h : s.Same t) : t.Same s := by
  constructor
  · rw [h.rest]
  · exact h.error.symm

theorem currentState (h : s.Same t) : t.currentState = s.currentState := by
  rw [h.rest]

theorem settledState (h : s.Same t) : t.settledState = s.settledState := by
  rw [h.rest]

theorem active (h : s.Same t) : t.active = s.active := by
  rw [h.rest]

theorem attributes (h : s.Same t) : t.attributes = s.attributes := by
  rw [h.rest]

theorem enter (h : s.Same t) (state : State) : (s.enter state).Same (t.enter state) := by
  constructor
  · rw [h.rest]
    rfl
  · exact h.error

theorem setPending (h : s.Same t) (pending : Bool) : Status.Same { s with pending } { t with pending } := by
  constructor
  · rw [h.rest]
  · exact h.error

theorem writeAttributes (h : s.Same t) (attributes : KeyValueMap) (clearExisting : Bool) :
    (s.writeAttributes attributes clearExisting).Same (t.writeAttributes attributes clearExisting) := by
  constructor
  · rw [h.rest]
    rfl
  · exact h.error

theorem writeTarget (h : s.Same t) (target : State) {args args' : TargetArgs} (ha : args.Same args') :
    (s.writeTarget target args).Same (t.writeTarget target args') := by
  constructor
  · rw [h.rest, ha.rest]
    rfl
  · exact ha.error

end Status.Same

namespace Board.Same

variable {b c : Board}

theorem refl (b : Board) : b.Same b := ⟨fun _ => .refl _, rfl, rfl, rfl⟩

theorem setStatus (h : b.Same c) (n : SwitchName) {s t : Status} (hs : s.Same t) : (b.setStatus n s).Same (c.setStatus n t) := by
  refine ⟨fun m => ?_, h.spec, h.switches, h.execName⟩
  by_cases hm : m = n
  · subst hm
    rw [setStatus_status_self, setStatus_status_self]
    exact hs
  · rw [setStatus_status_of_ne b n hm, setStatus_status_of_ne c n hm]
    exact h.status m

theorem enter (h : b.Same c) (n : SwitchName) (state : State) : (b.enter n state).Same (c.enter n state) := by
  have hs := h.setStatus n ((h.status n).enter state)
  exact ⟨hs.status, hs.spec, hs.switches, hs.execName⟩

theorem setPending (h : b.Same c) (n : SwitchName) (pending : Bool) : (b.setPending n pending).Same (c.setPending n pending) :=
  h.setStatus n ((h.status n).setPending pending)

theorem notifyStatus (h : b.Same c) (n : SwitchName) : (b.notifyStatus n).Same (c.notifyStatus n) :=
  ⟨h.status, h.spec, h.switches, h.execName⟩

theorem logDiversion (h : b.Same c) (error : Option Error) : (b.logDiversion error).Same (c.logDiversion error) := by
  cases error <;> exact ⟨h.status, h.spec, h.switches, h.execName⟩

theorem notifyEach {α : Type} (h : b.Same c) (n : SwitchName) (l : List α) : (b.notifyEach n l).Same (c.notifyEach n l) := by
  unfold Board.notifyEach
  induction l generalizing b c with
  | nil => exact h
  | cons a l ih => exact ih (h.notifyStatus n)

theorem updateDescendants (h : b.Same c) (n : SwitchName) (invokes : Bool) :
    (b.updateDescendants n invokes).Same (c.updateDescendants n invokes) := by
  have hname : ∀ b : Board, (b.updateDescendants n invokes).execName = b.execName := by
    intro b
    rw [updateDescendants_eq]
    exact notifyEach_execName ..
  constructor
  · simpa only [updateDescendants_status] using h.status
  · simpa only [updateDescendants_spec] using h.spec
  · simpa only [updateDescendants_switches] using h.switches
  · rw [hname, hname]
    exact h.execName

theorem writeTarget (h : b.Same c) (n : SwitchName) (target : State) {args args' : TargetArgs} (ha : args.Same args') :
    (b.writeTarget n target args).Same (c.writeTarget n target args') :=
  h.setStatus n ((h.status n).writeTarget target ha)

theorem find (h : b.Same c) (name : SwitchName) : c.find name = b.find name := by
  unfold Board.find
  rw [h.switches, h.spec]

theorem autoState (h : b.Same c) (n : SwitchName) : c.autoState n = b.autoState n := by
  have hpred : ∀ d, c.predecessorState d = b.predecessorState d := by
    intro d
    unfold predecessorState predecessor
    rw [h.find]
    cases b.find d.predecessorName with
    | none => rfl
    | some p => exact (h.status p).currentState
  have hderived : ∀ d, c.derivedState d = b.derivedState d := by
    intro d
    funext active
    unfold derivedState
    rw [hpred]
  have htally : c.tally n = b.tally n := by
    unfold tally
    rw [h.spec, (h.status n).active]
    simp only [hderived]
  unfold Board.autoState Tally.state
  rw [htally, (h.status n).currentState, (h.status n).active]

theorem resolveTarget (h : b.Same c) (n : SwitchName) {args args' : TargetArgs} (ha : args.Same args') :
    c.resolveTarget n args' = b.resolveTarget n args := by
  have htarget : args'.targetState = args.targetState := by rw [ha.rest]
  unfold Board.resolveTarget
  rw [htarget, ha.error, h.autoState]

theorem interceptors (h : b.Same c) (n : SwitchName) : c.interceptors n = b.interceptors n := by
  unfold Board.interceptors
  rw [h.spec]

theorem applicable (h : b.Same c) (n : SwitchName) (state : State) (phase : InterceptorPhase) :
    c.applicable n state phase = b.applicable n state phase := by
  unfold Board.applicable
  rw [h.interceptors]

theorem pending (h : b.Same c) (n : SwitchName) : c.pending n = b.pending n := by
  unfold Board.pending
  rw [(h.status n).currentState]

end Board.Same

/-! ## The same calls -/

section
variable {callee : Call → Board → ℕ → Option (Bool × Board × ℕ)} {ω : ℕ → Launch → Failures}

/-- From boards that are the same, two programs come to boards that are. -/
abbrev Parallel {α : Type} (callee : Call → Board → ℕ → Option (Bool × Board × ℕ)) (ω : ℕ → Launch → Failures)
    (p q : Prog Board Call Bool Launch Failures α) : Prop := Agree Board.Same callee ω (· = ·) p q

variable (hcallee : AgreeOn Board.Same Call.Same callee)
include hcallee

theorem agree_handleDiversion (n : SwitchName) (error : Option Error) (eh ehDefault : ExceptionHandling) :
    Parallel callee ω (handleDiversion n error eh ehDefault) (handleDiversion n error eh ehDefault) := by
  unfold handleDiversion
  apply (Agree.modify (fun _ _ h => h.logDiversion error)).bind_eq
  intro _
  refine (Agree.get (A := Board.Same) fun _ _ h => h).bind fun b c h => ?_
  have hs := h.status n
  generalize (if (if eh = .default then ehDefault else eh) = .default then ehDefault else if eh = .default then ehDefault else eh) = eh'
  cases eh' with
  | fail =>
    have ha : (b.errorArgs n error).Same (c.errorArgs n error) := by
      unfold Board.errorArgs
      rw [hs.active]
      exact ⟨rfl, rfl⟩
    exact (Agree.invoke hcallee (.setTarget ha)).bind_eq fun _ => .pure rfl
  | ignore => exact .pure rfl
  | abort =>
    rw [hs.settledState]
    exact (Agree.invoke hcallee .setCurrentState).bind_eq fun _ => .pure rfl
  | revert =>
    have ha : (b.revertArgs n).Same (c.revertArgs n) := by
      unfold Board.revertArgs
      rw [hs.settledState]
      exact ⟨rfl, hs.error⟩
    exact (Agree.invoke hcallee (.setTarget ha)).bind_eq fun _ => .pure rfl
  | default => exact .pure rfl

theorem agree_handleCancel (n : SwitchName) (launched : List Interceptor) (eh : ExceptionHandling) :
    Parallel callee ω (handleCancel n launched eh) (handleCancel n launched eh) := by
  unfold handleCancel
  apply (Agree.get fun _ _ h => h.execName.symm).bind_eq
  intro execName
  exact agree_handleDiversion hcallee _ _ _ _

theorem agree_handleErrors (n : SwitchName) (errors : List (Interceptor × Thrown)) (eh : ExceptionHandling) :
    Parallel callee ω (handleErrors n errors eh) (handleErrors n errors eh) := by
  unfold handleErrors
  apply (Agree.get fun _ _ h => h.execName.symm).bind_eq
  intro execName
  exact agree_handleDiversion hcallee _ _ _ _

theorem agree_invokePhase (n : SwitchName) (state : State) (phase : InterceptorPhase) (onCancel onError : ExceptionHandling) :
    Parallel callee ω (invokePhase n state phase onCancel onError) (invokePhase n state phase onCancel onError) := by
  unfold invokePhase
  apply (Agree.get fun _ _ h => (h.applicable n state phase).symm).bind_eq
  intro launched
  apply (Agree.modify fun _ _ h => h.notifyEach n launched).bind_eq
  intro _
  dsimp only
  refine Agree.ite Iff.rfl (Agree.bind_eq (.pure rfl) ?rest) (Agree.wait.bind_eq fun r => Agree.bind_eq (.pure rfl) ?rest)
  intro errors
  apply (Agree.get fun _ _ h => (h.status n).currentState.symm).bind_eq
  intro current
  refine Agree.ite Iff.rfl ?_ (Agree.ite Iff.rfl (.pure rfl) ?_)
  · exact (agree_handleCancel hcallee n launched onCancel).bind_eq fun _ => .pure rfl
  · exact (agree_handleErrors hcallee n errors onError).bind_eq fun _ => .pure rfl

theorem agree_invokeInterceptors (n : SwitchName) (state : State) (onCancel onError : ExceptionHandling) :
    Parallel callee ω (invokeInterceptors n state onCancel onError) (invokeInterceptors n state onCancel onError) := by
  have hphase := fun phase => agree_invokePhase (ω := ω) hcallee n state phase onCancel onError
  unfold invokeInterceptors
  refine (hphase .early).bind_eq fun early => Agree.ite Iff.rfl ?_ (.pure rfl)
  exact (hphase .normal).bind_eq fun normal => Agree.ite Iff.rfl (hphase .late) (.pure rfl)

theorem agree_setCurrentState (n : SwitchName) (state : State) (invokes triggers : Bool) (onCancel onError : ExceptionHandling) :
    Parallel callee ω (setCurrentState n state invokes triggers onCancel onError)
      (setCurrentState n state invokes triggers onCancel onError) := by
  unfold setCurrentState
  apply (Agree.modify fun _ _ h => h.enter n state).bind_eq
  intro _
  dsimp only
  refine Agree.ite Iff.rfl ?_ (Agree.bind_eq (.pure rfl) ?rest)
  · apply (Agree.modify fun _ _ h => h.setPending n true).bind_eq
    intro _
    apply (agree_invokeInterceptors hcallee n state onCancel onError).bind_eq
    intro success
    apply (Agree.modify fun _ _ h => h.setPending n false).bind_eq
    intro _
    exact Agree.bind_eq (.pure rfl) ?rest
  · intro success
    refine (Agree.modify fun b c h => ?_).bind_eq fun _ => (Agree.modify fun _ _ h => h.notifyStatus n).bind_eq fun _ => .pure rfl
    split_ifs
    · exact h.updateDescendants n invokes
    · exact h

theorem agree_applyTarget (n : SwitchName) (target : State) {args args' : TargetArgs} (ha : args.Same args') :
    Parallel callee ω (applyTarget n target args) (applyTarget n target args') := by
  have hargs := ha.rest
  have hreevaluate : args'.reevaluate = args.reevaluate := by rw [hargs]
  have hattributes : args'.attributes = args.attributes := by rw [hargs]
  have hclear : args'.clearExisting = args.clearExisting := by rw [hargs]
  unfold applyTarget
  refine (Agree.get (A := Board.Same) fun _ _ h => h).bind fun b c h => ?_
  have hs := h.status n
  dsimp only
  have htransition : Call.Same (args.transitionCall n target) (args'.transitionCall n target) := by
    rw [hargs]
    exact .setCurrentState
  have hfinal : Call.Same (args.finalCall n target) (args'.finalCall n target) := by
    rw [hargs]
    exact .setCurrentState
  rw [hs.currentState, hs.attributes, h.pending, h.interceptors, hreevaluate, hattributes, hclear]
  refine Agree.ite Iff.rfl ?_ (Agree.ite Iff.rfl ?_ (.pure rfl))
  · refine Agree.ite Iff.rfl (Agree.bind_eq (.pure rfl) ?rest) (Agree.ite Iff.rfl (Agree.bind_eq (.pure rfl) ?rest)
      (Agree.ite Iff.rfl (Agree.bind_eq (.pure rfl) ?rest) (Agree.bind_eq (Agree.invoke hcallee htransition) ?rest)))
    intro proceed
    refine Agree.ite Iff.rfl ?_ (.pure rfl)
    exact (Agree.modify fun _ _ h => h.writeTarget n target ha).bind_eq fun _ => Agree.invoke hcallee hfinal
  · refine Agree.bind_eq ?_ fun _ => .pure rfl
    unfold setAttributes
    apply (Agree.modify fun b c h => h.setStatus n ((h.status n).writeAttributes _ _)).bind_eq
    intro _
    exact (Agree.modify fun _ _ h => h.notifyStatus n).bind_eq fun _ => .pure rfl

theorem agree_setTarget (n : SwitchName) {args args' : TargetArgs} (ha : args.Same args') :
    Parallel callee ω (setTarget n args) (setTarget n args') := by
  unfold setTarget
  apply (Agree.get fun _ _ h => (h.resolveTarget n ha).symm).bind_eq
  intro target
  exact agree_applyTarget hcallee n target ha

end

theorem agreeOn_body (ω : ℕ → Launch → Failures) (fuel : ℕ) : AgreeOn Board.Same Call.Same (run body ω fuel) := by
  apply agreeOn_run
  intro callee hcallee c c' hc
  cases hc with
  | setTarget ha => exact agree_setTarget hcallee _ ha
  | setCurrentState => exact agree_setCurrentState hcallee _ _ _ _ _ _

theorem Board.Same.performs {b c : Board} (h : b.Same c) {ω : ℕ → Launch → Failures} {n : SwitchName} {args args' : TargetArgs}
    (ha : args.Same args') {r : Bool} {b' : Board} (hp : Performs ω (.setTarget n args) b r b') :
    ∃ c', Performs ω (.setTarget n args') c r c' ∧ b'.Same c' := by
  obtain ⟨fuel, k, k', he⟩ := hp
  have hagree := agree_setTarget (ω := ω) (agreeOn_body ω fuel) n ha b c k h
  have he : exec (run body ω fuel) ω (setTarget n args) b k = some (r, b', k') := he
  rw [he] at hagree
  cases hc : exec (run body ω fuel) ω (setTarget n args') c k with
  | none =>
    rw [hc] at hagree
    exact hagree.elim
  | some x =>
    rw [hc] at hagree
    obtain ⟨hr, hb, -⟩ := hagree
    obtain ⟨r', c', k''⟩ := x
    obtain rfl : r = r' := hr
    exact ⟨c', ⟨fuel, k, k'', hc⟩, hb⟩

/-! ## What is received -/

section
variable (V : Visiting)

def TargetArgs.received (args : TargetArgs) : TargetArgs :=
  { args with
    error := decodedShared V (encodeShared args.error Proto.Error.absent)
    attributes := decodeAttributes V (encodeKeyed args.attributes) }

theorem TargetArgs.args_request (args : TargetArgs) (n : SwitchName) : (args.request n).args V = args.received V := by
  simp [request, Proto.SetTargetRequest.args, received, Enumeration.cast_number]

def RemotelyPerforms (ω : ℕ → Launch → Failures) (n : SwitchName) (args : TargetArgs) (b : Board) (r : Bool) (b' : Board) : Prop :=
  ∃ fuel k k', exec (run body ω fuel) ω (remoteSetTarget V n args) b k = some (some r, b', k')

/-- A call comes to the same, locally and remotely. -/
structure SameRemotely (args : TargetArgs) : Prop where
  sent : ∀ ω b n, n ∈ b.switches → ∀ r b', Performs ω (.setTarget n args) b r b' →
    ∃ c', RemotelyPerforms V ω n args b r c' ∧ (b'.status n).Same (c'.status n)
  received : ∀ ω b n, n ∈ b.switches → ∀ r c', RemotelyPerforms V ω n args b r c' →
    ∃ b', Performs ω (.setTarget n args) b r b' ∧ (b'.status n).Same (c'.status n)

variable {V}

theorem remotelyPerforms_iff {ω : ℕ → Launch → Failures} {n : SwitchName} {args : TargetArgs} {b b' : Board} {r : Bool}
    (hn : n ∈ b.switches) : RemotelyPerforms V ω n args b r b' ↔ Performs ω (.setTarget n (args.received V)) b r b' := by
  have hfind : b.find n = some n := if_pos hn
  have hexec : ∀ fuel k, exec (run body ω fuel) ω (remoteSetTarget V n args) b k =
      (exec (run body ω fuel) ω (setTarget n (args.received V)) b k).bind fun x => some (some x.1, x.2) := by
    intro fuel k
    unfold remoteSetTarget requestSetTarget
    rw [exec_then, exec_get, Option.bind_some]
    show exec _ _ (match b.find n with | some n => _ | none => _) _ _ = _
    rw [hfind, args.args_request]
    exact exec_then
  constructor
  · rintro ⟨fuel, k, k', he⟩
    rw [hexec, Option.bind_eq_some_iff] at he
    obtain ⟨x, hx, heq⟩ := he
    obtain ⟨rfl, rfl, rfl⟩ : x.1 = r ∧ x.2.1 = b' ∧ x.2.2 = k' := by simpa [Prod.ext_iff] using heq
    exact ⟨fuel, k, _, hx⟩
  · rintro ⟨fuel, k, k', he⟩
    refine ⟨fuel, k, k', ?_⟩
    have he : exec (run body ω fuel) ω (setTarget n (args.received V)) b k = some (r, b', k') := he
    rw [hexec, he]
    rfl

theorem sameRemotely_of_same {args : TargetArgs} (h : args.Same (args.received V)) : SameRemotely V args := by
  have hback : (args.received V).Same args := by
    constructor
    · rw [h.rest]
    · exact h.error.symm
  constructor
  · intro ω b n hn r b' hp
    obtain ⟨c', hc, hsame⟩ := (Board.Same.refl b).performs h hp
    exact ⟨c', (remotelyPerforms_iff hn).mpr hc, hsame.status n⟩
  · intro ω b n hn r c' hp
    obtain ⟨b', hb, hsame⟩ := (Board.Same.refl b).performs hback ((remotelyPerforms_iff hn).mp hp)
    exact ⟨b', hb, (hsame.status n).symm⟩

/-! ### A switch as constructed -/

def loneBoard : Board := Board.new [] ["a"] fun _ => {}

theorem loneBoard_resolveTarget (args : TargetArgs) :
    loneBoard.resolveTarget "a" args =
      if args.targetState = .unset then if args.error.isSome then .failed else .inactive else args.targetState := by
  have hauto : loneBoard.autoState "a" = .inactive := rfl
  unfold Board.resolveTarget
  rw [hauto]

theorem loneBoard_resolveTarget_ne (args : TargetArgs) : loneBoard.resolveTarget "a" args ≠ .unset := by
  rw [loneBoard_resolveTarget]
  split_ifs with h
  · decide
  · decide
  · exact h

/-- It enters every target. -/
theorem loneBoard_reaches {ω : ℕ → Launch → Failures} {args : TargetArgs} (hordered : Keyed.Ordered args.attributes) {r : Bool} {b' : Board}
    (hp : Performs ω (.setTarget "a" args) loneBoard r b') :
    (b'.status "a").currentState = loneBoard.resolveTarget "a" args ∧ (b'.status "a").error = args.error ∧
      (b'.status "a").attributes = args.attributes := by
  have happ := (performs_setTarget_alone (loneBoard.passes_of_nil rfl ω _ args)).2 r b' hp
  cases happ with
  | same _ heq => exact absurd heq.symm (loneBoard_resolveTarget_ne args)
  | blocked _ hsettled heq => exact absurd heq.symm ((State.transitionState_ne_unset _).mpr hsettled)
  | reached _ _ ha =>
    rw [ha.status, Board.reach_status_self]
    refine ⟨rfl, rfl, ?_⟩
    show (if args.clearExisting then args.attributes else KeyValueMap.update [] args.attributes) = args.attributes
    rw [KeyValueMap.update, Keyed.putAll_of_ordered hordered, ite_self]

/-- It tells the received arguments from others. -/
theorem SameRemotely.lone {args : TargetArgs} (h : SameRemotely V args) (hordered : Keyed.Ordered args.attributes) :
    args.error.isSome = true ∧ (args.received V).attributes = args.attributes := by
  obtain ⟨r, b', hp⟩ := (performs_setTarget_alone (loneBoard.passes_of_nil rfl noFailures _ args)).1
  have hmem : "a" ∈ loneBoard.switches := by simp [loneBoard, Board.new]
  obtain ⟨c', hc, hsame⟩ := h.sent noFailures _ "a" hmem r b' hp
  have hordered' : Keyed.Ordered (args.received V).attributes := Keyed.putAll_ordered List.Pairwise.nil
  obtain ⟨-, herror, hattributes⟩ := loneBoard_reaches hordered hp
  obtain ⟨-, herror', hattributes'⟩ := loneBoard_reaches hordered' ((remotelyPerforms_iff hmem).mp hc)
  constructor
  · rw [← herror, ← hsame.error, herror']
    rfl
  · rw [← hattributes', ← hattributes, hsame.attributes]

/-- A target is set remotely as it is locally exactly if there is an error with
it, and messages have a place for the attributes. -/
theorem sameRemotely_iff (V : Visiting) {args : TargetArgs} (hsorted : KeyValueMap.Sorted args.attributes) :
    SameRemotely V args ↔ args.error.isSome = true ∧ TransferableMap args.attributes := by
  rw [← decodeAttributes_encodeKeyed_iff V hsorted]
  constructor
  · intro h
    exact h.lone hsorted.1
  · rintro ⟨herror, hattributes⟩
    apply sameRemotely_of_same
    constructor
    · unfold TargetArgs.received
      rw [hattributes]
    · exact herror.symm

/-- Of a lamp that burnt out. -/
def burntOut : TargetArgs where
  targetState := .unset
  error := some { text := ascii "burnt out" }
  attributes := [(ascii "age", .duration 2)]

theorem sameRemotely_burntOut : SameRemotely inReverse burntOut := by
  have hsorted : KeyValueMap.Sorted burntOut.attributes := ⟨List.pairwise_singleton _ _, trivial, trivial⟩
  have htransferable : TransferableMap burntOut.attributes := ⟨trivial, trivial⟩
  exact (sameRemotely_iff inReverse hsorted).mpr ⟨rfl, htransferable⟩

/-- `set_auto` moves a switch to `FAILED` if it is called remotely. -/
theorem not_sameRemotely_auto :
    ¬ SameRemotely inReverse { targetState := .unset } ∧
      ∀ r b', RemotelyPerforms inReverse noFailures "a" { targetState := .unset } loneBoard r b' →
        (b'.status "a").currentState = .failed := by
  have hordered : Keyed.Ordered ({ targetState := .unset } : TargetArgs).attributes := List.Pairwise.nil
  constructor
  · intro h
    exact absurd (h.lone hordered).1 Bool.false_ne_true
  · intro r b' hp
    have hmem : "a" ∈ loneBoard.switches := by simp [loneBoard, Board.new]
    have hordered' : Keyed.Ordered (({ targetState := .unset } : TargetArgs).received inReverse).attributes :=
      Keyed.putAll_ordered List.Pairwise.nil
    exact (loneBoard_reaches hordered' ((remotelyPerforms_iff hmem).mp hp)).1

end

end CommonCore
