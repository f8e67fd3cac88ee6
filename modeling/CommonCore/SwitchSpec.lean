import CommonCore.LocalSwitch

/-!
# What the switch programs do

One lemma for each function of `LocalSwitch`, in the terms of a contract: what
the function reads, which procedure it calls with which arguments, and what it
leaves behind. The results about switches build on these and do not look into
the programs again.

`Entered` is the common case: `set_current_state` without a diversion.
-/

namespace CommonCore

open Coop Coop.Prog

/-- The policy that prevails over a default. -/
def ExceptionHandling.orElse (eh ehDefault : ExceptionHandling) : ExceptionHandling :=
  if eh = .default then ehDefault else eh

/-- The policy on a cancellation. -/
def cancelPolicy (launched : List Interceptor) (eh : ExceptionHandling) : ExceptionHandling :=
  (if eh = .default then maxCancel launched eh else eh).orElse .ignore

/-- The policy on errors before the default, and the error that goes with it. -/
def prevailing (errors : List (Interceptor × Thrown)) (eh : ExceptionHandling) :
    ExceptionHandling × Option Thrown :=
  if eh = .default then maxError errors (eh, none) else (eh, none)

/-- The policy on errors. -/
def errorPolicy (errors : List (Interceptor × Thrown)) (eh : ExceptionHandling) : ExceptionHandling :=
  (prevailing errors eh).1.orElse .fail

theorem errorPolicy_ne_default (errors : List (Interceptor × Thrown)) (eh : ExceptionHandling) :
    errorPolicy errors eh ≠ .default := by
  unfold errorPolicy ExceptionHandling.orElse
  split_ifs with h
  · exact nofun
  · exact h

theorem collectErrors_nil (r : Failures) : collectErrors [] r = [] := by
  simp [collectErrors]

section
variable {K : Contract Board Call Bool Launch Failures} {n : SwitchName} {b : Board} {state : State}
  {onCancel onError : ExceptionHandling} {Q : Bool → Board → Prop}

/-- What is done under a policy: `true` if the state change is diverted. -/
def Diverts (K : Contract Board Call Bool Launch Failures) (n : SwitchName) (error : Option Error)
    (b : Board) (Q : Bool → Board → Prop) : ExceptionHandling → Prop
  | .fail => K.pre (.setTarget n (b.errorArgs n error)) b ∧
      ∀ r b', K.post (.setTarget n (b.errorArgs n error)) b r b' → Q true b'
  | .ignore => Q false b
  | .abort => K.pre (.setCurrentState n (b.status n).settledState false false .default .default) b ∧
      ∀ r b', K.post (.setCurrentState n (b.status n).settledState false false .default .default) b r b' → Q true b'
  | .revert => K.pre (.setTarget n (b.revertArgs n)) b ∧
      ∀ r b', K.post (.setTarget n (b.revertArgs n)) b r b' → Q true b'
  | .default => Q true b

theorem wp_handleDiversion {error : Option Error} {eh ehDefault : ExceptionHandling} :
    wp K (handleDiversion n error eh ehDefault) b Q ↔ Diverts K n error (b.logDiversion error) Q (eh.orElse ehDefault) := by
  have hdef : (if (if eh = .default then ehDefault else eh) = .default then ehDefault
      else if eh = .default then ehDefault else eh) = eh.orElse ehDefault := by
    unfold ExceptionHandling.orElse
    split_ifs <;> simp_all
  simp only [handleDiversion, wp_then, wp_modify, wp_get, hdef]
  cases eh.orElse ehDefault <;> exact Iff.rfl

theorem wp_handleCancel {launched : List Interceptor} :
    wp K (handleCancel n launched onCancel) b Q ↔
      Diverts K n (some (cancelledError b.execName)) b Q (cancelPolicy launched onCancel) := by
  simp only [handleCancel, wp_then, wp_get, wp_handleDiversion, cancelPolicy, Board.logDiversion_some]

/-- The error of a policy, which is none if no interceptor has it. -/
def Board.dominatingError (b : Board) (errors : List (Interceptor × Thrown)) (eh : ExceptionHandling) : Option Error :=
  mapToError b.execName (prevailing errors eh).2

/-- Errors are handled: under their policy, after it has been logged with its error. -/
def HandlesErrors (K : Contract Board Call Bool Launch Failures) (n : SwitchName) (onError : ExceptionHandling)
    (errors : List (Interceptor × Thrown)) (b : Board) (Q : Bool → Board → Prop) : Prop :=
  Diverts K n (b.dominatingError errors onError) (b.logDiversion (b.dominatingError errors onError)) Q
    (errorPolicy errors onError)

theorem wp_handleErrors {errors : List (Interceptor × Thrown)} :
    wp K (handleErrors n errors onError) b Q ↔ HandlesErrors K n onError errors b Q := by
  simp only [handleErrors, wp_then, wp_get, wp_handleDiversion, HandlesErrors, Board.dominatingError, errorPolicy,
    prevailing]

/-- The end of a phase, once the errors are known. -/
def PhaseEnds (K : Contract Board Call Bool Launch Failures) (n : SwitchName) (state : State)
    (launched : List Interceptor) (onCancel onError : ExceptionHandling) (Q : Bool → Board → Prop)
    (errors : List (Interceptor × Thrown)) (b : Board) : Prop :=
  if (b.status n).currentState ≠ state then
    Diverts K n (some (cancelledError b.execName)) b (fun d => Q !d) (cancelPolicy launched onCancel)
  else if errors.isEmpty then Q true b
  else HandlesErrors K n onError errors b fun d => Q !d

/-- The interceptors that a phase waits for. -/
def Board.awaited (b : Board) (n : SwitchName) (state : State) (phase : InterceptorPhase) : List Interceptor :=
  (b.applicable n state phase).filter fun ic => !ic.asynchronous

/-- The board on which a phase has launched its interceptors. -/
def Board.launch (b : Board) (n : SwitchName) (state : State) (phase : InterceptorPhase) : Board :=
  b.notifyEach n (b.applicable n state phase)

theorem wp_invokePhase {phase : InterceptorPhase} :
    wp K (invokePhase n state phase onCancel onError) b Q ↔
      if (b.awaited n state phase).isEmpty then
        PhaseEnds K n state (b.applicable n state phase) onCancel onError Q [] (b.launch n state phase)
      else
        K.parked (b.launch n state phase) ∧
          ∀ r b', K.wait (b.launch n state phase) ⟨n, state, phase, b.awaited n state phase⟩ r b' →
            PhaseEnds K n state (b.applicable n state phase) onCancel onError Q
              (collectErrors (b.awaited n state phase) r) b' := by
  simp only [invokePhase, wp_then, wp_get, wp_modify, wp_ite, wp_wait, wp_pure, wp_handleCancel,
    wp_handleErrors, PhaseEnds, Board.awaited, Board.launch]
  exact Iff.rfl

theorem wp_invokeInterceptors :
    wp K (invokeInterceptors n state onCancel onError) b Q ↔
      wp K (invokePhase n state .early onCancel onError) b fun early b₁ =>
        if early then
          wp K (invokePhase n state .normal onCancel onError) b₁ fun normal b₂ =>
            if normal then wp K (invokePhase n state .late onCancel onError) b₂ Q else Q false b₂
        else Q false b₁ := by
  simp only [invokeInterceptors, wp_then, wp_ite, wp_pure]

/-- What is left of `set_current_state` once the interceptors are done. -/
def Board.leave (b : Board) (n : SwitchName) (invokes triggers : Bool) : Board :=
  (if triggers then b.updateDescendants n invokes else b).notifyStatus n

@[simp] theorem Board.leave_crashed (b : Board) (n : SwitchName) (invokes triggers : Bool) :
    (b.leave n invokes triggers).crashed = b.crashed := by
  unfold Board.leave
  split_ifs
  · rw [Board.updateDescendants_eq, Board.notifyEach_eq]
    rfl
  · rfl

theorem wp_setCurrentState {invokes triggers : Bool} :
    wp K (setCurrentState n state invokes triggers onCancel onError) b Q ↔
      if invokes then
        wp K (invokeInterceptors n state onCancel onError) ((b.enter n state).setPending n true) fun r b₁ =>
          Q r ((b₁.setPending n false).leave n invokes triggers)
      else Q true ((b.enter n state).leave n invokes triggers) := by
  simp only [setCurrentState, wp_then, wp_modify, wp_ite, wp_pure, Board.leave]

namespace Board

@[simp] theorem writeTarget_status_self (b : Board) (n : SwitchName) (target : State) (args : TargetArgs) :
    (b.writeTarget n target args).status n = (b.status n).writeTarget target args :=
  setStatus_status_self ..

@[simp] theorem writeTarget_status_of_ne (b : Board) {n m : SwitchName} (h : m ≠ n) (target : State)
    (args : TargetArgs) : (b.writeTarget n target args).status m = b.status m := setStatus_status_of_ne _ _ h _

@[simp] theorem writeTarget_spec (b : Board) (n : SwitchName) (target : State) (args : TargetArgs) :
    (b.writeTarget n target args).spec = b.spec := rfl

end Board

/-- What `set_target` does when the switch is in the target state already. -/
def Board.touch (b : Board) (n : SwitchName) (args : TargetArgs) : Board :=
  if !args.attributes.isEmpty ||
      (args.clearExisting && !KeyValueMap.eqv args.attributes (b.status n).attributes) then
    (b.setStatus n ((b.status n).writeAttributes args.attributes args.clearExisting)).notifyStatus n
  else b

/-- The last call of `set_target`. -/
def TargetArgs.finalCall (args : TargetArgs) (n : SwitchName) (target : State) : Call :=
  .setCurrentState n target args.invokeInterceptors args.triggerDescendants .ignore .ignore

/-- The call of `set_target` that comes before, if there are interceptors. -/
def TargetArgs.transitionCall (args : TargetArgs) (n : SwitchName) (target : State) : Call :=
  .setCurrentState n target.transitionState args.invokeInterceptors args.triggerDescendants
    args.onCancel args.onError

/-- The switch enters the target state next. -/
def EntersTarget (K : Contract Board Call Bool Launch Failures) (n : SwitchName) (target : State)
    (args : TargetArgs) (Q : Bool → Board → Prop) (b : Board) : Prop :=
  K.pre (args.finalCall n target) (b.writeTarget n target args) ∧
    ∀ r b', K.post (args.finalCall n target) (b.writeTarget n target args) r b' → Q r b'

theorem wp_applyTarget {target : State} {args : TargetArgs} :
    wp K (applyTarget n target args) b Q ↔
      if args.reevaluate = false ∧ (b.status n).currentState = target then Q false (b.touch n args)
      else if target.isSettled = true ∧ (b.status n).currentState = target.transitionState then Q false b
      else if target.isSettled = true ∧ b.interceptors n ≠ [] then
        K.pre (args.transitionCall n target) b ∧ ∀ r b', K.post (args.transitionCall n target) b r b' →
          if r then EntersTarget K n target args Q b' else Q false b'
      else EntersTarget K n target args Q b := by
  simp only [applyTarget, wp_then, wp_get, id_eq]
  by_cases hsame : args.reevaluate = false ∧ (b.status n).currentState = target
  · obtain ⟨hr, hc⟩ := hsame
    simp only [hr, hc, Bool.false_or, bne_self_eq_false, Bool.false_eq_true, and_self, if_true, if_false,
      wp_ite, setAttributes, wp_then, wp_modify, wp_pure, Board.touch]
    split <;> rfl
  · rw [if_neg hsame]
    have hgo : (args.reevaluate || (b.status n).currentState != target) = true := by
      rcases Bool.eq_false_or_eq_true args.reevaluate with h | h
      · simp [h]
      · simpa [h] using fun hc => hsame ⟨h, hc⟩
    simp only [hgo, if_true, wp_then, wp_ite, wp_pure, wp_modify, wp_invoke]
    by_cases hset : target.isSettled = true
    · rw [if_neg ((State.transitionState_ne_unset target).mpr hset)]
      by_cases hcur : (b.status n).currentState = target.transitionState
      · have hp : ¬ (!b.pending n) = true := by
          simp [Board.pending, hcur, State.isSettled_transitionState]
        rw [if_pos hcur, if_neg hp, if_pos ⟨hset, hcur⟩]
      · by_cases hi : (b.interceptors n).isEmpty = true
        · have hno : ¬ (target.isSettled = true ∧ b.interceptors n ≠ []) := fun h => h.2 (by simpa using hi)
          rw [if_neg hcur, if_pos hi, if_neg fun h => hcur h.2, if_neg hno]
          exact Iff.rfl
        · have hyes : target.isSettled = true ∧ b.interceptors n ≠ [] := ⟨hset, by simpa using hi⟩
          rw [if_neg hcur, if_neg hi]
          conv_rhs => rw [if_neg fun h => hcur h.2, if_pos hyes]
          exact Iff.rfl
    · have hun : target.transitionState = .unset := by
        by_contra h
        exact hset ((State.transitionState_ne_unset target).mp h)
      rw [if_pos hun, if_neg fun h => hset h.1, if_neg fun h => hset h.1]
      exact Iff.rfl

theorem wp_setTarget {args : TargetArgs} :
    wp K (setTarget n args) b Q ↔ wp K (applyTarget n (b.resolveTarget n args) args) b Q := by
  simp only [setTarget, wp_then, wp_get]

end

/-- `set_target` finds the switch in the target, or on the way to it. -/
def Unmoved (b : Board) (n : SwitchName) (args : TargetArgs) : Prop :=
  let target := b.resolveTarget n args
  let state := (b.status n).currentState
  args.reevaluate = false ∧ state = target ∨ target.isSettled = true ∧ state = target.transitionState

/-! ## Interceptors that may divert -/

/-- The board on which the interceptors of `n` for `state` run. -/
def Board.during (b : Board) (n : SwitchName) (state : State) : Board := (b.enter n state).setPending n true

/-- The errors of the interceptors of `n` for `state`, if they answer the `k`-th
wait. -/
def Board.errorsAt (b : Board) (ω : ℕ → Launch → Failures) (n : SwitchName) (state : State)
    (phase : InterceptorPhase) (k : ℕ) : List (Interceptor × Thrown) :=
  collectErrors (b.awaited n state phase) (ω k ⟨n, state, phase, b.awaited n state phase⟩)

/-- `b` has just launched the interceptors of a phase, and waits as `e` says. -/
def Launched (n : SwitchName) (state : State) (b : Board) (e : Launch) : Prop :=
  ∃ b₀ phase, b = Board.launch b₀ n state phase ∧ e = ⟨n, state, phase, b₀.awaited n state phase⟩ ∧
    b₀.awaited n state phase ≠ []

theorem Launched.switch {n : SwitchName} {state : State} {b : Board} {e : Launch} (h : Launched n state b e) :
    e.switch = n := by
  obtain ⟨_, _, -, rfl, -⟩ := h
  rfl

/-- `R` holds as long as the interceptors of `n` for `state` go on, and `S` once
they have diverted the switch. -/
structure Keeps (K : Contract Board Call Bool Launch Failures) (n : SwitchName) (state : State)
    (onCancel onError : ExceptionHandling) (R S : Board → Prop) : Prop where
  notify : ∀ b, R b → R (b.notifyStatus n)
  parked : ∀ b e, R b → Launched n state b e → K.parked b
  wait : ∀ b e r b', R b → Launched n state b e → K.wait b e r b' → R b'
  cancel : ∀ b₀ phase b, R b₀ → R b → (b.status n).currentState ≠ state →
    Diverts K n (some (cancelledError b.execName)) b (fun d b => if d then S b else R b)
      (cancelPolicy (b₀.applicable n state phase) onCancel)
  errors : ∀ b e r b', R b → Launched n state b e → K.wait b e r b' → (b'.status n).currentState = state →
    collectErrors e.interceptors r ≠ [] →
      HandlesErrors K n onError (collectErrors e.interceptors r) b' fun d b => if d then S b else R b

theorem Diverts.mono {K : Contract Board Call Bool Launch Failures} {n : SwitchName} {error : Option Error}
    {b : Board} {Q Q' : Bool → Board → Prop} (hQ : ∀ d b', Q d b' → Q' d b') {eh : ExceptionHandling}
    (h : Diverts K n error b Q eh) : Diverts K n error b Q' eh := by
  cases eh with
  | default => exact hQ _ _ h
  | ignore => exact hQ _ _ h
  | abort => exact ⟨h.1, fun r b' hp => hQ _ _ (h.2 r b' hp)⟩
  | fail => exact ⟨h.1, fun r b' hp => hQ _ _ (h.2 r b' hp)⟩
  | revert => exact ⟨h.1, fun r b' hp => hQ _ _ (h.2 r b' hp)⟩

section
variable {K : Contract Board Call Bool Launch Failures} {n : SwitchName} {b : Board} {state : State}
  {onCancel onError : ExceptionHandling} {R S : Board → Prop}

theorem Keeps.notifyEach (h : Keeps K n state onCancel onError R S) {α : Type} (l : List α) :
    ∀ {b : Board}, R b → R (b.notifyEach n l) := by
  induction l with
  | nil => exact fun hb => hb
  | cons a l ih => exact fun hb => ih (h.notify _ hb)

theorem Keeps.invokePhase (h : Keeps K n state onCancel onError R S) (hb : R b) (phase : InterceptorPhase) :
    wp K (invokePhase n state phase onCancel onError) b fun r b' => if r then R b' else S b' := by
  have flip : ∀ (d : Bool) (b' : Board), (if d then S b' else R b') → if !d then R b' else S b' := by
    intro d b' hd
    cases d <;> exact hd
  have hl : R (b.launch n state phase) := h.notifyEach _ hb
  rw [wp_invokePhase]
  split_ifs
  · unfold PhaseEnds
    split_ifs with hcur hnil
    · exact (h.cancel _ _ _ hb hl hcur).mono flip
    · exact hl
    · exact absurd rfl hnil
  · have hl' : Launched n state (b.launch n state phase) ⟨n, state, phase, b.awaited n state phase⟩ :=
      ⟨b, phase, rfl, rfl, by simpa using ‹¬ (b.awaited n state phase).isEmpty = true›⟩
    refine ⟨h.parked _ _ hl hl', fun r b' hw => ?_⟩
    have hr : R b' := h.wait _ _ _ _ hl hl' hw
    unfold PhaseEnds
    split_ifs with hcur hnil
    · exact (h.cancel _ _ _ hb hr hcur).mono flip
    · exact hr
    · exact (h.errors _ _ _ _ hl hl' hw (not_not.mp hcur) (by simpa using hnil)).mono flip

theorem Keeps.invokeInterceptors (h : Keeps K n state onCancel onError R S) (hb : R b) :
    wp K (invokeInterceptors n state onCancel onError) b fun r b' => if r then R b' else S b' := by
  rw [wp_invokeInterceptors]
  refine wp_mono _ (fun early b₁ h₁ => ?_) _ _ (h.invokePhase hb .early)
  cases early with
  | false => exact h₁
  | true =>
    refine wp_mono _ (fun normal b₂ h₂ => ?_) _ _ (h.invokePhase h₁ .normal)
    cases normal with
    | false => exact h₂
    | true => exact h.invokePhase h₂ .late

end

/-! ## Without a diversion -/

/-- The same board but for what the signal has sent, and what was logged. -/
def Board.Alike (b b' : Board) : Prop := b' = { b with signalStatus := b'.signalStatus, crashed := b'.crashed }

namespace Board.Alike

variable {b b' b'' : Board} {n : SwitchName}

theorem refl (b : Board) : b.Alike b := rfl

theorem trans (h : b.Alike b') (h' : b'.Alike b'') : b.Alike b'' := by
  unfold Alike at *
  rw [h', h]

theorem notifyStatus (b : Board) (n : SwitchName) : b.Alike (b.notifyStatus n) := rfl

theorem notifyEach {α : Type} (b : Board) (n : SwitchName) (l : List α) : b.Alike (b.notifyEach n l) := by
  rw [notifyEach_eq]
  rfl

theorem logDiversion (b : Board) (error : Option Error) : b.Alike (b.logDiversion error) := by
  cases error <;> rfl

theorem status (h : b.Alike b') : b'.status = b.status := by rw [h]

theorem spec (h : b.Alike b') : b'.spec = b.spec := by rw [h]

theorem switches (h : b.Alike b') : b'.switches = b.switches := by rw [h]

theorem threads (h : b.Alike b') : b'.threads = b.threads := by rw [h]

theorem entered (h : b.Alike b') : b'.entered = b.entered := by rw [h]

theorem execName (h : b.Alike b') : b'.execName = b.execName := by rw [h]

theorem setPending (h : b.Alike b') (n : SwitchName) (pending : Bool) :
    (b.setPending n pending).Alike (b'.setPending n pending) := by
  rw [h]
  rfl

theorem triggered (h : b.Alike b') (n : SwitchName) : b'.triggered n = b.triggered n := by
  rw [h]
  rfl

theorem updateDescendants (h : b.Alike b') (n : SwitchName) (invokes : Bool) :
    (b.updateDescendants n invokes).Alike (b'.updateDescendants n invokes) := by
  rw [updateDescendants_eq, updateDescendants_eq, h.triggered, notifyEach_eq, notifyEach_eq b' n, h]
  rfl

theorem applicable (h : b.Alike b') (n : SwitchName) (state : State) (phase : InterceptorPhase) :
    b'.applicable n state phase = b.applicable n state phase := by
  rw [h]
  rfl

theorem awaited (h : b.Alike b') (n : SwitchName) (state : State) (phase : InterceptorPhase) :
    b'.awaited n state phase = b.awaited n state phase := by
  unfold Board.awaited
  rw [h.applicable]

theorem leave (h : b.Alike b') (n : SwitchName) (invokes triggers : Bool) :
    (if triggers then b.updateDescendants n invokes else b).Alike (b'.leave n invokes triggers) := by
  refine trans ?_ (.notifyStatus _ n)
  split_ifs
  · exact h.updateDescendants n invokes
  · exact h

/-- The pending flag is cleared after the interceptors. -/
theorem cleared (n : SwitchName) (state : State) (h : ((b.enter n state).setPending n true).Alike b') :
    ((b.enter n state).setPending n false).Alike (b'.setPending n false) := by
  have hp := h.setPending n false
  have hback : ((b.enter n state).setPending n true).setPending n false = (b.enter n state).setPending n false := by
    simp [Board.setPending]
  rwa [hback] at hp

end Board.Alike

/-- The board after `set_current_state`, but for the signal, if the change is
not diverted. -/
def Board.through (b : Board) (n : SwitchName) (state : State) (invokes triggers : Bool) : Board :=
  let b₁ := if invokes then (b.enter n state).setPending n false else b.enter n state
  if triggers then b₁.updateDescendants n invokes else b₁

namespace Board

theorem through_status_self (b : Board) (n : SwitchName) (state : State) (invokes triggers : Bool) :
    (b.through n state invokes triggers).status n =
      { (b.status n).enter state with pending := if invokes then false else (b.status n).pending } := by
  unfold through
  cases invokes <;> cases triggers <;> simp [Status.enter]

theorem through_status_of_ne (b : Board) {n m : SwitchName} (h : m ≠ n) (state : State) (invokes triggers : Bool) :
    (b.through n state invokes triggers).status m = b.status m := by
  unfold through
  cases invokes <;> cases triggers <;> simp [h]

theorem through_spec (b : Board) (n : SwitchName) (state : State) (invokes triggers : Bool) :
    (b.through n state invokes triggers).spec = b.spec := by
  unfold through
  cases invokes <;> cases triggers <;> simp

theorem through_switches (b : Board) (n : SwitchName) (state : State) (invokes triggers : Bool) :
    (b.through n state invokes triggers).switches = b.switches := by
  unfold through
  cases invokes <;> cases triggers <;> simp [Board.setPending]

end Board

theorem Board.Alike.during_awaited {b b₁ b₂ : Board} {n : SwitchName} {state : State} (h : (b.during n state).Alike b₁)
    {l : List Interceptor} (hb₁ : b₁ = b₂.notifyEach n l) (phase : InterceptorPhase) :
    b₂.awaited n state phase = b.awaited n state phase := by
  have hspec : b₂.spec = b.spec := by
    rw [← (Board.Alike.notifyEach b₂ n l).spec, ← hb₁]
    exact h.spec
  simp only [Board.awaited, Board.applicable, Board.interceptors, hspec]

/-- What the interceptors throw, once they are launched during the change to `state`. -/
theorem Launched.errorsAt {b b₁ : Board} {n : SwitchName} {state : State} {e : Launch} (h : Launched n state b₁ e)
    (ha : (b.during n state).Alike b₁) : ∃ phase, ∀ (ω : ℕ → Launch → Failures) (k : ℕ),
      collectErrors e.interceptors (ω k e) = b.errorsAt ω n state phase k := by
  obtain ⟨b₂, phase, hb₁, rfl, -⟩ := h
  refine ⟨phase, fun ω k => ?_⟩
  rw [ha.during_awaited hb₁]
  rfl

/-- No error, or none that matters. -/
def Ignorable (onError : ExceptionHandling) (errors : List (Interceptor × Thrown)) : Prop :=
  errors = [] ∨ errorPolicy errors onError = .ignore

section
variable {K : Contract Board Call Bool Launch Failures} {n : SwitchName} {b : Board} {state : State}
  {onCancel onError : ExceptionHandling} {Q : Bool → Board → Prop} {I : Board → Prop}

/-- Nobody interferes with the interceptors of `n` for `state`, and no error of
theirs matters. -/
structure Smooth (K : Contract Board Call Bool Launch Failures) (n : SwitchName) (state : State)
    (onError : ExceptionHandling) (b : Board) : Prop where
  parked : ∀ phase b₁, b.awaited n state phase ≠ [] → K.parked b₁
  wait : ∀ phase b₁ r b₂, b.awaited n state phase ≠ [] →
    K.wait b₁ ⟨n, state, phase, b.awaited n state phase⟩ r b₂ →
      b₂ = b₁ ∧ Ignorable onError (collectErrors (b.awaited n state phase) r)

theorem Smooth.alike {b' : Board} (h : Smooth K n state onError b) (ha : b.Alike b') :
    Smooth K n state onError b' where
  parked phase b₁ hne := h.parked phase b₁ (by rwa [ha.awaited] at hne)
  wait phase b₁ r b₂ hne hw := by
    rw [ha.awaited] at hne hw ⊢
    exact h.wait phase b₁ r b₂ hne hw

theorem launch_keeps {phase : InterceptorPhase}
    (hI : b.applicable n state phase ≠ [] → ∀ b', b.Alike b' → I b' → I (b'.notifyStatus n)) (hb : I b) :
    I (b.launch n state phase) := by
  have key : ∀ (l : List Interceptor), (l ≠ [] → ∀ b', b.Alike b' → I b' → I (b'.notifyStatus n)) →
      ∀ b', b.Alike b' → I b' → I (b'.notifyEach n l) := by
    intro l
    induction l with
    | nil => intro _ b' _ h; exact h
    | cons a l ih =>
      intro hI b' ha h
      have hI := hI (List.cons_ne_nil a l)
      exact ih (fun _ => hI) _ (ha.trans (.notifyStatus b' n)) (hI b' ha h)
  exact key _ hI b (.refl b) hb

/-- `I` is kept where errors of the interceptors of `n` for `state` are logged. -/
def Logs (K : Contract Board Call Bool Launch Failures) (n : SwitchName) (state : State) (I : Board → Prop)
    (b : Board) : Prop :=
  ∀ phase b' r error, K.wait b' ⟨n, state, phase, b.awaited n state phase⟩ r b' →
    collectErrors (b.awaited n state phase) r ≠ [] → b.Alike b' → I b' → I (b'.logDiversion error)

theorem Logs.alike {b' : Board} (h : Logs K n state I b) (ha : b.Alike b') : Logs K n state I b' := by
  intro phase b₁ r error hw hne ha₁ hb₁
  rw [ha.awaited] at hw hne
  exact h phase b₁ r error hw hne (ha.trans ha₁) hb₁

theorem wp_invokePhase_smooth {phase : InterceptorPhase} (hs : Smooth K n state onError b)
    (hcur : (b.status n).currentState = state)
    (hI : b.applicable n state phase ≠ [] → ∀ b', b.Alike b' → I b' → I (b'.notifyStatus n))
    (hlog : Logs K n state I b) (hb : I b) (hQ : ∀ b', b.Alike b' → I b' → Q true b') :
    wp K (invokePhase n state phase onCancel onError) b Q := by
  rw [wp_invokePhase]
  have ha : b.Alike (b.launch n state phase) := .notifyEach b n _
  have hn : I (b.launch n state phase) := launch_keeps hI hb
  have hcur' : ¬ ((b.launch n state phase).status n).currentState ≠ state := by
    rw [ha.status, hcur]
    exact fun h => h rfl
  split_ifs with hr
  · unfold PhaseEnds
    rw [if_neg hcur']
    exact hQ _ ha hn
  · have hne : b.awaited n state phase ≠ [] := by simpa using hr
    refine ⟨hs.parked phase _ hne, fun r b₂ hw => ?_⟩
    obtain ⟨rfl, hig⟩ := hs.wait phase _ r b₂ hne hw
    unfold PhaseEnds
    rw [if_neg hcur']
    split_ifs with he
    · exact hQ _ ha hn
    · rcases hig with h | h
      · simp [h] at he
      · unfold HandlesErrors
        rw [h]
        exact hQ _ (ha.trans (.logDiversion _ _)) (hlog phase _ r _ hw (by simpa using he) ha hn)

theorem wp_invokeInterceptors_smooth (hs : Smooth K n state onError b)
    (hcur : (b.status n).currentState = state)
    (hI : ∀ phase, b.applicable n state phase ≠ [] → ∀ b', b.Alike b' → I b' → I (b'.notifyStatus n))
    (hlog : Logs K n state I b) (hb : I b) (hQ : ∀ b', b.Alike b' → I b' → Q true b') :
    wp K (invokeInterceptors n state onCancel onError) b Q := by
  have next : ∀ {b₁ : Board}, b.Alike b₁ → ∀ phase, b₁.applicable n state phase ≠ [] →
      ∀ b₂, b₁.Alike b₂ → I b₂ → I (b₂.notifyStatus n) := by
    intro b₁ h phase hne b₂ h'
    rw [h.applicable] at hne
    exact hI phase hne b₂ (h.trans h')
  have cur : ∀ {b₁ : Board}, b.Alike b₁ → (b₁.status n).currentState = state :=
    fun h => by rw [h.status, hcur]
  rw [wp_invokeInterceptors]
  refine wp_invokePhase_smooth hs hcur (hI _) hlog hb fun b₁ h₁ hi₁ => ?_
  refine wp_invokePhase_smooth (hs.alike h₁) (cur h₁) (next h₁ _) (hlog.alike h₁) hi₁ fun b₂ h₂ hi₂ => ?_
  have h₂' := h₁.trans h₂
  exact wp_invokePhase_smooth (hs.alike h₂') (cur h₂') (next h₂' _) (hlog.alike h₂') hi₂ fun b₃ h₃ hi₃ =>
    hQ b₃ (h₂'.trans h₃) hi₃

/-- The interceptors of `n` for `state` throw nothing. -/
def Quiet (K : Contract Board Call Bool Launch Failures) (n : SwitchName) (state : State) (b : Board) : Prop :=
  ∀ phase b₁ r b₂, K.wait b₁ ⟨n, state, phase, b.awaited n state phase⟩ r b₂ →
    collectErrors (b.awaited n state phase) r = []

/-- A state change that nothing diverts succeeds, and without errors it does not crash. -/
theorem wp_setCurrentState_smooth {invokes triggers : Bool}
    (hs : invokes = true → Smooth K n state onError b)
    (hQ : ∀ b', (b.through n state invokes triggers).Alike b' →
      ((invokes = true → Quiet K n state b) → b'.crashed = b.crashed) → Q true b') :
    wp K (setCurrentState n state invokes triggers onCancel onError) b Q := by
  rw [wp_setCurrentState]
  split_ifs with hi
  · have hs' : Smooth K n state onError ((b.enter n state).setPending n true) := ⟨(hs hi).parked, (hs hi).wait⟩
    refine wp_invokeInterceptors_smooth (I := fun b' => Quiet K n state b → b'.crashed = b.crashed) hs'
      (by simp [Status.enter]) (fun _ _ _ _ h => h) ?_ (fun _ => rfl) fun b₁ h₁ hq => hQ _ ?_ ?_
    · intro phase b' r error hw hne _ _ hquiet
      exact absurd (hquiet phase b' r b' hw) hne
    · unfold Board.through
      rw [if_pos hi]
      exact (Board.Alike.cleared n state h₁).leave n invokes triggers
    · intro hquiet
      rw [Board.leave_crashed]
      exact hq (hquiet hi)
  · refine hQ _ ?_ fun _ => Board.leave_crashed ..
    unfold Board.through
    rw [if_neg hi]
    exact (Board.Alike.refl _).leave n invokes triggers

end

end CommonCore
