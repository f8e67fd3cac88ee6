import CommonCore.Settling

/-!
# A transition that is overtaken

One call of `set_target` waits for the interceptors of its transition, and
another one on the same switch starts and completes. When the interceptors of
the first call finish, the switch is no longer in the transitional state, and
`handle_cancel` decides what becomes of the call. Without any policy it goes
on, and enters its own target.
-/

namespace CommonCore

open Coop Coop.Prog Relation

abbrev SwitchThread := Thread Board Call Bool Launch Failures

/-! ## What is left of a call that waits -/

/-- A phase of `invoke_interceptors`, after the wait. -/
def phaseEnd (n : SwitchName) (state : State) (launched : List Interceptor) (onCancel onError : ExceptionHandling)
    (errors : List (Interceptor × Thrown)) : M Bool := do
  let current ← get fun b => (b.status n).currentState
  if current ≠ state then do
    let diverted ← handleCancel n launched onCancel
    pure !diverted
  else if errors.isEmpty then pure true
  else do
    let diverted ← handleErrors n errors onError
    pure !diverted

/-- The phases after one that has returned `success`. -/
def laterPhases (n : SwitchName) (state : State) (onCancel onError : ExceptionHandling) (phase : InterceptorPhase)
    (success : Bool) : M Bool :=
  match phase with
  | .early =>
    if success then do
      let normal ← invokePhase n state .normal onCancel onError
      if normal then invokePhase n state .late onCancel onError else pure false
    else pure false
  | .normal => if success then invokePhase n state .late onCancel onError else pure false
  | .late => pure success

/-- `set_current_state`, after the interceptors. -/
def leaveState (n : SwitchName) (triggerDescendants success : Bool) : M Bool := do
  modify fun b => b.setPending n false
  modify fun b => if triggerDescendants then b.updateDescendants n true else b
  modify fun b => b.notifyStatus n
  pure success

/-- `set_target`, after the transition. -/
def enterTarget (n : SwitchName) (target : State) (args : TargetArgs) (proceed : Bool) : M Bool :=
  if proceed then do
    modify fun b => b.writeTarget n target args
    invoke (args.finalCall n target)
  else pure false

/-- A thread that waits in `set_current_state` for the interceptors of a phase,
where the switch has the interceptors `ics`. -/
inductive During (ics : List Interceptor) (n : SwitchName) (state : State) (triggers : Bool)
    (onCancel onError : ExceptionHandling) (callers : List (Bool → M Bool)) : SwitchThread → Prop
  | mk {phase launched results} : launched = ics.filter (fun ic => ic.applicableIn state phase) →
      results = launched.filter (fun ic => !ic.asynchronous) →
      During ics n state triggers onCancel onError callers
        ⟨.await ⟨n, state, phase, results⟩ fun r => do
          let success ← phaseEnd n state launched onCancel onError (collectErrors results r)
          let success ← laterPhases n state onCancel onError phase success
          leaveState n triggers success, callers⟩

/-- A call of `set_target` that waits for the interceptors of its transition. -/
def InTransition (ics : List Interceptor) (n : SwitchName) (target : State) (args : TargetArgs) : SwitchThread → Prop :=
  During ics n target.transitionState args.triggerDescendants args.onCancel args.onError [enterTarget n target args]

/-- One that has entered its target, or has returned. -/
def Entered (ics : List Interceptor) (n : SwitchName) (target : State) (args : TargetArgs) (t : SwitchThread) : Prop :=
  During ics n target args.triggerDescendants .ignore .ignore [Prog.ret] t ∨ ∃ r, t = Thread.done r

/-! ## The first turn -/

section
variable {n : SwitchName} {state : State} {onCancel onError : ExceptionHandling} {b b' : Board}
  {st : List (Bool → M Bool)} {f : Bool → M Bool} {t : SwitchThread} {phase : InterceptorPhase}

theorem invokePhase_eq : invokePhase n state phase onCancel onError = (do
    let launched ← get fun b => b.applicable n state phase
    modify fun b => b.notifyEach n launched
    let results := launched.filter fun ic => !ic.asynchronous
    let errors ←
      if results.isEmpty then pure []
      else do
        let r ← wait { switch := n, state, phase, interceptors := results }
        pure (collectErrors results r)
    phaseEnd n state launched onCancel onError errors) := rfl

/-- A phase with nothing to wait for. -/
theorem turn_phase (hcur : (b.status n).currentState = state) (h : b.awaited n state phase = []) :
    Turn body b ⟨invokePhase n state phase onCancel onError >>= f, st⟩ b' t ↔
      Turn body (b.launch n state phase) ⟨f true, st⟩ b' t := by
  have hempty : ((b.applicable n state phase).filter fun ic => !ic.asynchronous).isEmpty = true :=
    List.isEmpty_iff.mpr h
  have hcur' : ¬ ((b.launch n state phase).status n).currentState ≠ state := by
    rw [Board.launch, Board.notifyEach_status]
    exact not_not.mpr hcur
  simp only [invokePhase_eq, bind_assoc, turn_get, turn_modify, hempty, if_true]
  show Turn body (b.launch n state phase) ⟨phaseEnd n state _ onCancel onError [] >>= f, st⟩ b' t ↔ _
  simp only [phaseEnd, bind_assoc, turn_get, if_neg hcur', List.isEmpty_nil, if_true]
  exact Iff.rfl

/-- A phase that waits. -/
theorem turn_phase_waits (h : b.awaited n state phase ≠ []) :
    Turn body b ⟨invokePhase n state phase onCancel onError >>= f, st⟩ b' t ↔
      b' = b.launch n state phase ∧
        t = ⟨.await ⟨n, state, phase, b.awaited n state phase⟩ fun r => do
          let success ← phaseEnd n state (b.applicable n state phase) onCancel onError
            (collectErrors (b.awaited n state phase) r)
          f success, st⟩ := by
  have hempty : ¬ ((b.applicable n state phase).filter fun ic => !ic.asynchronous).isEmpty = true :=
    fun h' => h (List.isEmpty_iff.mp h')
  simp only [invokePhase_eq, bind_assoc, turn_get, turn_modify, if_neg hempty]
  exact turn_wait

theorem laterPhases_early : laterPhases n state onCancel onError .early true >>= f =
    invokePhase n state .normal onCancel onError >>= fun success =>
      laterPhases n state onCancel onError .normal success >>= f := bind_assoc ..

theorem laterPhases_normal : laterPhases n state onCancel onError .normal true >>= f =
    invokePhase n state .late onCancel onError >>= fun success =>
      laterPhases n state onCancel onError .late success >>= f := rfl

theorem Board.Alike.launch {c : Board} (h : b.Alike c) : b.Alike (c.launch n state phase) := h.trans (.notifyEach c n _)

/-- A program whose first turn ends at a wait for interceptors of `n` for `state`. -/
def Waits (b : Board) (n : SwitchName) (state : State) (triggers : Bool) (onCancel onError : ExceptionHandling)
    (st : List (Bool → M Bool)) (c : Board) (t : SwitchThread) : Prop :=
  ∃ c' t', b.Alike c' ∧ During (b.interceptors n) n state triggers onCancel onError st t' ∧
    ∀ b' u, Turn body c t b' u ↔ b' = c' ∧ u = t'

/-- The phases from `phase` on, the first of which may wait. -/
theorem waits_phase (triggers : Bool) {c : Board} (ha : b.Alike c) (hcur : (b.status n).currentState = state)
    (hnext : b.awaited n state phase = [] → Waits b n state triggers onCancel onError st (c.launch n state phase)
      ⟨laterPhases n state onCancel onError phase true >>= leaveState n triggers, st⟩) :
    Waits b n state triggers onCancel onError st c
      ⟨invokePhase n state phase onCancel onError >>= fun success =>
        laterPhases n state onCancel onError phase success >>= leaveState n triggers, st⟩ := by
  by_cases hne : b.awaited n state phase = []
  · obtain ⟨c', t', ha', hd, hturn⟩ := hnext hne
    have hcur' : (c.status n).currentState = state := by rw [ha.status, hcur]
    refine ⟨c', t', ha', hd, fun b' t => ?_⟩
    rw [turn_phase hcur' ((ha.awaited ..).trans hne), hturn]
  · rw [← ha.awaited] at hne
    refine ⟨c.launch n state phase, _, ha.launch, ?_, fun b' t => turn_phase_waits hne⟩
    apply During.mk
    · rw [ha.applicable]
      rfl
    · rfl

theorem waits_phases (triggers : Bool) (onCancel onError : ExceptionHandling) (st : List (Bool → M Bool))
    (hcur : (b.status n).currentState = state) (hp : ∃ phase, b.awaited n state phase ≠ []) :
    Waits b n state triggers onCancel onError st b
      ⟨invokeInterceptors n state onCancel onError >>= leaveState n triggers, st⟩ := by
  have hprog : invokeInterceptors n state onCancel onError >>= leaveState n triggers =
      invokePhase n state .early onCancel onError >>= fun success =>
        laterPhases n state onCancel onError .early success >>= leaveState n triggers := bind_assoc ..
  rw [hprog]
  refine waits_phase triggers (.refl b) hcur fun hearly => ?_
  rw [laterPhases_early]
  refine waits_phase triggers (Board.Alike.refl b).launch hcur fun hnormal => ?_
  rw [laterPhases_normal]
  refine waits_phase triggers (Board.Alike.refl b).launch.launch hcur fun hlate => ?_
  obtain ⟨phase, hne⟩ := hp
  cases phase with
  | early => exact absurd hearly hne
  | normal => exact absurd hnormal hne
  | late => exact absurd hlate hne

theorem waits_setCurrentState {invokes : Bool} (hi : invokes = true) (triggers : Bool) (onCancel onError : ExceptionHandling)
    (st : List (Bool → M Bool)) (hp : ∃ phase, b.awaited n state phase ≠ []) :
    Waits (b.during n state) n state triggers onCancel onError st b
      ⟨setCurrentState n state invokes triggers onCancel onError, st⟩ := by
  subst hi
  have hcur : ((b.during n state).status n).currentState = state := by simp [Board.during, Status.enter]
  obtain ⟨c, t, ha, hd, hturn⟩ := waits_phases triggers onCancel onError st hcur hp
  refine ⟨c, t, ha, hd, fun b' u => ?_⟩
  rw [← hturn]
  simp only [setCurrentState, if_true, turn_modify]
  exact Iff.rfl

/-- `set_target` waits for the interceptors of its transition first. -/
theorem waits_setTarget {args : TargetArgs} (hset : (b.resolveTarget n args).isSettled = true) (hmoves : ¬ Unmoved b n args)
    (hinvoke : args.invokeInterceptors = true)
    (hp : ∃ phase, b.awaited n (b.resolveTarget n args).transitionState phase ≠ []) :
    ∃ c t, (b.during n (b.resolveTarget n args).transitionState).Alike c ∧
      InTransition (b.interceptors n) n (b.resolveTarget n args) args t ∧
        ∀ b' u, Turn body b (.start (setTarget n args)) b' u ↔ b' = c ∧ u = t := by
  obtain ⟨c, t, ha, hd, hturn⟩ := waits_setCurrentState hinvoke args.triggerDescendants args.onCancel args.onError
    [enterTarget n (b.resolveTarget n args) args] hp
  refine ⟨c, t, ha, hd, fun b' u => ?_⟩
  rw [← hturn]
  have hgo : (args.reevaluate || (b.status n).currentState != b.resolveTarget n args) = true := by
    by_cases hr : args.reevaluate = true
    · simp [hr]
    · have hne : (b.status n).currentState ≠ b.resolveTarget n args :=
        fun hcur => hmoves (.inl ⟨Bool.not_eq_true _ ▸ hr, hcur⟩)
      simp [hne]
  have hun : (b.resolveTarget n args).transitionState ≠ .unset := (State.transitionState_ne_unset _).mpr hset
  have hcur : (b.status n).currentState ≠ (b.resolveTarget n args).transitionState := fun hcur => hmoves (.inr ⟨hset, hcur⟩)
  have hics : ¬ (b.interceptors n).isEmpty = true := by
    obtain ⟨phase, hne⟩ := hp
    intro hnil
    exact hne (Board.awaited_nil (List.isEmpty_iff.mp hnil) ..)
  simp only [Thread.start, setTarget, applyTarget, turn_get, id_eq, if_pos hgo, if_neg hun, if_neg hcur, if_neg hics]
  exact turn_invoke

end

/-! ## When nobody else is left -/

/-- Nobody else is at work, and the state changes that are called ignore errors. -/
def unhindered : Contract Board Call Bool Launch Failures where
  pre
    | .setTarget _ _, _ => False
    | .setCurrentState _ _ _ _ _ onError, _ => onError = .ignore
  post
    | .setTarget _ _, _, _, _ => False
    | .setCurrentState n state _ _ _ _, _, _, b' => (b'.status n).currentState = state
  parked _ := True
  wait b _ _ b' := b' = b

section
variable {K : Contract Board Call Bool Launch Failures} {n : SwitchName} {state : State} {onCancel onError : ExceptionHandling}
  {b : Board}

theorem wp_setCurrentState_ignoring (hpark : ∀ b, K.parked b) (hwait : ∀ b e r b', K.wait b e r b' → b' = b)
    {invokes triggers : Bool} : wp K (setCurrentState n state invokes triggers onCancel .ignore) b
      fun _ b' => (b'.status n).currentState = state := by
  refine wp_setCurrentState_smooth (fun _ => ⟨fun _ _ _ => hpark _, fun phase b₁ r b₂ _ hw => ?_⟩) fun b' ha => ?_
  · exact ⟨hwait _ _ _ _ hw, ignorable_ignore _⟩
  · rw [ha.status, Board.through_status_self]
    simp [Status.enter]

theorem unhindered_meets : unhindered.Meets body := by
  intro c b h
  cases c with
  | setTarget n args => cases h
  | setCurrentState n state invokes triggers onCancel onError =>
    obtain rfl : onError = .ignore := h
    exact wp_setCurrentState_ignoring (fun _ => trivial) fun _ _ _ _ h => h

theorem unhindered_allows (ω : ℕ → Launch → Failures) : unhindered.Allows ω := fun _ _ _ _ => rfl

theorem run_unhindered (ω : ℕ → Launch → Failures) (c : Call) (b : Board) (k : ℕ) (h : unhindered.pre c b) :
    ∃ r b' k', run body ω 1 c b k = some (r, b', k') ∧ unhindered.post c b r b' := by
  cases c with
  | setTarget n args => cases h
  | setCurrentState n state invokes triggers onCancel onError =>
    obtain rfl : onError = .ignore := h
    let leaf : Contract Board Call Bool Launch Failures := { unhindered with pre := fun _ _ => False }
    have hω : leaf.Allows ω := fun _ _ _ _ => rfl
    refine exec_total hω (fun _ _ _ hf => False.elim hf) _ b k ?_
    exact wp_setCurrentState_ignoring (fun _ => trivial) fun _ _ _ _ h => h

theorem wp_phaseEnd {launched : List Interceptor} {errors : List (Interceptor × Thrown)} {Q : Bool → Board → Prop} :
    wp K (phaseEnd n state launched onCancel onError errors) b Q ↔ PhaseEnds K n state launched onCancel onError Q errors b := by
  simp only [phaseEnd, wp_then, wp_get, wp_ite, wp_pure, wp_handleCancel, wp_handleErrors, PhaseEnds]

theorem Keeps.laterPhases {R S : Board → Prop} (h : Keeps K n state onCancel onError R S) (hb : R b) (phase : InterceptorPhase) :
    wp K (laterPhases n state onCancel onError phase true) b fun r b' => if r then R b' else S b' := by
  cases phase with
  | early =>
    rw [CommonCore.laterPhases, if_pos rfl, wp_then]
    refine wp_mono _ (fun normal b₁ h₁ => ?_) _ _ (h.invokePhase hb .normal)
    cases normal with
    | false => exact h₁
    | true => exact h.invokePhase h₁ .late
  | normal => exact h.invokePhase hb .late
  | late => exact hb

/-- `n` is in the state `reached`, and has the interceptors `ics`. -/
structure At (n : SwitchName) (reached : State) (ics : List Interceptor) (b : Board) : Prop where
  current : (b.status n).currentState = reached
  interceptors : b.interceptors n = ics

variable {ics : List Interceptor} {reached : State}

theorem At.logDiversion (h : At n reached ics b) (error : Option Error) : At n reached ics (b.logDiversion error) := by
  refine ⟨by rw [Board.logDiversion_status, h.current], ?_⟩
  rw [Board.interceptors, Board.logDiversion_spec]
  exact h.interceptors

/-- Cancellations of a change to `state` are ignored, and errors too if that is the state reached. -/
structure Lenient (ics : List Interceptor) (reached state : State) (onCancel onError : ExceptionHandling) : Prop where
  cancel : ∀ phase, cancelPolicy (ics.filter fun ic => ic.applicableIn state phase) onCancel = .ignore
  errors : reached = state → onError = .ignore

theorem Lenient.keeps (h : Lenient ics reached state onCancel onError) :
    Keeps unhindered n state onCancel onError (At n reached ics) fun _ => False where
  notify _ hb := ⟨hb.current, hb.interceptors⟩
  parked _ _ _ _ := trivial
  wait _ _ _ _ hb _ hw := by
    cases hw
    exact hb
  cancel b₀ phase b h₀ hb _ := by
    have hpolicy : cancelPolicy (b₀.applicable n state phase) onCancel = .ignore := by
      rw [Board.applicable, h₀.interceptors]
      exact h.cancel phase
    rw [hpolicy]
    exact hb
  errors _ _ _ _ hb _ hw hcur _ := by
    cases hw
    rw [HandlesErrors, h.errors (hb.current.symm.trans hcur)]
    exact hb.logDiversion _

/-- What is left of a state change does not move the switch, and succeeds. -/
theorem During.meets {triggers : Bool} {st : List (Bool → M Bool)} {t : SwitchThread} {Q : Bool → Board → Prop}
    (hd : During ics n state triggers onCancel onError st t) (h : Lenient ics reached state onCancel onError)
    (hb : At n reached ics b)
    (hst : ∀ b', (b'.status n).currentState = reached → Thread.callers unhindered Q st true b') :
    t.Meets unhindered Q b := by
  obtain @⟨phase, launched, results, hl, -⟩ := hd
  refine ⟨trivial, fun r b' hw => ?_⟩
  cases hw
  show wp unhindered (phaseEnd n state launched onCancel onError (collectErrors results r) >>= _) b _
  have hend : PhaseEnds unhindered n state launched onCancel onError (fun r b' => r = true ∧ At n reached ics b')
      (collectErrors results r) b := by
    unfold PhaseEnds
    split_ifs with hcur hnil
    · rw [hl, h.cancel phase]
      exact ⟨rfl, hb⟩
    · exact ⟨rfl, hb⟩
    · rw [HandlesErrors, h.errors (hb.current.symm.trans (not_not.mp hcur))]
      exact ⟨rfl, hb.logDiversion _⟩
  rw [wp_then]
  refine wp_mono _ (fun success b₁ h₁ => ?_) _ _ (wp_phaseEnd.mpr hend)
  obtain ⟨rfl, hb₁⟩ := h₁
  rw [wp_then]
  refine wp_mono _ (fun success b₂ h₂ => ?_) _ _ (h.keeps.laterPhases hb₁ phase)
  cases success with
  | false => exact h₂.elim
  | true =>
    refine hst _ ?_
    have hcur : (b₂.status n).currentState = reached := h₂.current
    split_ifs <;> simpa using hcur

theorem cancelPolicy_default {launched : List Interceptor} (h : ∀ ic ∈ launched, ic.onCancel = .default) :
    cancelPolicy launched .default = .ignore := by
  have hmax : maxCancel launched .default = .default := by
    unfold maxCancel
    induction launched with
    | nil => rfl
    | cons ic l ih =>
      have hic : ic.onCancel = .default := h ic (List.mem_cons_self ..)
      rw [List.foldl_cons, hic]
      exact ih fun ic hl => h ic (List.mem_cons_of_mem _ hl)
  simp [cancelPolicy, hmax, ExceptionHandling.orElse]

variable {target : State} {args : TargetArgs} {t : SwitchThread}

/-- A call without policies enters its own target, whatever the switch has come to. -/
theorem InTransition.meets (ht : InTransition ics n target args t) (hcancel : args.onCancel = .default)
    (hics : ∀ ic ∈ ics, ic.onCancel = .default) (hb : At n reached ics b) (hne : reached ≠ target.transitionState) :
    t.Meets unhindered (fun _ b' => (b'.status n).currentState = target) b := by
  have hlenient : Lenient ics reached target.transitionState args.onCancel args.onError := by
    refine ⟨fun phase => ?_, fun hr => absurd hr hne⟩
    rw [hcancel]
    exact cancelPolicy_default fun ic hic => hics ic (List.mem_of_mem_filter hic)
  refine During.meets ht hlenient hb fun b' _ => ?_
  exact ⟨rfl, fun r b'' hpost => hpost⟩

/-- A call that has entered its target does not move the switch any more. -/
theorem Entered.meets (ht : Entered ics n target args t) (hb : At n reached ics b) :
    t.Meets unhindered (fun _ b' => (b'.status n).currentState = reached) b := by
  rcases ht with ht | ⟨r, rfl⟩
  · have hlenient : Lenient ics reached target .ignore .ignore := ⟨fun _ => rfl, fun _ => rfl⟩
    exact During.meets ht hlenient hb fun b' hcur => hcur
  · exact hb.current

end

/-! ## Interceptors stay as they are -/

/-- `set_target` does not edit any specification. -/
def unedited (spec : SwitchName → Specification) : Contract Board Call Bool Launch Failures where
  pre _ b := b.spec = spec
  post _ _ _ b' := b'.spec = spec
  parked b := b.spec = spec
  wait _ _ _ b' := b'.spec = spec

section
variable {spec : SwitchName → Specification} {n : SwitchName} {b : Board}

theorem unedited_diverts (h : b.spec = spec) (error : Option Error) (eh : ExceptionHandling) :
    Diverts (unedited spec) n error b (fun d b => if d then b.spec = spec else b.spec = spec) eh := by
  cases eh with
  | default => exact h
  | ignore => exact h
  | abort => exact ⟨h, fun _ _ h => h⟩
  | fail => exact ⟨h, fun _ _ h => h⟩
  | revert => exact ⟨h, fun _ _ h => h⟩

theorem unedited_keeps (state : State) (onCancel onError : ExceptionHandling) :
    Keeps (unedited spec) n state onCancel onError (fun b => b.spec = spec) fun b => b.spec = spec where
  notify _ h := h
  parked _ _ h _ := h
  wait _ _ _ _ _ _ h := h
  cancel _ _ _ _ h _ := unedited_diverts h _ _
  errors _ _ _ _ _ _ h _ _ := unedited_diverts ((Board.logDiversion_spec _ _).trans h) _ _

theorem wp_setTarget_unedited (h : b.spec = spec) (args : TargetArgs) :
    wp (unedited spec) (setTarget n args) b fun _ b' => b'.spec = spec := by
  rw [wp_setTarget, wp_applyTarget]
  split_ifs
  · unfold Board.touch
    split_ifs <;> exact h
  · exact h
  · refine ⟨h, fun r b' h' => ?_⟩
    split_ifs
    · exact ⟨h', fun _ _ h => h⟩
    · exact h'
  · exact ⟨h, fun _ _ h => h⟩

theorem unedited_meets : (unedited spec).Meets body := by
  intro c b h
  cases c with
  | setTarget n args => exact wp_setTarget_unedited h args
  | setCurrentState n state invokes triggers onCancel onError =>
    have leave : ∀ {b : Board}, b.spec = spec → (b.leave n invokes triggers).spec = spec := by
      intro b hb
      unfold Board.leave
      split_ifs <;> simpa using hb
    rw [body, wp_setCurrentState]
    split_ifs
    · have hk : Keeps (unedited spec) n state onCancel onError _ _ := unedited_keeps state onCancel onError
      refine wp_mono _ (fun _ b₁ h₁ => leave ?_) _ _ (hk.invokeInterceptors h)
      simpa using h₁
    · exact leave h

end

/-- Only calls of `set_target` are at work. -/
theorem spec_of_setTargets {b : Board} {c : Pool Board Call Bool Launch Failures}
    (h : ReflTransGen (PoolStep body fun p => ∃ n args, p = setTarget n args) (b, []) c) : c.1.spec = b.spec := by
  have hmeets : (unedited b.spec).Meets body := unedited_meets
  refine pool_inv hmeets (fun _ h => h) (fun _ _ _ _ h => h) (fun p hp s hs => ?_) rfl h
  obtain ⟨n, args, rfl⟩ := hp
  exact wp_setTarget_unedited hs args

/-! ## The call that is overtaken -/

/-- `set_target(args')` starts on `b₁` while `set_target(args)`, which started
on `b`, waits for the interceptors of its transition. On `b₂` it has completed,
with the switch in its target state. The first call is then either still at its
transition, or has entered its target. -/
structure Overtakes (n : SwitchName) (args args' : TargetArgs) (b b₁ b₂ : Board) (t₁ t₂ : SwitchThread) (r : Bool) : Prop where
  starts : ∃ c, Starts body (setTarget n args) (b, []) c ∧ ReflTransGen (Resumes body) c (b₁, [t₁])
  waits : InTransition (b.interceptors n) n (b.resolveTarget n args) args t₁
  overlaps : ∃ c, Starts body (setTarget n args') (b₁, [t₁]) c ∧ ReflTransGen (Resumes body) c (b₂, [t₂, Thread.done r])
  settles : (b₁.resolveTarget n args').isSettled = true
  arrives : (b₂.status n).currentState = b₁.resolveTarget n args'
  stage : InTransition (b.interceptors n) n (b.resolveTarget n args) args t₂ ∨
    Entered (b.interceptors n) n (b.resolveTarget n args) args t₂

section
variable {n : SwitchName} {args args' : TargetArgs} {b b₁ b₂ : Board} {t₁ t₂ : SwitchThread} {r : Bool}

theorem Overtakes.at (h : Overtakes n args args' b b₁ b₂ t₁ t₂ r) : At n (b₁.resolveTarget n args') (b.interceptors n) b₂ := by
  refine ⟨h.arrives, ?_⟩
  obtain ⟨c, hstart, hrun⟩ := h.starts
  obtain ⟨c', hstart', hrun'⟩ := h.overlaps
  have hpool : ReflTransGen (PoolStep body fun p => ∃ n args, p = setTarget n args) (b, []) (b₂, [t₂, Thread.done r]) := by
    refine (ReflTransGen.single (.starts ⟨n, args, rfl⟩ hstart)).trans ?_
    refine (hrun.lift id fun _ _ h => .resumes h).trans ?_
    refine (ReflTransGen.single (.starts ⟨n, args', rfl⟩ hstart')).trans ?_
    exact hrun'.lift id fun _ _ h => .resumes h
  have hspec : b₂.spec = b.spec := spec_of_setTargets hpool
  unfold Board.interceptors
  rw [hspec]

theorem InTransition.parked {ics : List Interceptor} {target : State} (h : InTransition ics n target args t₁) : t₁.Parked := by
  cases h
  exact .inl ⟨_, _, rfl⟩

theorem Entered.parked {ics : List Interceptor} {target : State} (h : Entered ics n target args t₁) : t₁.Parked := by
  rcases h with h | h
  · cases h
    exact .inl ⟨_, _, rfl⟩
  · exact .inr h

/-- The first call completes. -/
theorem Overtakes.completes (h : Overtakes n args args' b b₁ b₂ t₁ t₂ r) {Q : Bool → Board → Prop} (hm : t₂.Meets unhindered Q b₂) :
    (∃ b₃ r₁, ReflTransGen (Resumes body) (b₂, [t₂, Thread.done r]) (b₃, [Thread.done r₁, Thread.done r])) ∧
      ∀ b₃ r₁, ReflTransGen (Resumes body) (b₂, [t₂, Thread.done r]) (b₃, [Thread.done r₁, Thread.done r]) → Q r₁ b₃ := by
  have hpark : t₂.Parked := h.stage.elim InTransition.parked Entered.parked
  refine ⟨?_, fun b₃ r₁ hrun => ?_⟩
  · obtain ⟨r₁, b₃, hrun, -⟩ := finishes_among (unhindered_allows noFailures) (run_unhindered noFailures) hpark hm [] [Thread.done r]
    exact ⟨b₃, r₁, hrun⟩
  · have hdone : ∀ d ∈ [(Thread.done r : SwitchThread)], ∃ r, d = Thread.done r :=
      fun d hd => ⟨r, List.mem_singleton.mp hd⟩
    obtain ⟨t, heq, ht⟩ := solo_meets unhindered_meets (fun _ _ _ => rfl) hdone hrun hm
    obtain ⟨rfl, -⟩ := List.cons.inj heq
    exact ht

/-- While it is at its transition, it takes the switch to its own target. -/
theorem Overtakes.overwrites (h : Overtakes n args args' b b₁ b₂ t₁ t₂ r) (hcancel : args.onCancel = .default)
    (hics : ∀ ic ∈ b.interceptors n, ic.onCancel = .default)
    (ht : InTransition (b.interceptors n) n (b.resolveTarget n args) args t₂) :
    t₂.Meets unhindered (fun _ b₃ => (b₃.status n).currentState = b.resolveTarget n args) b₂ := by
  refine ht.meets hcancel hics h.at fun hcur => ?_
  have hset := h.settles
  rw [hcur, State.isSettled_transitionState] at hset
  cases hset

/-- A switch that has been taken to its target by a second call stays there if
the first call has entered its own target already, or the targets are the same. -/
theorem stays_overtaken_iff (h : Overtakes n args args' b b₁ b₂ t₁ t₂ r) (hcancel : args.onCancel = .default)
    (hics : ∀ ic ∈ b.interceptors n, ic.onCancel = .default) :
    (∃ b₃ r₁, ReflTransGen (Resumes body) (b₂, [t₂, Thread.done r]) (b₃, [Thread.done r₁, Thread.done r])) ∧
      ∀ b₃ r₁, ReflTransGen (Resumes body) (b₂, [t₂, Thread.done r]) (b₃, [Thread.done r₁, Thread.done r]) →
        ((b₃.status n).currentState = b₁.resolveTarget n args' ↔
          Entered (b.interceptors n) n (b.resolveTarget n args) args t₂ ∨
            b.resolveTarget n args = b₁.resolveTarget n args') := by
  by_cases ht : Entered (b.interceptors n) n (b.resolveTarget n args) args t₂
  · obtain ⟨hex, hall⟩ := h.completes (ht.meets h.at)
    exact ⟨hex, fun b₃ r₁ hrun => ⟨fun _ => .inl ht, fun _ => hall b₃ r₁ hrun⟩⟩
  · obtain ⟨hex, hall⟩ := h.completes (h.overwrites hcancel hics (h.stage.resolve_right ht))
    refine ⟨hex, fun b₃ r₁ hrun => ?_⟩
    rw [hall b₃ r₁ hrun]
    exact ⟨.inr, fun hor => hor.resolve_left ht⟩

end

/-! ### Activation, overtaken by deactivation -/

/-- A switch with one interceptor, which leaves its policies open. -/
def intercepted : Board := .new [] ["a"] fun _ => { interceptors := .ofList [{ name := "i", onCancel := .default }] }

def activate : TargetArgs := { targetState := .active }

def deactivate : TargetArgs := { targetState := .inactive }

theorem intercepted_policies : ∀ ic ∈ intercepted.interceptors "a", ic.onCancel = .default := by decide

/-- The activation waits for the interceptor. -/
theorem activate_waits : ∃ b₁ t₁, (intercepted.during "a" .activating).Alike b₁ ∧
    InTransition (intercepted.interceptors "a") "a" .active activate t₁ ∧ Starts body (setTarget "a" activate) (intercepted, []) (b₁, [t₁]) := by
  have hp : ∃ phase, intercepted.awaited "a" (intercepted.resolveTarget "a" activate).transitionState phase ≠ [] :=
    ⟨.normal, by decide⟩
  have hmoves : ¬ Unmoved intercepted "a" activate := by
    intro h
    rcases h with h | h
    · exact absurd h.2 (by decide)
    · exact absurd h.2 (by decide)
  obtain ⟨b₁, t₁, ha, hwait, hturn⟩ := waits_setTarget rfl hmoves rfl hp
  exact ⟨b₁, t₁, ha, hwait, .mk ((hturn b₁ t₁).mpr ⟨rfl, rfl⟩)⟩

theorem overtakes_intercepted : ∃ b₁ b₂ t₁ t₂ r, Overtakes "a" activate deactivate intercepted b₁ b₂ t₁ t₂ r ∧
    b₁.resolveTarget "a" deactivate = .inactive ∧ InTransition (intercepted.interceptors "a") "a" .active activate t₂ := by
  obtain ⟨b₁, t₁, ha, hwait, hstart₁⟩ := activate_waits
  have htarget : b₁.resolveTarget "a" deactivate = .inactive := rfl
  have hcur : (b₁.status "a").currentState = .activating := by
    rw [ha.status]
    rfl
  have hpasses : b₁.Passes noFailures "a" .inactive deactivate := fun _ phase k => .inl rfl
  obtain ⟨⟨r, b₂, hperforms⟩, hall⟩ := performs_setTarget_alone hpasses
  have happ := hall r b₂ hperforms
  have harrives : (b₂.status "a").currentState = .inactive := by
    cases happ with
    | same _ h => rw [hcur] at h; cases h
    | blocked _ _ h => rw [hcur] at h; cases h
    | reached _ _ ha' =>
      rw [ha'.status, Board.reach_status_self]
      rfl
  obtain ⟨fuel, k, k', he⟩ := hperforms
  obtain ⟨c, hstart, hrun⟩ := exec_pool he [t₁]
  refine ⟨b₁, b₂, t₁, t₁, r, ?_, htarget, hwait⟩
  exact ⟨⟨_, hstart₁, .refl⟩, hwait, ⟨c, hstart, hrun⟩, rfl, harrives, .inl hwait⟩

/-- The deactivation waits as well, and the activation enters its target before
the deactivation does. -/
theorem overtakes_entered : ∃ b₁ b₂ t₁ r₁ r, Overtakes "a" activate deactivate intercepted b₁ b₂ t₁ (Thread.done r₁) r := by
  obtain ⟨b₁, t₁, ha, hwait, hstart₁⟩ := activate_waits
  have hspec : b₁.spec = intercepted.spec := ha.spec
  have hcur : (b₁.status "a").currentState = .activating := by
    rw [ha.status]
    rfl
  have hmoves : ¬ Unmoved b₁ "a" deactivate := by
    rintro (⟨-, h⟩ | ⟨-, h⟩)
    · rw [hcur] at h; cases h
    · rw [hcur] at h; cases h
  have hp : b₁.awaited "a" State.inactive.transitionState .normal ≠ [] := by
    unfold Board.awaited Board.applicable Board.interceptors
    rw [hspec]
    decide
  obtain ⟨c, u, hc, hwait', hturn⟩ := waits_setTarget rfl hmoves rfl ⟨.normal, hp⟩
  have hstart₂ : Starts body (setTarget "a" deactivate) (b₁, [t₁]) (c, [t₁, u]) := .mk ((hturn c u).mpr ⟨rfl, rfl⟩)
  have hics : b₁.interceptors "a" = intercepted.interceptors "a" := by rw [Board.interceptors, hspec]; rfl
  rw [hics] at hwait'
  -- the activation goes on to its target
  have hat : At "a" .deactivating (intercepted.interceptors "a") c := by
    refine ⟨by rw [hc.status]; simp [Board.during, Status.enter]; rfl, ?_⟩
    rw [Board.interceptors, hc.spec]
    exact hics
  obtain ⟨r₁, c', hrun₁, hcur₁⟩ := finishes_among (unhindered_allows noFailures) (run_unhindered noFailures) hwait.parked
    (hwait.meets rfl intercepted_policies hat (by decide)) [] [u]
  -- and then the deactivation
  have hspec' : c'.spec = intercepted.spec := by
    refine spec_of_setTargets (c := (c', [Thread.done r₁, u])) ?_
    refine (ReflTransGen.single (.starts ⟨_, _, rfl⟩ hstart₁)).trans ?_
    refine (ReflTransGen.single (.starts ⟨_, _, rfl⟩ hstart₂)).trans ?_
    exact hrun₁.lift id fun _ _ h => .resumes h
  have hat' : At "a" .active (intercepted.interceptors "a") c' := ⟨hcur₁, by rw [Board.interceptors, hspec']; rfl⟩
  obtain ⟨r, b₂, hrun₂, harrives⟩ := finishes_among (unhindered_allows noFailures) (run_unhindered noFailures) hwait'.parked
    (hwait'.meets rfl intercepted_policies hat' (show State.active ≠ State.inactive.transitionState by decide)) [Thread.done r₁] []
  refine ⟨b₁, b₂, t₁, r₁, r, ⟨_, hstart₁, .refl⟩, hwait, ⟨_, hstart₂, hrun₁.trans hrun₂⟩, rfl, harrives, .inr (.inr ⟨r₁, rfl⟩)⟩

/-- Once the activation is over, the deactivation stays. -/
theorem stays_overtaken_intercepted : ∃ b₁ b₂ t₁ r₁ r b₃ r₂, Overtakes "a" activate deactivate intercepted b₁ b₂ t₁ (Thread.done r₁) r ∧
    ReflTransGen (Resumes body) (b₂, [Thread.done r₁, Thread.done r]) (b₃, [Thread.done r₂, Thread.done r]) ∧
      (b₃.status "a").currentState = b₁.resolveTarget "a" deactivate := by
  obtain ⟨b₁, b₂, t₁, r₁, r, ho⟩ := overtakes_entered
  obtain ⟨⟨b₃, r₂, hrun⟩, hall⟩ := stays_overtaken_iff ho rfl intercepted_policies
  exact ⟨b₁, b₂, t₁, r₁, r, b₃, r₂, ho, hrun, (hall b₃ r₂ hrun).mpr (.inl (.inr ⟨r₁, rfl⟩))⟩

/-- The switch was deactivated, and the activation that it overtook activates it. -/
theorem not_stays_overtaken : ∃ b₁ b₂ t₁ t₂ r b₃ r₁, Overtakes "a" activate deactivate intercepted b₁ b₂ t₁ t₂ r ∧
    (∀ ic ∈ intercepted.interceptors "a", ic.onCancel = .default) ∧
      activate.onCancel = .default ∧ deactivate.onCancel = .default ∧
        InTransition (intercepted.interceptors "a") "a" (intercepted.resolveTarget "a" activate) activate t₂ ∧
          ReflTransGen (Resumes body) (b₂, [t₂, Thread.done r]) (b₃, [Thread.done r₁, Thread.done r]) ∧
            (b₃.status "a").currentState = .active ∧ b₁.resolveTarget "a" deactivate = .inactive := by
  obtain ⟨b₁, b₂, t₁, t₂, r, ho, htarget, ht⟩ := overtakes_intercepted
  obtain ⟨⟨b₃, r₁, hrun⟩, hall⟩ := ho.completes (ho.overwrites rfl intercepted_policies ht)
  exact ⟨b₁, b₂, t₁, t₂, r, b₃, r₁, ho, intercepted_policies, rfl, rfl, ht, hrun, hall b₃ r₁ hrun, htarget⟩

end CommonCore
