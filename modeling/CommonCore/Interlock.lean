import CommonCore.Settling

/-!
# Hard dependencies

`Dependency::hard` is declared, stored and transmitted, and no operation asks
for it. Activating a switch whose hard dependency is not satisfied has the
effect that it has on any other switch, and so have the threads that follow the
activation of its other predecessors.
-/

namespace CommonCore

open Coop Coop.Prog

/-! ## The states a call enters -/

/-- Between two boards, only `n` has entered states. -/
def Board.Grows (b : Board) (n : SwitchName) (b' : Board) : Prop :=
  ∃ l, b'.entered = l ++ b.entered ∧ ∀ e ∈ l, e.1 = n

namespace Board.Grows

variable {b b' b'' : Board} {n : SwitchName}

theorem refl (b : Board) (n : SwitchName) : b.Grows n b := ⟨[], rfl, by simp⟩

theorem of_entered (h : b.Grows n b') (he : b''.entered = b'.entered) : b.Grows n b'' := by
  obtain ⟨l, hl, hn⟩ := h
  exact ⟨l, he.trans hl, hn⟩

theorem trans (h : b.Grows n b') (h' : b'.Grows n b'') : b.Grows n b'' := by
  obtain ⟨l, hl, hn⟩ := h
  obtain ⟨l', hl', hn'⟩ := h'
  refine ⟨l' ++ l, by rw [hl', hl, List.append_assoc], fun e he => ?_⟩
  rcases List.mem_append.mp he with h | h
  · exact hn' e h
  · exact hn e h

theorem enter (h : b.Grows n b') (state : State) : b.Grows n (b'.enter n state) := by
  obtain ⟨l, hl, hn⟩ := h
  refine ⟨(n, state) :: l, congrArg ((n, state) :: ·) hl, fun e he => ?_⟩
  rcases List.mem_cons.mp he with rfl | he
  · rfl
  · exact hn e he

end Board.Grows

def Call.switch : Call → SwitchName
  | .setTarget n _ => n
  | .setCurrentState n _ _ _ _ _ => n

/-- A call enters states of its own switch only, and `set_current_state` first
enters the state it is given. -/
def growth : Contract Board Call Bool Launch Failures where
  pre _ _ := True
  post
    | .setTarget n _, b, _, b' => b.Grows n b'
    | .setCurrentState n state _ _ _ _, b, _, b' => (b.enter n state).Grows n b'
  parked _ := True
  wait b _ _ b' := b' = b

theorem growth_diverts {b₀ b : Board} {n : SwitchName} (h : b₀.Grows n b) (error : Option Error)
    (eh : ExceptionHandling) :
    Diverts growth n error b (fun d b => if d then b₀.Grows n b else b₀.Grows n b) eh := by
  cases eh with
  | default => exact h
  | ignore => exact h
  | abort => exact ⟨trivial, fun _ _ hp => (h.enter _).trans hp⟩
  | fail => exact ⟨trivial, fun _ _ hp => h.trans hp⟩
  | revert => exact ⟨trivial, fun _ _ hp => h.trans hp⟩

theorem growth_keeps (b₀ : Board) (n : SwitchName) (state : State) (onCancel onError : ExceptionHandling) :
    Keeps growth n state onCancel onError (b₀.Grows n) (b₀.Grows n) where
  notify _ h := h
  parked _ _ _ _ := trivial
  wait _ _ _ _ h _ hw := hw ▸ h
  cancel _ _ _ _ h _ := growth_diverts h _ _
  errors _ _ _ _ h _ hw _ _ := by
    cases hw
    exact growth_diverts (h.of_entered (Board.logDiversion_entered _ _)) _ _

theorem growth_meets : growth.Meets body := by
  intro c b _
  cases c with
  | setCurrentState n state invokes triggers onCancel onError =>
    have leave : ∀ {b₁ : Board}, (b.enter n state).Grows n b₁ → (b.enter n state).Grows n (b₁.leave n invokes triggers) := by
      intro b₁ h
      refine h.of_entered ?_
      unfold Board.leave
      split_ifs <;> simp
    rw [body, wp_setCurrentState]
    split_ifs
    · refine wp_mono _ (fun r b₁ h₁ => ?_) _ _
        ((growth_keeps (b.enter n state) n state onCancel onError).invokeInterceptors (.refl _ n))
      exact leave ((show (b.enter n state).Grows n b₁ by simpa using h₁).of_entered rfl)
    · exact leave (.refl _ n)
  | setTarget n args =>
    rw [body, wp_setTarget, wp_applyTarget]
    split_ifs
    · refine (Board.Grows.refl b n).of_entered ?_
      unfold Board.touch
      split_ifs <;> rfl
    · exact .refl b n
    · refine ⟨trivial, fun r b₁ h₁ => ?_⟩
      have h₁ := ((Board.Grows.refl b n).enter _).trans h₁
      split_ifs
      · exact ⟨trivial, fun _ _ hp => (h₁.of_entered rfl |>.enter _).trans hp⟩
      · exact h₁
    · exact ⟨trivial, fun _ _ hp => ((Board.Grows.refl b n).of_entered rfl |>.enter _).trans hp⟩

/-! ## Interlocked switches -/

/-- A hard dependency of the switch is not satisfied. -/
def Interlocked (b : Board) (m : SwitchName) : Prop :=
  ∃ d ∈ (b.spec m).dependencies.values,
    d.hard = true ∧ d.polarity ≠ .toggle ∧ b.derivedState d (b.status m).active ≠ .active

def State.IsUp (s : State) : Prop := s = .activating ∨ s = .active

instance (s : State) : Decidable s.IsUp := inferInstanceAs (Decidable (s = .activating ∨ s = .active))

theorem State.not_isUp_transitionState {s : State} (h : ¬ s.IsUp) : ¬ s.transitionState.IsUp := by
  revert h
  cases s <;> decide

/-- Between two boards, the switch has entered `ACTIVATING` or `ACTIVE`. -/
def Raised (m : SwitchName) (b b' : Board) : Prop :=
  ∃ l, b'.entered = l ++ b.entered ∧ ∃ s, s.IsUp ∧ (m, s) ∈ l

theorem not_raised_of_grows {b b' : Board} {m n : SwitchName} (h : b.Grows n b') (hm : m ≠ n) : ¬ Raised m b b' := by
  obtain ⟨l, hl, hn⟩ := h
  rintro ⟨l', hl', s, -, hmem⟩
  obtain rfl : l = l' := List.append_cancel_right (hl.symm.trans hl')
  exact hm (hn _ hmem)

theorem raised_of_enter {b b₁ b' : Board} {n : SwitchName} {state : State} (he : b₁.entered = b.entered)
    (hs : state.IsUp) (h : (b₁.enter n state).Grows n b') : Raised n b b' := by
  obtain ⟨l, hl, -⟩ := h
  exact ⟨l ++ [(n, state)], by rw [hl, List.append_assoc, ← he]; rfl, state, hs, by simp⟩

theorem Raised.of_grows {b b₁ b' : Board} {n : SwitchName} (h : Raised n b b₁) (hg : b₁.Grows n b') : Raised n b b' := by
  obtain ⟨l, hl, s, hs, hmem⟩ := h
  obtain ⟨l', hl', -⟩ := hg
  exact ⟨l' ++ l, by rw [hl', hl, List.append_assoc], s, hs, List.mem_append_right l' hmem⟩

/-- A move up raises the switch, whatever its interceptors throw. -/
theorem wp_setTarget_up {b : Board} {n : SwitchName} {args : TargetArgs} (ht : (b.resolveTarget n args).IsUp)
    (hu : ¬ Unmoved b n args) : wp growth (setTarget n args) b fun _ b' => Raised n b b' := by
  unfold Unmoved at hu
  dsimp only at hu
  obtain ⟨hsame, hblocked⟩ := not_or.mp hu
  have final : ∀ {b₁ : Board} {r b'}, growth.post (args.finalCall n (b.resolveTarget n args))
      (b₁.writeTarget n (b.resolveTarget n args) args) r b' → Raised n b₁ b' :=
    fun hpost => raised_of_enter rfl ht hpost
  rw [wp_setTarget, wp_applyTarget, if_neg hsame, if_neg hblocked]
  split_ifs with hi
  · have hactive : (b.resolveTarget n args) = .active := by
      rcases ht with h | h
      · rw [h] at hi
        exact absurd hi.1 Bool.false_ne_true
      · exact h
    refine ⟨trivial, fun r b₁ h₁ => ?_⟩
    have hraised : Raised n b b₁ := raised_of_enter rfl (.inl (by rw [hactive]; rfl)) h₁
    split_ifs
    · refine ⟨trivial, fun _ b' hpost => hraised.of_grows ?_⟩
      exact ((Board.Grows.refl b₁ n).of_entered rfl |>.enter _).trans hpost
    · exact hraised
  · exact ⟨trivial, fun _ _ hpost => final hpost⟩

theorem growth_allows (ω : ℕ → Launch → Failures) : growth.Allows ω := fun _ _ _ _ => rfl

/-! ## Moves that stay down -/

/-- Between two boards only `n` has entered states, none of which is up. -/
def Board.KeepsDown (b : Board) (n : SwitchName) (b' : Board) : Prop :=
  ∃ l, b'.entered = l ++ b.entered ∧ ∀ e ∈ l, e.1 = n ∧ ¬ e.2.IsUp

namespace Board.KeepsDown

variable {b b' b'' : Board} {n : SwitchName}

theorem of_entered (he : b'.entered = b.entered) : b.KeepsDown n b' := ⟨[], he, by simp⟩

theorem trans (h : b.KeepsDown n b') (h' : b'.KeepsDown n b'') : b.KeepsDown n b'' := by
  obtain ⟨l, hl, hn⟩ := h
  obtain ⟨l', hl', hn'⟩ := h'
  refine ⟨l' ++ l, by rw [hl', hl, List.append_assoc], fun e he => ?_⟩
  rcases List.mem_append.mp he with h | h
  · exact hn' e h
  · exact hn e h

theorem enter {state : State} (hs : ¬ state.IsUp) (he : b'.entered = (n, state) :: b.entered) : b.KeepsDown n b' :=
  ⟨[(n, state)], he, by simpa using hs⟩

theorem not_raised (h : b.KeepsDown n b') (m : SwitchName) : ¬ Raised m b b' := by
  obtain ⟨l, hl, hn⟩ := h
  rintro ⟨l', hl', s, hs, hmem⟩
  obtain rfl : l = l' := List.append_cancel_right (hl.symm.trans hl')
  exact (hn _ hmem).2 hs

end Board.KeepsDown

/-- `set_target` has nothing to move, or moves the switch to a state that is not
up. Errors on the way there are ignored, or start a move that stays down in
turn. -/
inductive StaysDown (ω : ℕ → Launch → Failures) : Board → SwitchName → TargetArgs → Prop
  | unmoved {b n args} : Unmoved b n args → StaysDown ω b n args
  | moves {b n args} : ¬ (b.resolveTarget n args).IsUp →
      (args.invokeInterceptors = true → ∀ phase k,
        let errors := b.errorsAt ω n (b.resolveTarget n args).transitionState phase k
        errors ≠ [] → errorPolicy errors args.onError = .abort → ¬ (b.status n).settledState.IsUp) →
      (args.invokeInterceptors = true → ∀ phase k,
        let errors := b.errorsAt ω n (b.resolveTarget n args).transitionState phase k
        let b' := b.during n (b.resolveTarget n args).transitionState
        errors ≠ [] → errorPolicy errors args.onError = .fail →
          StaysDown ω b' n (b'.errorArgs n (b.dominatingError errors args.onError))) →
      (args.invokeInterceptors = true → ∀ phase k,
        let errors := b.errorsAt ω n (b.resolveTarget n args).transitionState phase k
        let b' := b.during n (b.resolveTarget n args).transitionState
        errors ≠ [] → errorPolicy errors args.onError = .revert → StaysDown ω b' n (b'.revertArgs n)) →
      StaysDown ω b n args

/-- The errors of the interceptors of `n` for `state` are ignored, or start a
move that stays down. -/
structure ErrorsStayDown (ω : ℕ → Launch → Failures) (b : Board) (n : SwitchName) (state : State)
    (onError : ExceptionHandling) : Prop where
  abort : ∀ phase k, b.errorsAt ω n state phase k ≠ [] →
    errorPolicy (b.errorsAt ω n state phase k) onError = .abort → ¬ ((b.during n state).status n).settledState.IsUp
  fail : ∀ phase k, b.errorsAt ω n state phase k ≠ [] → errorPolicy (b.errorsAt ω n state phase k) onError = .fail →
    StaysDown ω (b.during n state) n
      ((b.during n state).errorArgs n (b.dominatingError (b.errorsAt ω n state phase k) onError))
  revert : ∀ phase k, b.errorsAt ω n state phase k ≠ [] →
    errorPolicy (b.errorsAt ω n state phase k) onError = .revert →
    StaysDown ω (b.during n state) n ((b.during n state).revertArgs n)

/-- Procedures that stay down. -/
def lowering (ω : ℕ → Launch → Failures) : Contract Board Call Bool Launch Failures where
  pre
    | .setTarget n args, b => StaysDown ω b n args
    | .setCurrentState n state invokes _ _ onError, b =>
      ¬ state.IsUp ∧ (invokes = true → ErrorsStayDown ω b n state onError)
  post
    | .setTarget n _, b, _, b' => b.KeepsDown n b'
    | .setCurrentState n _ _ _ _ _, b, _, b' => b.KeepsDown n b'
  parked _ := True
  wait b e r b' := b' = b ∧ ∃ k, r = ω k e

theorem lowering_allows (ω : ℕ → Launch → Failures) : (lowering ω).Allows ω := fun _ k _ _ => ⟨rfl, k, rfl⟩

section
variable {ω : ℕ → Launch → Failures} {b b' : Board} {n : SwitchName} {state : State} {onCancel onError : ExceptionHandling}
  {args : TargetArgs}

theorem StaysDown.of_quiet (hup : ¬ (b.resolveTarget n args).IsUp)
    (hnone : ∀ phase k, b.errorsAt ω n (b.resolveTarget n args).transitionState phase k = []) : StaysDown ω b n args := by
  apply StaysDown.moves hup
  all_goals
    intro _ phase k
    dsimp only
    intro hne
    exact absurd (hnone phase k) hne

/-- What has been sent to clients and what has been logged does not matter. -/
theorem StaysDown.alike (h : StaysDown ω b n args) : ∀ {b' : Board}, b.Alike b' → StaysDown ω b' n args := by
  induction h with
  | @unmoved b n args hu =>
    intro b' ha
    obtain ⟨sig, crash, rfl⟩ : ∃ sig crash, b' = { b with signalStatus := sig, crashed := crash } := ⟨_, _, ha⟩
    exact .unmoved hu
  | @moves b n args hup habort hfail hrevert ihf ihr =>
    intro b' ha
    obtain ⟨sig, crash, rfl⟩ : ∃ sig crash, b' = { b with signalStatus := sig, crashed := crash } := ⟨_, _, ha⟩
    exact .moves hup habort (fun hi phase k hne hp => ihf hi phase k hne hp rfl)
      (fun hi phase k hne hp => ihr hi phase k hne hp rfl)

theorem ErrorsStayDown.ignore (ω : ℕ → Launch → Failures) (b : Board) (n : SwitchName) (state : State) :
    ErrorsStayDown ω b n state .ignore where
  abort _ _ _ h := absurd h (by exact nofun)
  fail _ _ _ h := absurd h (by exact nofun)
  revert _ _ _ h := absurd h (by exact nofun)

theorem ErrorsStayDown.keeps (hE : ErrorsStayDown ω b n state onError) (hs : ¬ state.IsUp) (onCancel : ExceptionHandling) :
    Keeps (lowering ω) n state onCancel onError (b.during n state).Alike (b.KeepsDown n) where
  notify b₁ h := h.trans (.notifyStatus b₁ n)
  parked _ _ _ _ := trivial
  wait _ _ _ _ h _ hw := hw.1 ▸ h
  cancel _ _ b₁ _ h hne := by
    refine absurd ?_ hne
    rw [h.status]
    simp [Board.during, Status.enter]
  errors b₁ e r b' h hl hw _ hne := by
    obtain ⟨phase, herrors⟩ := hl.errorsAt h
    obtain ⟨rfl, k, rfl⟩ := hw
    rw [herrors] at hne ⊢
    unfold HandlesErrors
    have herror : b'.dominatingError (b.errorsAt ω n state phase k) onError =
        b.dominatingError (b.errorsAt ω n state phase k) onError :=
      congrArg (fun name => mapToError name (prevailing (b.errorsAt ω n state phase k) onError).2) h.execName
    rw [herror]
    generalize hlog : b'.logDiversion _ = b₁
    have h : (b.during n state).Alike b₁ := hlog ▸ h.trans (.logDiversion _ _)
    have hdown : b.KeepsDown n b₁ := .enter hs h.entered
    obtain ⟨sig, crash, hb₁⟩ : ∃ sig crash, b₁ = { b.during n state with signalStatus := sig, crashed := crash } :=
      ⟨_, _, h⟩
    cases hp : errorPolicy (b.errorsAt ω n state phase k) onError with
    | default => exact absurd hp (errorPolicy_ne_default _ _)
    | ignore => exact h
    | abort =>
      refine ⟨⟨?_, fun h => by cases h⟩, fun _ _ hpost => hdown.trans hpost⟩
      rw [h.status]
      exact hE.abort phase k hne hp
    | fail =>
      have hL := (hE.fail phase k hne hp).alike h
      subst hb₁
      exact ⟨hL, fun _ _ hpost => hdown.trans hpost⟩
    | revert =>
      have hL := (hE.revert phase k hne hp).alike h
      subst hb₁
      exact ⟨hL, fun _ _ hpost => hdown.trans hpost⟩

theorem lowering_setCurrentState {invokes triggers : Bool} (hs : ¬ state.IsUp)
    (hE : invokes = true → ErrorsStayDown ω b n state onError) :
    wp (lowering ω) (setCurrentState n state invokes triggers onCancel onError) b fun _ b' => b.KeepsDown n b' := by
  have leaves : ∀ {b₁ : Board}, b.KeepsDown n b₁ → b.KeepsDown n (b₁.leave n invokes triggers) := by
    intro b₁ h
    refine h.trans (.of_entered ?_)
    unfold Board.leave
    split_ifs <;> simp
  rw [wp_setCurrentState]
  split_ifs with hi
  · refine wp_mono _ (fun r b₁ h₁ => leaves ?_) _ _ (((hE hi).keeps hs onCancel).invokeInterceptors (.refl _))
    cases r with
    | true => exact .enter hs (Board.Alike.entered h₁)
    | false => exact Board.KeepsDown.trans h₁ (.of_entered rfl)
  · exact leaves (.enter hs rfl)

theorem lowering_setTarget (h : StaysDown ω b n args) :
    wp (lowering ω) (setTarget n args) b fun _ b' => b.KeepsDown n b' := by
  have touched : b.KeepsDown n (b.touch n args) := by
    refine .of_entered ?_
    unfold Board.touch
    split_ifs <;> rfl
  rw [wp_setTarget, wp_applyTarget]
  cases h with
  | unmoved hu =>
    unfold Unmoved at hu
    dsimp only at hu
    split_ifs with hsame hblocked
    · exact touched
    · exact .of_entered rfl
    all_goals exact absurd hu (not_or.mpr ⟨hsame, hblocked⟩)
  | moves hup habort hfail hrevert =>
    have enters : ∀ {b₁ : Board}, b.KeepsDown n b₁ →
        EntersTarget (lowering ω) n (b.resolveTarget n args) args (fun _ b' => b.KeepsDown n b') b₁ :=
      fun h₁ => ⟨⟨hup, fun _ => .ignore ..⟩, fun _ _ hpost => h₁.trans ((Board.KeepsDown.of_entered rfl).trans hpost)⟩
    split_ifs with hsame hblocked hi
    · exact touched
    · exact .of_entered rfl
    · have hsettled : ((b.during n (b.resolveTarget n args).transitionState).status n).settledState =
          (b.status n).settledState := by
        simp [Board.during, Status.enter, State.isSettled_transitionState]
      refine ⟨⟨State.not_isUp_transitionState hup, fun hinvokes => ?_⟩, fun r b₁ h₁ => ?_⟩
      · refine ⟨fun phase k hne hp => ?_, hfail hinvokes, hrevert hinvokes⟩
        rw [hsettled]
        exact habort hinvokes phase k hne hp
      · split_ifs
        · exact enters h₁
        · exact h₁
    · exact enters (.of_entered rfl)

end

theorem lowering_meets (ω : ℕ → Launch → Failures) : (lowering ω).Meets body := by
  intro c b h
  cases c with
  | setTarget n args => exact lowering_setTarget h
  | setCurrentState n state invokes triggers onCancel onError => exact lowering_setCurrentState h.1 h.2

/-! ## Runs of activations -/

/-- The calls `set_target(ACTIVE)` and `set_active(true)`, and the detached
threads that are left by these. -/
inductive Activates (b : Board) : Op → Prop
  | setTarget {n args} : args.targetState = .active → Activates b (.setTarget n args)
  | setActive {n args} : Activates b (.setActive n true args)
  | thread {t} : t ∈ b.threads → Activates b (.runTask t)

/-- One step of a run of activations: the board on which it sets the target of
a switch, and the board after it. -/
structure Activation where
  failures : ℕ → Launch → Failures
  switch : SwitchName
  args : TargetArgs
  start : Board
  after : Board

/-- Activation calls, and at any time the detached threads that they leave. -/
inductive ActivationRun : Board → List Activation → Board → Prop
  | nil {b} : ActivationRun b [] b
  | step {b b' b'' steps ω op n args start r} : ActivationRun b steps b' → Activates b' op → Aims op b' n args start →
      Performs ω op b' r b'' → ActivationRun b (steps ++ [⟨ω, n, args, start, b''⟩]) b''

theorem Aims.sets {op : Op} {b b' start : Board} {n : SwitchName} {args : TargetArgs} {ω : ℕ → Launch → Failures} {r : Bool}
    (ha : Aims op b n args start) (ho : Activates b op) (h : Performs ω op b r b') :
    Executes ω (CommonCore.setTarget n args) start r b' := by
  cases ha with
  | setTarget => exact h
  | setActive => exact h
  | runTask => exact h
  | _ => cases ho

/-- Each step sets the target of its switch. -/
theorem ActivationRun.sets {b b' : Board} {steps : List Activation} (h : ActivationRun b steps b') :
    ∀ c ∈ steps, ∃ r, Executes c.failures (setTarget c.switch c.args) c.start r c.after := by
  induction h with
  | nil => exact fun c hc => by cases hc
  | @step _ _ _ _ _ _ _ _ r _ ho ha hp ih =>
    intro c hc
    rcases List.mem_append.mp hc with hc | hc
    · exact ih c hc
    · rw [List.mem_singleton.mp hc]
      exact ⟨r, ha.sets ho hp⟩

/-- A pump that needs power, and that follows a button. -/
def pumpBoard (sufficient : Bool) : Board :=
  .new [] ["button", "power", "pump"] fun n =>
    if n = "pump" then {
      dependencies := .ofList [
        { predecessorName := "button", triggerStates := State.active.value, sufficient },
        { predecessorName := "power", hard := true }]
      interceptors := .ofList [{ name := "drain" }] }
    else {}

theorem pump_interlocked {sufficient : Bool} {b : Board} (hs : b.spec = (pumpBoard sufficient).spec)
    (hw : b.switches = (pumpBoard sufficient).switches) (hp : (b.status "power").currentState ≠ .active) : Interlocked b "pump" := by
  refine ⟨{ predecessorName := "power", hard := true }, ?_, rfl, by decide, ?_⟩
  · rw [hs]
    cases sufficient <;> decide
  · have hf : b.find "power" = some "power" := by
      unfold Board.find
      rw [hw]
      rfl
    simpa [Board.derivedState, Board.predecessorState, Board.predecessor, hf] using hp

/-- The power is off. -/
def unpowered (sufficient : Bool) : Board :=
  after 2 noFailures (Op.setActive "power" false { targetState := .unset }).prog (pumpBoard sufficient)

/-- The button is pressed. -/
def pressed (sufficient : Bool) : Board :=
  after 2 noFailures (Op.setActive "button" true { targetState := .unset }).prog (unpowered sufficient)

/-- The pump does not drain. -/
def blocked (_ : ℕ) (e : Launch) : Failures :=
  if e.switch = "pump" ∧ e.state = .deactivating then ⟨[("drain", .nonstandard)], List.nodup_singleton _⟩ else .none

theorem errorsAt_blocked {b : Board} (hs : b.spec = (pumpBoard false).spec) (phase : InterceptorPhase) (k : ℕ) :
    b.errorsAt blocked "pump" .deactivating phase k = if phase = .normal then [({ name := "drain" }, .nonstandard)] else [] := by
  unfold Board.errorsAt Board.awaited Board.applicable Board.interceptors
  rw [hs]
  cases phase <;> rfl

theorem errorsAt_blocked_of_ne (b : Board) {state : State} (hstate : state ≠ .deactivating) (phase : InterceptorPhase) (k : ℕ) :
    b.errorsAt blocked "pump" state phase k = [] := by
  have hnone : blocked k ⟨"pump", state, phase, b.awaited "pump" state phase⟩ = .none := if_neg fun h => hstate h.2
  unfold Board.errorsAt
  rw [hnone]
  rfl

/-- A pump that is to stop, and does not drain, fails. -/
theorem staysDown_blocked {b : Board} (hs : b.spec = (pumpBoard false).spec) {args : TargetArgs}
    (htarget : b.resolveTarget "pump" args = .inactive) (hon : args.onError = .default) : StaysDown blocked b "pump" args := by
  have htransition : State.inactive.transitionState = .deactivating := rfl
  have hpolicy : ∀ phase k, b.errorsAt blocked "pump" .deactivating phase k ≠ [] →
      errorPolicy (b.errorsAt blocked "pump" .deactivating phase k) .default = .fail ∧
        (b.dominatingError (b.errorsAt blocked "pump" .deactivating phase k) .default).isSome = true := by
    intro phase k hne
    rw [errorsAt_blocked hs] at hne ⊢
    cases phase with
    | normal => exact ⟨rfl, rfl⟩
    | early => exact absurd rfl hne
    | late => exact absurd rfl hne
  apply StaysDown.moves
  · rw [htarget]
    decide
  all_goals
    intro _ phase k
    rw [htarget, htransition, hon]
    dsimp only
    intro hne hp
  · rw [(hpolicy phase k hne).1] at hp
    cases hp
  · have hfailed : ∀ b' : Board, b'.resolveTarget "pump"
        (b'.errorArgs "pump" (b.dominatingError (b.errorsAt blocked "pump" .deactivating phase k) .default)) = .failed := by
      intro b'
      unfold Board.resolveTarget Board.errorArgs
      rw [(hpolicy phase k hne).2]
      rfl
    apply StaysDown.of_quiet
    · rw [hfailed]
      decide
    · rw [hfailed]
      exact errorsAt_blocked_of_ne _ (by decide)
  · rw [(hpolicy phase k hne).1] at hp
    cases hp

end CommonCore
