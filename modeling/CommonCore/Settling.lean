import CommonCore.SwitchRuns

/-!
# Reaching a target

`Board.reach` is what `set_target` comes to when nothing diverts it: the
transition state, if there are interceptors, and then the target state.

A switch without interceptors always gets there, except from the transitional
state that leads to the target: `set_target` takes that for a transition that
is still under way, and does nothing.
-/

namespace CommonCore

open Coop Coop.Prog

/-! ## Calls that run alone -/

/-- The interceptors of `n` for `state`, if they are invoked, throw nothing. -/
def Board.Unfailing (b : Board) (ω : ℕ → Launch → Failures) (n : SwitchName) (state : State) (invokes : Bool) : Prop :=
  invokes = true → ∀ phase k,
    collectErrors (b.awaited n state phase) (ω k ⟨n, state, phase, b.awaited n state phase⟩) = []

/-- Of the procedures, only `set_current_state` is called, with no error that
matters. -/
def alone (ω : ℕ → Launch → Failures) : Contract Board Call Bool Launch Failures where
  pre
    | .setTarget _ _, _ => False
    | .setCurrentState n state invokes _ _ onError, b => invokes = true → ∀ phase k,
      Ignorable onError
        (collectErrors (b.awaited n state phase) (ω k ⟨n, state, phase, b.awaited n state phase⟩))
  post
    | .setTarget _ _, _, _, _ => False
    | .setCurrentState n state invokes triggers _ _, b, r, b' =>
      r = true ∧ (b.through n state invokes triggers).Alike b' ∧
        (b.Unfailing ω n state invokes → b'.crashed = b.crashed)
  parked _ := True
  wait b e r b' := b' = b ∧ ∃ k, r = ω k e

theorem alone_allows (ω : ℕ → Launch → Failures) : (alone ω).Allows ω := fun _ k _ _ => ⟨rfl, k, rfl⟩

theorem wp_setCurrentState_alone {K : Contract Board Call Bool Launch Failures} {ω : ℕ → Launch → Failures}
    (hpark : ∀ b, K.parked b) (hwait : ∀ b e r b', K.wait b e r b' → (alone ω).wait b e r b')
    {n : SwitchName} {state : State} {invokes triggers : Bool} {onCancel onError : ExceptionHandling} {b : Board}
    (h : (alone ω).pre (.setCurrentState n state invokes triggers onCancel onError) b) :
    wp K (setCurrentState n state invokes triggers onCancel onError) b
      ((alone ω).post (.setCurrentState n state invokes triggers onCancel onError) b) := by
  refine wp_setCurrentState_smooth (fun hi => ⟨fun _ _ _ => hpark _, fun phase b₁ r b₂ _ hw => ?_⟩)
    fun b' ha hc => ⟨rfl, ha, fun hn => hc fun hi phase b₁ r b₂ hw => ?_⟩
  · obtain ⟨rfl, k, rfl⟩ := hwait _ _ _ _ hw
    exact ⟨rfl, h hi phase k⟩
  · obtain ⟨rfl, k, rfl⟩ := hwait _ _ _ _ hw
    exact hn hi phase k

theorem alone_meets (ω : ℕ → Launch → Failures) : (alone ω).Meets body := by
  intro c b h
  cases c with
  | setTarget n args => cases h
  | setCurrentState n state invokes triggers onCancel onError =>
    exact wp_setCurrentState_alone (fun _ => trivial) (fun _ _ _ _ hw => hw) h

/-- The same where nothing is called. -/
def aloneLeaf (ω : ℕ → Launch → Failures) : Contract Board Call Bool Launch Failures :=
  { alone ω with pre := fun _ _ => False }

/-- The calls are not nested: `set_current_state` calls nobody. -/
theorem run_alone (ω : ℕ → Launch → Failures) (fuel : ℕ) (c : Call) (b : Board) (k : ℕ) (h : (alone ω).pre c b) :
    ∃ r b' k', run body ω (fuel + 1) c b k = some (r, b', k') ∧ (alone ω).post c b r b' := by
  cases c with
  | setTarget n args => cases h
  | setCurrentState n state invokes triggers onCancel onError =>
    have hω : (aloneLeaf ω).Allows ω := fun _ k _ _ => ⟨rfl, k, rfl⟩
    have hw : wp (aloneLeaf ω) (setCurrentState n state invokes triggers onCancel onError) b
        ((alone ω).post (.setCurrentState n state invokes triggers onCancel onError) b) :=
      wp_setCurrentState_alone (K := aloneLeaf ω) (fun _ => trivial) (fun _ _ _ _ hw => hw) h
    exact exec_total hω (fun _ _ _ hf => False.elim hf) _ b k hw

theorem ignorable_ignore (errors : List (Interceptor × Thrown)) : Ignorable .ignore errors := .inr rfl

theorem Board.awaited_nil {b : Board} {n : SwitchName} (h : b.interceptors n = []) (state : State)
    (phase : InterceptorPhase) : b.awaited n state phase = [] := by
  simp [Board.awaited, Board.applicable, h]

/-- The transition to `target` meets no error that matters. -/
def Board.Passes (b : Board) (ω : ℕ → Launch → Failures) (n : SwitchName) (target : State) (args : TargetArgs) : Prop :=
  (alone ω).pre (args.transitionCall n target) b

theorem Board.passes_of_nil {b : Board} {n : SwitchName} (h : b.interceptors n = [])
    (ω : ℕ → Launch → Failures) (target : State) (args : TargetArgs) : b.Passes ω n target args := by
  intro _ phase k
  rw [b.awaited_nil h, collectErrors_nil]
  exact .inl rfl

/-! ## What is reached -/

namespace Board

/-- The board, but for the signal, once `set_target` has entered the target. -/
def reach (b : Board) (n : SwitchName) (target : State) (args : TargetArgs) : Board :=
  ((if target.isSettled = true ∧ b.interceptors n ≠ [] then
      b.through n target.transitionState args.invokeInterceptors args.triggerDescendants
    else b).writeTarget n target args).through n target args.invokeInterceptors args.triggerDescendants

theorem reach_status_self (b : Board) (n : SwitchName) (target : State) (args : TargetArgs) :
    (b.reach n target args).status n =
      { ((b.status n).writeTarget target args).enter target with
        pending := if args.invokeInterceptors then false else (b.status n).pending } := by
  unfold reach
  rw [through_status_self, writeTarget_status_self]
  split_ifs with h
  all_goals simp [through_status_self, Status.enter, Status.writeTarget, Status.writeAttributes,
    State.isSettled_transitionState, *]

theorem reach_status_of_ne (b : Board) {n m : SwitchName} (h : m ≠ n) (target : State) (args : TargetArgs) :
    (b.reach n target args).status m = b.status m := by
  unfold reach
  rw [through_status_of_ne _ h, writeTarget_status_of_ne _ h]
  split_ifs
  · exact through_status_of_ne _ h ..
  · rfl

end Board

theorem Board.Alike.enter {b b' : Board} (h : b.Alike b') (n : SwitchName) (state : State) :
    (b.enter n state).Alike (b'.enter n state) := by
  rw [h]
  rfl

theorem Board.Alike.writeTarget {b b' : Board} (h : b.Alike b') (n : SwitchName) (target : State)
    (args : TargetArgs) : (b.writeTarget n target args).Alike (b'.writeTarget n target args) := by
  rw [h]
  rfl

theorem Board.Alike.through {b b' : Board} (h : b.Alike b') (n : SwitchName) (state : State)
    (invokes triggers : Bool) : (b.through n state invokes triggers).Alike (b'.through n state invokes triggers) := by
  unfold Board.through
  split_ifs
  · exact ((h.enter n state).setPending n false).updateDescendants n invokes
  · exact (h.enter n state).setPending n false
  · exact (h.enter n state).updateDescendants n invokes
  · exact h.enter n state

/-- What `applyTarget` comes to when no error matters. -/
inductive Applied (b : Board) (n : SwitchName) (target : State) (args : TargetArgs) : Bool → Board → Prop
  | same : args.reevaluate = false → (b.status n).currentState = target →
      Applied b n target args false (b.touch n args)
  | blocked : ¬ (args.reevaluate = false ∧ (b.status n).currentState = target) → target.isSettled = true →
      (b.status n).currentState = target.transitionState → Applied b n target args false b
  | reached {b'} : ¬ (args.reevaluate = false ∧ (b.status n).currentState = target) →
      ¬ (target.isSettled = true ∧ (b.status n).currentState = target.transitionState) →
      (b.reach n target args).Alike b' → Applied b n target args true b'

section
variable {ω : ℕ → Launch → Failures} {b : Board} {n : SwitchName} {target : State} {args : TargetArgs}

theorem Board.Unfailing.writeTarget {b₁ : Board} {state : State} {invokes : Bool} (h : b.Unfailing ω n state invokes)
    (hspec : b₁.spec = b.spec) : (b₁.writeTarget n target args).Unfailing ω n state invokes := by
  have hinterceptors : (b₁.writeTarget n target args).interceptors n = b.interceptors n := by
    unfold Board.interceptors
    rw [Board.writeTarget_spec, hspec]
  have hawaited : ∀ phase, (b₁.writeTarget n target args).awaited n state phase = b.awaited n state phase := by
    intro phase
    unfold Board.awaited Board.applicable
    rw [hinterceptors]
  intro hi phase k
  rw [hawaited]
  exact h hi phase k

/-- It does not crash if, where it moves the switch, nothing is thrown. -/
theorem wp_applyTarget_alone (h : (b.status n).currentState ≠ target.transitionState → b.Passes ω n target args) :
    wp (alone ω) (applyTarget n target args) b fun r b' => Applied b n target args r b' ∧
      ((r = true → (target.isSettled = true → b.Unfailing ω n target.transitionState args.invokeInterceptors) ∧
        b.Unfailing ω n target args.invokeInterceptors) → b'.crashed = b.crashed) := by
  have final : ∀ b₁ : Board, (alone ω).pre (args.finalCall n target) (b₁.writeTarget n target args) :=
    fun b₁ _ phase k => ignorable_ignore _
  rw [wp_applyTarget]
  split_ifs with hsame hblocked hi
  · refine ⟨.same hsame.1 hsame.2, fun _ => ?_⟩
    unfold Board.touch
    split_ifs <;> rfl
  · exact ⟨.blocked hsame hblocked.1 hblocked.2, fun _ => rfl⟩
  · refine ⟨h fun hcur => hblocked ⟨hi.1, hcur⟩, fun r b₁ hp => ?_⟩
    obtain ⟨rfl, ha, hc⟩ := hp
    refine ⟨final b₁, fun r b' hp' => ?_⟩
    obtain ⟨rfl, ha', hc'⟩ := hp'
    refine ⟨.reached hsame hblocked ?_, fun hquiet => ?_⟩
    · unfold Board.reach
      rw [if_pos hi]
      exact ((ha.writeTarget n target args).through n target _ _).trans ha'
    · obtain ⟨htransition, htarget⟩ := hquiet rfl
      have hspec : b₁.spec = b.spec := by rw [ha.spec, Board.through_spec]
      exact (hc' (htarget.writeTarget hspec)).trans (hc (htransition hi.1))
  · refine ⟨final b, fun r b' hp' => ?_⟩
    obtain ⟨rfl, ha', hc'⟩ := hp'
    refine ⟨.reached hsame hblocked ?_, fun hquiet => hc' ((hquiet rfl).2.writeTarget rfl)⟩
    unfold Board.reach
    rw [if_neg hi]
    exact ha'

/-- `set_target` ends, and comes to what `Applied` says. -/
theorem performs_setTarget_alone (h : b.Passes ω n (b.resolveTarget n args) args) :
    (∃ r b', Performs ω (.setTarget n args) b r b') ∧
      ∀ r b', Performs ω (.setTarget n args) b r b' → Applied b n (b.resolveTarget n args) args r b' := by
  have hw : wp (alone ω) (Op.setTarget n args).prog b (Applied b n (b.resolveTarget n args) args) :=
    wp_setTarget.mpr (wp_mono _ (fun _ _ h => h.1) _ _ (wp_applyTarget_alone fun _ => h))
  refine ⟨?_, fun r b' hp => hp.sound (alone_allows ω) (alone_meets ω) hw⟩
  obtain ⟨r, b', k', he, -⟩ := exec_total (alone_allows ω) (run_alone ω 0) _ b 0 hw
  exact ⟨r, b', 1, 0, k', he⟩

end

/-! ## Settling -/

theorem Board.resolveTarget_of_isSettled {args : TargetArgs} (h : args.targetState.isSettled = true) (b : Board)
    (n : SwitchName) : b.resolveTarget n args = args.targetState := by
  unfold Board.resolveTarget
  rw [if_neg fun hu => by rw [hu] at h; cases h]

theorem Board.touch_currentState (b : Board) (n : SwitchName) (args : TargetArgs) :
    ((b.touch n args).status n).currentState = (b.status n).currentState ∧
      ((b.touch n args).status n).settledState = (b.status n).settledState := by
  unfold Board.touch
  split_ifs
  · rw [notifyStatus_status, setStatus_status_self]
    exact ⟨rfl, rfl⟩
  · exact ⟨rfl, rfl⟩

/-- Without interceptors `set_target` settles the switch in the target, unless
it was in the transitional state before the target. -/
theorem set_target_settles_iff {P : (ℕ → Launch → Failures) → Op → Board → Prop} {b₀ b : Board}
    (h₀ : b₀.Fresh) (hr : Runs P b₀ b) {n : SwitchName} (hi : b.interceptors n = []) {args : TargetArgs}
    (ht : args.targetState.isSettled = true) (ω : ℕ → Launch → Failures) :
    (∃ r b', Performs ω (.setTarget n args) b r b') ∧
      ∀ r b', Performs ω (.setTarget n args) b r b' →
        ((b'.status n).currentState = args.targetState ∧ (b'.status n).settledState = args.targetState ↔
          (b.status n).currentState ≠ args.targetState.transitionState) := by
  have htgt := Board.resolveTarget_of_isSettled ht b n
  have hne : args.targetState.transitionState ≠ args.targetState :=
    State.transitionState_ne _ fun hu => by rw [hu] at ht; cases ht
  obtain ⟨hex, hall⟩ := performs_setTarget_alone (b.passes_of_nil hi ω (b.resolveTarget n args) args)
  refine ⟨hex, fun r b' hp => ?_⟩
  have happ := hall r b' hp
  rw [htgt] at happ
  cases happ with
  | same _ hcur =>
    obtain ⟨h₁, h₂⟩ := b.touch_currentState n args
    have hset : (b.status n).settledState = args.targetState := by
      rw [← hcur]
      exact (h₀.consistent.runs hr n).current (by rw [hcur]; exact ht)
    rw [h₁, h₂, hset, hcur]
    exact ⟨fun _ => hne.symm, fun _ => ⟨rfl, rfl⟩⟩
  | blocked _ _ hcur =>
    rw [hcur]
    exact ⟨fun h => absurd h.1 hne, fun h => absurd rfl h⟩
  | reached _ hnb ha =>
    rw [ha.status, Board.reach_status_self]
    refine ⟨fun _ hcur => hnb ⟨ht, hcur⟩, fun _ => ?_⟩
    simp [Status.enter, ht]

/-- A deactivated switch is activated. -/
theorem set_target_settles_active :
    ∃ b r b', Runs (fun _ _ _ => True) (Board.new [] ["a"] fun _ => {}) b ∧ b.interceptors "a" = [] ∧
      (b.status "a").currentState = .inactive ∧
      Performs noFailures (.setTarget "a" { targetState := .active }) b r b' ∧
      (b'.status "a").currentState = .active ∧ (b'.status "a").settledState = .active := by
  obtain ⟨b, hrun, hb⟩ := exists_runs 2 noFailures [.setActive "a" false { targetState := .unset }]
    (Board.new [] ["a"] fun _ => {})
    (fun b => decide (b.interceptors "a" = [] ∧ (b.status "a").currentState = .inactive)) (by decide)
  obtain ⟨hi, hcur⟩ := of_decide_eq_true hb
  have ht : ({ targetState := .active } : TargetArgs).targetState.isSettled = true := rfl
  obtain ⟨⟨r, b', hp⟩, hall⟩ := set_target_settles_iff (Board.new_fresh ..) hrun hi ht noFailures
  refine ⟨b, r, b', hrun, hi, hcur, hp, ?_⟩
  exact (hall r b' hp).mpr (by rw [hcur]; decide)

/-- An explicit `ACTIVATING` is where `set_target(ACTIVE)` gets stuck. -/
theorem set_target_stuck_activating :
    ∃ b r b', Runs (fun _ _ _ => True) (Board.new [] ["a"] fun _ => {}) b ∧ b.interceptors "a" = [] ∧
      Performs noFailures (.setTarget "a" { targetState := .active }) b r b' ∧
      ¬ ((b'.status "a").currentState = .active ∧ (b'.status "a").settledState = .active) := by
  obtain ⟨b, hrun, hb⟩ := exists_runs 2 noFailures [.setTarget "a" { targetState := .activating }]
    (Board.new [] ["a"] fun _ => {})
    (fun b =>
      let op : Op := .setTarget "a" { targetState := .active }
      decide (b.interceptors "a" = []) && (execute 2 noFailures op.prog b).isSome &&
        decide (((after 2 noFailures op.prog b).status "a").currentState ≠ State.active)) (by decide)
  obtain ⟨h, hst⟩ := Bool.and_eq_true_iff.mp hb
  obtain ⟨hi, hp⟩ := Bool.and_eq_true_iff.mp h
  obtain ⟨r, hp⟩ := executes_after _ _ _ _ hp
  exact ⟨b, r, _, hrun, of_decide_eq_true hi, hp, fun h => of_decide_eq_true hst h.1⟩

end CommonCore
