import CommonCore.SwitchRuns

/-!
# Errors and states

A switch that is `ACTIVE` or `INACTIVE` should hold no error. `set_target`
writes the error it is given whatever the target is, and a diversion under
`ABORT` or `REVERT` takes the switch back to its settled state with the error
it holds. Without either, no such switch ever holds an error.
-/

namespace CommonCore

open Coop Coop.Prog

/-- An active or inactive switch holds no error. -/
def Status.Honest (s : Status) : Prop := s.currentState = .active ∨ s.currentState = .inactive → s.error = none

/-- The switch holds an error, and its settled state is one that should not. -/
def Status.Stranded (s : Status) : Prop :=
  s.error.isSome = true ∧ (s.settledState = .active ∨ s.settledState = .inactive)

structure Board.Honest (b : Board) : Prop where
  consistent : b.Consistent
  honest : ∀ n, (b.status n).Honest

/-- An error is not supplied with a move to a state that should hold none. -/
def SuppliesError (b : Board) (n : SwitchName) (args : TargetArgs) : Prop :=
  args.error.isSome = true →
    (b.resolveTarget n args ≠ .active ∧ b.resolveTarget n args ≠ .inactive) ∨ Unmoved b n args

/-- No errors of the interceptors of `n` lead back to the settled state. -/
def StaysAway (ω : ℕ → Launch → Failures) (n : SwitchName) (onError : ExceptionHandling) : Prop :=
  ∀ k e, e.switch = n → collectErrors e.interceptors (ω k e) ≠ [] →
    errorPolicy (collectErrors e.interceptors (ω k e)) onError ≠ .abort ∧
      errorPolicy (collectErrors e.interceptors (ω k e)) onError ≠ .revert

/-- The same for what `set_target` starts with, and for what it calls. -/
def StaysForward (ω : ℕ → Launch → Failures) (n : SwitchName) (onError : ExceptionHandling) : Prop :=
  onError = .ignore ∨ StaysAway ω n onError ∧ StaysAway ω n .default

def honesty (ω : ℕ → Launch → Failures) : Contract Board Call Bool Launch Failures where
  pre
    | .setTarget n args, b =>
      b.Honest ∧ SuppliesError b n args ∧ ((b.status n).Stranded → StaysForward ω n args.onError)
    | .setCurrentState n state invokes _ _ onError, b =>
      (b.enter n state).Honest ∧
        (invokes = true → ((b.enter n state).status n).Stranded → StaysForward ω n onError)
  post _ _ _ b' := b'.Honest
  parked _ := True
  wait b e r b' := b' = b ∧ ∃ k, r = ω k e

theorem honesty_allows (ω : ℕ → Launch → Failures) : (honesty ω).Allows ω := fun _ k _ _ => ⟨rfl, k, rfl⟩

namespace Board.Honest

variable {ω : ℕ → Launch → Failures} {b b' : Board} {n : SwitchName}

theorem of_status (h : b.Honest) (hs : b'.status = b.status) : b'.Honest :=
  ⟨h.consistent.of_status hs, fun m => hs ▸ h.honest m⟩

theorem setStatus (h : b.Honest) {s : Status} (hc : s.Consistent) (hs : s.Honest) : (b.setStatus n s).Honest := by
  refine ⟨h.consistent.setStatus hc, fun m => ?_⟩
  by_cases hm : m = n
  · subst hm; rwa [setStatus_status_self]
  · rw [setStatus_status_of_ne b n hm]; exact h.honest m

theorem setPending (h : b.Honest) (pending : Bool) : (b.setPending n pending).Honest :=
  h.setStatus ⟨(h.consistent n).settled, (h.consistent n).current, (h.consistent n).on, (h.consistent n).off⟩
    (h.honest n)

theorem leave (h : b.Honest) (invokes triggers : Bool) : (b.leave n invokes triggers).Honest := by
  refine h.of_status ?_
  unfold Board.leave
  split_ifs <;> simp

/-- A transitional state may be entered at any time. -/
theorem enter_transition (h : b.Honest) (target : State) : (b.enter n target.transitionState).Honest := by
  refine of_status (h.setStatus (n := n) ((h.consistent n).enter fun hs => ?_) fun hs => ?_) rfl
  · rw [State.isSettled_transitionState] at hs
    cases hs
  · have := State.isSettled_transitionState target
    rcases hs with hs | hs <;> rw [show target.transitionState = _ from hs] at this <;> cases this

/-- The settled state may be entered unless the switch is stranded. -/
theorem enter_settled (h : b.Honest) (hn : ¬ (b.status n).Stranded) :
    (b.enter n (b.status n).settledState).Honest := by
  refine of_status (h.setStatus (n := n) ((h.consistent n).enter fun _ => rfl) fun hs => ?_) rfl
  by_contra he
  exact hn ⟨Option.isSome_iff_ne_none.mpr he, hs⟩

theorem enter_writeTarget (h : b.Honest) {target : State} {args : TargetArgs}
    (he : args.error.isSome = true → target ≠ .active ∧ target ≠ .inactive) :
    ((b.writeTarget n target args).enter n target).Honest := by
  have heq : ((b.writeTarget n target args).enter n target).status =
      (b.setStatus n (((b.status n).writeTarget target args).enter target)).status := by
    simp [Board.writeTarget, Board.enter, Board.setStatus]
  refine (h.setStatus ((h.consistent n).enter_writeTarget target args) fun hs => ?_).of_status heq
  by_contra hne
  obtain ⟨h₁, h₂⟩ := he (Option.isSome_iff_ne_none.mpr hne)
  exact hs.elim h₁ h₂

theorem keeps (state : State) (onCancel onError : ExceptionHandling) :
    Keeps (honesty ω) n state onCancel onError
      (fun b => b.Honest ∧ (b.status n).currentState = state ∧ ((b.status n).Stranded → StaysForward ω n onError))
      Board.Honest where
  notify _ h := ⟨h.1.of_status rfl, h.2⟩
  parked _ _ _ _ := trivial
  wait _ _ _ _ h _ hw := hw.1 ▸ h
  cancel _ _ _ _ h hne := absurd h.2.1 hne
  errors b e r b' h he hw _ hne := by
    obtain ⟨rfl, k, rfl⟩ := hw
    obtain ⟨hb, hcur, hs⟩ := h
    -- in a stranded switch, what the policy is tells what it is not
    have hpol : (b'.status n).Stranded → errorPolicy (collectErrors e.interceptors (ω k e)) onError = .ignore ∨
        (errorPolicy (collectErrors e.interceptors (ω k e)) onError ≠ .abort ∧
          errorPolicy (collectErrors e.interceptors (ω k e)) onError ≠ .revert) ∧ StaysAway ω n .default := by
      intro hstr
      rcases hs hstr with rfl | ⟨h₁, h₂⟩
      · exact .inl rfl
      · exact .inr ⟨h₁ k e he.switch hne, h₂⟩
    unfold HandlesErrors
    -- the policy is logged, which is none of the statuses' concern
    generalize hlog : b'.logDiversion _ = b₁
    have hstatus : b₁.status = b'.status := by rw [← hlog, Board.logDiversion_status]
    rw [← hstatus] at hcur hs hpol
    have hb : b₁.Honest := hb.of_status hstatus
    cases hp : errorPolicy (collectErrors e.interceptors (ω k e)) onError with
    | default => exact hb
    | ignore => exact ⟨hb, hcur, hs⟩
    | abort =>
      have hn : ¬ (b₁.status n).Stranded := fun hstr => by
        rcases hpol hstr with h | h
        · rw [hp] at h; cases h
        · exact h.1.1 hp
      exact ⟨⟨hb.enter_settled hn, nofun⟩, fun _ _ h => h⟩
    | fail =>
      refine ⟨⟨hb, fun herr => .inl ?_, fun hstr => ?_⟩, fun _ _ h => h⟩
      · have htgt : b₁.resolveTarget n (b₁.errorArgs n (b'.dominatingError (collectErrors e.interceptors (ω k e)) onError)) = .failed := by
          simp only [Board.errorArgs] at herr ⊢
          simp [Board.resolveTarget, herr]
        rw [htgt]
        decide
      · rcases hpol hstr with h | h
        · rw [hp] at h; cases h
        · exact .inr ⟨h.2, h.2⟩
    | revert =>
      have hn : ¬ (b₁.status n).Stranded := fun hstr => by
        rcases hpol hstr with h | h
        · rw [hp] at h; cases h
        · exact h.1.2 hp
      refine ⟨⟨hb, fun herr => .inl ?_, fun hstr => absurd hstr hn⟩, fun _ _ h => h⟩
      have herr : (b₁.status n).error.isSome = true := herr
      have hset : (b₁.status n).settledState ≠ .active ∧ (b₁.status n).settledState ≠ .inactive :=
        ⟨fun h => hn ⟨herr, .inl h⟩, fun h => hn ⟨herr, .inr h⟩⟩
      unfold Board.resolveTarget Board.revertArgs
      simp only [herr, if_true]
      split_ifs
      · decide
      · exact hset

theorem entersTarget (h : b.Honest) {target : State} {args : TargetArgs}
    (he : args.error.isSome = true → target ≠ .active ∧ target ≠ .inactive) :
    EntersTarget (honesty ω) n target args (fun _ => Board.Honest) b :=
  ⟨⟨h.enter_writeTarget he, fun _ _ => .inl rfl⟩, fun _ _ h => h⟩

theorem touch (h : b.Honest) (args : TargetArgs) : (b.touch n args).Honest := by
  unfold Board.touch
  split_ifs
  · exact (h.setStatus ((h.consistent n).writeAttributes ..) (h.honest n)).of_status rfl
  · exact h

theorem setTarget (h : b.Honest) {args : TargetArgs} (he : SuppliesError b n args)
    (hs : (b.status n).Stranded → StaysForward ω n args.onError) :
    wp (honesty ω) (setTarget n args) b fun _ => Board.Honest := by
  rw [wp_setTarget, wp_applyTarget]
  split_ifs with hsame hblocked
  · exact h.touch args
  · exact h
  all_goals
    have he' : args.error.isSome = true → b.resolveTarget n args ≠ .active ∧ b.resolveTarget n args ≠ .inactive :=
      fun herr => (he herr).resolve_right fun hu => hu.elim hsame hblocked
  · refine ⟨⟨h.enter_transition _, fun _ hstr => hs ?_⟩, fun r b' h' => ?_⟩
    · simpa [Status.Stranded, Status.enter, State.isSettled_transitionState] using hstr
    · split_ifs
      · exact Board.Honest.entersTarget h' he'
      · exact h'
  · exact h.entersTarget he'

end Board.Honest

theorem honesty_meets (ω : ℕ → Launch → Failures) : (honesty ω).Meets body := by
  intro c b h
  cases c with
  | setTarget n args => exact h.1.setTarget h.2.1 h.2.2
  | setCurrentState n state invokes triggers onCancel onError =>
    obtain ⟨h, hs⟩ := h
    rw [body, wp_setCurrentState]
    split_ifs with hi
    · have hk := Board.Honest.keeps (ω := ω) (n := n) state onCancel onError
      refine wp_mono _ (fun r b₁ h₁ => ?_) _ _ (hk.invokeInterceptors ⟨h.setPending true, ?_, fun hstr => hs hi ?_⟩)
      · have h₁ : b₁.Honest := by
          cases r with
          | true => exact h₁.1
          | false => exact h₁
        exact (h₁.setPending false).leave invokes triggers
      · simp [Status.enter]
      · simpa [Status.Stranded] using hstr
    · exact h.leave invokes triggers

/-- What an operation must not do: supply an error with a move to `ACTIVE` or
`INACTIVE`, or return a stranded switch to its settled state. -/
def KeepsErrorsApart (ω : ℕ → Launch → Failures) (op : Op) (b : Board) : Prop :=
  ∀ n args b₁, Aims op b n args b₁ →
    SuppliesError b₁ n args ∧ ((b₁.status n).Stranded → StaysForward ω n args.onError)

theorem Board.Honest.op {ω : ℕ → Launch → Failures} {b : Board} (h : b.Honest) {op : Op}
    (ho : KeepsErrorsApart ω op b) : wp (honesty ω) op.prog b fun _ => Board.Honest := by
  refine wp_op (fun n args b₁ ha => ?_) (fun b' he r => ?_)
  · have h₁ : b₁.Honest := by cases ha <;> exact h.of_status rfl
    obtain ⟨h₂, h₃⟩ := ho n args b₁ ha
    exact wp_mono _ (fun _ _ h _ => h) _ _ (h₁.setTarget h₂ h₃)
  · cases he with
    | same => exact h
    | setAttributes => exact (h.setStatus ((h.consistent _).writeAttributes ..) (h.honest _)).of_status rfl
    | setSpec => exact h.of_status rfl

/-- In a run of operations that keep errors apart, no active or inactive switch
ever holds an error. -/
theorem no_error_of_runs {b₀ b : Board} (h₀ : b₀.Fresh) (hr : Runs KeepsErrorsApart b₀ b) (n : SwitchName)
    (hs : (b.status n).currentState = .active ∨ (b.status n).currentState = .inactive) :
    (b.status n).error = none := by
  have hb₀ : b₀.Honest := ⟨h₀.consistent, fun n => by rw [h₀.status n]; exact fun _ => rfl⟩
  have step : ∀ ω op b r b', Board.Honest b → KeepsErrorsApart ω op b → Performs ω op b r b' → Board.Honest b' :=
    fun ω op b r b' hb ho hp =>
      hp.sound (Q := fun _ => Board.Honest) (honesty_allows ω) (honesty_meets ω) (hb.op ho)
  exact (hr.keeps step hb₀).honest n hs

/-- A switch that has failed. -/
def failed : Board :=
  after 1 noFailures (Op.setError "a" (some {}) { targetState := .unset }).prog (Board.new [] ["a"] fun _ => {})

/-- A switch that has failed is deactivated. -/
theorem no_error_after_failure :
    ∃ b, Runs KeepsErrorsApart (Board.new [] ["a"] fun _ => {}) failed ∧ (failed.status "a").error.isSome = true ∧
      Runs KeepsErrorsApart failed b ∧ (b.status "a").currentState = .inactive ∧ (b.status "a").error = none := by
  have fails : KeepsErrorsApart noFailures (.setError "a" (some {}) { targetState := .unset })
      (Board.new [] ["a"] fun _ => {}) := by
    rintro n args b₁ ⟨⟩
    exact ⟨fun _ => .inl (by decide), fun h => absurd h.1 (by decide)⟩
  have deactivates : KeepsErrorsApart noFailures (.setActive "a" false { targetState := .unset }) failed := by
    rintro n args b₁ ⟨⟩
    exact ⟨fun h => (by cases h), fun h => absurd h.2 (by decide)⟩
  obtain ⟨r₁, hp₁⟩ := executes_after 1 noFailures (Op.setError "a" (some {}) { targetState := .unset }).prog
    (Board.new [] ["a"] fun _ => {}) (by decide)
  obtain ⟨r₂, hp₂⟩ := executes_after 1 noFailures (Op.setActive "a" false { targetState := .unset }).prog
    failed (by decide)
  have hr : Runs KeepsErrorsApart (Board.new [] ["a"] fun _ => {}) failed := Runs.refl.step fails hp₁
  have hcur : ((after 1 noFailures (Op.setActive "a" false { targetState := .unset }).prog failed).status
      "a").currentState = .inactive := by decide
  exact ⟨_, hr, by decide, Runs.refl.step deactivates hp₂, hcur,
    no_error_of_runs (Board.new_fresh ..) (hr.step deactivates hp₂) "a" (.inr hcur)⟩

/-- An error supplied with a move to `ACTIVE` is kept. -/
theorem error_of_active :
    ∃ b, Runs (fun _ _ _ => True) (Board.new [] ["a"] fun _ => {}) b ∧ (b.status "a").currentState = .active ∧
      (b.status "a").error ≠ none := by
  obtain ⟨b, hrun, hb⟩ := exists_runs 2 noFailures [.setTarget "a" { targetState := .active, error := some {} }]
    (Board.new [] ["a"] fun _ => {})
    (fun b => decide ((b.status "a").currentState = .active) && (b.status "a").error.isSome) (by decide)
  obtain ⟨hcur, herr⟩ := Bool.and_eq_true_iff.mp hb
  exact ⟨b, hrun, of_decide_eq_true hcur, Option.isSome_iff_ne_none.mp herr⟩

end CommonCore
