import CommonCore.SwitchRuns

/-!
# What clients know

`notify_status` hands the status of a switch to `signal_status`, which leaves
out what compares equal to the value it sent last. However operations overlap,
clients know every status up to `pending`, which the comparison leaves out.

They are also right about `pending` after operations that do not overlap and
that `Land`: the switch is not left in a state for which it has announced
interceptors.
-/

namespace CommonCore

open Coop Coop.Prog

/-- The status that clients have heard of, or the initial one. -/
def Board.published (b : Board) (n : SwitchName) : Status := (b.signalStatus.cached.lookup n).getD {}

@[simp] theorem Board.setStatus_published (b : Board) (n m : SwitchName) (s : Status) :
    (b.setStatus n s).published m = b.published m := rfl

@[simp] theorem Board.writeTarget_published (b : Board) (n m : SwitchName) (target : State) (args : TargetArgs) :
    (b.writeTarget n target args).published m = b.published m := rfl

@[simp] theorem Board.setPending_published (b : Board) (n m : SwitchName) (pending : Bool) :
    (b.setPending n pending).published m = b.published m := rfl

@[simp] theorem Board.enter_published (b : Board) (n m : SwitchName) (state : State) :
    (b.enter n state).published m = b.published m := rfl

/-- What clients know is right, but for `pending`. -/
def Near (known actual : Status) : Prop := known = { actual with pending := known.pending }

/-- What clients know is right, and nothing is pending. -/
def Told (known actual : Status) : Prop := known = actual ∧ actual.pending = false

theorem Near.of_told {known actual : Status} (h : Told known actual) : Near known actual := by
  rw [h.1]
  rfl

theorem Near.told {known actual : Status} (h : Near known actual) (hk : known.pending = false)
    (ha : actual.pending = false) : Told known actual := by
  refine ⟨?_, ha⟩
  rw [h, hk, ← ha]

theorem Near.currentState {known actual : Status} (h : Near known actual) :
    known.currentState = actual.currentState := by
  rw [h]

/-- Clients know every status as well as `P` says, except for the `dirty` one. -/
structure Board.Tells (P : Status → Status → Prop) (b : Board) (dirty : Option SwitchName) : Prop where
  caching : b.signalStatus.caching = true
  inStep : b.signalStatus.InStep
  knows : ∀ m, dirty ≠ some m → P (b.published m) (b.status m)

namespace Board.Tells

variable {P : Status → Status → Prop} {b b' : Board} {n : SwitchName}

theorem knows_all (h : b.Tells P none) (m : SwitchName) : P (b.published m) (b.status m) := h.knows m nofun

theorem dirty (h : b.Tells P none) (n : SwitchName) : b.Tells P (some n) :=
  ⟨h.caching, h.inStep, fun m _ => h.knows_all m⟩

theorem clean (h : b.Tells P (some n)) (hn : P (b.published n) (b.status n)) : b.Tells P none := by
  refine ⟨h.caching, h.inStep, fun m _ => ?_⟩
  by_cases hm : m = n
  · rw [hm]; exact hn
  · exact h.knows m fun he => hm (Option.some.inj he).symm

theorem of_eq {dirty : Option SwitchName} (h : b.Tells P dirty) (hsig : b'.signalStatus = b.signalStatus)
    (hs : ∀ m, dirty ≠ some m → b'.status m = b.status m) : b'.Tells P dirty := by
  refine ⟨hsig ▸ h.caching, hsig ▸ h.inStep, fun m hm => ?_⟩
  have hp : b'.published m = b.published m := by unfold Board.published; rw [hsig]
  rw [hp, hs m hm]
  exact h.knows m hm

theorem setStatus (h : b.Tells P (some n)) (s : Status) : (b.setStatus n s).Tells P (some n) :=
  h.of_eq rfl fun _ hm => setStatus_status_of_ne b n (fun he => hm (congrArg some he.symm)) s

theorem enter (h : b.Tells P (some n)) (state : State) : (b.enter n state).Tells P (some n) :=
  (h.setStatus _).of_eq rfl fun _ _ => rfl

theorem setPending (h : b.Tells P (some n)) (pending : Bool) : (b.setPending n pending).Tells P (some n) :=
  h.setStatus _

theorem writeTarget (h : b.Tells P (some n)) (target : State) (args : TargetArgs) :
    (b.writeTarget n target args).Tells P (some n) := h.setStatus _

theorem notifyStatus (h : b.Tells P (some n)) : (b.notifyStatus n).Tells P (some n) := by
  refine ⟨MappingSignal.emitIfChanged_caching.trans h.caching, MappingSignal.emitIfChanged_inStep h.caching h.inStep,
    fun m hm => ?_⟩
  have hp : (b.notifyStatus n).published m = b.published m := by
    unfold Board.published
    rw [Board.notifyStatus, MappingSignal.emitIfChanged_of_ne h.caching fun he => hm (congrArg some he)]
  rw [hp]
  exact h.knows m hm

theorem logDiversion {dirty : Option SwitchName} (h : b.Tells P dirty) (error : Option Error) :
    (b.logDiversion error).Tells P dirty :=
  h.of_eq (Board.logDiversion_signalStatus ..) fun m _ => by rw [Board.logDiversion_status]

theorem notifyEach (h : b.Tells P (some n)) {α : Type} (l : List α) : (b.notifyEach n l).Tells P (some n) := by
  induction l generalizing b with
  | nil => exact h
  | cons a l ih => exact ih h.notifyStatus

theorem updateDescendants (h : b.Tells P (some n)) (invokes : Bool) :
    (b.updateDescendants n invokes).Tells P (some n) := by
  rw [updateDescendants_eq]
  exact (h.notifyEach _).of_eq rfl fun _ _ => rfl

end Board.Tells

section
variable {P : Status → Status → Prop} {b : Board} {n : SwitchName}

/-- After a notification clients know the status, but for `pending`. -/
theorem near_notifyStatus (hc : b.signalStatus.caching = true) :
    Near ((b.notifyStatus n).published n) (b.status n) := by
  unfold Board.published Board.notifyStatus
  rcases b.signalStatus.emitIfChanged_cases n (b.status n) hc with ⟨v, hv, heq, h⟩ | ⟨_, _, h⟩
  · rw [h, hv]
    exact Status.eq_of_beq heq
  · rw [h]
    simp [Near, MappingSignal.sendall, MappingSignal.updateCache]

theorem near_leave (h : b.Tells P (some n)) (invokes triggers : Bool) :
    Near ((b.leave n invokes triggers).published n) ((b.leave n invokes triggers).status n) := by
  unfold Board.leave
  split_ifs
  · exact near_notifyStatus (h.updateDescendants invokes).caching
  · exact near_notifyStatus h.caching

theorem near_notifyEach (hc : b.signalStatus.caching = true) {α : Type} (a : α) (l : List α) :
    Near ((b.notifyEach n (a :: l)).published n) (b.status n) := by
  induction l generalizing a b with
  | nil => exact near_notifyStatus hc
  | cons a' l ih => exact ih (b := b.notifyStatus n) (MappingSignal.emitIfChanged_caching.trans hc) a'

theorem notifyEach_caching {α : Type} (l : List α) :
    (b.notifyEach n l).signalStatus.caching = b.signalStatus.caching := by
  induction l generalizing b with
  | nil => rfl
  | cons a l ih => exact (ih (b := b.notifyStatus n)).trans MappingSignal.emitIfChanged_caching

/-- Who waits for interceptors has sent a notification for each of them. -/
theorem near_launched {state : State} {e : Launch} (h : Launched n state b e) (hb : b.Tells P (some n)) :
    Near (b.published n) (b.status n) := by
  obtain ⟨b₀, phase, rfl, -, hne⟩ := h
  have hc : b₀.signalStatus.caching = true := (notifyEach_caching _).symm.trans hb.caching
  unfold Board.launch
  unfold Board.awaited at hne
  cases hl : b₀.applicable n state phase with
  | nil => rw [hl] at hne; exact absurd rfl hne
  | cons ic l =>
    rw [Board.notifyEach_status]
    exact near_notifyEach hc ic l

end

/-! ## Overlapping operations -/

/-- Every procedure that may have made clients out of date about its switch
brings them up to date before it waits or returns. -/
def nearness : Contract Board Call Bool Launch Failures where
  pre
    | .setTarget _ _, b => b.Tells Near none
    | .setCurrentState n _ _ _ _ _, b => b.Tells Near (some n)
  post _ _ _ b' := b'.Tells Near none
  parked b := b.Tells Near none
  wait _ _ _ b' := b'.Tells Near none

namespace Board.Tells

variable {b : Board} {n : SwitchName}

/-- Only somebody else's change lets the switch leave the state. -/
theorem keeps (state : State) (onCancel onError : ExceptionHandling) :
    Keeps nearness n state onCancel onError
      (fun b => b.Tells Near (some n) ∧ (Near (b.published n) (b.status n) ∨ (b.status n).currentState = state))
      (fun b => b.Tells Near (some n)) := by
  have diverts : ∀ {b : Board} (error : Option Error) (eh : ExceptionHandling), b.Tells Near none →
      Diverts nearness n error b (fun d b => if d then b.Tells Near (some n) else b.Tells Near (some n) ∧
        (Near (b.published n) (b.status n) ∨ (b.status n).currentState = state)) eh := by
    intro b error eh h
    cases eh with
    | default => exact h.dirty n
    | ignore => exact ⟨h.dirty n, .inl (h.knows_all n)⟩
    | abort => exact ⟨h.dirty n, fun _ _ h => h.dirty n⟩
    | fail => exact ⟨h, fun _ _ h => h.dirty n⟩
    | revert => exact ⟨h, fun _ _ h => h.dirty n⟩
  exact {
    notify := fun b h => ⟨h.1.notifyStatus, .inl (near_notifyStatus h.1.caching)⟩
    parked := fun b e h hl => h.1.clean (near_launched hl h.1)
    wait := fun b e r b' _ _ hw => ⟨hw.dirty n, .inl (hw.knows_all n)⟩
    cancel := fun _ _ b _ h hne => diverts _ _ (h.1.clean (h.2.resolve_right hne))
    errors := fun b e r b' _ _ hw _ _ => diverts _ _ (hw.logDiversion _) }

theorem leave (h : b.Tells Near (some n)) (invokes triggers : Bool) : (b.leave n invokes triggers).Tells Near none := by
  refine clean (n := n) ?_ (near_leave h invokes triggers)
  unfold Board.leave
  split_ifs
  · exact (h.updateDescendants invokes).notifyStatus
  · exact h.notifyStatus

theorem touch (h : b.Tells Near none) (args : TargetArgs) : (b.touch n args).Tells Near none := by
  unfold Board.touch
  split_ifs
  · have h := (h.dirty n).setStatus ((b.status n).writeAttributes args.attributes args.clearExisting)
    exact h.notifyStatus.clean (near_notifyStatus h.caching)
  · exact h

theorem setTarget (h : b.Tells Near none) (args : TargetArgs) :
    wp nearness (setTarget n args) b fun _ b' => b'.Tells Near none := by
  rw [wp_setTarget, wp_applyTarget]
  have final : ∀ {b₁ : Board}, b₁.Tells Near none →
      EntersTarget nearness n (b.resolveTarget n args) args (fun _ b' => b'.Tells Near none) b₁ :=
    fun h₁ => ⟨(h₁.dirty n).writeTarget .., fun _ _ hp => hp⟩
  split_ifs
  · exact h.touch args
  · exact h
  · refine ⟨h.dirty n, fun r b₁ h₁ => ?_⟩
    split_ifs
    · exact final h₁
    · exact h₁
  · exact final h

end Board.Tells

theorem nearness_meets : nearness.Meets body := by
  intro c b h
  cases c with
  | setTarget n args => exact Board.Tells.setTarget h args
  | setCurrentState n state invokes triggers onCancel onError =>
    have h : b.Tells Near (some n) := h
    rw [body, wp_setCurrentState]
    split_ifs
    · have hk := Board.Tells.keeps (n := n) state onCancel onError
      refine wp_mono _ (fun r b₁ h₁ => ?_) _ _
        (hk.invokeInterceptors ⟨(h.enter state).setPending true, .inr (by simp [Status.enter])⟩)
      have h₁ : b₁.Tells Near (some n) := by
        cases r with
        | true => exact h₁.1
        | false => exact h₁
      exact (h₁.setPending false).leave invokes triggers
    · exact (h.enter state).leave invokes triggers

theorem Board.Tells.op {b : Board} (h : b.Tells Near none) (op : Op) :
    wp nearness op.prog b fun _ b' => b'.Tells Near none := by
  refine wp_op (fun n args b₁ ha => ?_) (fun b' he r => ?_)
  · have h₁ : b₁.Tells Near none := by cases ha <;> exact h.of_eq rfl fun _ _ => rfl
    exact wp_mono _ (fun _ _ h _ => h) _ _ (h₁.setTarget args)
  · cases he with
    | same => exact h
    | @setAttributes n attributes clear =>
      have h := (h.dirty n).setStatus ((b.status n).writeAttributes attributes clear)
      exact h.notifyStatus.clean (near_notifyStatus h.caching)
    | setSpec => exact h.of_eq rfl fun _ _ => rfl

theorem Board.Fresh.tells {b : Board} (h : b.Fresh) {P : Status → Status → Prop} (hP : P {} {}) : b.Tells P none := by
  refine ⟨by rw [h.signal], by rw [h.signal]; exact MappingSignal.inStep_new true, fun m _ => ?_⟩
  have hp : b.published m = {} := by
    unfold Board.published
    rw [h.signal]
    rfl
  rw [hp, h.status]
  exact hP

/-- However operations overlap, at every wait and return clients know every
status up to `pending`. -/
theorem tells_of_overlapping {b : Board} (hb : b.Fresh) {c : Pool Board Call Bool Launch Failures}
    (h : Overlapping b c) : c.1.Tells Near none := by
  refine pool_inv nearness_meets (fun _ h => h) (fun _ _ _ _ h => h) (fun p hp s hs => ?_) (hb.tells rfl) h
  obtain ⟨op, rfl⟩ := hp
  exact Board.Tells.op hs op

/-! ## Operations that land -/

/-- `set_target` moves the switch to a state for which no interceptors are
announced. Errors on the way there are ignored, or start a move that lands in
turn. -/
inductive Lands (ω : ℕ → Launch → Failures) : Board → SwitchName → TargetArgs → Prop
  | mk {b n args} : ¬ Unmoved b n args →
      (args.invokeInterceptors = true → ∀ phase, b.applicable n (b.resolveTarget n args) phase = []) →
      (args.invokeInterceptors = true → ∀ phase k,
        let errors := b.errorsAt ω n (b.resolveTarget n args).transitionState phase k
        errors ≠ [] → errorPolicy errors args.onError ≠ .abort) →
      (args.invokeInterceptors = true → ∀ phase k,
        let errors := b.errorsAt ω n (b.resolveTarget n args).transitionState phase k
        let b' := b.during n (b.resolveTarget n args).transitionState
        errors ≠ [] → errorPolicy errors args.onError = .fail →
          Lands ω b' n (b'.errorArgs n (mapToError b.execName (prevailing errors args.onError).2))) →
      (args.invokeInterceptors = true → ∀ phase k,
        let errors := b.errorsAt ω n (b.resolveTarget n args).transitionState phase k
        let b' := b.during n (b.resolveTarget n args).transitionState
        errors ≠ [] → errorPolicy errors args.onError = .revert → Lands ω b' n (b'.revertArgs n)) →
      Lands ω b n args

/-- The errors of the interceptors of `n` for `state` are ignored, or start a
move that lands. -/
structure ErrorsLand (ω : ℕ → Launch → Failures) (b : Board) (n : SwitchName) (state : State)
    (onError : ExceptionHandling) : Prop where
  abort : ∀ phase k, b.errorsAt ω n state phase k ≠ [] → errorPolicy (b.errorsAt ω n state phase k) onError ≠ .abort
  fail : ∀ phase k, b.errorsAt ω n state phase k ≠ [] → errorPolicy (b.errorsAt ω n state phase k) onError = .fail →
    Lands ω (b.during n state) n
      ((b.during n state).errorArgs n (mapToError b.execName (prevailing (b.errorsAt ω n state phase k) onError).2))
  revert : ∀ phase k, b.errorsAt ω n state phase k ≠ [] →
    errorPolicy (b.errorsAt ω n state phase k) onError = .revert →
    Lands ω (b.during n state) n ((b.during n state).revertArgs n)

theorem Lands.errorsLand {ω : ℕ → Launch → Failures} {b : Board} {n : SwitchName} {args : TargetArgs}
    (h : Lands ω b n args) (hi : args.invokeInterceptors = true) :
    ErrorsLand ω b n (b.resolveTarget n args).transitionState args.onError := by
  cases h with
  | mk _ _ ha hf hr => exact ⟨ha hi, hf hi, hr hi⟩

/-- Clients have not heard yet of a pending change to the state that the switch
is in. -/
def Board.Apart (b : Board) (n : SwitchName) : Prop :=
  (b.published n).pending = true → (b.published n).currentState ≠ (b.status n).currentState

/-- A state change is the last one if it is news, and announces no interceptors. -/
def Final (b : Board) (n : SwitchName) (state : State) (invokes : Bool) : Prop :=
  (b.enter n state).Apart n ∧ (invokes = true → ∀ phase, b.applicable n state phase = [])

def landing (ω : ℕ → Launch → Failures) : Contract Board Call Bool Launch Failures where
  pre
    | .setTarget n args, b =>
      b.Tells Told (some n) ∧ Near (b.published n) (b.status n) ∧
        ((b.published n).pending = true → args.reevaluate = false) ∧
        (args.invokeInterceptors = false → (b.status n).pending = false) ∧
        (Lands ω b n args ∨ Unmoved b n args ∧ Told (b.published n) (b.status n))
    | .setCurrentState n state invokes _ _ onError, b =>
      b.Tells Told (some n) ∧ (invokes = false → (b.status n).pending = false) ∧
        (invokes = true → ErrorsLand ω b n state onError)
  post
    | .setTarget _ _, _, _, b' => b'.Tells Told none
    | .setCurrentState n state invokes triggers _ _, b, r, b' =>
      b'.Tells Told (some n) ∧ Near (b'.published n) (b'.status n) ∧ (b'.status n).pending = false ∧
        (r = true → (b.through n state invokes triggers).Alike b') ∧
        (r = false ∨ Final b n state invokes → Told (b'.published n) (b'.status n))
  parked _ := True
  wait b e r b' := b' = b ∧ ∃ k, r = ω k e

theorem landing_allows (ω : ℕ → Launch → Failures) : (landing ω).Allows ω := fun _ k _ _ => ⟨rfl, k, rfl⟩

section
variable {ω : ℕ → Launch → Failures} {P : Status → Status → Prop} {b b' : Board} {n : SwitchName}

/-- What has been sent to clients does not matter. -/
theorem Lands.alike {args : TargetArgs} (h : Lands ω b n args) : ∀ {b' : Board}, b.Alike b' → Lands ω b' n args := by
  induction h with
  | @mk b n args hu hap habort hfail hrevert ihf ihr =>
    intro b' ha
    obtain ⟨sig, crash, rfl⟩ : ∃ sig crash, b' = { b with signalStatus := sig, crashed := crash } := ⟨_, _, ha⟩
    exact .mk hu hap habort (fun hi phase k hne hp => ihf hi phase k hne hp rfl)
      (fun hi phase k hne hp => ihr hi phase k hne hp rfl)

theorem Board.Apart.of_told (h : Told (b.published n) (b.status n)) : b.Apart n := fun hp => by
  rw [h.1, h.2] at hp
  cases hp

/-- Old news about another state, or nothing pending: either way the next
notification tells all. -/
theorem told_notifyStatus (hc : b.signalStatus.caching = true) (hp : (b.status n).pending = false) (ha : b.Apart n) :
    Told ((b.notifyStatus n).published n) (b.status n) := by
  unfold Board.Apart at ha
  unfold Board.published Board.notifyStatus at *
  rcases b.signalStatus.emitIfChanged_cases n (b.status n) hc with ⟨v, hv, heq, h⟩ | ⟨_, _, h⟩
  · rw [h, hv]
    rw [hv] at ha
    have hnear : Near v (b.status n) := Status.eq_of_beq heq
    refine hnear.told ?_ hp
    by_contra hv'
    exact ha (by simpa using hv') hnear.currentState
  · rw [h]
    simp [Told, hp, MappingSignal.sendall, MappingSignal.updateCache]

theorem told_notifyEach {α : Type} (hc : b.signalStatus.caching = true) (hp : (b.status n).pending = false)
    (ha : b.Apart n) (l : List α) : (b.notifyEach n l).Apart n := by
  induction l generalizing b with
  | nil => exact ha
  | cons a l ih =>
    exact ih (b := b.notifyStatus n) (MappingSignal.emitIfChanged_caching.trans hc) hp
      (.of_told (told_notifyStatus hc hp ha))

theorem told_leave (h : b.Tells P (some n)) (hp : (b.status n).pending = false) (ha : b.Apart n)
    (invokes triggers : Bool) : Told ((b.leave n invokes triggers).published n) ((b.leave n invokes triggers).status n) := by
  unfold Board.leave
  split_ifs
  · refine told_notifyStatus (h.updateDescendants invokes).caching (by simpa using hp) ?_
    rw [Board.updateDescendants_eq]
    exact told_notifyEach h.caching hp ha _
  · exact told_notifyStatus h.caching hp ha

theorem ErrorsLand.keeps {state : State} {onError : ExceptionHandling} (hE : ErrorsLand ω b n state onError)
    (onCancel : ExceptionHandling) :
    Keeps (landing ω) n state onCancel onError
      (fun b₁ => (b.during n state).Alike b₁ ∧ b₁.Tells Told (some n)) (fun b₁ => b₁.Tells Told none) where
  notify b₁ h := ⟨h.1.trans (.notifyStatus b₁ n), h.2.notifyStatus⟩
  parked _ _ _ _ := trivial
  wait _ _ _ _ h _ hw := hw.1 ▸ h
  cancel _ _ b₁ _ h hne := by
    refine absurd ?_ hne
    rw [h.1.status]
    simp [Board.during, Status.enter]
  errors b₁ e r b' h hl hw _ hne := by
    have hnear := near_launched hl h.2
    obtain ⟨phase, herrors⟩ := hl.errorsAt h.1
    obtain ⟨rfl, k, rfl⟩ := hw
    rw [herrors] at hne ⊢
    unfold HandlesErrors
    -- once the diversion is logged, all is as before
    generalize hlog : b'.logDiversion _ = b₁
    have herror : b'.dominatingError (b.errorsAt ω n state phase k) onError =
        mapToError b.execName (prevailing (b.errorsAt ω n state phase k) onError).2 :=
      congrArg (fun name => mapToError name (prevailing (b.errorsAt ω n state phase k) onError).2) h.1.execName
    have h : (b.during n state).Alike b₁ ∧ b₁.Tells Told (some n) :=
      hlog ▸ ⟨h.1.trans (.logDiversion _ _), h.2.logDiversion _⟩
    have hnear : Near (b₁.published n) (b₁.status n) := by
      rw [← hlog, Board.published, Board.logDiversion_signalStatus, Board.logDiversion_status]
      exact hnear
    obtain ⟨sig, crash, hb₁⟩ : ∃ sig crash, b₁ = { b.during n state with signalStatus := sig, crashed := crash } :=
      ⟨_, _, h.1⟩
    rw [herror]
    cases hp : errorPolicy (b.errorsAt ω n state phase k) onError with
    | default => exact absurd hp (errorPolicy_ne_default _ _)
    | ignore => exact h
    | abort => exact absurd hp (hE.abort phase k hne)
    | fail =>
      have hL := (hE.fail phase k hne hp).alike h.1
      subst hb₁
      exact ⟨⟨h.2, hnear, fun _ => rfl, fun hi => absurd hi.symm Bool.false_ne_true, .inl hL⟩, fun _ _ hpost => hpost⟩
    | revert =>
      have hL := (hE.revert phase k hne hp).alike h.1
      subst hb₁
      exact ⟨⟨h.2, hnear, fun _ => rfl, fun hi => absurd hi.symm Bool.false_ne_true, .inl hL⟩, fun _ _ hpost => hpost⟩

/-- Nobody announces anything, so clients are told of the new state at the end. -/
theorem wp_invokeInterceptors_none {K : Contract Board Call Bool Launch Failures} {state : State}
    {onCancel onError : ExceptionHandling} {Q : Bool → Board → Prop}
    (hnone : ∀ phase, b.applicable n state phase = []) (hcur : (b.status n).currentState = state) (hQ : Q true b) :
    wp K (invokeInterceptors n state onCancel onError) b Q := by
  have haw : ∀ phase, b.awaited n state phase = [] := fun phase => by
    unfold Board.awaited
    rw [hnone phase]
    rfl
  refine wp_invokeInterceptors_smooth (I := (· = b)) ⟨fun phase _ h => absurd (haw phase) h,
    fun phase _ _ _ h => absurd (haw phase) h⟩ hcur (fun phase h => absurd (hnone phase) h) ?_ rfl fun b' _ hb' => ?_
  · intro phase b' r error _ hne
    rw [haw phase, collectErrors_nil] at hne
    exact absurd rfl hne
  rw [hb']
  exact hQ

theorem landing_setCurrentState {state : State} {invokes triggers : Bool} {onCancel onError : ExceptionHandling}
    (h : (landing ω).pre (.setCurrentState n state invokes triggers onCancel onError) b) :
    wp (landing ω) (setCurrentState n state invokes triggers onCancel onError) b
      ((landing ω).post (.setCurrentState n state invokes triggers onCancel onError) b) := by
  obtain ⟨ht, hpend, hE⟩ := h
  have leaves : ∀ {b₁ : Board} {r : Bool}, b₁.Tells Told (some n) → (b₁.status n).pending = false →
      (r = true → (if invokes then (b.enter n state).setPending n false else b.enter n state).Alike b₁) →
      (r = false ∨ Final b n state invokes → b₁.Apart n) →
      (landing ω).post (.setCurrentState n state invokes triggers onCancel onError) b r (b₁.leave n invokes triggers) := by
    intro b₁ r h₁ hp ha hf
    refine ⟨?_, near_leave h₁ invokes triggers, ?_, fun hr => (ha hr).leave n invokes triggers,
      fun h => told_leave h₁ hp (hf h) invokes triggers⟩
    · unfold Board.leave
      split_ifs
      · exact (h₁.updateDescendants invokes).notifyStatus
      · exact h₁.notifyStatus
    · unfold Board.leave
      split_ifs <;> simpa using hp
  rw [wp_setCurrentState]
  split_ifs with hi
  · subst hi
    have hcur : ((b.during n state).status n).currentState = state := by simp [Board.during, Status.enter]
    have htells : (b.during n state).Tells Told (some n) := (ht.enter state).setPending true
    by_cases hf : Final b n state true
    · refine wp_invokeInterceptors_none (b := b.during n state) (hf.2 rfl) hcur ?_
      refine leaves (htells.setPending false) (by simp) (fun _ => ?_) fun _ hp => ?_
      · exact (Board.Alike.refl (b.during n state)).cleared n state
      · simpa [Board.during] using hf.1 hp
    · have hk := (hE rfl).keeps onCancel
      refine wp_mono _ (fun r b₁ h₁ => ?_) _ _ (hk.invokeInterceptors ⟨.refl _, htells⟩)
      cases r with
      | true =>
        obtain ⟨ha, h₁⟩ := h₁
        exact leaves (h₁.setPending false) (by simp) (fun _ => ha.cleared n state) fun h => by simp [hf] at h
      | false =>
        -- the move that diverted this one has told clients everything
        have h₁ : b₁.Tells Told none := h₁
        have hn := h₁.knows_all n
        have hsame : b₁.setPending n false = b₁ := by
          unfold Board.setPending
          rw [show { b₁.status n with pending := false } = b₁.status n by rw [← hn.2], Board.setStatus_self]
        rw [hsame]
        exact leaves (h₁.dirty n) hn.2 (fun hr => absurd hr Bool.false_ne_true) fun _ => .of_told hn
  · have hi : invokes = false := by simpa using hi
    refine leaves (ht.enter state) (by simpa [Status.enter] using hpend hi) (fun _ => ?_) fun h => ?_
    · rw [if_neg (by simp [hi])]
      exact .refl _
    · simpa using (h.resolve_left Bool.true_eq_false.mp).1

theorem applicable_of_spec (hs : b'.spec = b.spec) (state : State) (phase : InterceptorPhase) :
    b'.applicable n state phase = b.applicable n state phase := by
  simp only [Board.applicable, Board.interceptors, hs]

theorem ErrorsLand.of_none {state : State} (hnone : ∀ phase, b.applicable n state phase = [])
    (onError : ExceptionHandling) : ErrorsLand ω b n state onError := by
  have he : ∀ phase k, b.errorsAt ω n state phase k = [] := fun phase k => by
    simp [Board.errorsAt, Board.awaited, hnone phase, collectErrors_nil]
  exact ⟨fun phase k h => absurd (he phase k) h, fun phase k h => absurd (he phase k) h,
    fun phase k h => absurd (he phase k) h⟩

theorem Board.Tells.touch_told {args : TargetArgs} (h : b.Tells Told none) : (b.touch n args).Tells Told none := by
  unfold Board.touch
  split_ifs
  · have hn := h.knows_all n
    have hd := (h.dirty n).setStatus ((b.status n).writeAttributes args.attributes args.clearExisting)
    refine hd.notifyStatus.clean (told_notifyStatus hd.caching (by simpa [Status.writeAttributes] using hn.2) ?_)
    intro hp
    rw [setStatus_published, hn.1, hn.2] at hp
    cases hp
  · exact h

theorem landing_setTarget {args : TargetArgs} (h : (landing ω).pre (.setTarget n args) b) :
    wp (landing ω) (setTarget n args) b fun _ b' => b'.Tells Told none := by
  obtain ⟨ht, hnear, hre, hpend, hL | ⟨hu, htold⟩⟩ := h
  · obtain ⟨hu, hap⟩ : ¬ Unmoved b n args ∧
        (args.invokeInterceptors = true → ∀ phase, b.applicable n (b.resolveTarget n args) phase = []) := by
      cases hL with
      | mk hu hap => exact ⟨hu, hap⟩
    have final : ∀ {b₁ : Board}, b₁.Tells Told (some n) →
        (args.invokeInterceptors = false → (b₁.status n).pending = false) → b₁.spec = b.spec →
        ((b₁.published n).pending = true → (b₁.published n).currentState ≠ b.resolveTarget n args) →
        EntersTarget (landing ω) n (b.resolveTarget n args) args (fun _ b' => b'.Tells Told none) b₁ := by
      intro b₁ h₁ hp hs hap₁
      have hnone : args.invokeInterceptors = true → ∀ phase,
          (b₁.writeTarget n (b.resolveTarget n args) args).applicable n (b.resolveTarget n args) phase = [] := by
        intro hi phase
        exact (applicable_of_spec hs _ phase).trans (hap hi phase)
      refine ⟨⟨h₁.writeTarget .., fun hi => ?_, fun hi => .of_none (hnone hi) _⟩, fun r b' hpost => ?_⟩
      · simpa [Status.writeTarget, Status.writeAttributes] using hp hi
      · obtain ⟨h', -, -, -, htold⟩ := hpost
        exact h'.clean (htold (.inr ⟨by simpa [Board.Apart, Status.enter] using hap₁, hnone⟩))
    rw [wp_setTarget, wp_applyTarget]
    split_ifs with hsame hblocked hi
    · exact absurd (.inl hsame) hu
    · exact absurd (.inr hblocked) hu
    · refine ⟨⟨ht, hpend, hL.errorsLand⟩, fun r b₁ hpost => ?_⟩
      obtain ⟨h₁, hnear₁, hp₁, ha, htold⟩ := hpost
      cases r with
      | false => exact h₁.clean (htold (.inl rfl))
      | true =>
        have ha := ha rfl
        refine final h₁ (fun _ => hp₁) (ha.spec.trans (Board.through_spec ..)) fun _ => ?_
        rw [hnear₁.currentState, ha.status, Board.through_status_self]
        exact State.transitionState_ne _ fun hun => by rw [hun] at hi; exact absurd hi.1 Bool.false_ne_true
    · refine final ht hpend rfl fun hp hcur => ?_
      rw [hnear.currentState] at hcur
      exact hsame ⟨hre hp, hcur⟩
  · rw [wp_setTarget, wp_applyTarget]
    have h := ht.clean htold
    split_ifs with hsame hblocked
    · exact h.touch_told
    · exact h
    all_goals exact absurd hu (not_or.mpr ⟨hsame, hblocked⟩)

theorem landing_meets (ω : ℕ → Launch → Failures) : (landing ω).Meets body := by
  intro c b h
  cases c with
  | setTarget n args => exact landing_setTarget h
  | setCurrentState n state invokes triggers onCancel onError => exact landing_setCurrentState h

end

/-! ## What runs publish -/

/-- What an operation must do: leave the switch where it is, or land. -/
def Publishes (ω : ℕ → Launch → Failures) (op : Op) (b : Board) : Prop :=
  ∀ n args b₁, Aims op b n args b₁ → Unmoved b₁ n args ∨ Lands ω b₁ n args

theorem Board.Tells.op_told {ω : ℕ → Launch → Failures} {b : Board} (h : b.Tells Told none) {op : Op}
    (ho : Publishes ω op b) : wp (landing ω) op.prog b fun _ b' => b'.Tells Told none := by
  refine wp_op (fun n args b₁ ha => ?_) (fun b' he r => ?_)
  · have h₁ : b₁.Tells Told none := by cases ha <;> exact h.of_eq rfl fun _ _ => rfl
    have hn := h₁.knows_all n
    refine wp_mono _ (fun _ _ h _ => h) _ _ (landing_setTarget ⟨h₁.dirty n, .of_told hn, fun hp => ?_, fun _ => hn.2, ?_⟩)
    · rw [hn.1, hn.2] at hp
      cases hp
    · exact (ho n args b₁ ha).symm.imp_right fun hu => ⟨hu, hn⟩
  · cases he with
    | same => exact h
    | @setAttributes n attributes clear =>
      have hn := h.knows_all n
      have hd := (h.dirty n).setStatus ((b.status n).writeAttributes attributes clear)
      refine hd.notifyStatus.clean (told_notifyStatus hd.caching (by simpa [Status.writeAttributes] using hn.2) ?_)
      intro hp
      rw [setStatus_published, hn.1, hn.2] at hp
      cases hp
    | setSpec => exact h.of_eq rfl fun _ _ => rfl

theorem tells_of_runs {b₀ b : Board} (h₀ : b₀.Fresh) (hr : Runs Publishes b₀ b) : b.Tells Told none :=
  hr.keeps (fun ω _ _ _ _ hb ho hp => hp.sound (Q := fun _ b' => b'.Tells Told none) (landing_allows ω)
    (landing_meets ω) (hb.op_told ho)) (h₀.tells ⟨rfl, rfl⟩)

theorem Board.Tells.lastSent {P : Status → Status → Prop} {b : Board} (h : b.Tells P none) (n : SwitchName) :
    P ((b.signalStatus.lastSent n).getD {}) (b.status n) := by
  rw [h.inStep n]
  exact h.knows_all n

end CommonCore
