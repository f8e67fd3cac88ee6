import CommonCore.Settling

/-!
# What becomes of a switch whose interceptors throw

The interceptors of a transition are invoked in three phases, and each phase
handles what they throw under the policy that prevails in it. Documented is one
policy, and what `set_target` comes to under it.

A policy that none of the interceptors has goes without an error, and logging
it for debugging is the end of the process.
-/

namespace CommonCore

open Coop Coop.Prog

/-! ## What is documented -/

/-- The policy that prevails: the explicit one, else the highest one of those
that threw, else `FAIL`. -/
def Prevails (onError : ExceptionHandling) (errors : List (Interceptor × Thrown)) (eh : ExceptionHandling) : Prop :=
  if onError ≠ .default then eh = onError
  else if ∀ e ∈ errors, e.1.onError = .default then eh = .fail
  else (∃ e ∈ errors, e.1.onError = eh) ∧ ∀ e ∈ errors, e.1.onError.value ≤ eh.value

/-- What `set_target` comes to under a policy. -/
def Outcome (b b' : Board) (n : SwitchName) (target : State) (errors : List (Interceptor × Thrown)) :
    ExceptionHandling → Prop
  | .fail => (b'.status n).currentState = .failed ∧ ∃ e ∈ errors, (b'.status n).error = mapToError b.execName (some e.2)
  | .abort | .revert =>
    (b'.status n).currentState = (b.status n).settledState ∧ (b'.status n).error = (b.status n).error
  | .ignore => (b'.status n).currentState = target
  | .default => False

theorem value_injective : Function.Injective ExceptionHandling.value := by
  intro eh eh' h
  cases eh <;> cases eh' <;> first | rfl | cases h

theorem maxError_spec (errors : List (Interceptor × Thrown)) (r : ExceptionHandling × Option Thrown) :
    (∀ e ∈ errors, e.1.onError.value ≤ (maxError errors r).1.value) ∧ r.1.value ≤ (maxError errors r).1.value ∧
      (maxError errors r = r ∨ ∃ e ∈ errors, maxError errors r = (e.1.onError, some e.2)) := by
  induction errors generalizing r with
  | nil => exact ⟨by simp, le_rfl, .inl rfl⟩
  | cons a errors ih =>
    unfold maxError at *
    rw [List.foldl_cons]
    by_cases ha : a.1.onError.value > r.1.value
    · rw [if_pos ha]
      obtain ⟨hall, hle, hfrom⟩ := ih (a.1.onError, some a.2)
      refine ⟨List.forall_mem_cons.mpr ⟨hle, hall⟩, ha.le.trans hle, .inr ?_⟩
      rcases hfrom with h | ⟨e, he, h⟩
      · exact ⟨a, List.mem_cons_self, h⟩
      · exact ⟨e, List.mem_cons_of_mem _ he, h⟩
    · rw [if_neg ha]
      obtain ⟨hall, hle, hfrom⟩ := ih r
      refine ⟨List.forall_mem_cons.mpr ⟨(Nat.le_of_not_lt ha).trans hle, hall⟩, hle, hfrom.imp_right ?_⟩
      rintro ⟨e, he, h⟩
      exact ⟨e, List.mem_cons_of_mem _ he, h⟩

theorem maxError_of_default {errors : List (Interceptor × Thrown)} (h : ∀ e ∈ errors, e.1.onError = .default)
    (r : ExceptionHandling × Option Thrown) : maxError errors r = r := by
  unfold maxError
  induction errors with
  | nil => rfl
  | cons a errors ih =>
    have ha : ¬ a.1.onError.value > r.1.value := by
      rw [h a List.mem_cons_self]
      exact Nat.not_lt_zero _
    rw [List.foldl_cons, if_neg ha]
    exact ih fun e he => h e (List.mem_cons_of_mem _ he)

/-- The policy of `handle_errors`, if all errors were handled at once. -/
theorem prevails_iff {onError : ExceptionHandling} {errors : List (Interceptor × Thrown)} {eh : ExceptionHandling} :
    Prevails onError errors eh ↔ eh = errorPolicy errors onError := by
  unfold Prevails errorPolicy prevailing ExceptionHandling.orElse
  by_cases hon : onError = .default
  · obtain ⟨hall, -, hfrom⟩ := maxError_spec errors (.default, none)
    subst hon
    rw [if_neg (by simp), if_pos rfl]
    generalize maxError errors (.default, none) = r at hall hfrom
    by_cases hnone : ∀ e ∈ errors, e.1.onError = .default
    · have hr : r.1 = .default := by
        rcases hfrom with h | ⟨e, he, h⟩
        · rw [h]
        · rw [h]
          exact hnone e he
      rw [if_pos hnone, if_pos hr]
    · have hr : r.1 ≠ .default := by
        intro hr
        refine hnone fun e he => value_injective ?_
        have := hall e he
        rw [hr] at this
        exact Nat.le_antisymm this (Nat.zero_le _)
      obtain ⟨e, he, rfl⟩ := hfrom.resolve_left fun h => hr (by rw [h])
      rw [if_neg hnone, if_neg hr]
      constructor
      · rintro ⟨⟨e', he', rfl⟩, hmax⟩
        exact value_injective (Nat.le_antisymm (hall e' he') (hmax e he))
      · rintro rfl
        exact ⟨⟨e, he, rfl⟩, hall⟩
  · rw [if_pos hon, if_neg hon, if_neg hon]

/-! ## What the phases do -/

/-- What the interceptors for `state` throw in a phase. -/
def Board.errorsIn (b : Board) (env : Launch → Failures) (n : SwitchName) (state : State) (phase : InterceptorPhase) :
    List (Interceptor × Thrown) :=
  collectErrors (b.awaited n state phase) (env ⟨n, state, phase, b.awaited n state phase⟩)

instance (onError : ExceptionHandling) (errors : List (Interceptor × Thrown)) : Decidable (Ignorable onError errors) :=
  inferInstanceAs (Decidable (errors = [] ∨ errorPolicy errors onError = .ignore))

/-- What they throw until a phase diverts the switch. -/
def Board.thrown (b : Board) (env : Launch → Failures) (n : SwitchName) (state : State) (onError : ExceptionHandling) :
    List (Interceptor × Thrown) :=
  b.errorsIn env n state .early ++
    if Ignorable onError (b.errorsIn env n state .early) then
      b.errorsIn env n state .normal ++
        if Ignorable onError (b.errorsIn env n state .normal) then b.errorsIn env n state .late else []
    else []

/-- The policy on the errors is not one of theirs, and goes without an error. -/
def Unattributed (onError : ExceptionHandling) (errors : List (Interceptor × Thrown)) : Prop :=
  errors ≠ [] ∧ (prevailing errors onError).2 = none

/-- Errors without one are handled in a phase that is reached. -/
def Board.MeetsUnattributed (b : Board) (env : Launch → Failures) (n : SwitchName) (state : State) (onError : ExceptionHandling) : Prop :=
  Unattributed onError (b.errorsIn env n state .early) ∨
    Ignorable onError (b.errorsIn env n state .early) ∧ (Unattributed onError (b.errorsIn env n state .normal) ∨
      Ignorable onError (b.errorsIn env n state .normal) ∧ Unattributed onError (b.errorsIn env n state .late))

/-- Between two boards the process dies if `P`, where such messages are logged. -/
def Board.DiesIf (b b' : Board) (P : Prop) : Prop := b'.crashed = true ↔ b.crashed = true ∨ b.debugSink = true ∧ P

theorem Board.DiesIf.trans {b b₁ b₂ : Board} {P P₁ P₂ : Prop} (h : b.DiesIf b₁ P₁) (ha : b.Alike b₁) (h₁ : b₁.DiesIf b₂ P₂)
    (hP : P ↔ P₁ ∨ P₂) : b.DiesIf b₂ P := by
  have hsink : b₁.debugSink = b.debugSink := by rw [ha]
  unfold DiesIf at *
  rw [h₁, h, hsink, hP, or_assoc, and_or_left]

theorem Board.DiesIf.of_not {b b' : Board} {P : Prop} (h : b'.crashed = b.crashed) (hP : ¬ P) : b.DiesIf b' P := by
  unfold DiesIf
  rw [h]
  exact ⟨.inl, fun h => h.resolve_right fun h => hP h.2⟩

theorem Board.logDiversion_crashed (b : Board) (error : Option Error) :
    b.DiesIf (b.logDiversion error) (error = none) := by
  unfold DiesIf
  cases error with
  | none => simp [logDiversion]
  | some error => simp [logDiversion]

theorem Board.DiesIf.of_crashed {b b' b'' : Board} {P : Prop} (h : b.DiesIf b' P) (hc : b''.crashed = b'.crashed) :
    b.DiesIf b'' P := by
  unfold DiesIf
  rw [hc]
  exact h

section
variable (env : Launch → Failures)

/-- Nothing is thrown except by the interceptors of `n` for `state`. -/
def ThrowsOnly (n : SwitchName) (state : State) : Prop :=
  ∀ e, ¬ (e.switch = n ∧ e.state = state) → collectErrors e.interceptors (env e) = []

/-- A call of `set_target` whose transition meets no error that matters. -/
def StraightCall : Call → Board → Prop
  | .setTarget n args, b => (b.status n).currentState ≠ (b.resolveTarget n args).transitionState →
      b.Passes (fun _ => env) n (b.resolveTarget n args) args
  | .setCurrentState .., _ => False

/-- It does not crash if it leaves the one state whose interceptors throw. -/
def StraightEnd : Call → Board → Bool → Board → Prop
  | .setTarget n args, b, r, b' => Applied b n (b.resolveTarget n args) args r b' ∧
      (ThrowsOnly env n (b.status n).currentState → args.reevaluate = false → b'.crashed = b.crashed)
  | .setCurrentState .., _, _, _ => False

def straight : Contract Board Call Bool Launch Failures :=
  (alone fun _ => env).extend (StraightCall env) (StraightEnd env)

theorem straight_layer (c : Call) (b : Board) (h : StraightCall env c b) :
    wp (alone fun _ => env) (body c) b (StraightEnd env c b) := by
  cases c with
  | setTarget n args =>
    refine wp_setTarget.mpr (wp_mono _ (fun r b' happlied => ⟨happlied.1, fun honly hre => ?_⟩) _ _ (wp_applyTarget_alone h))
    refine happlied.2 fun hr => ?_
    subst hr
    -- both states are other states than the one the switch is in
    obtain ⟨hsame, hblocked⟩ : ¬ (args.reevaluate = false ∧ (b.status n).currentState = b.resolveTarget n args) ∧
        ¬ ((b.resolveTarget n args).isSettled = true ∧ (b.status n).currentState = (b.resolveTarget n args).transitionState) := by
      cases happlied.1 with
      | reached hsame hblocked _ => exact ⟨hsame, hblocked⟩
    refine ⟨fun hset _ phase _ => honly ⟨n, _, phase, _⟩ fun h => hblocked ⟨hset, h.2.symm⟩, fun _ phase _ => ?_⟩
    exact honly ⟨n, _, phase, _⟩ fun h => hsame ⟨hre, h.2.symm⟩
  | setCurrentState => exact h.elim

variable {env} {n : SwitchName} {state : State} {onCancel onError : ExceptionHandling}

/-- From the transitional state of an interrupted transition, nothing else throws. -/
theorem ThrowsOnly.straightCall (h : ThrowsOnly env n state) {b : Board} (hcur : (b.status n).currentState = state)
    (args : TargetArgs) : StraightCall env (.setTarget n args) b := by
  intro hne _ phase k
  apply Or.inl
  exact h ⟨n, _, phase, _⟩ fun hsame => hne (hcur.trans hsame.2.symm)

/-- The board after the diversion of a phase. -/
inductive Diverted (b : Board) (n : SwitchName) (onError : ExceptionHandling) (errors : List (Interceptor × Thrown)) (b' : Board) : Prop
  | abort {c} : errorPolicy errors onError = .abort → b.Alike c →
      (c.through n (c.status n).settledState false false).Alike b' → Diverted b n onError errors b'
  | fail {c args r} : errorPolicy errors onError = .fail → b.Alike c →
      args = c.errorArgs n (mapToError c.execName (prevailing errors onError).2) →
        Applied c n (c.resolveTarget n args) args r b' → Diverted b n onError errors b'
  | revert {c args r} : errorPolicy errors onError = .revert → b.Alike c → args = c.revertArgs n →
      Applied c n (c.resolveTarget n args) args r b' → Diverted b n onError errors b'

/-- What a phase comes to: it goes on, or it diverts the switch. -/
def PhaseResult (b : Board) (env : Launch → Failures) (n : SwitchName) (state : State) (phase : InterceptorPhase)
    (onError : ExceptionHandling) (r : Bool) (b' : Board) : Prop :=
  if Ignorable onError (b.errorsIn env n state phase) then r = true ∧ b.Alike b'
  else r = false ∧ Diverted b n onError (b.errorsIn env n state phase) b'

theorem Board.launch_crashed (b : Board) (n : SwitchName) (state : State) (phase : InterceptorPhase) :
    (b.launch n state phase).crashed = b.crashed := by
  rw [Board.launch, Board.notifyEach_eq]

theorem Board.launch_debugSink (b : Board) (n : SwitchName) (state : State) (phase : InterceptorPhase) :
    (b.launch n state phase).debugSink = b.debugSink := by
  rw [Board.launch, Board.notifyEach_eq]

/-- Once the policy on errors is logged. -/
theorem logged_handled {b c c' : Board} (ha : b.Alike c) (hcrashed : c.crashed = c'.crashed) (hsink : c.debugSink = c'.debugSink)
    (onError : ExceptionHandling) {errors : List (Interceptor × Thrown)} (hne : errors ≠ []) :
    b.Alike (c.logDiversion (c.dominatingError errors onError)) ∧
      c'.DiesIf (c.logDiversion (c.dominatingError errors onError)) (Unattributed onError errors) := by
  refine ⟨ha.trans (.logDiversion _ _), ?_⟩
  have hnone : c.dominatingError errors onError = none ↔ Unattributed onError errors := by
    unfold Board.dominatingError Unattributed
    rw [and_iff_right hne, ← Option.not_isSome_iff_eq_none, ← Option.not_isSome_iff_eq_none, mapToError_isSome]
  have hlog := c.logDiversion_crashed (c.dominatingError errors onError)
  unfold Board.DiesIf at hlog ⊢
  rwa [hcrashed, hsink, hnone] at hlog

theorem wp_invokePhase_straight (h : ThrowsOnly env n state) {b c : Board} (hcur : (b.status n).currentState = state)
    (ha : b.Alike c) (phase : InterceptorPhase) :
    wp (straight env) (invokePhase n state phase onCancel onError) c fun r b' =>
      PhaseResult b env n state phase onError r b' ∧ c.DiesIf b' (Unattributed onError (b.errorsIn env n state phase)) := by
  have hl : b.Alike (c.launch n state phase) := ha.trans (.notifyEach c n _)
  have hlaunched : ((c.launch n state phase).status n).currentState = state := by rw [hl.status, hcur]
  have hcur' : ¬ ((c.launch n state phase).status n).currentState ≠ state := not_not.mpr hlaunched
  have hquiet : ∀ {errors : List (Interceptor × Thrown)}, errors = [] → c.DiesIf (c.launch n state phase) (Unattributed onError errors) :=
    fun hnil => .of_not (c.launch_crashed n state phase) fun h => h.1 hnil
  rw [wp_invokePhase, ha.awaited]
  split_ifs with hnone
  · have herrors : b.errorsIn env n state phase = [] := by
      unfold Board.errorsIn
      rw [List.isEmpty_iff.mp hnone, collectErrors_nil]
    have hig : Ignorable onError (b.errorsIn env n state phase) := .inl herrors
    unfold PhaseEnds PhaseResult
    rw [if_neg hcur', if_pos List.isEmpty_nil]
    refine ⟨?_, hquiet herrors⟩
    rw [if_pos hig]
    exact ⟨rfl, hl⟩
  · refine ⟨trivial, fun r c' hw => ?_⟩
    obtain ⟨rfl, k, rfl⟩ : c' = _ ∧ ∃ k : ℕ, r = _ := hw
    show PhaseEnds _ _ _ _ _ _ _ (b.errorsIn env n state phase) _
    unfold PhaseEnds PhaseResult
    rw [if_neg hcur']
    split_ifs with hnil hig hig
    · exact ⟨⟨rfl, hl⟩, hquiet (List.isEmpty_iff.mp hnil)⟩
    · exact absurd (Or.inl (List.isEmpty_iff.mp hnil)) hig
    all_goals
      have hne : b.errorsIn env n state phase ≠ [] := fun h => hnil (List.isEmpty_iff.mpr h)
      obtain ⟨hlogged, hdies⟩ := logged_handled hl (c.launch_crashed n state phase) (c.launch_debugSink n state phase) onError hne
    · rw [HandlesErrors, hig.resolve_left hne]
      exact ⟨⟨rfl, hlogged⟩, hdies⟩
    · unfold HandlesErrors
      have herror : (c.launch n state phase).dominatingError (b.errorsIn env n state phase) onError =
          mapToError ((c.launch n state phase).logDiversion ((c.launch n state phase).dominatingError
            (b.errorsIn env n state phase) onError)).execName (prevailing (b.errorsIn env n state phase) onError).2 := by
        rw [Board.logDiversion_execName]
        rfl
      generalize Board.logDiversion (c.launch n state phase) _ = c' at hlogged hdies herror ⊢
      rw [herror]
      have hcur : (c'.status n).currentState = state := by rw [hlogged.status, hcur]
      have honly : ThrowsOnly env n (c'.status n).currentState := hcur.symm ▸ h
      have hcall := fun args => h.straightCall hcur args
      cases hpolicy : errorPolicy (b.errorsIn env n state phase) onError with
      | default => exact absurd hpolicy (errorPolicy_ne_default _ _)
      | ignore => exact absurd (Or.inr hpolicy) hig
      | abort =>
        refine ⟨.inl fun hi => absurd hi Bool.false_ne_true, fun r b' hpost => ?_⟩
        obtain ⟨-, hb, hcrashed⟩ := hpost.1 fun hi => absurd hi Bool.false_ne_true
        exact ⟨⟨rfl, .abort hpolicy hlogged hb⟩, hdies.of_crashed (hcrashed fun hi => absurd hi Bool.false_ne_true)⟩
      | fail =>
        refine ⟨.inr (hcall _), fun r b' hpost => ?_⟩
        obtain ⟨happlied, hcrashed⟩ := hpost.2 (hcall _)
        exact ⟨⟨rfl, .fail hpolicy hlogged rfl happlied⟩, hdies.of_crashed (hcrashed honly rfl)⟩
      | revert =>
        refine ⟨.inr (hcall _), fun r b' hpost => ?_⟩
        obtain ⟨happlied, hcrashed⟩ := hpost.2 (hcall _)
        exact ⟨⟨rfl, .revert hpolicy hlogged rfl happlied⟩, hdies.of_crashed (hcrashed honly rfl)⟩

/-- The first phase that does not go on. -/
structure Board.DivertsAt (b : Board) (env : Launch → Failures) (n : SwitchName) (state : State) (onError : ExceptionHandling)
    (phase : InterceptorPhase) : Prop where
  diverts : ¬ Ignorable onError (b.errorsIn env n state phase)
  first : ∀ p, p.ctorIdx < phase.ctorIdx → Ignorable onError (b.errorsIn env n state p)

/-- What the phases come to. -/
inductive PhasesResult (b : Board) (env : Launch → Failures) (n : SwitchName) (state : State) (onError : ExceptionHandling) :
    Bool → Board → Prop
  | through {b'} : (∀ phase, Ignorable onError (b.errorsIn env n state phase)) → b.Alike b' → PhasesResult b env n state onError true b'
  | diverted {phase b'} : b.DivertsAt env n state onError phase → Diverted b n onError (b.errorsIn env n state phase) b' →
      PhasesResult b env n state onError false b'

theorem wp_invokeInterceptors_straight (h : ThrowsOnly env n state) {b : Board} (hcur : (b.status n).currentState = state) :
    wp (straight env) (invokeInterceptors n state onCancel onError) b fun r b' =>
      PhasesResult b env n state onError r b' ∧ b.DiesIf b' (b.MeetsUnattributed env n state onError) := by
  rw [wp_invokeInterceptors]
  refine wp_mono _ (fun early b₁ h₁ => ?_) _ _ (wp_invokePhase_straight h hcur (.refl b) .early)
  obtain ⟨h₁, hdies₁⟩ := h₁
  unfold PhaseResult at h₁
  split_ifs at h₁ with hearly
  · obtain ⟨rfl, ha₁⟩ := h₁
    rw [if_pos rfl]
    refine wp_mono _ (fun normal b₂ h₂ => ?_) _ _ (wp_invokePhase_straight h hcur ha₁ .normal)
    obtain ⟨h₂, hdies₂⟩ := h₂
    have hdies₂ := hdies₁.trans ha₁ hdies₂ Iff.rfl
    unfold PhaseResult at h₂
    split_ifs at h₂ with hnormal
    · obtain ⟨rfl, ha₂⟩ := h₂
      rw [if_pos rfl]
      refine wp_mono _ (fun late b₃ h₃ => ?_) _ _ (wp_invokePhase_straight h hcur ha₂ .late)
      obtain ⟨h₃, hdies₃⟩ := h₃
      have hdies : b.DiesIf b₃ (b.MeetsUnattributed env n state onError) := by
        refine hdies₂.trans ha₂ hdies₃ ?_
        rw [Board.MeetsUnattributed, and_iff_right hearly, and_iff_right hnormal, or_assoc]
      refine ⟨?_, hdies⟩
      unfold PhaseResult at h₃
      split_ifs at h₃ with hlate
      · obtain ⟨rfl, ha₃⟩ := h₃
        refine .through (fun phase => ?_) ha₃
        cases phase with
        | early => exact hearly
        | normal => exact hnormal
        | late => exact hlate
      · obtain ⟨rfl, hd⟩ := h₃
        refine .diverted ⟨hlate, fun p hp => ?_⟩ hd
        cases p with
        | early => exact hearly
        | normal => exact hnormal
        | late => exact absurd hp (by decide)
    · obtain ⟨rfl, hd⟩ := h₂
      rw [if_neg Bool.false_ne_true]
      refine ⟨.diverted ⟨hnormal, fun p hp => ?_⟩ hd, ?_⟩
      · cases p with
        | early => exact hearly
        | normal => exact absurd hp (by decide)
        | late => exact absurd hp (by decide)
      · rwa [Board.MeetsUnattributed, and_iff_right hearly, iff_false_intro hnormal, false_and, or_false]
  · obtain ⟨rfl, hd⟩ := h₁
    rw [if_neg Bool.false_ne_true]
    refine ⟨.diverted ⟨hearly, fun p hp => absurd hp (Nat.not_lt_zero _)⟩ hd, ?_⟩
    rwa [Board.MeetsUnattributed, iff_false_intro hearly, false_and, or_false]

/-! ## Transitions that are diverted -/

/-- What becomes of the status of `n`. -/
inductive TransitionResult (b : Board) (env : Launch → Failures) (n : SwitchName) (state : State) (onError : ExceptionHandling) :
    Bool → Board → Prop
  | through {triggers b'} : (∀ phase, Ignorable onError (b.errorsIn env n state phase)) → (b.through n state true triggers).Alike b' →
      TransitionResult b env n state onError true b'
  | diverted {phase b₁ b'} : b.DivertsAt env n state onError phase →
      Diverted (b.during n state) n onError (b.errorsIn env n state phase) b₁ →
        b'.status n = { b₁.status n with pending := false } → TransitionResult b env n state onError false b'

theorem wp_setCurrentState_straight (h : ThrowsOnly env n state) (b : Board) (triggers : Bool) :
    wp (straight env) (setCurrentState n state true triggers onCancel onError) b fun r b' =>
      TransitionResult b env n state onError r b' ∧ b.DiesIf b' (b.MeetsUnattributed env n state onError) := by
  have hcur : ((b.during n state).status n).currentState = state := by simp [Board.during, Status.enter]
  rw [wp_setCurrentState, if_pos rfl]
  refine wp_mono _ (fun r b₁ h₁ => ⟨?_, h₁.2.of_crashed (Board.leave_crashed ..)⟩) _ _ (wp_invokeInterceptors_straight h hcur)
  cases h₁.1 with
  | through hall ha =>
    have hleft := (Board.Alike.cleared n state ha).leave n true triggers
    exact .through hall hleft
  | diverted hat hd =>
    refine .diverted ⟨hat.diverts, hat.first⟩ hd ?_
    unfold Board.leave
    split_ifs <;> simp

/-- The transition of `n` to `state`. -/
def InterruptedCall (n : SwitchName) (state : State) (c : Call) (_ : Board) : Prop :=
  ∃ triggers onCancel onError, c = .setCurrentState n state true triggers onCancel onError

def InterruptedEnd (env : Launch → Failures) (n : SwitchName) (state : State) : Call → Board → Bool → Board → Prop
  | .setTarget .., _, _, _ => True
  | .setCurrentState _ _ _ _ _ onError, b, r, b' =>
    TransitionResult b env n state onError r b' ∧ b.DiesIf b' (b.MeetsUnattributed env n state onError)

def interrupted (env : Launch → Failures) (n : SwitchName) (state : State) : Contract Board Call Bool Launch Failures :=
  (straight env).extend (InterruptedCall n state) (InterruptedEnd env n state)

theorem interrupted_layer (h : ThrowsOnly env n state) (c : Call) (b : Board) (hc : InterruptedCall n state c b) :
    wp (straight env) (body c) b (InterruptedEnd env n state c b) := by
  obtain ⟨triggers, onCancel, onError, rfl⟩ := hc
  exact wp_setCurrentState_straight h b triggers

/-- A call of `set_target` whose transition is interrupted. -/
structure Interrupted (b : Board) (env : Launch → Failures) (n : SwitchName) (args : TargetArgs) : Prop where
  settled : (b.resolveTarget n args).isSettled = true
  moves : ¬ Unmoved b n args
  invokes : args.invokeInterceptors = true
  throws : b.thrown env n (b.resolveTarget n args).transitionState args.onError ≠ []
  only : ThrowsOnly env n (b.resolveTarget n args).transitionState
  alive : b.crashed = false

/-- What becomes of the status. -/
inductive TargetResult (b : Board) (env : Launch → Failures) (n : SwitchName) (target : State) (onError : ExceptionHandling)
    (b' : Board) : Prop
  | through : (∀ phase, Ignorable onError (b.errorsIn env n target.transitionState phase)) → (b'.status n).currentState = target →
      TargetResult b env n target onError b'
  | diverted {phase b₁} : b.DivertsAt env n target.transitionState onError phase →
      Diverted (b.during n target.transitionState) n onError (b.errorsIn env n target.transitionState phase) b₁ →
        b'.status n = { b₁.status n with pending := false } → TargetResult b env n target onError b'

theorem Interrupted.interceptors {b : Board} {args : TargetArgs} (h : Interrupted b env n args) : b.interceptors n ≠ [] := by
  intro hnil
  have hnone : ∀ phase, b.errorsIn env n (b.resolveTarget n args).transitionState phase = [] := by
    intro phase
    unfold Board.errorsIn
    rw [b.awaited_nil hnil, collectErrors_nil]
  apply h.throws
  simp [Board.thrown, hnone]

theorem Interrupted.wp_setTarget {b : Board} {args : TargetArgs} (h : Interrupted b env n args) :
    wp (interrupted env n (b.resolveTarget n args).transitionState) (setTarget n args) b
      fun _ b' => TargetResult b env n (b.resolveTarget n args) args.onError b' ∧
        b.DiesIf b' (b.MeetsUnattributed env n (b.resolveTarget n args).transitionState args.onError) := by
  have hmoves := h.moves
  unfold Unmoved at hmoves
  dsimp only at hmoves
  obtain ⟨hne, hblocked⟩ := not_or.mp hmoves
  rw [CommonCore.wp_setTarget, wp_applyTarget, if_neg hne, if_neg hblocked, if_pos ⟨h.settled, h.interceptors⟩]
  have hcall : InterruptedCall n (b.resolveTarget n args).transitionState (args.transitionCall n (b.resolveTarget n args)) b := by
    unfold TargetArgs.transitionCall
    rw [h.invokes]
    exact ⟨_, _, _, rfl⟩
  refine ⟨.inr hcall, fun r b₁ hpost => ?_⟩
  obtain ⟨hresult, hdies⟩ : TransitionResult b env n (b.resolveTarget n args).transitionState args.onError r b₁ ∧
      b.DiesIf b₁ (b.MeetsUnattributed env n (b.resolveTarget n args).transitionState args.onError) := hpost.2 hcall
  cases hresult with
  | through hall ha =>
    rw [if_pos rfl]
    have hfinal : (alone fun _ => env).pre (args.finalCall n (b.resolveTarget n args)) (b₁.writeTarget n (b.resolveTarget n args) args) :=
      fun _ _ _ => ignorable_ignore _
    refine ⟨.inl (.inl hfinal), fun r b' hend => ?_⟩
    obtain ⟨-, ha', hcrashed⟩ := (hend.1 (.inl hfinal)).1 hfinal
    refine ⟨.through hall ?_, hdies.of_crashed (hcrashed fun _ phase _ => ?_)⟩
    · rw [ha'.status, Board.through_status_self]
      rfl
    · refine h.only ⟨n, _, phase, _⟩ fun hsame => ?_
      exact State.transitionState_ne _ (fun hu => by have := h.settled; rw [hu] at this; cases this) hsame.2.symm
  | diverted hat hd hstatus =>
    rw [if_neg Bool.false_ne_true]
    exact ⟨.diverted hat hd hstatus, hdies⟩

theorem interrupted_meets (h : ThrowsOnly env n state) : (interrupted env n state).Meets body :=
  ((alone_meets _).extend (straight_layer env)).extend (interrupted_layer h)

theorem interrupted_answered (h : ThrowsOnly env n state) : (interrupted env n state).Answered body (fun _ => env) 3 := by
  have hbase : (alone fun _ => env).Answered body (fun _ => env) 1 := by
    intro fuel hfuel c b k hc
    obtain ⟨fuel, rfl⟩ : ∃ f, fuel = f + 1 := ⟨fuel - 1, by omega⟩
    exact run_alone _ fuel c b k hc
  have hallows := alone_allows fun _ => env
  exact (hbase.extend hallows (straight_layer env)).extend hallows (interrupted_layer h)

/-- `set_target` ends, and comes to what `TargetResult` says. -/
theorem Interrupted.performs {b : Board} {args : TargetArgs} (h : Interrupted b env n args) :
    (∃ r b', Performs (fun _ => env) (.setTarget n args) b r b') ∧ ∀ r b', Performs (fun _ => env) (.setTarget n args) b r b' →
      TargetResult b env n (b.resolveTarget n args) args.onError b' ∧
        b.DiesIf b' (b.MeetsUnattributed env n (b.resolveTarget n args).transitionState args.onError) := by
  have hallows : (interrupted env n (b.resolveTarget n args).transitionState).Allows fun _ => env := fun _ k _ _ => ⟨rfl, k, rfl⟩
  refine ⟨?_, fun r b' hp => hp.sound hallows (interrupted_meets h.only) h.wp_setTarget⟩
  obtain ⟨r, b', k', he, -⟩ := exec_total hallows (interrupted_answered h.only 3 le_rfl) _ b 0 h.wp_setTarget
  exact ⟨r, b', 3, 0, k', he⟩

/-! ## Policies of one phase and of all -/

theorem errorPolicy_explicit (h : onError ≠ .default) (errors : List (Interceptor × Thrown)) : errorPolicy errors onError = onError := by
  symm
  apply prevails_iff.mp
  unfold Prevails
  rw [if_pos h]

theorem errorPolicy_of_default {errors : List (Interceptor × Thrown)} (h : ∀ e ∈ errors, e.1.onError = .default) :
    errorPolicy errors .default = .fail := by
  symm
  apply prevails_iff.mp
  unfold Prevails
  rw [if_neg (by simp), if_pos h]

theorem errorPolicy_of_max {errors : List (Interceptor × Thrown)} {e : Interceptor × Thrown} (he : e ∈ errors)
    (hne : e.1.onError ≠ .default) (hmax : ∀ e' ∈ errors, e'.1.onError.value ≤ e.1.onError.value) :
    errorPolicy errors .default = e.1.onError := by
  symm
  apply prevails_iff.mp
  unfold Prevails
  rw [if_neg (by simp), if_neg fun h => hne (h e he)]
  exact ⟨⟨e, he, rfl⟩, hmax⟩

/-- A policy that is not a default comes with the error it is for. -/
theorem exists_dominating {errors : List (Interceptor × Thrown)} {e : Interceptor × Thrown} (he : e ∈ errors) (hne : e.1.onError ≠ .default) :
    ∃ d ∈ errors, d.1.onError ≠ .default ∧ (∀ e' ∈ errors, e'.1.onError.value ≤ d.1.onError.value) ∧
      (prevailing errors .default).2 = some d.2 ∧ errorPolicy errors .default = d.1.onError := by
  obtain ⟨hall, -, hfrom⟩ := maxError_spec errors (.default, none)
  have hprevailing : prevailing errors .default = maxError errors (.default, none) := if_pos rfl
  rcases hfrom with h | ⟨d, hd, h⟩
  · rw [h] at hall
    exact absurd (value_injective (Nat.le_antisymm (hall e he) (Nat.zero_le _))) hne
  · rw [h] at hall
    have hd' : d.1.onError ≠ .default := by
      intro hdefault
      apply hne
      apply value_injective
      have hle := hall e he
      rw [hdefault] at hle
      exact Nat.le_antisymm hle (Nat.zero_le _)
    exact ⟨d, hd, hd', hall, by rw [hprevailing, h], errorPolicy_of_max hd hd' hall⟩

/-- Errors that are ignored leave the policy to the others, if these have a higher one. -/
theorem errorPolicy_append {errors errors' : List (Interceptor × Thrown)} (h : ∀ e ∈ errors, e.1.onError.value ≤ 1)
    {d : Interceptor × Thrown} (hd : d ∈ errors') (hhigh : 1 < d.1.onError.value) :
    errorPolicy (errors ++ errors') .default = errorPolicy errors' .default := by
  have hdne : d.1.onError ≠ .default := fun h => by simp [h, ExceptionHandling.value] at hhigh
  obtain ⟨e, he, hne, hmax, -, hpolicy⟩ := exists_dominating hd hdne
  rw [hpolicy]
  apply errorPolicy_of_max (List.mem_append_right _ he) hne
  intro e' he'
  rcases List.mem_append.mp he' with h' | h'
  · exact (h e' h').trans (hhigh.le.trans (hmax d hd))
  · exact hmax e' h'

theorem Ignorable.exists_ne {errors : List (Interceptor × Thrown)} (h : Ignorable .default errors) :
    errors = [] ∨ ∃ e ∈ errors, e.1.onError ≠ .default := by
  refine h.imp_right fun hpolicy => ?_
  by_contra hnone
  push Not at hnone
  rw [errorPolicy_of_default hnone] at hpolicy
  cases hpolicy

theorem ignorable_of_le {errors : List (Interceptor × Thrown)} (h : ∀ e ∈ errors, e.1.onError.value ≤ 1)
    (hne : errors = [] ∨ ∃ e ∈ errors, e.1.onError ≠ .default) : Ignorable .default errors := by
  rcases hne with h' | ⟨e, he, hne⟩
  · exact .inl h'
  · obtain ⟨d, hd, hdne, -, -, hpolicy⟩ := exists_dominating he hne
    right
    rw [hpolicy]
    have hle := h d hd
    cases hd' : d.1.onError with
    | default => exact absurd hd' hdne
    | ignore => rfl
    | abort | fail | revert => simp [hd', ExceptionHandling.value] at hle

theorem Ignorable.le {errors : List (Interceptor × Thrown)} (h : Ignorable .default errors) : ∀ e ∈ errors, e.1.onError.value ≤ 1 := by
  intro e he
  by_cases hne : e.1.onError = .default
  · simp [hne, ExceptionHandling.value]
  · obtain ⟨d, -, -, hmax, -, hpolicy⟩ := exists_dominating he hne
    rcases h with h | h
    · rw [h] at he
      cases he
    · have hle := hmax e he
      rwa [← hpolicy, h] at hle

/-- What is thrown up to a phase. -/
theorem thrown_of_divertsAt {b : Board} {phase : InterceptorPhase} (h : b.DivertsAt env n state onError phase) :
    ∃ errors, b.thrown env n state onError = errors ++ b.errorsIn env n state phase ∧
      ∀ e ∈ errors, ∃ p, Ignorable onError (b.errorsIn env n state p) ∧ e ∈ b.errorsIn env n state p := by
  unfold Board.thrown
  cases phase with
  | early =>
    refine ⟨[], ?_, by simp⟩
    rw [if_neg h.diverts, List.append_nil, List.nil_append]
  | normal =>
    have hearly := h.first .early (by decide)
    refine ⟨b.errorsIn env n state .early, ?_, fun e he => ⟨.early, hearly, he⟩⟩
    rw [if_pos hearly, if_neg h.diverts, List.append_nil]
  | late =>
    have hearly := h.first .early (by decide)
    have hnormal := h.first .normal (by decide)
    refine ⟨b.errorsIn env n state .early ++ b.errorsIn env n state .normal, ?_, fun e he => ?_⟩
    · rw [if_pos hearly, if_pos hnormal, List.append_assoc]
    · rcases List.mem_append.mp he with he | he
      · exact ⟨.early, hearly, he⟩
      · exact ⟨.normal, hnormal, he⟩

/-! ## What a diversion leaves -/

theorem transitionState_inj {s t : State} (hs : s.isSettled = true) (ht : t.isSettled = true)
    (h : s.transitionState = t.transitionState) : s = t := by
  cases s <;> cases t <;> simp [State.isSettled, State.transitionState] at hs ht h ⊢

/-- From the transitional state before `state`, a target is reached unless it is
the same one. -/
theorem Applied.from_transition {c b' : Board} {target goal : State} {args : TargetArgs} {r : Bool} (hgoal : goal.isSettled = true)
    (hcur : (c.status n).currentState = goal.transitionState) (h : Applied c n target args r b') :
    (target ≠ goal ∧ target ≠ goal.transitionState ∧ (b'.status n).currentState = target ∧ (b'.status n).error = args.error) ∨
      ((target = goal ∨ target = goal.transitionState) ∧ (b'.status n).currentState = goal.transitionState) := by
  cases h with
  | same _ heq =>
    rw [hcur] at heq
    exact .inr ⟨.inr heq.symm, (c.touch_currentState n args).1.trans hcur⟩
  | blocked _ hset heq =>
    rw [hcur] at heq
    exact .inr ⟨.inl (transitionState_inj hgoal hset heq).symm, hcur⟩
  | reached hne hblocked ha =>
    rw [ha.status, Board.reach_status_self]
    by_cases h : target = goal ∨ target = goal.transitionState
    · rcases h with rfl | rfl
      · exact absurd ⟨hgoal, hcur⟩ hblocked
      · exact .inr ⟨.inr rfl, rfl⟩
    · obtain ⟨h₁, h₂⟩ := not_or.mp h
      exact .inl ⟨h₁, h₂, rfl, rfl⟩

section
variable {b b' c : Board} {target : State} {errors : List (Interceptor × Thrown)}

theorem during_status (ha : (b.during n target.transitionState).Alike c) :
    (c.status n).currentState = target.transitionState ∧ (c.status n).settledState = (b.status n).settledState ∧
      (c.status n).active = (b.status n).active ∧ (c.status n).error = (b.status n).error ∧ c.execName = b.execName := by
  rw [ha.status, ha.execName]
  simp [Board.during, Status.enter, State.isSettled_transitionState, Board.setPending, Board.enter]

theorem Diverted.of_abort (h : Diverted (b.during n target.transitionState) n onError errors b')
    (hpolicy : errorPolicy errors onError = .abort) :
    (b'.status n).currentState = (b.status n).settledState ∧ (b'.status n).error = (b.status n).error := by
  cases h with
  | abort _ ha hb =>
    obtain ⟨-, hsettled, -, herror, -⟩ := during_status ha
    rw [hb.status, Board.through_status_self]
    exact ⟨hsettled, herror⟩
  | fail hne => rw [hpolicy] at hne; cases hne
  | revert hne => rw [hpolicy] at hne; cases hne

/-- Without an error, the switch is set to its position. -/
theorem Diverted.of_fail_none (hset : target.isSettled = true) (h : Diverted (b.during n target.transitionState) n onError errors b')
    (hpolicy : errorPolicy errors onError = .fail) (hnone : (prevailing errors onError).2 = none) :
    (b'.status n).currentState ≠ .failed ∧ (b'.status n).currentState ≠ target := by
  cases h with
  | abort hne => rw [hpolicy] at hne; cases hne
  | revert hne => rw [hpolicy] at hne; cases hne
  | @fail c args r _ ha hargs happ =>
    obtain ⟨hcur, -, -, -, -⟩ := during_status ha
    rw [hnone] at hargs
    have htarget : args.targetState = .ofActive (c.status n).active := by
      rw [hargs]
      rfl
    have hsettled : args.targetState.isSettled = true := by rw [htarget, State.isSettled_ofActive]
    rw [Board.resolveTarget_of_isSettled hsettled] at happ
    rcases happ.from_transition hset hcur with ⟨hne, -, hb, -⟩ | ⟨-, hb⟩
    · rw [hb]
      refine ⟨?_, hne⟩
      rw [htarget]
      cases (c.status n).active <;> exact State.noConfusion
    · rw [hb]
      constructor
      · intro hfailed
        have := State.isSettled_transitionState target
        rw [hfailed] at this
        cases this
      · exact State.transitionState_ne _ fun hu => by rw [hu] at hset; cases hset

theorem Diverted.of_fail_some (hset : target.isSettled = true) (h : Diverted (b.during n target.transitionState) n onError errors b')
    (hpolicy : errorPolicy errors onError = .fail) {e : Thrown} (hsome : (prevailing errors onError).2 = some e) :
    if target = .failed then (b'.status n).currentState ≠ .failed
    else (b'.status n).currentState = .failed ∧ (b'.status n).error = mapToError b.execName (some e) := by
  cases h with
  | abort hne => rw [hpolicy] at hne; cases hne
  | revert hne => rw [hpolicy] at hne; cases hne
  | @fail c args r _ ha hargs happ =>
    obtain ⟨hcur, -, -, -, hname⟩ := during_status ha
    rw [hsome, hname] at hargs
    have htarget : args.targetState = .failed := by
      rw [hargs]
      simp [Board.errorArgs, mapToError_isSome]
    rw [Board.resolveTarget_of_isSettled (by rw [htarget]; rfl), htarget] at happ
    rcases happ.from_transition hset hcur with ⟨hne, -, hb, herror⟩ | ⟨heq, hb⟩
    · rw [if_neg hne.symm, hb, herror, hargs]
      exact ⟨rfl, rfl⟩
    · have htrans : State.failed ≠ target.transitionState := by
        intro heq
        have := State.isSettled_transitionState target
        rw [← heq] at this
        cases this
      obtain rfl := heq.resolve_right htrans
      rw [if_pos rfl, hb]
      exact htrans.symm

/-- Back in the settled state, with the error that was there. -/
theorem Diverted.of_revert (hset : target.isSettled = true) (hcons : (b.status n).Consistent)
    (h : Diverted (b.during n target.transitionState) n onError errors b') (hpolicy : errorPolicy errors onError = .revert) :
    (b'.status n).currentState = (b.status n).settledState ∧ (b'.status n).error = (b.status n).error ↔
      (b.status n).settledState ≠ target ∧ ((b.status n).settledState = .unset →
        (b.status n).error = none ∧ (b.during n target.transitionState).autoState n = .unset) := by
  have hpending : ∀ s : State, s = .unset ∨ s.isSettled = true → s ≠ target.transitionState := by
    rintro s (rfl | hs) heq
    · exact (State.transitionState_ne_unset target).mpr hset heq.symm
    · rw [heq, State.isSettled_transitionState] at hs
      cases hs
  cases h with
  | abort hne => rw [hpolicy] at hne; cases hne
  | fail hne => rw [hpolicy] at hne; cases hne
  | @revert c args r _ ha hargs happ =>
    obtain ⟨hcur, hsettled, -, herror, -⟩ := during_status ha
    have hargs' : args = { targetState := (b.status n).settledState, error := (b.status n).error, triggerDescendants := false } := by
      rw [hargs, Board.revertArgs, hsettled, herror]
    rcases hcons.settled with hunset | hs
    · have hresolve : c.resolveTarget n args = if (b.status n).error.isSome then .failed else c.autoState n := by
        rw [hargs', Board.resolveTarget, if_pos hunset]
      have hauto : c.autoState n = (b.during n target.transitionState).autoState n := by
        rw [ha]
        rfl
      have hgoal : State.unset ≠ target := fun hu => by rw [← hu] at hset; cases hset
      have hauto' : c.resolveTarget n args = .unset ↔ (b.status n).error = none ∧ (b.during n target.transitionState).autoState n = .unset := by
        rw [hresolve, ← hauto]
        cases (b.status n).error <;> simp
      rw [hunset]
      rcases happ.from_transition hset hcur with ⟨-, -, hb, he⟩ | ⟨heq, hb⟩
      · have herror' : args.error = (b.status n).error := by rw [hargs']
        rw [hb, he, herror', hauto']
        exact ⟨fun h => ⟨hgoal, fun _ => h.1⟩, fun h => ⟨h.2 rfl, rfl⟩⟩
      · rw [hb]
        refine ⟨fun h => absurd h.1.symm (hpending _ (.inl rfl)), fun h => ?_⟩
        have htarget := hauto'.mpr (h.2 rfl)
        rw [htarget] at heq
        exact absurd heq (not_or.mpr ⟨hgoal, hpending _ (.inl rfl)⟩)
    · have hresolve : c.resolveTarget n args = (b.status n).settledState := by
        rw [Board.resolveTarget_of_isSettled (by rw [hargs']; exact hs), hargs']
      have hne : (b.status n).settledState ≠ .unset := fun hu => by rw [hu] at hs; cases hs
      rw [hresolve] at happ
      rcases happ.from_transition hset hcur with ⟨hgoal, -, hb, he⟩ | ⟨heq, hb⟩
      · rw [hb, he, hargs']
        exact ⟨fun _ => ⟨hgoal, fun hu => absurd hu hne⟩, fun _ => ⟨rfl, rfl⟩⟩
      · have hgoal := heq.resolve_right (hpending _ (.inr hs))
        rw [hb]
        exact ⟨fun h => absurd h.1.symm (hpending _ (.inr hs)), fun h => absurd hgoal h.1⟩

end

/-! ## Where it is as documented -/

/-- When the policy that prevails is carried out. -/
def CarriedOut (b : Board) (env : Launch → Failures) (n : SwitchName) (target : State) (onError : ExceptionHandling) : Prop :=
  match errorPolicy (b.thrown env n target.transitionState onError) onError with
  | .fail => onError = .default ∧ target ≠ .failed ∧ ∃ e ∈ b.thrown env n target.transitionState onError, e.1.onError = .fail
  | .revert => (b.status n).settledState ≠ target ∧ ((b.status n).settledState = .unset →
      (b.status n).error = none ∧ (b.during n target.transitionState).autoState n = .unset)
  | .ignore => onError = .ignore ∨ ∀ phase, b.errorsIn env n target.transitionState phase = [] ∨
      ∃ e ∈ b.errorsIn env n target.transitionState phase, e.1.onError ≠ .default
  | .abort | .default => True

/-- When it is as documented, and the process lives on. -/
def Conforms (b : Board) (env : Launch → Failures) (n : SwitchName) (target : State) (onError : ExceptionHandling) : Prop :=
  (onError = .default ∨ b.debugSink = false) ∧ CarriedOut b env n target onError

section
variable {b b' : Board} {args : TargetArgs} {target : State}

/-- If no phase diverts the switch, errors are ignored. -/
theorem errorPolicy_of_through (hall : ∀ phase, Ignorable onError (b.errorsIn env n state phase)) (hne : b.thrown env n state onError ≠ []) :
    errorPolicy (b.thrown env n state onError) onError = .ignore := by
  have hthrown : b.thrown env n state onError =
      b.errorsIn env n state .early ++ (b.errorsIn env n state .normal ++ b.errorsIn env n state .late) := by
    unfold Board.thrown
    rw [if_pos (hall .early), if_pos (hall .normal)]
  have hmem : ∀ e ∈ b.thrown env n state onError, ∃ phase, e ∈ b.errorsIn env n state phase := by
    intro e he
    rw [hthrown, List.mem_append, List.mem_append] at he
    rcases he with he | he | he
    · exact ⟨_, he⟩
    · exact ⟨_, he⟩
    · exact ⟨_, he⟩
  obtain ⟨e, he⟩ := List.exists_mem_of_ne_nil _ hne
  obtain ⟨phase, hphase⟩ := hmem e he
  have hpolicy : errorPolicy (b.errorsIn env n state phase) onError = .ignore :=
    (hall phase).resolve_left fun h => by rw [h] at hphase; cases hphase
  by_cases hon : onError = .default
  · subst hon
    have hle : ∀ e ∈ b.thrown env n state .default, e.1.onError.value ≤ 1 := by
      intro e he
      obtain ⟨phase, hphase⟩ := hmem e he
      exact (hall phase).le e hphase
    obtain ⟨d, hd, hdne⟩ := (hall phase).exists_ne.resolve_left fun h => by rw [h] at hphase; cases hphase
    have hdthrown : d ∈ b.thrown env n state .default := by
      rw [hthrown]
      cases phase with
      | early => exact List.mem_append_left _ hd
      | normal => exact List.mem_append_right _ (List.mem_append_left _ hd)
      | late => exact List.mem_append_right _ (List.mem_append_right _ hd)
    exact (ignorable_of_le hle (.inr ⟨d, hdthrown, hdne⟩)).resolve_left hne
  · rw [errorPolicy_explicit hon] at hpolicy ⊢
    exact hpolicy

theorem carriedOut_of_through (hall : ∀ phase, Ignorable onError (b.errorsIn env n target.transitionState phase))
    (hpolicy : errorPolicy (b.thrown env n target.transitionState onError) onError = .ignore) : CarriedOut b env n target onError := by
  unfold CarriedOut
  rw [hpolicy]
  dsimp only
  by_cases hon : onError = .default
  · subst hon
    exact .inr fun phase => (hall phase).exists_ne
  · rw [errorPolicy_explicit hon] at hpolicy
    exact .inl hpolicy

/-- A phase that diverts the switch under an explicit policy. -/
theorem outcome_iff_of_explicit (hset : target.isSettled = true) (hcons : (b.status n).Consistent) {phase : InterceptorPhase}
    (hat : b.DivertsAt env n target.transitionState onError phase)
    (hd : Diverted (b.during n target.transitionState) n onError (b.errorsIn env n target.transitionState phase) b')
    (hon : onError ≠ .default) :
    Outcome b b' n target (b.thrown env n target.transitionState onError) onError ↔ CarriedOut b env n target onError := by
  have hpolicy := errorPolicy_explicit hon (b.errorsIn env n target.transitionState phase)
  unfold CarriedOut
  rw [errorPolicy_explicit hon]
  cases onError with
  | default => exact absurd rfl hon
  | ignore => exact absurd (ignorable_ignore _) hat.diverts
  | abort => exact iff_of_true (hd.of_abort hpolicy) trivial
  | revert => exact hd.of_revert hset hcons hpolicy
  | fail =>
    have hnone : (prevailing (b.errorsIn env n target.transitionState phase) .fail).2 = none := rfl
    exact iff_of_false (fun h => (hd.of_fail_none hset hpolicy hnone).1 h.1) fun h => hon h.1

/-- Before a phase that diverts the switch, errors are ignored. -/
theorem Board.DivertsAt.thrown_le {phase : InterceptorPhase} (hat : b.DivertsAt env n state .default phase) :
    ∃ errors, b.thrown env n state .default = errors ++ b.errorsIn env n state phase ∧ ∀ e ∈ errors, e.1.onError.value ≤ 1 := by
  obtain ⟨errors, hthrown, hearlier⟩ := thrown_of_divertsAt hat
  refine ⟨errors, hthrown, fun e he => ?_⟩
  obtain ⟨p, hig, hp⟩ := hearlier e he
  exact hig.le e hp

/-- Where nobody among the interceptors of the phase that diverts the switch has a policy, nobody diverts it by one. -/
theorem Board.DivertsAt.policy_of_none {phase : InterceptorPhase} (hat : b.DivertsAt env n state .default phase)
    (hnone : ∀ e ∈ b.errorsIn env n state phase, e.1.onError = .default) :
    (∀ e ∈ b.thrown env n state .default, e.1.onError = .default) ∨
      errorPolicy (b.thrown env n state .default) .default = .ignore := by
  obtain ⟨errors, hthrown, hle⟩ := hat.thrown_le
  have hle' : ∀ e ∈ b.thrown env n state .default, e.1.onError.value ≤ 1 := by
    intro e he
    rw [hthrown, List.mem_append] at he
    rcases he with he | he
    · exact hle e he
    · rw [hnone e he]
      exact Nat.zero_le _
  by_cases hall : ∀ e ∈ b.thrown env n state .default, e.1.onError = .default
  · exact .inl hall
  · push Not at hall
    obtain ⟨e, he, hne⟩ := hall
    exact .inr ((ignorable_of_le hle' (.inr ⟨e, he, hne⟩)).resolve_left fun h => by rw [h] at he; cases he)

theorem not_carriedOut_of_none {phase : InterceptorPhase} (hat : b.DivertsAt env n target.transitionState .default phase)
    (hnone : ∀ e ∈ b.errorsIn env n target.transitionState phase, e.1.onError = .default) : ¬ CarriedOut b env n target .default := by
  unfold CarriedOut
  rcases hat.policy_of_none hnone with hall | hpolicy
  · rw [errorPolicy_of_default hall]
    rintro ⟨-, -, e, he, hfail⟩
    rw [hall e he] at hfail
    cases hfail
  · rw [hpolicy]
    rintro (h | h)
    · cases h
    · rcases h phase with h | ⟨e, he, hne⟩
      · exact hat.diverts (.inl h)
      · exact hne (hnone e he)

/-- A phase that diverts the switch, where nobody among its interceptors has a policy. -/
theorem outcome_iff_of_none (hset : target.isSettled = true) {phase : InterceptorPhase}
    (hat : b.DivertsAt env n target.transitionState .default phase)
    (hd : Diverted (b.during n target.transitionState) n .default (b.errorsIn env n target.transitionState phase) b')
    (hnone : ∀ e ∈ b.errorsIn env n target.transitionState phase, e.1.onError = .default) :
    Outcome b b' n target (b.thrown env n target.transitionState .default) (errorPolicy (b.thrown env n target.transitionState .default) .default) ↔
      CarriedOut b env n target .default := by
  have hprevailing : (prevailing (b.errorsIn env n target.transitionState phase) .default).2 = none := by
    unfold prevailing
    rw [if_pos rfl, maxError_of_default hnone]
  obtain ⟨hfailed, htarget⟩ := hd.of_fail_none hset (errorPolicy_of_default hnone) hprevailing
  refine iff_of_false (fun h => ?_) (not_carriedOut_of_none hat hnone)
  rcases hat.policy_of_none hnone with hall | hpolicy
  · rw [errorPolicy_of_default hall] at h
    exact hfailed h.1
  · rw [hpolicy] at h
    exact htarget h

/-- A phase that diverts the switch under the policy of an interceptor. -/
theorem outcome_iff_of_some (hset : target.isSettled = true) (hcons : (b.status n).Consistent) {phase : InterceptorPhase}
    (hat : b.DivertsAt env n target.transitionState .default phase)
    (hd : Diverted (b.during n target.transitionState) n .default (b.errorsIn env n target.transitionState phase) b')
    {e : Interceptor × Thrown} (he : e ∈ b.errorsIn env n target.transitionState phase) (hne : e.1.onError ≠ .default) :
    Outcome b b' n target (b.thrown env n target.transitionState .default) (errorPolicy (b.thrown env n target.transitionState .default) .default) ↔
      CarriedOut b env n target .default := by
  obtain ⟨d, hmem, hdne, -, hprevailing, hpolicy⟩ := exists_dominating he hne
  have hignore : d.1.onError ≠ .ignore := fun h => hat.diverts (.inr (hpolicy.trans h))
  obtain ⟨errors, hthrown, hle⟩ := hat.thrown_le
  have hhigh : 1 < d.1.onError.value := by
    cases hd : d.1.onError with
    | default => exact absurd hd hdne
    | ignore => exact absurd hd hignore
    | abort | fail | revert => decide
  have hoverall : errorPolicy (b.thrown env n target.transitionState .default) .default = d.1.onError := by
    rw [hthrown, errorPolicy_append hle hmem hhigh, hpolicy]
  have hmem' : d ∈ b.thrown env n target.transitionState .default := by
    rw [hthrown]
    exact List.mem_append_right _ hmem
  unfold CarriedOut
  rw [hoverall]
  cases hkind : d.1.onError with
  | default => exact absurd hkind hdne
  | ignore => exact absurd hkind hignore
  | abort => exact iff_of_true (hd.of_abort (hpolicy.trans hkind)) trivial
  | revert => exact hd.of_revert hset hcons (hpolicy.trans hkind)
  | fail =>
    have hfail := hd.of_fail_some hset (hpolicy.trans hkind) hprevailing
    split_ifs at hfail with hgoal
    · exact iff_of_false (fun h => hfail h.1) fun h => h.2.1 hgoal
    · exact iff_of_true ⟨hfail.1, d, hmem', hfail.2⟩ ⟨rfl, hgoal, d, hmem', hkind⟩

end

/-! ## Where the process lives on -/

theorem meetsUnattributed_of_explicit {b : Board} (hon : onError ≠ .default) (hne : b.thrown env n state onError ≠ []) :
    b.MeetsUnattributed env n state onError := by
  have hunattributed : ∀ {errors : List (Interceptor × Thrown)}, errors ≠ [] → Unattributed onError errors := by
    intro errors herrors
    refine ⟨herrors, ?_⟩
    unfold prevailing
    rw [if_neg hon]
  by_cases hearly : b.errorsIn env n state .early = []
  · by_cases hnormal : b.errorsIn env n state .normal = []
    · have hthrown : b.thrown env n state onError = b.errorsIn env n state .late := by
        rw [Board.thrown, hearly, hnormal, if_pos (.inl rfl)]
        rfl
      exact .inr ⟨.inl hearly, .inr ⟨.inl hnormal, hunattributed (hthrown ▸ hne)⟩⟩
    · exact .inr ⟨.inl hearly, .inl (hunattributed hnormal)⟩
  · exact .inl (hunattributed hearly)

theorem Unattributed.diverts {errors : List (Interceptor × Thrown)} (h : Unattributed .default errors) :
    (∀ e ∈ errors, e.1.onError = .default) ∧ ¬ Ignorable .default errors := by
  have hall : ∀ e ∈ errors, e.1.onError = .default := by
    intro e he
    by_contra hne
    obtain ⟨d, -, -, -, hsome, -⟩ := exists_dominating he hne
    rw [h.2] at hsome
    cases hsome
  refine ⟨hall, fun hig => ?_⟩
  obtain ⟨e, he, hne⟩ := hig.exists_ne.resolve_left h.1
  exact hne (hall e he)

/-- Without an explicit policy, it is the phase that diverts the switch. -/
theorem Board.MeetsUnattributed.divertsAt {b : Board} (h : b.MeetsUnattributed env n state .default) :
    ∃ phase, b.DivertsAt env n state .default phase ∧ ∀ e ∈ b.errorsIn env n state phase, e.1.onError = .default := by
  rcases h with h | ⟨hearly, h | ⟨hnormal, h⟩⟩
  · exact ⟨.early, ⟨h.diverts.2, fun p hp => absurd hp (Nat.not_lt_zero _)⟩, h.diverts.1⟩
  · refine ⟨.normal, ⟨h.diverts.2, fun p hp => ?_⟩, h.diverts.1⟩
    cases p with
    | early => exact hearly
    | normal => exact absurd hp (by decide)
    | late => exact absurd hp (by decide)
  · refine ⟨.late, ⟨h.diverts.2, fun p hp => ?_⟩, h.diverts.1⟩
    cases p with
    | early => exact hearly
    | normal => exact hnormal
    | late => exact absurd hp (by decide)

/-- Where the policy is carried out, the process dies of an explicit one only. -/
theorem alive_iff_of_carriedOut {b b' : Board} {target : State} (halive : b.crashed = false)
    (hdies : b.DiesIf b' (b.MeetsUnattributed env n target.transitionState onError))
    (hne : b.thrown env n target.transitionState onError ≠ []) (h : CarriedOut b env n target onError) :
    b'.crashed = false ↔ onError = .default ∨ b.debugSink = false := by
  have hcrashed : b'.crashed = true ↔ b.debugSink = true ∧ b.MeetsUnattributed env n target.transitionState onError := by
    unfold Board.DiesIf at hdies
    rw [hdies, halive]
    simp
  rw [← Bool.not_eq_true, hcrashed, not_and_or, Bool.not_eq_true, or_comm]
  refine or_congr_left ?_
  by_cases hon : onError = .default
  · subst hon
    refine iff_of_true (fun hmeets => ?_) rfl
    obtain ⟨phase, hat, hnone⟩ := hmeets.divertsAt
    exact not_carriedOut_of_none hat hnone h
  · exact iff_of_false (not_not.mpr (meetsUnattributed_of_explicit hon hne)) hon

/-- A transition whose interceptors throw ends, and comes to what is documented
with the process alive exactly where the policy that prevails is carried out,
and is not explicit if a sink accepts messages for debugging. -/
theorem set_target_diverts_iff {b₀ b : Board} {ts : List (Thread Board Call Bool Launch Failures)} (h₀ : b₀.Fresh)
    (hr : Overlapping b₀ (b, ts)) {args : TargetArgs} (h : Interrupted b env n args) :
    (∃ r b', Performs (fun _ => env) (.setTarget n args) b r b') ∧ ∀ r b', Performs (fun _ => env) (.setTarget n args) b r b' →
      ((∀ eh, Prevails args.onError (b.thrown env n (b.resolveTarget n args).transitionState args.onError) eh →
          Outcome b b' n (b.resolveTarget n args) (b.thrown env n (b.resolveTarget n args).transitionState args.onError) eh) ∧
          b'.crashed = false ↔
        Conforms b env n (b.resolveTarget n args) args.onError) := by
  have hcons := h₀.consistent.overlapping hr n
  obtain ⟨hex, hall⟩ := h.performs
  refine ⟨hex, fun r b' hp => ?_⟩
  simp only [prevails_iff, forall_eq]
  obtain ⟨hresult, hdies⟩ := hall r b' hp
  have hcarried : Outcome b b' n (b.resolveTarget n args) (b.thrown env n (b.resolveTarget n args).transitionState args.onError)
      (errorPolicy (b.thrown env n (b.resolveTarget n args).transitionState args.onError) args.onError) ↔
        CarriedOut b env n (b.resolveTarget n args) args.onError := by
    cases hresult with
    | through hig hb =>
      have hpolicy := errorPolicy_of_through hig h.throws
      refine iff_of_true ?_ (carriedOut_of_through hig hpolicy)
      rw [hpolicy]
      exact hb
    | @diverted phase b₁ hat hd hstatus =>
      have houtcome : ∀ errors eh, Outcome b b' n (b.resolveTarget n args) errors eh ↔ Outcome b b₁ n (b.resolveTarget n args) errors eh := by
        intro errors eh
        cases eh <;> simp only [Outcome, hstatus]
      rw [houtcome]
      by_cases hon : args.onError = .default
      · rw [hon] at hat hd ⊢
        by_cases hnone : ∀ e ∈ b.errorsIn env n (b.resolveTarget n args).transitionState phase, e.1.onError = .default
        · exact outcome_iff_of_none h.settled hat hd hnone
        · push Not at hnone
          obtain ⟨e, he, hne⟩ := hnone
          exact outcome_iff_of_some h.settled hcons hat hd he hne
      · have hexplicit := outcome_iff_of_explicit h.settled hcons hat hd hon
        rwa [errorPolicy_explicit hon]
  unfold Conforms
  rw [hcarried, and_comm]
  exact and_congr_left fun hc => alive_iff_of_carriedOut h.alive hdies h.throws hc

end

/-- A switch whose interceptor throws as it is activated. -/
def jammedBoard (debugSink : Bool) : Board :=
  { Board.new [] ["a"] fun _ => { interceptors := .ofList [{ name := "i" }] } with debugSink }

def jammed (e : Launch) : Failures :=
  if e.switch = "a" ∧ e.state = .activating then ⟨[("i", .nonstandard)], List.nodup_singleton _⟩ else .none

theorem thrown_jammed (debugSink : Bool) (onError : ExceptionHandling) :
    (jammedBoard debugSink).thrown jammed "a" .activating onError ≠ [] ∧
      ∀ e ∈ (jammedBoard debugSink).thrown jammed "a" .activating onError, e = ({ name := "i" }, Thrown.nonstandard) := by
  have hearly : (jammedBoard debugSink).errorsIn jammed "a" .activating .early = [] := rfl
  have hnormal : (jammedBoard debugSink).errorsIn jammed "a" .activating .normal = [({ name := "i" }, .nonstandard)] := rfl
  have hlate : (jammedBoard debugSink).errorsIn jammed "a" .activating .late = [] := rfl
  unfold Board.thrown
  rw [hearly, if_pos (.inl rfl), hnormal, hlate, ite_self]
  simp

theorem interrupted_jammed (debugSink : Bool) (args : TargetArgs) (htarget : args.targetState = .active)
    (hinvokes : args.invokeInterceptors = true) : Interrupted (jammedBoard debugSink) jammed "a" args := by
  have hresolve : (jammedBoard debugSink).resolveTarget "a" args = .active := by
    rw [Board.resolveTarget_of_isSettled (by rw [htarget]; rfl), htarget]
  constructor
  · rw [hresolve]
    rfl
  · unfold Unmoved
    rw [hresolve]
    rintro (⟨-, h⟩ | ⟨-, h⟩)
    · cases h
    · cases h
  · exact hinvokes
  · rw [hresolve]
    exact (thrown_jammed debugSink args.onError).1
  · rw [hresolve]
    intro e he
    have hnone : jammed e = .none := if_neg he
    rw [hnone]
    rfl
  · rfl

/-- Without an explicit policy it fails, also where messages are logged for debugging. -/
theorem fails_jammed :
    ∃ r b', Performs (fun _ => jammed) (.setTarget "a" { targetState := .active }) (jammedBoard true) r b' ∧
      (b'.status "a").currentState = .failed ∧ (b'.status "a").error = mapToError [] (some .nonstandard) ∧ b'.crashed = false := by
  have h := interrupted_jammed true { targetState := .active } rfl rfl
  have hfresh : (jammedBoard true).Fresh := ⟨fun _ => rfl, rfl, rfl, rfl⟩
  obtain ⟨⟨r, b', hp⟩, hall⟩ := set_target_diverts_iff hfresh .refl h
  have hpolicy : errorPolicy ((jammedBoard true).thrown jammed "a" .activating .default) .default = .fail := by decide
  have hconforms : Conforms (jammedBoard true) jammed "a" .active .default := by
    refine ⟨.inl rfl, ?_⟩
    unfold CarriedOut
    rw [show State.active.transitionState = .activating from rfl, hpolicy]
    obtain ⟨e, he⟩ := List.exists_mem_of_ne_nil _ (thrown_jammed true .default).1
    refine ⟨rfl, by decide, e, he, ?_⟩
    rw [(thrown_jammed true .default).2 e he]
  obtain ⟨houtcome, halive⟩ := (hall r b' hp).mpr hconforms
  obtain ⟨hcurrent, e, he, herror⟩ := houtcome .fail (prevails_iff.mpr hpolicy.symm)
  rw [(thrown_jammed true .default).2 e he] at herror
  exact ⟨r, b', hp, hcurrent, herror, halive⟩

/-- With an explicit `FAIL` it is deactivated, without an error, and with an
explicit `ABORT` the process dies, if messages are logged for debugging. -/
theorem not_fails_jammed :
    (Interrupted (jammedBoard false) jammed "a" { targetState := .active, onError := .fail } ∧
      ∃ r b', Performs (fun _ => jammed) (.setTarget "a" { targetState := .active, onError := .fail }) (jammedBoard false) r b' ∧
        Prevails .fail ((jammedBoard false).thrown jammed "a" .activating .fail) .fail ∧
          ¬ Outcome (jammedBoard false) b' "a" .active ((jammedBoard false).thrown jammed "a" .activating .fail) .fail) ∧
      Interrupted (jammedBoard true) jammed "a" { targetState := .active, onError := .abort } ∧
        ∃ r b', Performs (fun _ => jammed) (.setTarget "a" { targetState := .active, onError := .abort }) (jammedBoard true) r b' ∧
          b'.crashed = true := by
  obtain ⟨r, hp⟩ := executes_after 4 (fun _ => jammed) (Op.setTarget "a" { targetState := .active, onError := .fail }).prog
    (jammedBoard false) (by decide)
  obtain ⟨r', hp'⟩ := executes_after 4 (fun _ => jammed) (Op.setTarget "a" { targetState := .active, onError := .abort }).prog
    (jammedBoard true) (by decide)
  refine ⟨⟨interrupted_jammed _ _ rfl rfl, r, _, hp, ?_, fun h => ?_⟩, interrupted_jammed _ _ rfl rfl, r', _, hp', by decide⟩
  · exact prevails_iff.mpr (errorPolicy_explicit (by decide) _).symm
  · exact absurd h.1 (by decide)

end CommonCore
