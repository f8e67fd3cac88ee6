import CommonCore.Graph
import CommonCore.Settling

/-!
# Propagation of state changes

A state change of a switch detaches a thread for each successor it triggers.
Such a thread evaluates `auto_state()` and then applies what it found, and
other threads may come in between.

In a network of switches without interceptors, once all threads are gone, each
switch with settled predecessors is in its automatic state, provided that
dependencies go by the names of switches, and that no thread applies a state
that is out of date unless another thread of that switch is yet to evaluate.
-/

namespace CommonCore

open Coop Coop.Prog Relation

/-- A board, and the threads that have evaluated a target and not applied it. -/
structure Network where
  board : Board
  evaluated : List (Task × State)

/-- The arguments with which a detached thread sets its target. -/
def Task.args (t : Task) : TargetArgs := { targetState := .unset, invokeInterceptors := t.invokeInterceptors }

/-- A step of a network. A target is applied only where `C` allows it. -/
inductive UpdateStep (C : Network → Task → State → Prop) : Network → Network → Prop
  | setActive {s n active args ω r b'} : n ∈ s.board.switches → (s.board.spec n).dependencies.values = [] →
      args.triggerDescendants = true → Performs ω (.setActive n active args) s.board r b' →
      UpdateStep C s { s with board := b' }
  | evaluate {s t l l'} : s.board.threads = l ++ t :: l' →
      UpdateStep C s
        { board := { s.board with threads := l ++ l' }
          evaluated := (t, s.board.resolveTarget t.switch t.args) :: s.evaluated }
  | apply {s t v l l' ω r b'} : s.evaluated = l ++ (t, v) :: l' → C s t v →
      Executes ω (applyTarget t.switch v t.args) s.board r b' → UpdateStep C s { board := b', evaluated := l ++ l' }

/-! ## Graphs -/

/-- Switches without interceptors, with dependencies that are neither circular
nor toggles and that trigger on settled states. -/
structure Board.Acyclic (b : Board) : Prop where
  noInterceptors : ∀ q ∈ b.switches, b.interceptors q = []
  polarity : ∀ q ∈ b.switches, ∀ d ∈ (b.spec q).dependencies.values, d.polarity ≠ .toggle
  triggerStates : ∀ q ∈ b.switches, ∀ d ∈ (b.spec q).dependencies.values, d.triggerStates = settledStates
  ranked : ∃ rank : SwitchName → ℕ, ∀ q ∈ b.switches, ∀ d ∈ (b.spec q).dependencies.values, ∀ p,
    b.predecessor d = some p → rank p < rank q

/-- Every dependency goes by the name of a switch. -/
def Board.Named (b : Board) : Prop :=
  ∀ q ∈ b.switches, ∀ d ∈ (b.spec q).dependencies.values, d.predecessorName ∈ b.switches

/-- The predecessors of `q` are settled. -/
def Board.Informed (b : Board) (q : SwitchName) : Prop :=
  ∀ d ∈ (b.spec q).dependencies.values, (b.predecessorState d).isSettled = true

namespace Board

variable {b b' : Board} {p q n : SwitchName}

theorem predecessorState_of_named {d : Dependency} (h : d.predecessorName ∈ b.switches) :
    b.predecessorState d = (b.status d.predecessorName).currentState := by
  unfold predecessorState
  rw [predecessor_of_named h]

theorem informed_of_predecessors (hn : b.Named) (hq : q ∈ b.switches)
    (h : ∀ p ∈ b.getPredecessors q, (b.status p).currentState.isSettled = true) : b.Informed q := by
  intro d hd
  rw [predecessorState_of_named (hn q hq d hd)]
  exact h _ (mem_getPredecessors.mpr ⟨d, hd, predecessor_of_named (hn q hq d hd)⟩)

theorem autoTrigger_settled {d : Dependency} (hd : d.triggerStates = settledStates) {s : State}
    (hs : s.isSettled = true) : d.autoTrigger s = true := by
  unfold Dependency.autoTrigger
  rw [hd]
  rcases State.settled_cases hs with rfl | rfl | rfl <;> decide

end Board

/-! ## Moving one switch -/

/-- What happens when a target is applied to a switch of such a network. -/
structure Moves (b : Board) (n : SwitchName) (target : State) (b' : Board) : Prop where
  spec : b'.spec = b.spec
  switches : b'.switches = b.switches
  arrives : (b'.status n).currentState = target
  others : ∀ m, m ≠ n → (b'.status m).currentState = (b.status m).currentState
  keeps : ∀ t ∈ b.threads, t ∈ b'.threads
  detaches : ∀ t ∈ b'.threads, t ∈ b.threads ∨ t.switch ∈ b.switches
  triggers : (b.status n).currentState = target ∨
    ∀ q ∈ b.switches, (∃ d, (b.spec q).dependencies.get? n = some d ∧ d.autoTrigger target = true) →
      ∃ t ∈ b'.threads, t.switch = q

theorem Board.through_threads (b : Board) (n : SwitchName) (state : State) (invokes : Bool) :
    ∃ b₁ : Board, b₁.spec = b.spec ∧ b₁.switches = b.switches ∧ (b₁.status n).currentState = state ∧
      (b.through n state invokes true).threads = b.threads ++ (b₁.triggered n).map fun q => ⟨q, invokes⟩ := by
  refine ⟨if invokes then (b.enter n state).setPending n false else b.enter n state, ?_, ?_, ?_, ?_⟩
  all_goals cases invokes <;> simp [Board.through, Board.setPending, Status.enter]

theorem moves_of_applied {b b' : Board} {n : SwitchName} {target : State} {args : TargetArgs} {r : Bool}
    (hi : b.interceptors n = []) (hs : (b.status n).currentState.Resting) (ht : args.triggerDescendants = true)
    (h : Applied b n target args r b') : Moves b n target b' := by
  cases h with
  | same _ hcur =>
    have hcur' := b.touch_currentState n args
    have hrest : (b.touch n args).spec = b.spec ∧ (b.touch n args).switches = b.switches ∧
        (b.touch n args).threads = b.threads ∧ ∀ m, m ≠ n → (b.touch n args).status m = b.status m := by
      unfold Board.touch
      split_ifs
      · exact ⟨rfl, rfl, rfl, fun m hm => by simp [hm]⟩
      · exact ⟨rfl, rfl, rfl, fun _ _ => rfl⟩
    obtain ⟨h₁, h₂, h₃, h₄⟩ := hrest
    exact ⟨h₁, h₂, hcur'.1.trans hcur, fun m hm => by rw [h₄ m hm], fun t ht => h₃ ▸ ht,
      fun t ht => .inl (h₃ ▸ ht), .inl hcur⟩
  | blocked _ hset hcur =>
    -- a switch at rest is not in a transitional state
    exfalso
    rcases hs with hu | hu
    · exact (State.transitionState_ne_unset target).mpr hset (hcur ▸ hu)
    · rw [hcur, State.isSettled_transitionState] at hu
      cases hu
  | reached _ _ ha =>
    have hreach : b.reach n target args =
        (b.writeTarget n target args).through n target args.invokeInterceptors true := by
      unfold Board.reach
      rw [if_neg fun h => h.2 hi, ht]
    obtain ⟨b₁, hspec, hsw, hcur, hth⟩ :=
      (b.writeTarget n target args).through_threads n target args.invokeInterceptors
    rw [← hreach] at hth
    refine ⟨?_, ?_, ?_, fun m hm => ?_, fun t ht => ?_, fun t ht => ?_, .inr fun q hq hd => ?_⟩
    · rw [ha.spec, hreach, Board.through_spec]; rfl
    · rw [ha.switches, hreach, Board.through_switches]; rfl
    · rw [ha.status, Board.reach_status_self]; rfl
    · rw [ha.status, Board.reach_status_of_ne b hm]
    · rw [ha.threads, hth]
      exact List.mem_append_left _ ht
    · rw [ha.threads, hth] at ht
      rcases List.mem_append.mp ht with h | h
      · exact .inl h
      · obtain ⟨q, hq, rfl⟩ := List.mem_map.mp h
        rw [Board.mem_triggered, hsw] at hq
        exact .inr hq.1
    · rw [ha.threads, hth]
      refine ⟨⟨q, args.invokeInterceptors⟩, List.mem_append_right _ (List.mem_map.mpr ⟨q, ?_, rfl⟩), rfl⟩
      rw [Board.mem_triggered, hsw, hspec, hcur]
      exact ⟨hq, hd⟩

/-! ## The invariant -/

/-- The thread's target is up to date, or another thread of the same switch is
yet to evaluate. -/
def Timely (s : Network) (t : Task) (v : State) : Prop :=
  v = s.board.autoState t.switch ∨ ∃ t' ∈ s.board.threads, t'.switch = t.switch

/-- The switch is in its automatic state, or a thread is about to see to that. -/
def Network.Attended (s : Network) (q : SwitchName) : Prop :=
  (s.board.status q).currentState = s.board.autoState q ∨ (∃ t ∈ s.board.threads, t.switch = q) ∨
    ∃ e ∈ s.evaluated, e.1.switch = q ∧ e.2 = s.board.autoState q

structure Network.Inv (s : Network) : Prop where
  acyclic : s.board.Acyclic
  named : s.board.Named
  threads : ∀ t ∈ s.board.threads, t.switch ∈ s.board.switches
  evaluated : ∀ e ∈ s.evaluated, e.1.switch ∈ s.board.switches ∧ e.2.Resting
  resting : ∀ n, (s.board.status n).currentState.Resting
  attended : ∀ q ∈ s.board.switches, (s.board.spec q).dependencies.values ≠ [] → s.board.Informed q → s.Attended q

theorem Board.find_congr {b b' : Board} (hspec : b'.spec = b.spec) (hsw : b'.switches = b.switches) :
    b'.find = b.find := by
  funext name
  unfold find
  rw [hspec, hsw]

theorem Board.Acyclic.congr {b b' : Board} (h : b.Acyclic) (hspec : b'.spec = b.spec)
    (hsw : b'.switches = b.switches) : b'.Acyclic := by
  obtain ⟨h₁, h₂, h₃, h₄⟩ := h
  refine ⟨?_, ?_, ?_, ?_⟩
  · unfold interceptors at h₁ ⊢
    rwa [hspec, hsw]
  · rwa [hspec, hsw]
  · rwa [hspec, hsw]
  · unfold predecessor at h₄ ⊢
    rwa [find_congr hspec hsw, hspec, hsw]

theorem Board.Named.congr {b b' : Board} (h : b.Named) (hspec : b'.spec = b.spec)
    (hsw : b'.switches = b.switches) : b'.Named := by
  unfold Named at h ⊢
  rwa [hspec, hsw]

namespace Network.Inv

variable {s : Network} {b' : Board} {n : SwitchName} {target : State}

/-- A thread may evaluate at any time. -/
theorem evaluate (h : s.Inv) {t : Task} {l l' : List Task} (hth : s.board.threads = l ++ t :: l') :
    Inv { board := { s.board with threads := l ++ l' }
          evaluated := (t, s.board.resolveTarget t.switch t.args) :: s.evaluated } := by
  have ht : t.switch ∈ s.board.switches := h.threads t (by rw [hth]; simp)
  have hsub : ∀ t' ∈ l ++ l', t' ∈ s.board.threads := by
    intro t' ht'
    rw [hth]
    rcases List.mem_append.mp ht' with h | h
    · exact List.mem_append_left _ h
    · exact List.mem_append_right _ (List.mem_cons_of_mem _ h)
  refine ⟨h.acyclic.congr rfl rfl, h.named.congr rfl rfl, fun t' ht' => h.threads t' (hsub t' ht'), fun e he => ?_, h.resting, ?_⟩
  · rcases List.mem_cons.mp he with rfl | he
    · refine ⟨ht, Board.resting_autoState (h.acyclic.polarity _ ht) (fun d hd => ?_) (h.resting _)⟩
      rw [Board.predecessorState_of_named (h.named _ ht d hd)]
      exact h.resting _
    · exact h.evaluated e he
  · intro q hq hd hi
    rcases h.attended q hq hd hi with hc | ⟨t', ht', rfl⟩ | ⟨e, he, hq'⟩
    · exact .inl hc
    · -- the thread is still there, or it is the one that has just evaluated
      rw [hth, List.mem_append, List.mem_cons] at ht'
      rcases ht' with h | rfl | h
      · exact .inr (.inl ⟨t', List.mem_append_left _ h, rfl⟩)
      · exact .inr (.inr ⟨_, List.mem_cons_self .., rfl, rfl⟩)
      · exact .inr (.inl ⟨t', List.mem_append_right _ h, rfl⟩)
    · exact .inr (.inr ⟨e, List.mem_cons_of_mem _ he, hq'⟩)

/-- A switch may move to a target that is in order. -/
theorem moves (h : s.Inv) (hm : Moves s.board n target b') (ht : target.Resting)
    {evaluated : List (Task × State)} (hsub : ∀ e ∈ evaluated, e ∈ s.evaluated)
    (hother : ∀ e ∈ s.evaluated, e.1.switch ≠ n → e ∈ evaluated)
    (hself : (s.board.spec n).dependencies.values ≠ [] →
      target = s.board.autoState n ∨ ∃ t ∈ s.board.threads, t.switch = n) :
    Inv { board := b', evaluated } := by
  have hnamed : b'.Named := h.named.congr hm.spec hm.switches
  refine ⟨h.acyclic.congr hm.spec hm.switches, hnamed, ?_, ?_, ?_, ?_⟩
  · intro t ht
    rw [hm.switches]
    exact (hm.detaches t ht).elim (h.threads t) id
  · intro e he
    rw [hm.switches]
    exact h.evaluated e (hsub e he)
  · intro m
    by_cases hmn : m = n
    · rw [hmn, hm.arrives]; exact ht
    · rw [hm.others m hmn]; exact h.resting m
  · intro q hq hd hi
    have hq' : q ∈ s.board.switches := hm.switches ▸ hq
    have hspec : b'.spec q = s.board.spec q := by rw [hm.spec]
    have hd' : (s.board.spec q).dependencies.values ≠ [] := hspec ▸ hd
    by_cases hchg : ∃ d ∈ (s.board.spec q).dependencies.values,
        d.predecessorName = n ∧ (s.board.status n).currentState ≠ target
    · -- a predecessor of `q` has changed, and triggers it
      obtain ⟨d, hdq, hdn, hne⟩ := hchg
      rcases hm.triggers with heq | htr
      · exact absurd heq hne
      · have hset : target.isSettled = true := by
          have := hi d (hspec ▸ hdq)
          rwa [Board.predecessorState_of_named (hnamed q hq d (hspec ▸ hdq)), hdn, hm.arrives] at this
        refine .inr (.inl (htr q hq' ⟨d, ?_, ?_⟩))
        · rw [← hdn]; exact Keyed.Filed.mem_values.mp hdq
        · exact Board.autoTrigger_settled (h.acyclic.triggerStates q hq' d hdq) hset
    · -- nothing that `q` depends on has changed
      have hsame : ∀ d ∈ (s.board.spec q).dependencies.values,
          b'.predecessorState d = s.board.predecessorState d := by
        intro d hdq
        rw [Board.predecessorState_of_named (h.named q hq' d hdq),
          Board.predecessorState_of_named (hnamed q hq d (hspec ▸ hdq))]
        by_cases hdn : d.predecessorName = n
        · rw [hdn, hm.arrives]
          by_contra hne
          exact hchg ⟨d, hdq, hdn, fun h => hne h.symm⟩
        · exact hm.others _ hdn
      have hi' : s.board.Informed q := fun d hdq => by rw [← hsame d hdq]; exact hi d (hspec ▸ hdq)
      have hauto : b'.autoState q = s.board.autoState q :=
        Board.autoState_congr (h.acyclic.polarity q hq') hspec hsame hi' hd'
      by_cases hqn : q = n
      · subst hqn
        rcases hself hd' with h | ⟨t, ht, htq⟩
        · exact .inl (by rw [hm.arrives, hauto, h])
        · exact .inr (.inl ⟨t, hm.keeps t ht, htq⟩)
      · rcases h.attended q hq' hd' hi' with hc | ⟨t, ht, htq⟩ | ⟨e, he, heq, hv⟩
        · exact .inl (by rw [hm.others q hqn, hc, hauto])
        · exact .inr (.inl ⟨t, hm.keeps t ht, htq⟩)
        · exact .inr (.inr ⟨e, hother e he (heq ▸ hqn), heq, hv.trans hauto.symm⟩)

theorem step {s' : Network} (h : s.Inv) (hs : UpdateStep Timely s s') : s'.Inv := by
  cases hs with
  | @setActive n active args ω r b' hn hsrc htr hp =>
    have hi := h.acyclic.noInterceptors n hn
    have happ := (performs_setTarget_alone (s.board.passes_of_nil hi ω _ _)).2 r b' hp
    rw [Board.resolveTarget_of_isSettled (State.isSettled_ofActive active)] at happ
    have hm : Moves s.board n (.ofActive active) b' := by
      refine moves_of_applied hi (h.resting n) ?_ happ
      exact htr
    exact h.moves hm (.inr (State.isSettled_ofActive active)) (fun _ he => he) (fun _ he _ => he)
      fun hne => absurd hsrc hne
  | evaluate hth => exact h.evaluate hth
  | @apply t v l l' ω r b' hev hC hp =>
    have hmem : (t, v) ∈ s.evaluated := by rw [hev]; simp
    obtain ⟨ht, hv⟩ := h.evaluated _ hmem
    have hi := h.acyclic.noInterceptors _ ht
    have happ := hp.sound (alone_allows ω) (alone_meets ω)
      (wp_mono _ (fun _ _ h => h.1) _ _ (wp_applyTarget_alone fun _ => s.board.passes_of_nil hi ω v t.args))
    refine h.moves (moves_of_applied hi (h.resting _) rfl happ) hv (fun e he => ?_) (fun e he hne => ?_) fun _ => hC
    · rw [hev]
      rcases List.mem_append.mp he with h | h
      · exact List.mem_append_left _ h
      · exact List.mem_append_right _ (List.mem_cons_of_mem _ h)
    · rw [hev, List.mem_append, List.mem_cons] at he
      rcases he with h | rfl | h
      · exact List.mem_append_left _ h
      · exact absurd rfl hne
      · exact List.mem_append_right _ h

theorem steps {s' : Network} (h : s.Inv) (hs : ReflTransGen (UpdateStep Timely) s s') : s'.Inv := by
  induction hs with
  | refl => exact h
  | tail _ hstep ih => exact ih.step hstep

end Network.Inv

/-- Nothing is under way, and every switch is where its predecessors want it. -/
structure Board.AtRest (b : Board) : Prop where
  threads : b.threads = []
  resting : ∀ n, (b.status n).currentState.Resting
  settled : ∀ q ∈ b.switches, (b.spec q).dependencies.values ≠ [] → b.Informed q →
    (b.status q).currentState = b.autoState q

theorem Board.Fresh.atRest {b : Board} (h : b.Fresh) (hn : b.Named) : b.AtRest where
  threads := h.threads
  resting n := by rw [h.status n]; exact .inl rfl
  settled q hq hd hi := by
    obtain ⟨d, hdq⟩ := List.exists_mem_of_ne_nil _ hd
    have hset := hi d hdq
    rw [Board.predecessorState_of_named (hn q hq d hdq), h.status] at hset
    cases hset

/-- Once no thread is left, a switch whose predecessors are settled is in its
automatic state. -/
theorem propagated_of_timely {b : Board} (ha : b.Acyclic) (hn : b.Named) (hr : b.AtRest) {s : Network}
    (hrun : ReflTransGen (UpdateStep Timely) { board := b, evaluated := [] } s) (hthreads : s.board.threads = [])
    (hevaluated : s.evaluated = []) {q : SwitchName} (hq : q ∈ s.board.switches)
    (hd : (s.board.spec q).dependencies.values ≠ [])
    (hp : ∀ p ∈ s.board.getPredecessors q, (s.board.status p).currentState.isSettled = true) :
    (s.board.status q).currentState = s.board.autoState q := by
  have hinv : Network.Inv { board := b, evaluated := [] } :=
    ⟨ha, hn, by simp [hr.threads], by simp, hr.resting, fun q hq hd hi => .inl (hr.settled q hq hd hi)⟩
  have hend := hinv.steps hrun
  rcases hend.attended q hq hd (Board.informed_of_predecessors hend.named hq hp) with h | ⟨t, ht, -⟩ | ⟨e, he, -⟩
  · exact h
  · rw [hthreads] at ht; cases ht
  · rw [hevaluated] at he; cases he

/-! ### Two switches -/

/-- A switch `q` that follows another, `p`. -/
def follower : Board :=
  .new [] ["p", "q"] fun n =>
    if n = "q" then { dependencies := .ofList [{ predecessorName := "p", triggerStates := settledStates }] } else {}

theorem follower_dependencies {n : SwitchName} {d : Dependency} (h : d ∈ (follower.spec n).dependencies.values) :
    n = "q" ∧ d = { predecessorName := "p", triggerStates := settledStates } := by
  by_cases hn : n = "q"
  · subst hn
    exact ⟨rfl, List.mem_singleton.mp h⟩
  · have hnil : (follower.spec n).dependencies.values = [] := by
      simp only [follower, Board.new, if_neg hn]
      rfl
    rw [hnil] at h
    cases h

theorem follower_named : follower.Named := by
  intro n _ d hd
  obtain ⟨-, rfl⟩ := follower_dependencies hd
  decide

theorem follower_acyclic : follower.Acyclic := by
  refine ⟨fun n _ => ?_, fun n _ d hd => ?_, fun n _ d hd => ?_, fun n => if n = "q" then 1 else 0,
    fun n _ d hd p hp => ?_⟩
  · by_cases hn : n = "q"
    · subst hn; rfl
    · simp only [Board.interceptors, follower, Board.new, if_neg hn]; rfl
  · obtain ⟨-, rfl⟩ := follower_dependencies hd; decide
  · obtain ⟨-, rfl⟩ := follower_dependencies hd; rfl
  · obtain ⟨rfl, rfl⟩ := follower_dependencies hd
    cases hp
    decide

/-- The thread that a change of `p` detaches. -/
def followUp : Task := { switch := "q", invokeInterceptors := true }

def turn (active : Bool) : M Bool := (Op.setActive "p" active { targetState := .unset }).prog

/-- The board after `set_active` on `p`, without the thread that this detached. -/
def turned (b : Board) (active : Bool) : Board := { after 1 noFailures (turn active) b with threads := [] }

/-- The board after a thread has applied a target to `q`. -/
def applied (b : Board) (v : State) : Board := after 1 noFailures (applyTarget "q" v followUp.args) b

section
variable {C : Network → Task → State → Prop} {b : Board} {l l' : List (Task × State)}

/-- `p` is turned on or off, and the thread that this detaches evaluates. -/
theorem turn_steps (active : Bool) (v : State) (hp : "p" ∈ b.switches)
    (hd : (b.spec "p").dependencies.values = []) (hx : (execute 1 noFailures (turn active) b).isSome = true)
    (ht : (after 1 noFailures (turn active) b).threads = [followUp])
    (hv : (after 1 noFailures (turn active) b).resolveTarget "q" followUp.args = v) :
    ReflTransGen (UpdateStep C) { board := b, evaluated := l }
      { board := turned b active, evaluated := (followUp, v) :: l } := by
  obtain ⟨r, hx⟩ := executes_after _ _ _ _ hx
  subst hv
  exact .tail (.single (.setActive hp hd rfl hx)) (.evaluate (show _ = [] ++ followUp :: [] from ht))

theorem apply_step {v : State} (hC : C { board := b, evaluated := l ++ (followUp, v) :: l' } followUp v)
    (hx : (execute 1 noFailures (applyTarget "q" v followUp.args) b).isSome = true) :
    UpdateStep C { board := b, evaluated := l ++ (followUp, v) :: l' } { board := applied b v, evaluated := l ++ l' } := by
  obtain ⟨r, hx⟩ := executes_after _ _ _ _ hx
  exact .apply rfl hC hx

end

/-- `q` follows `p`. -/
theorem propagated_to_follower :
    ∃ s, ReflTransGen (UpdateStep Timely) { board := follower, evaluated := [] } s ∧ s.board.threads = [] ∧
      s.evaluated = [] ∧ (s.board.status "p").currentState = .active ∧
      (s.board.status "q").currentState = s.board.autoState "q" := by
  have hrun : ReflTransGen (UpdateStep Timely) { board := follower, evaluated := [] }
      { board := applied (turned follower true) .active, evaluated := [] } :=
    (turn_steps true .active (by decide) rfl (by decide) (by decide) (by decide)).tail
      (apply_step (l := []) (.inl (by decide)) (by decide))
  refine ⟨_, hrun, by decide, rfl, by decide, ?_⟩
  refine propagated_of_timely follower_acyclic follower_named ((Board.new_fresh ..).atRest follower_named) hrun
    (by decide) rfl (by decide) (by decide) fun p hp => ?_
  obtain rfl : p = "p" := List.mem_singleton.mp (show p ∈ ["p"] from hp)
  decide

/-- A thread that evaluated before `p` was turned off applies its target last. -/
theorem not_propagated_of_stale :
    ∃ s, ReflTransGen (UpdateStep fun _ _ _ => True) { board := follower, evaluated := [] } s ∧
      s.board.threads = [] ∧ s.evaluated = [] ∧
      (∀ p ∈ s.board.getPredecessors "q", (s.board.status p).currentState.isSettled = true) ∧
      (s.board.status "q").currentState ≠ s.board.autoState "q" := by
  have hrun : ReflTransGen (UpdateStep fun _ _ _ => True) { board := follower, evaluated := [] }
      { board := applied (applied (turned (turned follower true) false) .inactive) .active, evaluated := [] } := by
    refine (turn_steps true .active (by decide) rfl (by decide) (by decide) (by decide)).trans ?_
    refine (turn_steps false .inactive (by decide) rfl (by decide) (by decide) (by decide)).trans ?_
    exact .head (apply_step (l := []) trivial (by decide)) (.single (apply_step (l := []) trivial (by decide)))
  refine ⟨_, hrun, by decide, rfl, fun p hp => ?_, by decide⟩
  obtain rfl : p = "p" := List.mem_singleton.mp (show p ∈ ["p"] from hp)
  decide

end CommonCore
