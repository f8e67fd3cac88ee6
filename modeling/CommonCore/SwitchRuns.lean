import CommonCore.Pools
import CommonCore.SwitchSpec

/-!
# Runs of a switchboard

What clients and detached threads do to a board: in a pool, where one operation
may start while others wait for interceptors, or one operation after the other.

In either case every status stays `Consistent`: the settled state follows the
current one, and the position follows the settled state.
-/

namespace CommonCore

open Coop Coop.Prog Relation

/-- A board whose switches are as constructed. -/
structure Board.Fresh (b : Board) : Prop where
  status : ∀ n, b.status n = {}
  threads : b.threads = []
  entered : b.entered = []
  signal : b.signalStatus = { caching := true }

theorem Board.new_fresh (execName : Bytes) (switches : List SwitchName) (spec : SwitchName → Specification) :
    (Board.new execName switches spec).Fresh := ⟨fun _ => rfl, rfl, rfl, rfl⟩

/-- A pool in which operations may start at any time. -/
abbrev Overlapping (b : Board) (c : Pool Board Call Bool Launch Failures) : Prop :=
  ReflTransGen (PoolStep body fun p => ∃ op : Op, p = op.prog) (b, []) c

/-- A program, run alone to its end: `ω` says what the interceptors throw. -/
def Executes (ω : ℕ → Launch → Failures) (p : M Bool) (b : Board) (r : Bool) (b' : Board) : Prop :=
  ∃ fuel k k', exec (run body ω fuel) ω p b k = some (r, b', k')

abbrev Performs (ω : ℕ → Launch → Failures) (op : Op) : Board → Bool → Board → Prop := Executes ω op.prog

/-- Operations one after the other, each of which satisfies `P` where it starts. -/
inductive Runs (P : (ℕ → Launch → Failures) → Op → Board → Prop) : Board → Board → Prop
  | refl {b} : Runs P b b
  | step {b b' b'' ω op r} : Runs P b b' → P ω op b' → Performs ω op b' r b'' → Runs P b b''

theorem Runs.keeps {P : (ℕ → Launch → Failures) → Op → Board → Prop} {Inv : Board → Prop}
    (hP : ∀ ω op b r b', Inv b → P ω op b → Performs ω op b r b' → Inv b') {b b' : Board} (h : Runs P b b')
    (hb : Inv b) : Inv b' := by
  induction h with
  | refl => exact hb
  | step _ hp hs ih => exact hP _ _ _ _ _ ih hp hs

/-- A program comes to what it comes to under a contract that allows `ω`. -/
theorem Executes.sound {K : Contract Board Call Bool Launch Failures} {ω : ℕ → Launch → Failures} {p : M Bool}
    {b b' : Board} {r : Bool} {Q : Bool → Board → Prop} (hω : K.Allows ω) (hb : K.Meets body)
    (hw : wp K p b Q) (h : Executes ω p b r b') : Q r b' := by
  obtain ⟨fuel, k, k', he⟩ := h
  exact exec_sound hω hb hw he

/-- A run without overlap is one of the schedules of a pool. -/
theorem Runs.overlapping {P : (ℕ → Launch → Failures) → Op → Board → Prop} {b b' : Board} (h : Runs P b b') :
    ∃ ts, (∀ t ∈ ts, ∃ r, t = Thread.done r) ∧ Overlapping b (b', ts) := by
  induction h with
  | refl => exact ⟨[], by simp, .refl⟩
  | @step b₁ b₂ ω op r _ _ hs ih =>
    obtain ⟨ts, hts, hrun⟩ := ih
    obtain ⟨fuel, k, k', he⟩ := hs
    obtain ⟨c, hst, hres⟩ := exec_pool he ts
    refine ⟨ts ++ [Thread.done r], fun t ht => ?_, ?_⟩
    · rcases List.mem_append.mp ht with h | h
      · exact hts t h
      · exact ⟨r, List.mem_singleton.mp h⟩
    · exact (hrun.tail (.starts ⟨op, rfl⟩ hst)).trans (hres.lift id fun _ _ h => .resumes h)

/-! ### Running operations -/

/-- Run a program, with its procedures nested at most `fuel` deep. -/
def execute (fuel : ℕ) (ω : ℕ → Launch → Failures) (p : M Bool) (b : Board) : Option (Bool × Board) :=
  (exec (run body ω fuel) ω p b 0).map fun r => (r.1, r.2.1)

/-- The board after a program. -/
def after (fuel : ℕ) (ω : ℕ → Launch → Failures) (p : M Bool) (b : Board) : Board :=
  ((execute fuel ω p b).map Prod.snd).getD b

def performAll (fuel : ℕ) (ω : ℕ → Launch → Failures) (ops : List Op) (b : Board) : Option Board :=
  ops.foldlM (fun b op => (execute fuel ω op.prog b).map Prod.snd) b

theorem executes_of_execute {fuel : ℕ} {ω : ℕ → Launch → Failures} {p : M Bool} {b : Board} {r : Bool × Board}
    (h : execute fuel ω p b = some r) : Executes ω p b r.1 r.2 := by
  obtain ⟨x, hx, rfl⟩ := Option.map_eq_some_iff.mp h
  exact ⟨fuel, 0, x.2.2, hx⟩

theorem executes_after (fuel : ℕ) (ω : ℕ → Launch → Failures) (p : M Bool) (b : Board)
    (h : (execute fuel ω p b).isSome = true) : ∃ r, Executes ω p b r (after fuel ω p b) := by
  obtain ⟨r, hr⟩ := Option.isSome_iff_exists.mp h
  refine ⟨r.1, ?_⟩
  unfold after
  rw [hr]
  exact executes_of_execute hr

theorem runs_of_performAll {fuel : ℕ} {ω : ℕ → Launch → Failures} :
    ∀ {ops : List Op} {b₀ b b' : Board}, Runs (fun _ _ _ => True) b₀ b → performAll fuel ω ops b = some b' →
      Runs (fun _ _ _ => True) b₀ b'
  | [], b₀, b, b', h, hp => by
    cases hp
    exact h
  | op :: ops, b₀, b, b', h, hp => by
    simp only [performAll, List.foldlM_cons, Option.bind_eq_bind] at hp
    obtain ⟨b₁, h₁, hp⟩ := Option.bind_eq_some_iff.mp hp
    obtain ⟨r, hr, rfl⟩ := Option.map_eq_some_iff.mp h₁
    exact runs_of_performAll (h.step trivial (executes_of_execute hr)) hp

theorem exists_runs (fuel : ℕ) (ω : ℕ → Launch → Failures) (ops : List Op) (b : Board) (p : Board → Bool)
    (h : (performAll fuel ω ops b).any p = true) : ∃ b', Runs (fun _ _ _ => True) b b' ∧ p b' = true := by
  cases hb : performAll fuel ω ops b with
  | none => rw [hb] at h; cases h
  | some b' => rw [hb] at h; exact ⟨b', runs_of_performAll .refl hb, h⟩

/-- No interceptor ever throws. -/
def noFailures : ℕ → Launch → Failures := fun _ _ => .none

/-! ## Operations that set a target -/

section
variable {K : Contract Board Call Bool Launch Failures} {b : Board} {Q : Bool → Board → Prop}

/-- What an operation does to the board before it sets a target, if it does. -/
inductive Aims : Op → Board → SwitchName → TargetArgs → Board → Prop
  | setTarget {n args b} : Aims (.setTarget n args) b n args b
  | setActive {n active args b} :
      Aims (.setActive n active args) b n { args with targetState := .ofActive active, error := none } b
  | setAuto {n args b} : Aims (.setAuto n args) b n { args with targetState := .unset, error := none } b
  | setError {n error args b} :
      Aims (.setError n error args) b n
        { args with
          targetState := if error.isSome then .failed else .ofActive (b.status n).active
          error } b
  | addDependency {n dep allow b} :
      Aims (.addDependency n dep allow true) b n { targetState := .unset }
        (b.setSpec n { b.spec n with dependencies := (b.spec n).dependencies.insertOrAssign dep })
  | removeDependency {n p b} :
      Aims (.removeDependency n p true) b n { targetState := .unset }
        (b.setSpec n { b.spec n with dependencies := (b.spec n).dependencies.erase p })
  | updateSpec {n u b} : Aims (.updateSpec n u) b n { targetState := .unset } (b.setSpec n (u.apply (b.spec n)))
  | runTask {t b} :
      Aims (.runTask t) b t.switch { targetState := .unset, invokeInterceptors := t.invokeInterceptors }
        { b with threads := b.threads.erase t }

/-- The boards on which an operation may end without having set a target. -/
inductive Edits : Op → Board → Board → Prop
  | same {op b} : Edits op b b
  | setAttributes {n attributes clear b} :
      Edits (.setAttributes n attributes clear) b
        ((b.setStatus n ((b.status n).writeAttributes attributes clear)).notifyStatus n)
  | setSpec {op n s b} : Edits op b (b.setSpec n s)

/-- An operation edits the board, or sets a target. -/
theorem wp_op {op : Op} (haim : ∀ n args b₁, Aims op b n args b₁ → wp K (setTarget n args) b₁ fun _ b' => ∀ r, Q r b')
    (hedit : ∀ b', Edits op b b' → ∀ r, Q r b') : wp K op.prog b Q := by
  have weaken : ∀ {p : M Bool} {b₁ : Board} {f : Bool → Bool},
      wp K p b₁ (fun _ b' => ∀ r, Q r b') → wp K p b₁ fun r => Q (f r) :=
    fun h => wp_mono K (fun _ _ h => h _) _ _ h
  cases op with
  | setTarget n args => exact weaken (f := id) (haim _ _ _ .setTarget)
  | setActive n active args => exact weaken (f := id) (haim _ _ _ .setActive)
  | setAuto n args => exact weaken (f := id) (haim _ _ _ .setAuto)
  | setError n error args => exact weaken (f := id) (haim _ _ _ .setError)
  | setAttributes n attributes clear => exact hedit _ .setAttributes _
  | addDependency n dep allow reevaluate =>
    simp only [Op.prog, addDependency, wp_then, wp_get, wp_ite, wp_pure, wp_modify]
    split_ifs with ha hr
    · obtain ⟨-, rfl⟩ : _ ∧ reevaluate = true := by simpa using hr
      exact wp_mono K (fun _ _ h => h _) _ _ (haim _ _ _ .addDependency)
    · exact hedit _ .setSpec _
    · exact hedit _ .same _
  | removeDependency n p reevaluate =>
    simp only [Op.prog, removeDependency, wp_then, wp_get, wp_ite, wp_pure, wp_modify]
    split_ifs with he hr
    · subst hr
      exact wp_mono K (fun _ _ h => h _) _ _ (haim _ _ _ .removeDependency)
    · exact hedit _ .setSpec _
    · exact hedit _ .same _
  | addInterceptor n ic => exact hedit _ .setSpec _
  | removeInterceptor n id =>
    simp only [Op.prog, removeInterceptor, wp_then, wp_get, wp_ite, wp_pure, wp_modify]
    split_ifs
    · exact hedit _ .setSpec _
    · exact hedit _ .same _
  | setSpec n spec => exact hedit _ .setSpec _
  | updateSpec n u =>
    simp only [Op.prog, updateSpec, wp_then, wp_ite, wp_pure, wp_modify]
    split_ifs
    · exact weaken (f := id) (haim _ _ _ .updateSpec)
    · exact hedit _ .setSpec _
  | runTask t => exact weaken (f := id) (haim _ _ _ .runTask)

end

/-! ## Consistent statuses -/

/-- The settled state is not transitional and follows the current state, and
the position follows the settled state. -/
structure Status.Consistent (s : Status) : Prop where
  settled : s.settledState = .unset ∨ s.settledState.isSettled = true
  current : s.currentState.isSettled = true → s.settledState = s.currentState
  on : s.settledState = .active → s.active = true
  off : s.settledState = .inactive → s.active = false

namespace Status.Consistent

variable {s : Status}

theorem enter (h : s.Consistent) {state : State} (hs : state.isSettled = true → state = s.settledState) :
    (s.enter state).Consistent where
  settled := by
    by_cases hst : state.isSettled = true
    · exact .inr (by simp [Status.enter, hst])
    · simpa [Status.enter, hst] using h.settled
  current hst := by
    have hst : state.isSettled = true := hst
    simp [Status.enter, hst]
  on ha := by
    by_cases hst : state.isSettled = true
    · rw [hs hst] at ha hst
      exact h.on (by simpa [Status.enter, hst] using ha)
    · exact h.on (by simpa [Status.enter, hst] using ha)
  off ha := by
    by_cases hst : state.isSettled = true
    · rw [hs hst] at ha hst
      exact h.off (by simpa [Status.enter, hst] using ha)
    · exact h.off (by simpa [Status.enter, hst] using ha)

/-- The position that `set_target` writes goes with the state it enters next. -/
theorem enter_writeTarget (h : s.Consistent) (target : State) (args : TargetArgs) :
    ((s.writeTarget target args).enter target).Consistent := by
  cases target with
  | active => exact ⟨.inr rfl, fun _ => rfl, fun _ => rfl, nofun⟩
  | inactive => exact ⟨.inr rfl, fun _ => rfl, nofun, fun _ => rfl⟩
  | failed => exact ⟨.inr rfl, fun _ => rfl, nofun, nofun⟩
  | unset => exact ⟨h.settled, nofun, h.on, h.off⟩
  | activating => exact ⟨h.settled, nofun, h.on, h.off⟩
  | deactivating => exact ⟨h.settled, nofun, h.on, h.off⟩
  | failing => exact ⟨h.settled, nofun, h.on, h.off⟩

theorem writeAttributes (h : s.Consistent) (attributes : KeyValueMap) (clearExisting : Bool) :
    (s.writeAttributes attributes clearExisting).Consistent := ⟨h.settled, h.current, h.on, h.off⟩

end Status.Consistent

def Board.Consistent (b : Board) : Prop := ∀ n, (b.status n).Consistent

/-- A procedure that sets a state may find the new state and the position at
odds, as long as entering the state mends that. -/
def consistency : Contract Board Call Bool Launch Failures where
  pre
    | .setTarget _ _, b => b.Consistent
    | .setCurrentState n state _ _ _ _, b => (b.enter n state).Consistent
  post _ _ _ b' := b'.Consistent
  parked := Board.Consistent
  wait _ _ _ b' := b'.Consistent

namespace Board.Consistent

variable {b b' : Board} {n : SwitchName}

theorem of_status (h : b.Consistent) (hs : b'.status = b.status) : b'.Consistent := fun m => hs ▸ h m

theorem setStatus (h : b.Consistent) {s : Status} (hs : s.Consistent) : (b.setStatus n s).Consistent := by
  intro m
  by_cases hm : m = n
  · subst hm; rwa [setStatus_status_self]
  · rw [setStatus_status_of_ne b n hm]; exact h m

theorem setPending (h : b.Consistent) (pending : Bool) : (b.setPending n pending).Consistent :=
  h.setStatus ⟨(h n).settled, (h n).current, (h n).on, (h n).off⟩

theorem enter (h : b.Consistent) {state : State} (hs : state.isSettled = true → state = (b.status n).settledState) :
    (b.enter n state).Consistent := h.setStatus ((h n).enter hs)

theorem enter_writeTarget (h : b.Consistent) (target : State) (args : TargetArgs) :
    ((b.writeTarget n target args).enter n target).Consistent := by
  have heq : ((b.writeTarget n target args).enter n target).status =
      (b.setStatus n (((b.status n).writeTarget target args).enter target)).status := by
    simp [Board.writeTarget, Board.enter, Board.setStatus]
  exact (h.setStatus ((h n).enter_writeTarget target args)).of_status heq

theorem diverts (h : b.Consistent) (error : Option Error) (eh : ExceptionHandling) :
    Diverts consistency n error b (fun d b => if d then b.Consistent else b.Consistent) eh := by
  cases eh with
  | default => exact h
  | ignore => exact h
  | abort => exact ⟨h.enter fun _ => rfl, fun _ _ h => h⟩
  | fail => exact ⟨h, fun _ _ h => h⟩
  | revert => exact ⟨h, fun _ _ h => h⟩

theorem keeps (state : State) (onCancel onError : ExceptionHandling) :
    Keeps consistency n state onCancel onError Board.Consistent Board.Consistent where
  notify _ h := h
  parked _ _ h _ := h
  wait _ _ _ _ _ _ h := h
  cancel _ _ _ _ h _ := Board.Consistent.diverts h _ _
  errors _ _ _ _ _ _ h _ _ := Board.Consistent.diverts (h.of_status (Board.logDiversion_status _ _)) _ _

theorem leave (h : b.Consistent) (invokes triggers : Bool) : (b.leave n invokes triggers).Consistent := by
  refine h.of_status ?_
  unfold Board.leave
  split_ifs <;> simp

theorem entersTarget (h : b.Consistent) (target : State) (args : TargetArgs) :
    EntersTarget consistency n target args (fun _ => Board.Consistent) b :=
  ⟨h.enter_writeTarget target args, fun _ _ h => h⟩

theorem touch (h : b.Consistent) (args : TargetArgs) : (b.touch n args).Consistent := by
  unfold Board.touch
  split_ifs
  · exact h.setStatus ((h n).writeAttributes ..)
  · exact h

theorem setTarget (h : b.Consistent) (args : TargetArgs) :
    wp consistency (setTarget n args) b fun _ => Board.Consistent := by
  rw [wp_setTarget, wp_applyTarget]
  split_ifs
  · exact h.touch args
  · exact h
  · refine ⟨h.enter fun hs => ?_, fun r b' h' => ?_⟩
    · rw [State.isSettled_transitionState] at hs
      cases hs
    · split_ifs
      · exact Board.Consistent.entersTarget h' ..
      · exact h'
  · exact h.entersTarget ..

end Board.Consistent

theorem consistency_meets : consistency.Meets body := by
  intro c b h
  cases c with
  | setTarget n args => exact Board.Consistent.setTarget h args
  | setCurrentState n state invokes triggers onCancel onError =>
    have h : (b.enter n state).Consistent := h
    rw [body, wp_setCurrentState]
    split_ifs
    · have hk := Board.Consistent.keeps (n := n) state onCancel onError
      refine wp_mono _ (fun _ b₁ h₁ => ?_) _ _ (hk.invokeInterceptors (h.setPending true))
      have h₁ : b₁.Consistent := by simpa using h₁
      exact (h₁.setPending false).leave invokes triggers
    · exact h.leave invokes triggers

theorem Board.Consistent.op {b : Board} (h : b.Consistent) (op : Op) :
    wp consistency op.prog b fun _ => Board.Consistent := by
  refine wp_op (fun n args b₁ ha => ?_) (fun b' he r => ?_)
  · have h₁ : b₁.Consistent := by cases ha <;> exact h.of_status rfl
    exact wp_mono _ (fun _ _ h _ => h) _ _ (h₁.setTarget args)
  · cases he with
    | same => exact h
    | setAttributes =>
      exact h.setStatus ((h _).writeAttributes ..)
    | setSpec => exact h

theorem Board.Fresh.consistent {b : Board} (h : b.Fresh) : b.Consistent := fun n => by
  rw [h.status n]
  exact ⟨.inl rfl, nofun, nofun, nofun⟩

/-- However operations overlap, at every wait and return every status is consistent. -/
theorem Board.Consistent.overlapping {b : Board} (hb : b.Consistent) {c : Pool Board Call Bool Launch Failures}
    (h : Overlapping b c) : c.1.Consistent := by
  refine pool_inv consistency_meets (fun _ h => h) (fun _ _ _ _ h => h) (fun p hp s hs => ?_) hb h
  obtain ⟨op, rfl⟩ := hp
  exact Board.Consistent.op hs op

theorem Board.Consistent.runs {P : (ℕ → Launch → Failures) → Op → Board → Prop} {b b' : Board}
    (hb : b.Consistent) (h : Runs P b b') : b'.Consistent := by
  obtain ⟨ts, -, hp⟩ := h.overlapping
  exact hb.overlapping hp

/-- The settled state is never transitional, it is the current state where that
is settled, and the position goes with it. -/
theorem consistent_of_overlapping {b : Board} (hb : b.Fresh) {c : Pool Board Call Bool Launch Failures}
    (h : Overlapping b c) (n : SwitchName) :
    let s := c.1.status n
    (s.settledState ≠ .activating ∧ s.settledState ≠ .deactivating ∧ s.settledState ≠ .failing) ∧
      (s.currentState.isSettled = true → s.settledState = s.currentState) ∧
      (s.settledState = .active → s.active = true) ∧
      (s.settledState = .inactive → s.active = false) := by
  have hc := hb.consistent.overlapping h n
  refine ⟨?_, hc.current, hc.on, hc.off⟩
  rcases hc.settled with hs | hs
  · rw [hs]; decide
  · generalize (c.1.status n).settledState = st at hs ⊢
    revert hs
    cases st <;> decide

/-- Activation that fails in an interceptor. -/
theorem consistent_of_failure :
    ∃ c, Overlapping (Board.new [] ["a"] fun _ => { interceptors := .ofList [{ name := "i" }] }) c ∧
      (c.1.status "a").currentState = .failed ∧ (c.1.status "a").settledState = .failed := by
  obtain ⟨b, hrun, hb⟩ := exists_runs 3 (fun _ _ => ⟨[("i", .nonstandard)], by simp⟩)
    [.setActive "a" true { targetState := .unset }]
    (Board.new [] ["a"] fun _ => { interceptors := .ofList [{ name := "i" }] })
    (fun b => decide ((b.status "a").currentState = .failed)) (by decide)
  have hcur : (b.status "a").currentState = .failed := of_decide_eq_true hb
  obtain ⟨ts, -, ho⟩ := hrun.overlapping
  have hc := consistent_of_overlapping (Board.new_fresh ..) ho "a"
  exact ⟨_, ho, hcur, (hc.2.1 (by rw [hcur]; rfl)).trans hcur⟩

end CommonCore
