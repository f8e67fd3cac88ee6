import CommonCore.SchedulerRuns

/-!
# The watcher thread is handed over

`stop_watcher` moves the watcher out of `activeWatcher` and releases the lock
while it waits for it to end. Calls may come from other threads or from a task
that the watcher is invoking.
-/

namespace CommonCore

namespace Scheduler

open Relation

/-- What ends the program, or leaves the lock in no known state. -/
inductive Failure
  /-- A thread is assigned to `activeWatcher` while that is joinable. -/
  | terminated
  | joinedItself
  deriving DecidableEq

/-- The scheduler, with the watchers whose task waits in `add` for another
watcher to end; `stopped` if there was a `stop` after the last `add`. -/
structure Watched where
  state : State
  blocked : List (ℕ × ℕ) := []
  stopped : Bool := false
  failure : Option Failure := none

namespace State

/-- Will this task be the first of the map? -/
def comesFirst (localAdjustment : Int → Int) (s : State) (task : Task) (now : Int) : Bool :=
  (s.insertTask localAdjustment task now).isFirst s.fresh

end State

namespace Watched

inductive Act
  | call (a : State.Act)
  | callback (w : ℕ) (task : Task) (now : Int)
  | terminate (w : ℕ)

/-- Was the map's last change an `add` or a `stop`? -/
def marked (a : State.Act) (stopped : Bool) : Bool :=
  match a with
  | .add .. => false
  | .stop => true
  | _ => stopped

/-- The `add` that waited for this watcher goes on. -/
def unblocked (a : State.Act) (blocked : List (ℕ × ℕ)) : List (ℕ × ℕ) :=
  match a with
  | .restarted v => blocked.filter (·.2 ≠ v)
  | _ => blocked

section
variable (localAdjustment : Int → Int)

/-- `add` on the watcher's own thread, in the middle of an invocation. -/
def callback (m : Watched) (w : ℕ) (task : Task) (now : Int) : Watched :=
  if m.state.comesFirst localAdjustment task now then
    match m.state.activeWatcher with
    | some v =>
      if v = w then { m with failure := some .joinedItself }
      else
        { m with
          state := m.state.add localAdjustment task now
          blocked := (w, v) :: m.blocked
          stopped := false }
    | none => { m with state := m.state.add localAdjustment task now, stopped := false }
  else { m with state := m.state.add localAdjustment task now, stopped := false }

inductive Move : Act → Watched → Watched → Prop
  | call {m a s'} : m.failure = none → State.Step localAdjustment a m.state s' →
      (∀ w id threw now, a = .finish w id threw now → ∀ v, (w, v) ∉ m.blocked) →
      Move (.call a) m { m with state := s', stopped := marked a m.stopped, blocked := unblocked a m.blocked }
  | callback {m w id handle interval align count retries catchup now} : m.failure = none →
      (w, .invoking id) ∈ m.state.watchers → (∀ v, (w, v) ∉ m.blocked) → 0 < interval →
      Move (.callback w ⟨handle, interval, align, count, count, retries, 0, catchup⟩ now) m
        (m.callback localAdjustment w ⟨handle, interval, align, count, count, retries, 0, catchup⟩ now)
  | terminate {m w} : m.failure = none → (w, true) ∈ m.state.joining → (∀ t ∈ m.state.watchers, t.1 ≠ w) →
      m.state.activeWatcher ≠ none → Move (.terminate w) m { m with failure := some .terminated }

end

/-- Nothing went wrong, and when no call is in progress the tasks that were
added have one watcher. -/
structure HandedOver (m : Watched) : Prop where
  failure : m.failure = none
  watched : m.state.joining = [] → m.state.tasks ≠ [] → m.stopped = false → m.state.watchers.length = 1

/-- A watcher will be started for the map, or has been. -/
def Manned (s : State) : Prop := s.activeWatcher.isSome ∨ ∃ w, (w, true) ∈ s.joining

/-- A task becomes the first of the map only when no call waits for a watcher
that is still there or goes on to start one, and not from within a task.
Others are added only while there is a watcher, not after `stop`. -/
def Orderly (localAdjustment : Int → Int) (m : Watched) : Act → Prop
  | .call (.add task now) =>
    if m.state.comesFirst localAdjustment task now then
      ∀ j ∈ m.state.joining, j.2 = false ∧ ∀ t ∈ m.state.watchers, t.1 ≠ j.1
    else Manned m.state
  | .callback _ task now => m.state.comesFirst localAdjustment task now = false ∧ Manned m.state
  | _ => True

/-! ## Watchers and those that wait for them -/

/-- The thread in `activeWatcher`, the running ones, and the calls that wait. -/
structure Posted (a : Option ℕ) (ws : List (ℕ × Phase)) (js : List (ℕ × Bool)) : Prop where
  alone : ws.length ≤ 1
  placed : ∀ t ∈ ws, a = some t.1 ∨ ∃ b, (t.1, b) ∈ js
  restarts : ∀ w, (w, true) ∈ js → a = none ∧ (∀ t ∈ ws, t.1 = w) ∧ ∀ w', (w', true) ∉ js.erase (w, true)

variable {a : Option ℕ} {ws ws' : List (ℕ × Phase)} {js : List (ℕ × Bool)}

/-- A watcher goes on, or ends. -/
theorem Posted.sublist (h : Posted a ws js) (hws : (ws'.map Prod.fst).Sublist (ws.map Prod.fst)) : Posted a ws' js := by
  have hmem : ∀ t ∈ ws', ∃ t' ∈ ws, t'.1 = t.1 := by
    intro t ht
    exact List.mem_map.mp (hws.subset (List.mem_map.mpr ⟨t, ht, rfl⟩))
  constructor
  · have := hws.length_le
    rw [List.length_map, List.length_map] at this
    exact this.trans h.alone
  · intro t ht
    obtain ⟨t', ht', he⟩ := hmem t ht
    rw [← he]
    exact h.placed t' ht'
  · intro w hw
    obtain ⟨ha, hall, hone⟩ := h.restarts w hw
    refine ⟨ha, fun t ht => ?_, hone⟩
    obtain ⟨t', ht', he⟩ := hmem t ht
    rw [← he]
    exact hall t' ht'

theorem Posted.joined (h : Posted a ws js) {w : ℕ} (hw : ∀ t ∈ ws, t.1 ≠ w) : Posted a ws (js.erase (w, false)) := by
  refine ⟨h.alone, fun t ht => ?_, fun v hv => ?_⟩
  · rcases h.placed t ht with ha | ⟨b, hb⟩
    · exact .inl ha
    · refine .inr ⟨b, (List.mem_erase_of_ne ?_).mpr hb⟩
      intro he
      exact hw t ht (Prod.mk.inj he).1
  · obtain ⟨ha, hall, hone⟩ := h.restarts v (List.mem_of_mem_erase hv)
    refine ⟨ha, hall, fun w' hw' => hone w' ?_⟩
    rw [List.erase_comm] at hw'
    exact List.mem_of_mem_erase hw'

/-- The call that has waited starts a watcher. -/
theorem Posted.restarted (h : Posted a ws js) {w fresh : ℕ} (hj : (w, true) ∈ js) (hw : ∀ t ∈ ws, t.1 ≠ w) :
    ws = [] ∧ Posted (some fresh) ((fresh, .starting) :: ws) (js.erase (w, true)) := by
  obtain ⟨-, hall, hone⟩ := h.restarts w hj
  obtain rfl : ws = [] := List.eq_nil_iff_forall_not_mem.mpr fun t ht => hw t ht (hall t ht)
  refine ⟨rfl, Nat.le_refl 1, fun t ht => .inl ?_, fun v hv => absurd hv (hone v)⟩
  rw [List.mem_singleton.mp ht]

theorem Posted.stop (h : Posted a ws js) {w : ℕ} (ha : a = some w) : Posted none ws ((w, false) :: js) := by
  subst ha
  refine ⟨h.alone, fun t ht => .inr ?_, fun v hv => ?_⟩
  · rcases h.placed t ht with ha | ⟨b, hb⟩
    · cases ha
      exact ⟨false, List.mem_cons_self⟩
    · exact ⟨b, List.mem_cons_of_mem _ hb⟩
  · rcases List.mem_cons.mp hv with he | hv
    · cases he
    · cases (h.restarts v hv).1

/-- The calls that wait are for watchers that have ended, and start none. -/
def Settled (ws : List (ℕ × Phase)) (js : List (ℕ × Bool)) : Prop :=
  ∀ j ∈ js, j.2 = false ∧ ∀ t ∈ ws, t.1 ≠ j.1

theorem Posted.restart (h : Posted a ws js) (hs : Settled ws js) {w : ℕ} (ha : a = some w) :
    Posted none ws ((w, true) :: js) := by
  subst ha
  have hone : ∀ t ∈ ws, t.1 = w := by
    intro t ht
    rcases h.placed t ht with ha | ⟨b, hb⟩
    · exact (Option.some.inj ha).symm
    · exact absurd rfl ((hs _ hb).2 t ht)
  refine ⟨h.alone, fun t ht => .inr ⟨true, ?_⟩, fun v hv => ?_⟩
  · rw [hone t ht]
    exact List.mem_cons_self
  · rcases List.mem_cons.mp hv with he | hv
    · cases he
      refine ⟨rfl, hone, fun w' hw' => ?_⟩
      rw [List.erase_cons_head] at hw'
      cases (hs _ hw').1
    · cases (hs _ hv).1

theorem Posted.start (h : Posted none ws js) (hs : Settled ws js) (fresh : ℕ) :
    Posted (some fresh) ((fresh, .starting) :: ws) js := by
  obtain rfl : ws = [] := by
    refine List.eq_nil_iff_forall_not_mem.mpr fun t ht => ?_
    rcases h.placed t ht with ha | ⟨b, hb⟩
    · cases ha
    · exact (hs _ hb).2 t ht rfl
  refine ⟨le_rfl, fun t ht => .inl ?_, fun v hv => ?_⟩
  · rw [List.mem_singleton.mp ht]
  · cases (hs _ hv).1

/-! ## What a step does for the watchers -/

theorem tasks_ne_nil_of_not_first {localAdjustment : Int → Int} {s : State} {task : Task} {now : Int}
    (hf : s.comesFirst localAdjustment task now = false) : s.tasks ≠ [] := by
  intro hnil
  have hins : (s.insertTask localAdjustment task now).tasks = [⟨task.alignedTime localAdjustment now, s.fresh, task⟩] := by
    unfold State.insertTask State.removeTask insert
    simp [hnil]
  unfold State.comesFirst State.isFirst at hf
  rw [hins] at hf
  simp at hf

theorem setPhase_fst (s : State) (w : ℕ) (p : Phase) :
    (s.setPhase w p).watchers.map Prod.fst = s.watchers.map Prod.fst := by
  unfold State.setPhase
  rw [List.map_map]
  refine List.map_congr_left fun t ht => ?_
  by_cases h : t.1 = w <;> simp [h]

/-- A watcher does not change who is in `activeWatcher`, nor add tasks. -/
structure Steady (s s' : State) : Prop where
  active : s'.activeWatcher = s.activeWatcher
  joining : s'.joining = s.joining
  tasks : s.tasks = [] → s'.tasks = []

variable {s s' s'' : State} {localAdjustment : Int → Int}

theorem Steady.trans (h : Steady s s') (h' : Steady s' s'') : Steady s s'' :=
  ⟨h'.active.trans h.active, h'.joining.trans h.joining, fun ht => h'.tasks (h.tasks ht)⟩

theorem steady_loop (s : State) (w : ℕ) : Steady s (s.loop w) := by
  rcases State.loop_cases s w with h | ⟨e, -, h⟩
  · rw [h]
    exact ⟨rfl, rfl, id⟩
  · rw [h]
    exact ⟨rfl, rfl, id⟩

theorem steady_removeTask (s : State) (p : Entry → Bool) : Steady s (s.removeTask p) := by
  refine ⟨rfl, rfl, fun ht => ?_⟩
  show s.tasks.filter _ = []
  rw [ht]
  rfl

theorem steady_adjustTimes (s : State) (id : ℕ) (expected now : Int) :
    Steady s (s.adjustTimes localAdjustment id expected now) := by
  refine ⟨rfl, rfl, fun ht => ?_⟩
  unfold State.adjustTimes
  rw [ht]
  rfl

theorem steady_putBack {e : Entry} (he : e ∈ s.tasks) (threw : Bool) (now : Int) :
    Steady s { s with tasks := s.putBack localAdjustment e threw now } := by
  refine ⟨rfl, rfl, fun ht => ?_⟩
  rw [ht] at he
  cases he

theorem steady_wake (s : State) (w id : ℕ) (now : Int) : Steady s (s.wake localAdjustment w id now) := by
  unfold State.wake
  split_ifs
  · exact ⟨rfl, rfl, fun ht => ht⟩
  · split
    · rename_i c e hcur he
      split_ifs
      · exact (steady_adjustTimes s id e.tp now).trans (steady_loop _ w)
      · exact ⟨rfl, rfl, fun ht => ht⟩
      · exact steady_loop s w
    · exact steady_loop s w

theorem steady_finish (s : State) (w id : ℕ) (threw : Bool) (now : Int) :
    Steady s (s.finish localAdjustment w id threw now) := by
  have hnote : Steady s (s.note id (Record.finish threw)) := ⟨rfl, rfl, fun ht => ht⟩
  unfold State.finish
  dsimp only
  split
  · exact hnote.trans (steady_loop _ w)
  · rename_i e he
    exact (hnote.trans (steady_putBack (State.entry_some he).1 threw now)).trans (steady_loop _ w)

/-- The watchers' part of a state that is fine. -/
structure Kept (s : State) : Prop where
  posted : Posted s.activeWatcher s.watchers s.joining
  live : ∀ w, s.activeWatcher = some w → s.tasks = [] ∨ ∃ p, (w, p) ∈ s.watchers

theorem Kept.steady (h : Kept s) (hs : Steady s s') (hw : s'.watchers = s.watchers) : Kept s' := by
  constructor
  · rw [hs.active, hs.joining, hw]
    exact h.posted
  · intro w hw'
    rw [hs.active] at hw'
    rw [hw]
    exact (h.live w hw').imp hs.tasks id

theorem Kept.setPhase (h : Kept s) (w : ℕ) (p : Phase) : Kept (s.setPhase w p) := by
  refine ⟨h.posted.sublist (setPhase_fst s w p ▸ List.Sublist.refl _), fun v hv => (h.live v hv).imp id ?_⟩
  rintro ⟨p', hp⟩
  have hm : v ∈ (s.setPhase w p).watchers.map Prod.fst := by
    rw [setPhase_fst]
    exact List.mem_map.mpr ⟨(v, p'), hp, rfl⟩
  obtain ⟨t, ht, rfl⟩ := List.mem_map.mp hm
  exact ⟨t.2, ht⟩

/-- A watcher goes round its loop, or ends when there are no tasks. -/
theorem Kept.loop (h : Kept s) (w : ℕ) : Kept (s.loop w) := by
  unfold State.loop
  split
  · rename_i ht
    exact ⟨h.posted.sublist (List.filter_sublist.map _), fun _ _ => .inl ht⟩
  · rename_i e rest ht
    have hcur : Kept { s with current := some e.id } := h.steady ⟨rfl, rfl, fun ht => ht⟩ rfl
    exact hcur.setPhase w _

theorem Kept.wake (h : Kept s) (w id : ℕ) (now : Int) : Kept (s.wake localAdjustment w id now) := by
  unfold State.wake
  by_cases ha : s.activeWatcher = none
  · rw [if_pos ha]
    refine ⟨h.posted.sublist (List.filter_sublist.map _), fun v hv => ?_⟩
    rw [ha] at hv
    cases hv
  · rw [if_neg ha]
    split
    · rename_i c e hcur he
      split_ifs
      · exact (h.steady (steady_adjustTimes s id e.tp now) rfl).loop w
      · have hnote : Kept (s.note id Record.begin) := h.steady ⟨rfl, rfl, fun ht => ht⟩ rfl
        exact hnote.setPhase w _
      · exact h.loop w
    · exact h.loop w

theorem Kept.finish (h : Kept s) (w id : ℕ) (threw : Bool) (now : Int) :
    Kept (s.finish localAdjustment w id threw now) := by
  have hnote : Kept (s.note id (Record.finish threw)) := h.steady ⟨rfl, rfl, fun ht => ht⟩ rfl
  unfold State.finish
  dsimp only
  split
  · exact hnote.loop w
  · rename_i e he
    exact (hnote.steady (steady_putBack (State.entry_some he).1 threw now) rfl).loop w

theorem Kept.stop (h : Kept s) : Kept (s.stopWatcher false) := by
  unfold State.stopWatcher
  split
  · rename_i w hw
    exact ⟨h.posted.stop hw, nofun⟩
  · exact h

theorem Kept.startWatcher (hp : Posted (some s.fresh) ((s.fresh, .starting) :: s.watchers) s.joining) :
    Kept s.startWatcher := by
  refine ⟨hp, fun w hw => .inr ⟨.starting, ?_⟩⟩
  cases hw
  exact List.mem_cons_self

theorem Kept.restarted (h : Kept s) {w : ℕ} (hj : (w, true) ∈ s.joining) (hw : ∀ t ∈ s.watchers, t.1 ≠ w) :
    Kept { s with joining := s.joining.erase (w, true) }.startWatcher :=
  .startWatcher (s := { s with joining := s.joining.erase (w, true) }) (h.posted.restarted hj hw).2

/-- A task that is not the first of the map joins others. -/
theorem Kept.add_behind (h : Kept s) {task : Task} {now : Int}
    (hf : s.comesFirst localAdjustment task now = false) :
    Kept (s.add localAdjustment task now) ∧ (Manned (s.add localAdjustment task now) ↔ Manned s) := by
  have hadd : s.add localAdjustment task now = s.insertTask localAdjustment task now := by
    unfold State.add
    unfold State.comesFirst at hf
    dsimp only
    rw [hf]
    exact if_neg Bool.false_ne_true
  rw [hadd]
  refine ⟨h.steady ⟨rfl, rfl, fun ht => absurd ht (tasks_ne_nil_of_not_first hf)⟩ rfl, Iff.rfl⟩

theorem Kept.add_first (h : Kept s) {task : Task} {now : Int}
    (hf : s.comesFirst localAdjustment task now = true) (hs : Settled s.watchers s.joining) :
    Kept (s.add localAdjustment task now) ∧ Manned (s.add localAdjustment task now) := by
  unfold State.add
  unfold State.comesFirst at hf
  dsimp only
  rw [if_pos hf]
  unfold State.stopWatcher
  split
  · rename_i w hw
    exact ⟨⟨h.posted.restart hs hw, nofun⟩, .inr ⟨w, List.mem_cons_self⟩⟩
  · rename_i hw
    rw [if_pos rfl]
    refine ⟨.startWatcher ?_, .inl rfl⟩
    have hposted := h.posted
    replace hw : s.activeWatcher = none := hw
    rw [hw] at hposted
    exact hposted.start hs _

/-! ## Every step -/

structure Sane (m : Watched) : Prop where
  failure : m.failure = none
  kept : Kept m.state
  manned : m.state.tasks = [] ∨ m.stopped = true ∨ Manned m.state

variable {m m' : Watched}

theorem Steady.manned (h : Steady s s') {stopped : Bool} (hm : s.tasks = [] ∨ stopped = true ∨ Manned s) :
    s'.tasks = [] ∨ stopped = true ∨ Manned s' := by
  unfold Manned at *
  rw [h.active, h.joining]
  exact hm.imp_left h.tasks

theorem Sane.steady (h : m.Sane) (hs : Steady m.state s') (hk : Kept s') {blocked : List (ℕ × ℕ)} :
    Sane { m with state := s', blocked := blocked } :=
  ⟨h.failure, hk, hs.manned h.manned⟩

theorem Sane.call (h : m.Sane) {a : State.Act} (hs : State.Step localAdjustment a m.state s')
    (ho : Orderly localAdjustment m (.call a)) :
    Sane { m with state := s', stopped := marked a m.stopped, blocked := unblocked a m.blocked } := by
  obtain ⟨s, blocked, stopped, failure⟩ := m
  dsimp only at hs ho
  cases hs with
  | @add _ handle interval align count retries catchup now hint =>
    unfold Orderly at ho
    dsimp only at ho
    split_ifs at ho with hf
    · obtain ⟨hk, hm⟩ := h.kept.add_first hf ho
      exact ⟨h.failure, hk, .inr (.inr hm)⟩
    · obtain ⟨hk, hm⟩ := h.kept.add_behind (Bool.eq_false_iff.mpr hf)
      exact ⟨h.failure, hk, .inr (.inr (hm.mpr ho))⟩
  | removeHandle => exact h.steady (steady_removeTask s _) (h.kept.steady (steady_removeTask s _) rfl)
  | removeTask => exact h.steady (steady_removeTask s _) (h.kept.steady (steady_removeTask s _) rfl)
  | stop => exact ⟨h.failure, h.kept.stop, .inr (.inl rfl)⟩
  | @joined _ w hj hw =>
    refine ⟨h.failure, ⟨h.kept.posted.joined hw, h.kept.live⟩, h.manned.imp id (.imp id (.imp id ?_))⟩
    rintro ⟨v, hv⟩
    exact ⟨v, (List.mem_erase_of_ne (by simp)).mpr hv⟩
  | restarted hj hw ha => exact ⟨h.failure, h.kept.restarted hj hw, .inr (.inr (.inl rfl))⟩
  | begin => exact h.steady (steady_loop s _) (h.kept.loop _)
  | wake => exact h.steady (steady_wake s _ _ _) (h.kept.wake _ _ _)
  | finish => exact h.steady (steady_finish s _ _ _ _) (h.kept.finish _ _ _ _)

theorem Sane.move (h : m.Sane) {a : Act} (hs : Move localAdjustment a m m') (ho : Orderly localAdjustment m a) :
    m'.Sane := by
  cases hs with
  | call _ hs _ => exact h.call hs ho
  | callback _ hw _ _ =>
    obtain ⟨hf, hm⟩ := ho
    unfold callback
    rw [if_neg (by rw [hf]; exact Bool.false_ne_true)]
    obtain ⟨hk, hm'⟩ := h.kept.add_behind hf
    exact ⟨h.failure, hk, .inr (.inr (hm'.mpr hm))⟩
  | terminate _ hj hw ha => exact absurd (h.kept.posted.restarts _ hj).1 ha

theorem Sane.handedOver (h : m.Sane) : m.HandedOver := by
  refine ⟨h.failure, fun hj ht hstop => ?_⟩
  have hactive : m.state.activeWatcher.isSome := by
    rcases h.manned with hnil | hstop' | hactive | ⟨w, hw⟩
    · exact absurd hnil ht
    · rw [hstop] at hstop'
      cases hstop'
    · exact hactive
    · rw [hj] at hw
      cases hw
  obtain ⟨w, hw⟩ := Option.isSome_iff_exists.mp hactive
  obtain ⟨p, hp⟩ := (h.kept.live w hw).resolve_left ht
  have hpos := List.length_pos_of_mem hp
  have := h.kept.posted.alone
  omega

def start (maxJitter : Int) : Watched := { state := .start maxJitter }

/-- Some thread takes a step, which is an orderly one. -/
def OrderlyMove (localAdjustment : Int → Int) (m m' : Watched) : Prop :=
  ∃ a, Move localAdjustment a m m' ∧ Orderly localAdjustment m a

def AnyMove (localAdjustment : Int → Int) (m m' : Watched) : Prop := ∃ a, Move localAdjustment a m m'

theorem sane_run {maxJitter : Int} (hr : ReflTransGen (OrderlyMove localAdjustment) (start maxJitter) m) : m.Sane := by
  induction hr with
  | refl => exact ⟨rfl, ⟨⟨Nat.zero_le _, nofun, nofun⟩, nofun⟩, .inl rfl⟩
  | tail _ hs ih =>
    obtain ⟨a, hs, ho⟩ := hs
    exact ih.move hs ho

theorem handedOver_of_orderly {maxJitter : Int} (hr : ReflTransGen (OrderlyMove localAdjustment) (start maxJitter) m) :
    m.HandedOver :=
  (sane_run hr).handedOver

/-! ## Tasks that come first -/

theorem added_step {m : Watched} (hm : m.failure = none) (handle : String) (now : Int) :
    Move State.utc (.call (.add (State.named handle) now)) m
      { m with state := m.state.add State.utc (State.named handle) now, stopped := false } :=
  .call hm (.add (by decide)) nofun

theorem orderly_first {task : Task} {now : Int} (hf : m.state.comesFirst localAdjustment task now = true)
    (hs : Settled m.state.watchers m.state.joining) : Orderly localAdjustment m (.call (.add task now)) := by
  unfold Orderly
  dsimp only
  rw [if_pos hf]
  exact hs

/-- The watcher waits for a task, as another one is added that comes first. -/
def preceded : Watched :=
  { state := (((State.start 5).add State.utc (State.named "first") 0).loop 1).add State.utc (State.named "earlier") (-5) }

theorem preceded_reached : ReflTransGen (OrderlyMove State.utc) (start 5) preceded := by
  calc ReflTransGen (OrderlyMove State.utc) (start 5) { state := (State.start 5).add State.utc (State.named "first") 0 } :=
        .single ⟨_, added_step rfl "first" 0, orderly_first (by decide) nofun⟩
    ReflTransGen (OrderlyMove State.utc) _ { state := ((State.start 5).add State.utc (State.named "first") 0).loop 1 } :=
        .single ⟨.call (.begin 1), .call rfl (.begin (List.mem_singleton_self _)) nofun, trivial⟩
    ReflTransGen (OrderlyMove State.utc) _ preceded :=
        .single ⟨_, added_step rfl "earlier" (-5), orderly_first (by decide) nofun⟩

/-- The watcher has ended, and the call that waited for it has started the next one. -/
def replaced : Watched :=
  { state := { preceded.state.wake State.utc 1 0 0 with joining := [] }.startWatcher }

theorem replaced_reached : ReflTransGen (OrderlyMove State.utc) preceded replaced := by
  calc ReflTransGen (OrderlyMove State.utc) preceded { state := preceded.state.wake State.utc 1 0 0 } :=
        .single ⟨.call (.wake 1 0 0), .call rfl (.wake (List.mem_singleton_self _)) nofun, trivial⟩
    ReflTransGen (OrderlyMove State.utc) _ replaced :=
        .single ⟨.call (.restarted 1), .call rfl (.restarted (by decide) (by decide) rfl) nofun, trivial⟩

/-- The earlier task is invoked, and adds a task that comes last. -/
def calledBack : Watched :=
  { state := ((((replaced.state.loop 3).wake State.utc 3 2 (-5)).add State.utc (State.named "last") 7).finish State.utc 3 2
      false (-5)) }

theorem calledBack_reached : ReflTransGen (OrderlyMove State.utc) replaced calledBack := by
  calc ReflTransGen (OrderlyMove State.utc) replaced { state := replaced.state.loop 3 } :=
        .single ⟨.call (.begin 3), .call rfl (.begin (List.mem_singleton_self _)) nofun, trivial⟩
    ReflTransGen (OrderlyMove State.utc) _ { state := (replaced.state.loop 3).wake State.utc 3 2 (-5) } :=
        .single ⟨.call (.wake 3 2 (-5)), .call rfl (.wake (List.mem_singleton_self _)) nofun, trivial⟩
    ReflTransGen (OrderlyMove State.utc) _
        { state := ((replaced.state.loop 3).wake State.utc 3 2 (-5)).add State.utc (State.named "last") 7 } :=
        .single ⟨.callback 3 (State.named "last") 7,
          .callback rfl (List.mem_singleton_self _) nofun (by decide), by decide, .inl rfl⟩
    ReflTransGen (OrderlyMove State.utc) _ calledBack :=
        .single ⟨.call (.finish 3 2 false (-5)), .call rfl (.finish (List.mem_singleton_self _)) nofun, trivial⟩

/-- The scheduler is stopped, and while `stop` has not returned a task is added. -/
def restarted : Watched :=
  { state := { (((calledBack.state.stopWatcher false).wake State.utc 3 0 0).add State.utc (State.named "next") (-7)) with
      joining := [] } }

theorem restarted_reached : ReflTransGen (OrderlyMove State.utc) calledBack restarted := by
  calc ReflTransGen (OrderlyMove State.utc) calledBack { state := calledBack.state.stopWatcher false, stopped := true } :=
        .single ⟨.call .stop, .call rfl .stop nofun, trivial⟩
    ReflTransGen (OrderlyMove State.utc) _
        { state := (calledBack.state.stopWatcher false).wake State.utc 3 0 0, stopped := true } :=
        .single ⟨.call (.wake 3 0 0), .call rfl (.wake (List.mem_singleton_self _)) nofun, trivial⟩
    ReflTransGen (OrderlyMove State.utc) _
        { state := ((calledBack.state.stopWatcher false).wake State.utc 3 0 0).add State.utc (State.named "next") (-7) } :=
        .single ⟨_, added_step rfl "next" (-7), orderly_first (by decide) fun j hj => by
          rw [List.mem_singleton.mp hj]
          decide⟩
    ReflTransGen (OrderlyMove State.utc) _ restarted :=
        .single ⟨.call (.joined 3), .call rfl (.joined (by decide) (by decide)) nofun, trivial⟩

theorem handedOver_of_restarted :
    restarted.failure = none ∧ restarted.state.tasks.length = 4 ∧ restarted.state.watchers.length = 1 := by
  have hr := ((preceded_reached.trans replaced_reached).trans calledBack_reached).trans restarted_reached
  obtain ⟨hfailure, hwatched⟩ := handedOver_of_orderly hr
  exact ⟨hfailure, by decide, hwatched rfl (List.ne_nil_of_length_pos (by decide)) rfl⟩

/-- While one call waits for the watcher, another one starts the next. -/
def overlapped : Watched :=
  { state := (preceded.state.wake State.utc 1 0 0).add State.utc (State.named "earliest") (-6) }

theorem overlapped_reached : ReflTransGen (AnyMove State.utc) (start 5) overlapped := by
  have hpreceded : ReflTransGen (AnyMove State.utc) (start 5) preceded :=
    preceded_reached.lift id fun _ _ ⟨a, hs, _⟩ => ⟨a, hs⟩
  calc ReflTransGen (AnyMove State.utc) (start 5) preceded := hpreceded
    ReflTransGen (AnyMove State.utc) _ { state := preceded.state.wake State.utc 1 0 0 } :=
        .single ⟨.call (.wake 1 0 0), .call rfl (.wake (List.mem_singleton_self _)) nofun⟩
    ReflTransGen (AnyMove State.utc) _ overlapped := .single ⟨_, added_step rfl "earliest" (-6)⟩

/-- The first call then starts its own. -/
theorem terminated : ¬ ∀ m, ReflTransGen (AnyMove State.utc) (start 5) m → m.HandedOver := by
  intro hall
  have hstep : AnyMove State.utc overlapped { overlapped with failure := some .terminated } :=
    ⟨.terminate 1, .terminate rfl (by decide) (by decide) (by decide)⟩
  have hfine := (hall _ (overlapped_reached.tail hstep)).failure
  cases hfine

end Watched

end Scheduler

end CommonCore
