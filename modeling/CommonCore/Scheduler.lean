import CommonCore.DateTime

/-!
# The task scheduler

Tasks wait in the order of their next invocation, and a watcher thread takes the
first one each time. `Task::invoke` counts down the invocations that remain and
tells whether the task shall be kept; the watcher puts the task back under a
later time if so, and otherwise leaves it where it is.
-/

namespace CommonCore

namespace Scheduler

open Dt (hour lastAlignedRef)

inductive Alignment
  | alignStart | alignNext | alignUtc | alignLocal
  deriving DecidableEq

/-- `Scheduler::Task`, without its invocation. Times are in nanoseconds. -/
structure Task where
  handle : Bytes
  interval : Int
  align : Alignment
  count : ℕ
  remaining : ℕ
  retries : ℕ
  failures : ℕ
  catchup : Bool

/-! ## When a task is due -/

section
variable (localAdjustment : Int → Int)

def Task.nextAligned (task : Task) (reference tp : Int) : Int :=
  let aligned := lastAlignedRef tp reference task.interval
  if aligned < tp then aligned + task.interval else aligned

def Task.alignedTime (task : Task) (now : Int) : Int :=
  match task.align with
  | .alignStart => now
  | .alignNext => now + task.interval
  | .alignUtc => task.nextAligned 0 now
  | .alignLocal => task.nextAligned (localAdjustment now) now

def Task.nextTime (task : Task) (tp now : Int) : Int :=
  let next := tp + task.interval
  let next :=
    if task.align = .alignLocal ∧ hour < task.interval ∧ hour.tmod task.interval ≠ 0 then
      next + (localAdjustment next - localAdjustment tp)
    else next
  if next < now ∧ task.catchup = false then now - (now - next).tmod task.interval + task.interval else next

def Task.adjustedTime (task : Task) (oldTime newTime tp : Int) : Int :=
  match task.align with
  | .alignStart | .alignNext => tp + (newTime - oldTime)
  | .alignLocal | .alignUtc => task.alignedTime localAdjustment newTime

end

/-- `Task::invoke`, given whether the invocation throws: is the task kept? -/
def Task.invoke (task : Task) (threw : Bool) : Bool × Task :=
  if threw then (task.failures < task.retries, { task with failures := (task.failures + 1) % 2 ^ 32 })
  else if task.count = 0 then (true, task)
  else if 0 < task.remaining then (0 < task.remaining - 1, { task with remaining := task.remaining - 1 })
  else (false, task)

/-! ## The scheduler's state -/

/-- An element of the task map. Its identity stands for its address. -/
structure Entry where
  tp : Int
  id : ℕ
  task : Task

/-- `std::multimap::insert`: after those with the same key. -/
def insert (e : Entry) (tasks : List Entry) : List Entry :=
  tasks.takeWhile (·.tp ≤ e.tp) ++ e :: tasks.dropWhile (·.tp ≤ e.tp)

/-- Where a watcher thread is. -/
inductive Phase
  | starting
  | waiting (id : ℕ)
  | invoking (id : ℕ)

/-- What has happened to a task, which the scheduler does not look at. -/
structure Record where
  count : ℕ := 0
  started : ℕ := 0
  ended : ℕ := 0
  threw : Bool := false

def Record.begin (r : Record) : Record := { r with started := r.started + 1 }

def Record.finish (threw : Bool) (r : Record) : Record :=
  { r with ended := r.ended + 1, threw := r.threw || threw }

theorem Record.finish_threw {threw : Bool} {r : Record} :
    (r.finish threw).threw = false ↔ r.threw = false ∧ threw = false := by
  unfold Record.finish
  exact Bool.or_eq_false_iff

/-- The scheduler, its running watchers, and the calls that wait for a watcher
to end; they start another one afterwards if so marked. -/
structure State where
  maxJitter : Int
  tasks : List Entry := []
  current : Option ℕ := none
  activeWatcher : Option ℕ := none
  watchers : List (ℕ × Phase) := []
  joining : List (ℕ × Bool) := []
  fresh : ℕ := 0
  record : ℕ → Record := fun _ => {}

namespace State

def has (s : State) (id : ℕ) : Prop := ∃ e ∈ s.tasks, e.id = id

def removeTask (s : State) (p : Entry → Bool) : State :=
  { s with
    tasks := s.tasks.filter fun e => !p e
    current := if s.tasks.any fun e => p e && s.current == some e.id then none else s.current }

def startWatcher (s : State) : State :=
  { s with
    activeWatcher := some s.fresh
    watchers := (s.fresh, .starting) :: s.watchers
    fresh := s.fresh + 1 }

/-- `stop_watcher`, up to where it waits for the watcher to end; `restart` if
`start_watcher` follows. -/
def stopWatcher (s : State) (restart : Bool) : State :=
  match s.activeWatcher with
  | some w => { s with activeWatcher := none, joining := (w, restart) :: s.joining }
  | none => if restart then s.startWatcher else s

section
variable (localAdjustment : Int → Int)

/-- The map with a new task, in the place of those with its handle. -/
def insertTask (s : State) (task : Task) (now : Int) : State :=
  let s := s.removeTask fun e => e.task.handle == task.handle
  { s with
    tasks := insert ⟨task.alignedTime localAdjustment now, s.fresh, task⟩ s.tasks
    fresh := s.fresh + 1
    record := Function.update s.record s.fresh { count := task.count } }

def isFirst (s : State) (id : ℕ) : Bool := s.tasks.head?.any (·.id == id)

/-- `add`, once the interval has been checked. -/
def add (s : State) (task : Task) (now : Int) : State :=
  let s' := s.insertTask localAdjustment task now
  if s'.isFirst s.fresh then s'.stopWatcher true else s'

def setPhase (s : State) (w : ℕ) (p : Phase) : State :=
  { s with watchers := s.watchers.map fun t => if t.1 = w then (w, p) else t }

/-- The watcher's loop up to where it waits, or its end. -/
def loop (s : State) (w : ℕ) : State :=
  match s.tasks with
  | [] => { s with watchers := s.watchers.filter (·.1 ≠ w) }
  | e :: _ => { s with current := some e.id }.setPhase w (.waiting e.id)

/-- The new times of tasks, one after another. The expected time is that of the
task `id`, and is a new one with it. -/
def rekey (id : ℕ) (now : Int) : Int → List Entry → List Entry
  | _, [] => []
  | expected, e :: tasks =>
    let tp := e.task.adjustedTime localAdjustment expected now e.tp
    { e with tp } :: rekey id now (if e.id = id then tp else expected) tasks

def adjustTimes (s : State) (id : ℕ) (expected now : Int) : State :=
  { s with tasks := (rekey localAdjustment id now expected s.tasks).foldl (fun l e => insert e l) [] }

/-- Write down what happens to a task. -/
def note (s : State) (id : ℕ) (f : Record → Record) : State :=
  { s with record := Function.update s.record id (f (s.record id)) }

def entry (s : State) (id : ℕ) : Option Entry := s.tasks.find? fun e => e.id == id

/-- The watcher `w` wakes up from its wait for `id`. A task that is gone while
`current` is set takes two watchers; the source then reads a freed key. -/
def wake (s : State) (w id : ℕ) (now : Int) : State :=
  if s.activeWatcher = none then { s with watchers := s.watchers.filter (·.1 ≠ w) }
  else
    match s.current, s.entry id with
    | some c, some e =>
      if now < e.tp ∨ e.tp + s.maxJitter < now then (s.adjustTimes localAdjustment id e.tp now).loop w
      else if c = id then
        (s.note id Record.begin).setPhase w (.invoking id)
      else s.loop w
    | _, _ => s.loop w

/-- The map after the invocation of a task in it. -/
def putBack (s : State) (e : Entry) (threw : Bool) (now : Int) : List Entry :=
  let r := e.task.invoke threw
  if r.1 ∧ s.current.isSome then
    insert ⟨r.2.nextTime localAdjustment e.tp now, e.id, r.2⟩ (s.tasks.filter (·.id ≠ e.id))
  else s.tasks.map fun e' => if e'.id = e.id then { e' with task := r.2 } else e'

/-- The invocation of `id` has returned or thrown. -/
def finish (s : State) (w id : ℕ) (threw : Bool) (now : Int) : State :=
  let s := s.note id (Record.finish threw)
  match s.entry id with
  | none => s.loop w
  | some e => { s with tasks := s.putBack localAdjustment e threw now }.loop w

/-- Who takes a step: a call, or a watcher at what the clock shows. -/
inductive Act
  | add (task : Task) (now : Int)
  | removeHandle (handle : Bytes)
  | removeTask (id : ℕ)
  | stop
  | joined (w : ℕ)
  | restarted (w : ℕ)
  | begin (w : ℕ)
  | wake (w id : ℕ) (now : Int)
  | finish (w id : ℕ) (threw : Bool) (now : Int)

/-- The locked sections. -/
inductive Step : Act → State → State → Prop
  | add {s handle interval align count retries catchup now} : 0 < interval →
      Step (.add ⟨handle, interval, align, count, count, retries, 0, catchup⟩ now) s
        (s.add localAdjustment ⟨handle, interval, align, count, count, retries, 0, catchup⟩ now)
  | removeHandle {s handle} : Step (.removeHandle handle) s (s.removeTask fun e => e.task.handle == handle)
  | removeTask {s id} : Step (.removeTask id) s (s.removeTask fun e => e.id == id)
  | stop {s} : Step .stop s (s.stopWatcher false)
  | joined {s w} : (w, false) ∈ s.joining → (∀ t ∈ s.watchers, t.1 ≠ w) →
      Step (.joined w) s { s with joining := s.joining.erase (w, false) }
  | restarted {s w} : (w, true) ∈ s.joining → (∀ t ∈ s.watchers, t.1 ≠ w) → s.activeWatcher = none →
      Step (.restarted w) s { s with joining := s.joining.erase (w, true) }.startWatcher
  | begin {s w} : (w, .starting) ∈ s.watchers → Step (.begin w) s (s.loop w)
  | wake {s w id now} : (w, .waiting id) ∈ s.watchers → Step (.wake w id now) s (s.wake localAdjustment w id now)
  | finish {s w id threw now} : (w, .invoking id) ∈ s.watchers →
      Step (.finish w id threw now) s (s.finish localAdjustment w id threw now)

end

end State

end Scheduler

end CommonCore
