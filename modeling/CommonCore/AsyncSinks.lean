import CommonCore.BlockingQueue
import CommonCore.RotatingSinks

/-!
# Asynchronous sinks

A sink queues what it captures for a thread of its own. Captures, the worker
and the calls to `open` and `close` take their steps in any order.
-/

namespace CommonCore.Logging

/-- An accepted item, its place in the order of acceptance, and how often the
sink had been opened. -/
structure Ticket (α : Type) where
  place : ℕ
  session : ℕ
  item : α

/-- A file or database that is open: for which `open`, and after how many
rotations. -/
structure Output where
  session : ℕ
  rotation : ℕ := 0
  deriving DecidableEq

/-- An item that has been handled, and the output that was open then. -/
structure Row (α : Type) where
  ticket : Ticket α
  output : Output

structure Written (α : Type) extends Row α where
  writtenTo : Output

/-- Where a thread is in a call of `capture`. -/
inductive Call (α : Type)
  | idle
  | opened (a : α)
  | tested (a : α)

inductive Worker (α : Type)
  | absent
  | starting
  | looping
  | getting
  | holding (ticket : Ticket α)
  | flushing
  | exited

/-- Where the thread that opens and closes the sink is. -/
inductive Control
  | idle | opening | closingQueue | closingFile
  deriving DecidableEq

structure AsyncSink (α : Type) where
  queue : Option (BlockingQueue (Ticket α)) := none
  /-- Of `workerthread_`, which is neither joined nor detached. -/
  joinable : Bool := false
  worker : Worker α := .absent
  control : Control := .idle
  calls : ℕ → Call α := fun _ => .idle
  sessions : ℕ := 0
  output : Option Output := none
  /-- The stream of a CSV sink is not good. -/
  bad : Bool := false
  pendingRows : List (Row α) := []
  terminated : Bool := false
  accepted : List (Ticket α) := []
  /-- The places of the items that queue overflow has displaced. -/
  displaced : List ℕ := []
  written : List (Written α) := []

structure AsyncSettings where
  kind : Kind
  queueSize : ℕ := 0
  batchSize : ℕ := 0

namespace AsyncSink

variable {α : Type}

def isOpen (s : AsyncSink α) : Bool :=
  match s.queue with
  | some q => !q.closed
  | none => false

/-- The ticket of the item that is accepted next. -/
def ticket (s : AsyncSink α) (item : α) : Ticket α := ⟨s.accepted.length, s.sessions, item⟩

/-! ## Captures -/

/-- A thread calls `capture`, which tests whether the sink is open. -/
def capture (t : ℕ) (a : α) (s : AsyncSink α) : AsyncSink α :=
  match s.calls t with
  | .idle => if s.isOpen then { s with calls := Function.update s.calls t (.opened a) } else s
  | _ => s

/-- `put` tests whether the queue is closed. Where it is, the item is gone,
though `capture` returns `true`. -/
def putTest (t : ℕ) (s : AsyncSink α) : AsyncSink α :=
  match s.calls t with
  | .opened a =>
    if s.isOpen then { s with calls := Function.update s.calls t (.tested a) }
    else { s with calls := Function.update s.calls t .idle, accepted := s.accepted ++ [s.ticket a] }
  | _ => s

/-- The oldest item, where there is no space for another. -/
def overflow (q : BlockingQueue (Ticket α)) : List (Ticket α) := if q.HasSpace then [] else q.queue.take 1

/-- The locked section of `put`, which reopens the queue. -/
def put (t : ℕ) (s : AsyncSink α) : AsyncSink α :=
  match s.calls t, s.queue with
  | .tested a, some q =>
    match q.putLocked (s.ticket a) with
    | some (_, q') =>
      { s with
        calls := Function.update s.calls t .idle
        queue := some q'
        accepted := s.accepted ++ [s.ticket a]
        displaced := s.displaced ++ (overflow q).map Ticket.place }
    | none => s
  | _, _ => s

/-! ## The worker -/

/-- `check_rotation` closes one output and opens the next. -/
def rotate (rotates : Bool) (s : AsyncSink α) : AsyncSink α :=
  if rotates then { s with output := some ⟨s.sessions, (s.output.elim 0 Output.rotation) + 1⟩ } else s

def write (ticket : Ticket α) (s : AsyncSink α) : AsyncSink α :=
  match s.output with
  | some o => { s with written := s.written ++ [⟨⟨ticket, o⟩, o⟩] }
  | none => { s with bad := true }

def handleItem (kind : Kind) (rotates : Bool) (ticket : Ticket α) (s : AsyncSink α) : AsyncSink α :=
  match kind with
  | .logFileSink | .jsonFileSink => if s.output.isSome then write ticket (rotate rotates s) else s
  | .csvFileSink => if s.bad then s else write ticket (rotate rotates s)
  | .sqliteSink =>
    let s := rotate rotates s
    { s with pendingRows := s.pendingRows ++ [⟨ticket, s.output.getD ⟨s.sessions, 0⟩⟩] }

/-- Rows that cannot be inserted are given up. -/
def flush (s : AsyncSink α) : AsyncSink α :=
  match s.output with
  | some o => { s with written := s.written ++ s.pendingRows.map fun r => ⟨r, o⟩, pendingRows := [] }
  | none => { s with pendingRows := [] }

/-- The next step of the worker. A shutdown may have been signalled, and the
item that it holds may make the sink rotate. First that of a database makes its
placeholders, which throws where there is no connection: nothing catches it. -/
def work (c : AsyncSettings) (shutdown rotates : Bool) (s : AsyncSink α) : AsyncSink α :=
  match s.worker, s.queue with
  | .starting, _ => if s.output.isSome then { s with worker := .looping } else { s with terminated := true }
  | .looping, some q =>
    if c.kind = .sqliteSink then { s with worker := if s.isOpen then .getting else .exited }
    else
      match q.get shutdown with
      | some (some ticket, q') => { s with queue := some q', worker := .holding ticket }
      | some (none, q') => { s with queue := some q', worker := .exited }
      | none => s
  | .getting, some q =>
    match q.take with
    | (some ticket, q') => { s with queue := some q', worker := .holding ticket }
    | (none, q') => { s with queue := some q', worker := .flushing }
  | .holding ticket, _ =>
    let s := handleItem c.kind rotates ticket s
    { s with worker := if c.kind = .sqliteSink ∧ c.batchSize ≤ s.pendingRows.length then .flushing else .looping }
  | .flushing, _ => { flush s with worker := .looping }
  | _, _ => s

/-! ## Opening and closing -/

/-- The file is opened first. A database that is open already stays open, and a
stream that is open already fails. -/
def openFile (c : AsyncSettings) (same : Bool) (s : AsyncSink α) : AsyncSink α :=
  match s.control with
  | .idle =>
    if c.kind = .sqliteSink ∧ same ∧ s.output.isSome then { s with control := .opening }
    else if c.kind = .csvFileSink ∧ s.output.isSome then { s with bad := true }
    else { s with control := .opening, sessions := s.sessions + 1, output := some ⟨s.sessions + 1, 0⟩, bad := false }
  | _ => s

/-- `open_async_queue`. Assigning to a thread that is joinable terminates the
process. -/
def openQueue (c : AsyncSettings) (s : AsyncSink α) : AsyncSink α :=
  match s.control with
  | .opening =>
    if s.isOpen then { s with control := .idle }
    else
      { s with
        control := .idle
        queue := some { maxsize := c.queueSize, overflowDisposition := .discardOldest }
        joinable := true
        worker := if c.kind = .sqliteSink then .starting else .looping
        terminated := s.joinable }
  | _ => s

/-- `close_async_queue` tests whether the sink is open. -/
def closeTest (s : AsyncSink α) : AsyncSink α :=
  match s.control with
  | .idle => { s with control := if s.isOpen then .closingQueue else .closingFile }
  | _ => s

def closeQueue (s : AsyncSink α) : AsyncSink α :=
  match s.control with
  | .closingQueue => { s with control := .closingFile, queue := s.queue.map BlockingQueue.close }
  | _ => s

def closeFile (s : AsyncSink α) : AsyncSink α :=
  match s.control with
  | .closingFile => { s with control := .idle, output := none }
  | _ => s

/-! ## Runs -/

inductive Event (α : Type)
  | capture (t : ℕ) (a : α)
  | putTest (t : ℕ)
  | put (t : ℕ)
  | work (shutdown rotates : Bool)
  | openFile (same : Bool)
  | openQueue
  | closeTest
  | closeQueue
  | closeFile

/-- A step that is not due leaves the sink as it is. -/
def step (c : AsyncSettings) (s : AsyncSink α) : Event α → AsyncSink α
  | .capture t a => capture t a s
  | .putTest t => putTest t s
  | .put t => put t s
  | .work shutdown rotates => work c shutdown rotates s
  | .openFile same => openFile c same s
  | .openQueue => openQueue c s
  | .closeTest => closeTest s
  | .closeQueue => closeQueue s
  | .closeFile => closeFile s

/-- There are no steps once the process is terminated. -/
def run (c : AsyncSettings) (s : AsyncSink α) (events : List (Event α)) : AsyncSink α :=
  events.foldl (fun s e => if s.terminated then s else step c s e) s

/-! ## What is not lost -/

def Worker.hand : Worker α → List (Ticket α)
  | .holding ticket => [ticket]
  | _ => []

def queued (s : AsyncSink α) : List (Ticket α) := s.queue.elim [] BlockingQueue.queue

/-- The items that are on their way. -/
def unwritten (s : AsyncSink α) : List (Ticket α) := s.pendingRows.map Row.ticket ++ (Worker.hand s.worker ++ s.queued)

/-- The accepted items, less those that queue overflow has displaced. -/
def due (s : AsyncSink α) : List (Ticket α) := s.accepted.filter fun t => t.place ∉ s.displaced

/-- Each item is written once, in order, to the output that was open when it was
handled. What is on its way belongs to the output that is open. -/
structure LosesNothing (s : AsyncSink α) : Prop where
  running : s.terminated = false
  once : (s.accepted.map Ticket.place).Nodup
  order : s.written.map (fun w => w.ticket) ++ s.unwritten = s.due
  placed : ∀ w ∈ s.written, w.writtenTo = w.output
  belongs : ∀ t ∈ s.unwritten, s.output.map Output.session = some t.session

/-- The condition of one step: the queue is still open for a `put`; a database
when its worker starts, and no batch is under way where it rotates; the sink is
not opened again, and it is closed when it has nothing to do. -/
def Admissible (c : AsyncSettings) (s : AsyncSink α) : Event α → Prop
  | .putTest t => ∀ a, s.calls t = .opened a → s.isOpen = true
  | .work _ rotates => (s.worker = .starting → s.output.isSome = true) ∧ (rotates = true → s.pendingRows = [])
  | .openFile same => s.control = .idle →
    (c.kind = .sqliteSink ∧ same = true ∧ s.output.isSome = true) ∨
      (s.isOpen = false ∨ s.unwritten = []) ∧ ¬ (c.kind = .csvFileSink ∧ s.output.isSome = true)
  | .openQueue => s.control = .opening → s.isOpen = true ∨ s.queue = none
  | .closeQueue => s.control = .closingQueue → s.unwritten = [] ∧ ∀ t a, s.calls t ≠ .tested a
  | .capture _ _ | .put _ | .closeTest | .closeFile => True

def AdmissibleRun (c : AsyncSettings) : AsyncSink α → List (Event α) → Prop
  | _, [] => True
  | s, e :: events => Admissible c s e ∧ AdmissibleRun c (step c s e) events

structure Inv (c : AsyncSettings) (s : AsyncSink α) : Prop where
  running : s.terminated = false
  good : s.bad = false
  places : s.accepted.map Ticket.place = List.range s.accepted.length
  displaced : ∀ p ∈ s.displaced, p < s.accepted.length
  order : s.written.map (fun w => w.ticket) ++ s.unwritten = s.due
  placed : ∀ w ∈ s.written, w.writtenTo = w.output
  rows : ∀ r ∈ s.pendingRows, s.output = some r.output
  batches : c.kind ≠ .sqliteSink → s.pendingRows = []
  current : ∀ o, s.output = some o → o.session = s.sessions
  belongs : ∀ t ∈ s.unwritten, s.output.isSome = true ∧ t.session = s.sessions
  disposition : ∀ q, s.queue = some q → q.overflowDisposition = .discardOldest

/-- The output is open while the queue is, and nothing comes after it is closed. -/
structure Drained (s : AsyncSink α) : Prop where
  fresh : s.queue = none → s.joinable = false ∧ s.worker = .absent
  opening : s.control = .opening → s.output.isSome = true
  closing : s.control = .closingFile → s.isOpen = false
  opened : s.isOpen = true → s.output.isSome = true
  closed : s.isOpen = false → s.unwritten = [] ∧ ∀ t a, s.calls t ≠ .tested a

variable {c : AsyncSettings} {s : AsyncSink α}

theorem Inv.losesNothing (hs : Inv c s) : s.LosesNothing := by
  refine ⟨hs.running, hs.places ▸ List.nodup_range, hs.order, hs.placed, fun t ht => ?_⟩
  obtain ⟨hopen, hsession⟩ := hs.belongs t ht
  obtain ⟨o, ho⟩ := Option.isSome_iff_exists.mp hopen
  rw [ho, hsession, ← hs.current o ho]
  rfl

theorem inv_start (c : AsyncSettings) : Inv c ({} : AsyncSink α) := by
  refine ⟨rfl, rfl, rfl, ?_, rfl, ?_, ?_, fun _ => rfl, ?_, ?_, ?_⟩
  · exact fun _ h => absurd h List.not_mem_nil
  · exact fun _ h => absurd h List.not_mem_nil
  · exact fun _ h => absurd h List.not_mem_nil
  · exact fun _ h => absurd h (by simp)
  · exact fun _ h => absurd h List.not_mem_nil
  · exact fun _ h => absurd h (by simp)

theorem Inv.of_calls (hs : Inv c s) (calls : ℕ → Call α) : Inv c { s with calls } :=
  ⟨hs.running, hs.good, hs.places, hs.displaced, hs.order, hs.placed, hs.rows, hs.batches, hs.current, hs.belongs, hs.disposition⟩

theorem Inv.of_control (hs : Inv c s) (control : Control) : Inv c { s with control } :=
  ⟨hs.running, hs.good, hs.places, hs.displaced, hs.order, hs.placed, hs.rows, hs.batches, hs.current, hs.belongs, hs.disposition⟩

theorem Inv.capture (hs : Inv c s) (t : ℕ) (a : α) : Inv c (capture t a s) := by
  unfold AsyncSink.capture
  split
  · split_ifs
    · exact hs.of_calls _
    · exact hs
  · exact hs

theorem Inv.putTest (hs : Inv c s) {t : ℕ} (hopen : ∀ a, s.calls t = .opened a → s.isOpen = true) : Inv c (putTest t s) := by
  unfold AsyncSink.putTest
  split
  case h_1 a hcall =>
    rw [if_pos (hopen a hcall)]
    exact hs.of_calls _
  · exact hs

theorem putLocked_of_discardOldest {q : BlockingQueue (Ticket α)} (hd : q.overflowDisposition = .discardOldest) (v : Ticket α) :
    q.putLocked v = some (true, { q.reopen with queue := (if q.HasSpace then q.queue else q.queue.tail) ++ [v] }) := by
  have hspace : q.reopen.HasSpace ↔ q.HasSpace := Iff.rfl
  have hdisp : q.reopen.overflowDisposition = .discardOldest := hd
  unfold BlockingQueue.putLocked BlockingQueue.pushable
  by_cases h : q.HasSpace
  · rw [if_pos (hspace.mpr h), if_pos h]
    rfl
  · rw [if_neg (mt hspace.mp h), hdisp, if_neg h]
    rfl

theorem overflow_append (q : BlockingQueue (Ticket α)) :
    overflow q ++ (if q.HasSpace then q.queue else q.queue.tail) = q.queue := by
  unfold overflow
  split_ifs
  · rfl
  · cases q.queue <;> rfl

/-- What is taken out of a list of distinct items. -/
theorem filter_displaced {l₁ l l₂ : List (Ticket α)} (hnodup : ((l₁ ++ (l ++ l₂)).map Ticket.place).Nodup) :
    (l₁ ++ (l ++ l₂)).filter (fun t => t.place ∉ l.map Ticket.place) = l₁ ++ l₂ := by
  simp only [List.map_append] at hnodup
  have hleft := List.disjoint_of_nodup_append hnodup
  have hright := List.disjoint_of_nodup_append (List.Nodup.of_append_right hnodup)
  have h₁ : l₁.filter (fun t => t.place ∉ l.map Ticket.place) = l₁ :=
    List.filter_eq_self.mpr fun t ht => decide_eq_true fun hmem =>
      hleft (List.mem_map_of_mem ht) (List.mem_append_left _ hmem)
  have h₂ : l₂.filter (fun t => t.place ∉ l.map Ticket.place) = l₂ :=
    List.filter_eq_self.mpr fun t ht => decide_eq_true fun hmem => hright hmem (List.mem_map_of_mem ht)
  have h : l.filter (fun t => t.place ∉ l.map Ticket.place) = [] :=
    List.filter_eq_nil_iff.mpr fun t ht hnot => (of_decide_eq_true hnot) (List.mem_map_of_mem ht)
  rw [List.filter_append, List.filter_append, h₁, h, h₂, List.nil_append]

theorem Inv.due_nodup (hs : Inv c s) : (s.due.map Ticket.place).Nodup := by
  have hsub : (s.due.map Ticket.place).Sublist (s.accepted.map Ticket.place) := List.filter_sublist.map _
  rw [hs.places] at hsub
  exact hsub.nodup List.nodup_range

theorem due_append {accepted : List (Ticket α)} {displaced ps : List ℕ} {t : Ticket α} (ht : t.place ∉ displaced ++ ps) :
    (accepted ++ [t]).filter (fun t => t.place ∉ displaced ++ ps) =
      (accepted.filter fun t => t.place ∉ displaced).filter (fun t => t.place ∉ ps) ++ [t] := by
  rw [List.filter_append, List.filter_filter, List.filter_singleton, decide_eq_true ht, cond_true]
  refine congrArg (· ++ [t]) (List.filter_congr fun x _ => ?_)
  rw [← Bool.decide_and, decide_eq_decide, List.mem_append, not_or, and_comm]

theorem Drained.output_of_tested (hd : s.Drained) {t : ℕ} {a : α} (hcall : s.calls t = .tested a) : s.output.isSome = true :=
  hd.opened <| Bool.of_not_eq_false fun hclosed => (hd.closed hclosed).2 t a hcall

theorem Inv.put (hs : Inv c s) (hdrained : s.Drained) (t : ℕ) : Inv c (put t s) := by
  unfold AsyncSink.put
  split
  case h_1 a q hcall hq =>
    have hout := hdrained.output_of_tested hcall
    have hd := hs.disposition q hq
    rw [putLocked_of_discardOldest hd]
    dsimp only
    have hqueued : s.queued = overflow q ++ (if q.HasSpace then q.queue else q.queue.tail) := by
      rw [overflow_append, queued, hq]
      rfl
    have horder := hs.order
    rw [unwritten, hqueued] at horder
    have hlast : ∀ p ∈ s.displaced ++ (overflow q).map Ticket.place, p < s.accepted.length := by
      intro p hp
      rcases List.mem_append.mp hp with hp | hp
      · exact hs.displaced p hp
      · obtain ⟨x, hx, rfl⟩ := List.mem_map.mp hp
        have hmem : x ∈ s.due := by
          rw [← horder]
          simp [hx]
        have hrange : x.place ∈ s.accepted.map Ticket.place := List.mem_map_of_mem (List.mem_of_mem_filter hmem)
        rwa [hs.places, List.mem_range] at hrange
    have hfresh : (s.ticket a).place ∉ s.displaced ++ (overflow q).map Ticket.place := fun hmem => absurd (hlast _ hmem) (lt_irrefl _)
    have hfilter : s.due.filter (fun t => t.place ∉ (overflow q).map Ticket.place) =
        (s.written.map (fun w => w.ticket) ++ (s.pendingRows.map Row.ticket ++ Worker.hand s.worker)) ++
          (if q.HasSpace then q.queue else q.queue.tail) := by
      have hnodup := hs.due_nodup
      rw [← horder]
      rw [← horder] at hnodup
      have heq : s.written.map (fun w => w.ticket) ++ (s.pendingRows.map Row.ticket ++ (Worker.hand s.worker ++
            (overflow q ++ (if q.HasSpace then q.queue else q.queue.tail)))) =
          (s.written.map (fun w => w.ticket) ++ (s.pendingRows.map Row.ticket ++ Worker.hand s.worker)) ++
            (overflow q ++ (if q.HasSpace then q.queue else q.queue.tail)) := by
        simp only [List.append_assoc]
      rw [heq] at hnodup ⊢
      exact filter_displaced hnodup
    have hsub : ∀ x ∈ (if q.HasSpace then q.queue else q.queue.tail), x ∈ s.unwritten := by
      intro x hx
      simp [unwritten, hqueued, hx]
    refine ⟨hs.running, hs.good, ?_, fun p hp => ?_, ?_, hs.placed, hs.rows, hs.batches, hs.current, fun x hx => ?_, fun q' hq' => ?_⟩
    · rw [List.map_append, hs.places, List.length_append, List.length_singleton, List.range_succ]
      rfl
    · exact (hlast p hp).trans (by simp)
    · show _ = List.filter _ (s.accepted ++ [s.ticket a])
      rw [due_append hfresh]
      show _ = s.due.filter _ ++ [s.ticket a]
      rw [hfilter]
      simp [unwritten, queued]
    · simp only [unwritten, queued, Option.elim_some, List.mem_append, List.mem_singleton] at hx
      rcases hx with hx | hx | hx | rfl
      · exact hs.belongs x (by simp [unwritten, hx])
      · exact hs.belongs x (by simp [unwritten, hx])
      · exact hs.belongs x (hsub x hx)
      · exact ⟨hout, rfl⟩
    · obtain rfl := Option.some.inj hq'
      exact hd
  case h_2 => exact hs

/-- The worker takes the oldest item. -/
theorem Inv.take (hs : Inv c s) {q : BlockingQueue (Ticket α)} (hq : s.queue = some q) (hhand : Worker.hand s.worker = [])
    {r : Option (Ticket α) × BlockingQueue (Ticket α)} (hr : q.take = r) {worker : Worker α} (hworker : Worker.hand worker = r.1.toList) :
    Inv c { s with queue := some r.2, worker } := by
  subst hr
  have hqueue : q.take.1.toList ++ q.queue.tail = q.queue := by
    unfold BlockingQueue.take
    cases q.queue <;> rfl
  have hunwritten : unwritten { s with queue := some q.take.2, worker } = s.unwritten := by
    show s.pendingRows.map Row.ticket ++ (Worker.hand worker ++ q.queue.tail) = _
    rw [hworker, hqueue, unwritten, hhand, queued, hq]
    rfl
  refine ⟨hs.running, hs.good, hs.places, hs.displaced, ?_, hs.placed, hs.rows, hs.batches, hs.current, ?_, ?_⟩
  · rw [hunwritten]
    exact hs.order
  · rw [hunwritten]
    exact hs.belongs
  · intro q' hq'
    obtain rfl := Option.some.inj hq'
    exact hs.disposition q hq

theorem unwritten_worker {worker : Worker α} (hhand : Worker.hand worker = Worker.hand s.worker) :
    unwritten { s with worker } = s.unwritten := by
  show s.pendingRows.map Row.ticket ++ (Worker.hand worker ++ s.queued) = _
  rw [hhand, unwritten]

/-- A step of the worker that holds nothing, before and after. -/
theorem Inv.of_worker (hs : Inv c s) {worker : Worker α} (hhand : Worker.hand worker = Worker.hand s.worker) :
    Inv c { s with worker } := by
  have hunwritten := unwritten_worker hhand
  refine ⟨hs.running, hs.good, hs.places, hs.displaced, ?_, hs.placed, hs.rows, hs.batches, hs.current, ?_, hs.disposition⟩
  · rw [hunwritten]
    exact hs.order
  · rw [hunwritten]
    exact hs.belongs

/-- The output that is open after a rotation. -/
theorem rotate_output {o : Output} (ho : s.output = some o) (hsession : o.session = s.sessions) (rotates : Bool) :
    ∃ o', rotate rotates s = { s with output := some o' } ∧ o'.session = s.sessions ∧ (rotates = false → o' = o) := by
  cases rotates with
  | false => exact ⟨o, by simp [rotate, ← ho], hsession, fun _ => rfl⟩
  | true => exact ⟨_, rfl, rfl, fun h => absurd h (by decide)⟩

/-- What the worker holds is written, or added to the batch. -/
theorem Inv.handle (hs : Inv c s) {ticket : Ticket α} (hworker : s.worker = .holding ticket) {rotates : Bool}
    (hrows : rotates = true → s.pendingRows = []) {worker : Worker α} (hhand : Worker.hand worker = []) :
    Inv c { handleItem c.kind rotates ticket s with worker } := by
  have hmem : ticket ∈ s.unwritten := by simp [unwritten, hworker, Worker.hand]
  obtain ⟨hout, hsession⟩ := hs.belongs ticket hmem
  obtain ⟨o, ho⟩ := Option.isSome_iff_exists.mp hout
  obtain ⟨o', hrotate, hsession', hsame⟩ := rotate_output ho (hs.current o ho) rotates
  have horder := hs.order
  simp only [unwritten, hworker, Worker.hand] at horder
  have hrest : ∀ t, t ∈ s.pendingRows.map Row.ticket ++ ([ticket] ++ s.queued) → t.session = s.sessions := by
    intro t ht
    refine (hs.belongs t ?_).2
    rwa [unwritten, hworker]
  have hrow : ∀ r ∈ s.pendingRows, some o' = some r.output := by
    intro r hr
    rw [← hs.rows r hr, ho]
    cases rotates with
    | false => rw [hsame rfl]
    | true => exact absurd (hrows rfl ▸ hr) List.not_mem_nil
  by_cases hkind : c.kind = .sqliteSink
  · have heq : handleItem c.kind rotates ticket s =
        { s with output := some o', pendingRows := s.pendingRows ++ [⟨ticket, o'⟩] } := by
      simp only [handleItem, hkind, hrotate, Option.getD_some]
    rw [heq]
    refine ⟨hs.running, hs.good, hs.places, hs.displaced, ?_, hs.placed, ?_, fun h => absurd hkind h, ?_, ?_,
      hs.disposition⟩
    · show s.written.map (fun w => w.ticket) ++ ((s.pendingRows ++ [(⟨ticket, o'⟩ : Row α)]).map Row.ticket ++
        (Worker.hand worker ++ s.queued)) = s.due
      rw [← horder, hhand]
      simp
    · exact List.forall_mem_append.mpr ⟨hrow, List.forall_mem_singleton.mpr rfl⟩
    · intro o₁ ho₁
      rw [← Option.some.inj ho₁, hsession']
    · intro t ht
      refine ⟨rfl, hrest t ?_⟩
      simpa [unwritten, hhand, queued] using ht
  · have hpending := hs.batches hkind
    have heq : handleItem c.kind rotates ticket s = { s with output := some o', written := s.written ++ [⟨⟨ticket, o'⟩, o'⟩] } := by
      cases hc : c.kind with
      | sqliteSink => exact absurd hc hkind
      | csvFileSink => simp [handleItem, hs.good, hrotate, write]
      | _ => simp [handleItem, hout, hrotate, write]
    rw [heq]
    refine ⟨hs.running, hs.good, hs.places, hs.displaced, ?_, ?_, hrow, hs.batches, ?_, ?_, hs.disposition⟩
    · show (s.written ++ [(⟨⟨ticket, o'⟩, o'⟩ : Written α)]).map (fun w => w.ticket) ++
        (s.pendingRows.map Row.ticket ++ (Worker.hand worker ++ s.queued)) = s.due
      rw [← horder, hhand, hpending]
      simp
    · exact List.forall_mem_append.mpr ⟨hs.placed, List.forall_mem_singleton.mpr rfl⟩
    · intro o₁ ho₁
      rw [← Option.some.inj ho₁, hsession']
    · intro t ht
      refine ⟨rfl, hrest t ?_⟩
      have : t ∈ s.pendingRows.map Row.ticket ++ (Worker.hand worker ++ s.queued) := ht
      rw [hhand, List.nil_append, List.mem_append] at this
      exact List.mem_append.mpr (this.imp_right (List.mem_cons_of_mem _))

theorem Inv.flush (hs : Inv c s) (hworker : s.worker = .flushing) : Inv c { flush s with worker := .looping } := by
  have horder := hs.order
  have hbelongs := hs.belongs
  simp only [unwritten, hworker, Worker.hand, List.nil_append] at horder hbelongs
  unfold AsyncSink.flush
  cases ho : s.output with
  | none =>
    have hnil : s.pendingRows = [] :=
      List.eq_nil_iff_forall_not_mem.mpr fun r hr => absurd ((hs.rows r hr).symm.trans ho) (by simp)
    refine ⟨hs.running, hs.good, hs.places, hs.displaced, ?_, hs.placed, ?_, fun _ => rfl, ?_, fun t ht => ?_, hs.disposition⟩
    · rw [hnil] at horder
      exact horder
    · exact fun r hr => absurd hr List.not_mem_nil
    · exact fun o h => absurd h (by simp)
    · have := hbelongs t (List.mem_append_right _ ht)
      simp [ho] at this
  | some o =>
    refine ⟨hs.running, hs.good, hs.places, hs.displaced, ?_, ?_, ?_, fun _ => rfl, ?_, fun t ht => ?_, hs.disposition⟩
    · show (s.written ++ s.pendingRows.map fun r => (⟨r, o⟩ : Written α)).map (fun w => w.ticket) ++ s.queued = s.due
      rw [← horder]
      simp [Function.comp_def]
    · refine List.forall_mem_append.mpr ⟨hs.placed, fun w hw => ?_⟩
      obtain ⟨r, hr, rfl⟩ := List.mem_map.mp hw
      exact Option.some.inj (ho.symm.trans (hs.rows r hr))
    · exact fun r hr => absurd hr List.not_mem_nil
    · exact fun o' ho' => hs.current o' (ho.trans ho')
    · have := hbelongs t (List.mem_append_right _ ht)
      exact ⟨rfl, this.2⟩

theorem Inv.work (hs : Inv c s) {shutdown rotates : Bool} (hstart : s.worker = .starting → s.output.isSome = true)
    (hrows : rotates = true → s.pendingRows = []) : Inv c (work c shutdown rotates s) := by
  unfold AsyncSink.work
  split
  case h_1 hworker =>
    rw [if_pos (hstart hworker)]
    exact hs.of_worker (by rw [hworker]; rfl)
  case h_2 q hworker hq =>
    have hhand : Worker.hand s.worker = [] := by rw [hworker]; rfl
    split_ifs with hkind hopen
    · exact hs.of_worker hhand.symm
    · exact hs.of_worker hhand.symm
    · unfold BlockingQueue.get
      split_ifs
      · exact hs
      · rcases htake : q.take with ⟨_ | ticket, q'⟩
        · exact hs.take hq hhand htake rfl
        · exact hs.take hq hhand htake rfl
  case h_3 q hworker hq =>
    have hhand : Worker.hand s.worker = [] := by rw [hworker]; rfl
    rcases htake : q.take with ⟨_ | ticket, q'⟩
    · exact hs.take hq hhand htake rfl
    · exact hs.take hq hhand htake rfl
  case h_4 ticket hworker =>
    dsimp only
    split_ifs
    · exact hs.handle hworker hrows rfl
    · exact hs.handle hworker hrows rfl
  case h_5 hworker => exact hs.flush hworker
  case h_6 => exact hs

theorem Inv.openFile (hs : Inv c s) (hdrained : s.Drained) {same : Bool} (h : Admissible c s (.openFile same)) :
    Inv c (openFile c same s) := by
  unfold AsyncSink.openFile
  split
  case h_1 hcontrol =>
    split_ifs with hsame hcsv
    · exact hs.of_control _
    · exact absurd hcsv ((h hcontrol).resolve_left hsame).2
    · have hnil : s.unwritten = [] := ((h hcontrol).resolve_left hsame).1.elim (fun hclosed => (hdrained.closed hclosed).1) id
      have hrows : s.pendingRows = [] := List.map_eq_nil_iff.mp (List.append_eq_nil_iff.mp hnil).1
      refine ⟨hs.running, rfl, hs.places, hs.displaced, hs.order, hs.placed, ?_, hs.batches, ?_, fun t ht => ?_, hs.disposition⟩
      · exact fun r hr => absurd (hrows ▸ hr) List.not_mem_nil
      · exact fun o ho => Option.some.inj ho ▸ rfl
      · exact absurd (hnil ▸ ht) List.not_mem_nil
  case h_2 => exact hs

theorem Inv.openQueue (hs : Inv c s) (hdrained : s.Drained) (h : Admissible c s .openQueue) : Inv c (openQueue c s) := by
  unfold AsyncSink.openQueue
  split
  case h_1 hcontrol =>
    split_ifs with hopen hkind
    · exact hs.of_control _
    all_goals
      have hq := (h hcontrol).resolve_left hopen
      obtain ⟨hjoinable, hworker⟩ := hdrained.fresh hq
      have horder := hs.order
      have hbelongs := hs.belongs
      simp only [unwritten, queued, hq, hworker] at horder hbelongs
      refine ⟨hjoinable, hs.good, hs.places, hs.displaced, horder, hs.placed, hs.rows, hs.batches, hs.current, hbelongs, ?_⟩
      exact fun q hq => Option.some.inj hq ▸ rfl
  case h_2 => exact hs

theorem Inv.closeTest (hs : Inv c s) : Inv c (closeTest s) := by
  unfold AsyncSink.closeTest
  split
  · exact hs.of_control _
  · exact hs

theorem Inv.closeQueue (hs : Inv c s) : Inv c (closeQueue s) := by
  unfold AsyncSink.closeQueue
  split
  · have hqueued : (s.queue.map BlockingQueue.close).elim [] BlockingQueue.queue = s.queued := by
      cases hq : s.queue <;> simp [queued, hq, BlockingQueue.close]
    have horder := hs.order
    have hbelongs := hs.belongs
    simp only [unwritten, ← hqueued] at horder hbelongs
    refine ⟨hs.running, hs.good, hs.places, hs.displaced, horder, hs.placed, hs.rows, hs.batches, hs.current, hbelongs, ?_⟩
    intro q' hq'
    obtain ⟨q, hq, rfl⟩ := Option.map_eq_some_iff.mp hq'
    exact hs.disposition q hq
  · exact hs

theorem Inv.closeFile (hs : Inv c s) (hdrained : s.Drained) : Inv c (closeFile s) := by
  unfold AsyncSink.closeFile
  split
  case h_1 hcontrol =>
    have hnil := (hdrained.closed (hdrained.closing hcontrol)).1
    have hrows : s.pendingRows = [] := List.map_eq_nil_iff.mp (List.append_eq_nil_iff.mp hnil).1
    refine ⟨hs.running, hs.good, hs.places, hs.displaced, hs.order, hs.placed, ?_, hs.batches, ?_, fun t ht => ?_, hs.disposition⟩
    · exact fun r hr => absurd (hrows ▸ hr) List.not_mem_nil
    · exact fun o ho => absurd ho (by simp)
    · exact absurd (hnil ▸ ht) List.not_mem_nil
  case h_2 => exact hs

/-! ## While the queue is open, and when it is closed -/

theorem drained_start : ({} : AsyncSink α).Drained :=
  ⟨fun _ => ⟨rfl, rfl⟩, nofun, nofun, nofun, fun _ => ⟨rfl, fun _ _ => nofun⟩⟩

/-- The calls change while the queue is open. -/
theorem Drained.of_calls (hd : s.Drained) (hopen : s.isOpen = true) (calls : ℕ → Call α) : Drained { s with calls } :=
  ⟨hd.fresh, hd.opening, hd.closing, hd.opened, fun hclosed => absurd (hopen.symm.trans hclosed) (by decide)⟩

theorem Drained.capture (hd : s.Drained) (t : ℕ) (a : α) : (capture t a s).Drained := by
  unfold AsyncSink.capture
  split
  · split_ifs with hopen
    · exact hd.of_calls hopen _
    · exact hd
  · exact hd

theorem Drained.putTest (hd : s.Drained) {t : ℕ} (hopen : ∀ a, s.calls t = .opened a → s.isOpen = true) : (putTest t s).Drained := by
  unfold AsyncSink.putTest
  split
  case h_1 a hcall =>
    rw [if_pos (hopen a hcall)]
    exact hd.of_calls (hopen a hcall) _
  case h_2 => exact hd

theorem Drained.put (hs : Inv c s) (hd : s.Drained) (t : ℕ) : (put t s).Drained := by
  unfold AsyncSink.put
  split
  case h_1 a q hcall hq =>
    rw [putLocked_of_discardOldest (hs.disposition q hq)]
    have hopen : s.isOpen = true := Bool.of_not_eq_false fun hclosed => (hd.closed hclosed).2 t a hcall
    exact ⟨nofun, hd.opening, fun hc => absurd (hopen.symm.trans (hd.closing hc)) (by decide), fun _ => hd.output_of_tested hcall, nofun⟩
  case h_2 => exact hd

/-- A step that does not put anything into the queue, nor opens or closes it. -/
theorem Drained.of_work {s' : AsyncSink α} (hd : s.Drained) (hcontrol : s'.control = s.control) (hcalls : s'.calls = s.calls)
    (hopen : s'.isOpen = s.isOpen) (hqueue : s'.queue = none → s'.joinable = false ∧ s'.worker = .absent)
    (hout : s.output.isSome = true → s'.output.isSome = true) (hunwritten : s.unwritten = [] → s'.unwritten = []) : s'.Drained := by
  refine ⟨hqueue, fun h => hout (hd.opening (hcontrol ▸ h)), fun h => hopen.trans (hd.closing (hcontrol ▸ h)),
    fun h => hout (hd.opened (hopen ▸ h)), fun h => ?_⟩
  obtain ⟨hnil, hcall⟩ := hd.closed (hopen ▸ h)
  rw [hcalls]
  exact ⟨hunwritten hnil, hcall⟩

/-- The worker takes what is in the queue. -/
theorem Drained.take (hd : s.Drained) {q : BlockingQueue (Ticket α)} (hq : s.queue = some q) {r : Option (Ticket α) × BlockingQueue (Ticket α)}
    (hr : q.take = r) {worker : Worker α} (hworker : Worker.hand worker = r.1.toList) : Drained { s with queue := some r.2, worker } := by
  subst hr
  refine hd.of_work rfl rfl ?_ nofun id fun hnil => ?_
  · simp only [isOpen, hq]
    rfl
  · have hqueue : q.queue = [] := by
      have := (List.append_eq_nil_iff.mp (List.append_eq_nil_iff.mp hnil).2).2
      rwa [queued, hq] at this
    have htake : q.take = (none, q.discardOldest) := by rw [BlockingQueue.take, hqueue]; rfl
    simp only [unwritten, queued, Option.elim_some, hworker, htake, BlockingQueue.discardOldest, hqueue]
    simpa using (List.append_eq_nil_iff.mp hnil).1

theorem handle_item_keeps (kind : Kind) (rotates : Bool) (ticket : Ticket α) (s : AsyncSink α) :
    (handleItem kind rotates ticket s).control = s.control ∧ (handleItem kind rotates ticket s).calls = s.calls ∧
      (handleItem kind rotates ticket s).queue = s.queue ∧
        (s.output.isSome = true → (handleItem kind rotates ticket s).output.isSome = true) := by
  have hrotate : (rotate rotates s).control = s.control ∧ (rotate rotates s).calls = s.calls ∧ (rotate rotates s).queue = s.queue ∧
      (s.output.isSome = true → (rotate rotates s).output.isSome = true) := by
    unfold rotate
    split_ifs
    · exact ⟨rfl, rfl, rfl, fun _ => rfl⟩
    · exact ⟨rfl, rfl, rfl, id⟩
  have hwrite : ∀ s' : AsyncSink α, (write ticket s').control = s'.control ∧ (write ticket s').calls = s'.calls ∧
      (write ticket s').queue = s'.queue ∧ (write ticket s').output = s'.output := by
    intro s'
    unfold write
    split <;> exact ⟨rfl, rfl, rfl, rfl⟩
  obtain ⟨hcontrol, hcalls, hqueue, hout⟩ := hrotate
  obtain ⟨hcontrol', hcalls', hqueue', hout'⟩ := hwrite (rotate rotates s)
  rw [← hcontrol, ← hcalls, ← hqueue]
  cases kind with
  | sqliteSink => exact ⟨rfl, rfl, rfl, hout⟩
  | csvFileSink =>
    unfold handleItem
    dsimp only
    split_ifs
    · exact ⟨hcontrol.symm, hcalls.symm, hqueue.symm, id⟩
    · exact ⟨hcontrol', hcalls', hqueue', fun h => hout' ▸ hout h⟩
  | _ =>
    unfold handleItem
    dsimp only
    split_ifs
    · exact ⟨hcontrol', hcalls', hqueue', fun h => hout' ▸ hout h⟩
    · exact ⟨hcontrol.symm, hcalls.symm, hqueue.symm, id⟩

/-- The worker goes on with what it holds. -/
theorem Drained.handle (hd : s.Drained) {ticket : Ticket α} (hworker : s.worker = .holding ticket) (kind : Kind) (rotates : Bool)
    (worker : Worker α) : Drained { handleItem kind rotates ticket s with worker } := by
  obtain ⟨hcontrol, hcalls, hqueue, hout⟩ := handle_item_keeps kind rotates ticket s
  refine hd.of_work hcontrol hcalls ?_ (fun hq => ?_) hout fun hnil => ?_
  · simp only [isOpen, hqueue]
  · exact absurd ((hd.fresh (hqueue ▸ hq)).2.symm.trans hworker) nofun
  · have hmem : ticket ∈ s.unwritten := by simp [unwritten, hworker, Worker.hand]
    rw [hnil] at hmem
    cases hmem

theorem Drained.of_worker (hd : s.Drained) {worker : Worker α} (hhand : Worker.hand worker = Worker.hand s.worker)
    (hworker : s.worker ≠ .absent) : Drained { s with worker } :=
  hd.of_work rfl rfl rfl (fun hq => absurd (hd.fresh hq).2 hworker) id fun hnil => (unwritten_worker hhand).trans hnil

theorem Drained.work (hd : s.Drained) {shutdown rotates : Bool} (hstart : s.worker = .starting → s.output.isSome = true) :
    (work c shutdown rotates s).Drained := by
  unfold AsyncSink.work
  split
  case h_1 hworker =>
    rw [if_pos (hstart hworker)]
    exact hd.of_worker (by rw [hworker]; rfl) (by simp [hworker])
  case h_2 q hworker hq =>
    split_ifs with hkind hopen
    · exact hd.of_worker (by rw [hworker]; rfl) (by simp [hworker])
    · exact hd.of_worker (by rw [hworker]; rfl) (by simp [hworker])
    · unfold BlockingQueue.get
      split_ifs
      · exact hd
      · rcases htake : q.take with ⟨_ | ticket, q'⟩
        · exact hd.take hq htake rfl
        · exact hd.take hq htake rfl
  case h_3 q hworker hq =>
    rcases htake : q.take with ⟨_ | ticket, q'⟩
    · exact hd.take hq htake rfl
    · exact hd.take hq htake rfl
  case h_4 ticket hworker => exact hd.handle hworker ..
  case h_5 hworker =>
    have hnone : s.queue = none → s.joinable = false ∧ Worker.looping = (.absent : Worker α) :=
      fun hq => absurd ((hd.fresh hq).2.symm.trans hworker) nofun
    unfold AsyncSink.flush
    split
    · refine hd.of_work rfl rfl rfl hnone id fun hnil => ?_
      simp only [unwritten, hworker, Worker.hand, List.nil_append, List.append_eq_nil_iff] at hnil ⊢
      exact ⟨rfl, hnil.2⟩
    · refine hd.of_work rfl rfl rfl hnone id fun hnil => ?_
      simp only [unwritten, hworker, Worker.hand, List.nil_append, List.append_eq_nil_iff] at hnil ⊢
      exact ⟨rfl, hnil.2⟩
  case h_6 => exact hd

theorem Drained.openFile (hd : s.Drained) (same : Bool) : (openFile c same s).Drained := by
  unfold AsyncSink.openFile
  split
  · split_ifs with hsame hcsv
    · exact ⟨hd.fresh, fun _ => hsame.2.2, nofun, hd.opened, hd.closed⟩
    · exact ⟨hd.fresh, hd.opening, hd.closing, hd.opened, hd.closed⟩
    · exact ⟨hd.fresh, fun _ => rfl, nofun, fun _ => rfl, hd.closed⟩
  · exact hd

theorem Drained.openQueue (hd : s.Drained) : (openQueue c s).Drained := by
  unfold AsyncSink.openQueue
  split
  case h_1 hcontrol =>
    split_ifs with hopen
    · exact ⟨hd.fresh, nofun, nofun, hd.opened, hd.closed⟩
    all_goals exact ⟨nofun, nofun, nofun, fun _ => hd.opening hcontrol, nofun⟩
  case h_2 => exact hd

theorem Drained.closeTest (hd : s.Drained) : (closeTest s).Drained := by
  unfold AsyncSink.closeTest
  split
  · split_ifs with hopen
    · exact ⟨hd.fresh, nofun, nofun, hd.opened, hd.closed⟩
    · exact ⟨hd.fresh, nofun, fun _ => Bool.eq_false_iff.mpr hopen, hd.opened, hd.closed⟩
  · exact hd

theorem Drained.closeQueue (hd : s.Drained) (h : Admissible c s .closeQueue) : (closeQueue s).Drained := by
  unfold AsyncSink.closeQueue
  split
  case h_1 hcontrol =>
    obtain ⟨hnil, hcalls⟩ := h hcontrol
    have hclosed : (match s.queue.map BlockingQueue.close with | some q => !q.closed | none => false) = false := by
      cases s.queue <;> rfl
    refine ⟨fun hq => hd.fresh (Option.map_eq_none_iff.mp hq), nofun, fun _ => hclosed, fun hopen => absurd (hclosed.symm.trans hopen) (by decide),
      fun _ => ⟨?_, hcalls⟩⟩
    have hqueued : (s.queue.map BlockingQueue.close).elim [] BlockingQueue.queue = s.queued := by
      cases hq : s.queue <;> simp [queued, hq, BlockingQueue.close]
    show s.pendingRows.map Row.ticket ++ (Worker.hand s.worker ++ (s.queue.map BlockingQueue.close).elim [] BlockingQueue.queue) = []
    rw [hqueued]
    exact hnil
  case h_2 => exact hd

theorem Drained.closeFile (hd : s.Drained) : (closeFile s).Drained := by
  unfold AsyncSink.closeFile
  split
  case h_1 hcontrol =>
    exact ⟨hd.fresh, nofun, nofun, fun hopen => absurd (hopen.symm.trans (hd.closing hcontrol)) (by decide), hd.closed⟩
  case h_2 => exact hd

theorem Drained.step (hd : s.Drained) (hs : Inv c s) {e : Event α} (h : Admissible c s e) : (step c s e).Drained := by
  cases e with
  | capture t a => exact hd.capture t a
  | putTest t => exact hd.putTest h
  | put t => exact Drained.put hs hd t
  | work shutdown rotates => exact hd.work h.1
  | openFile same => exact hd.openFile same
  | openQueue => exact hd.openQueue
  | closeTest => exact hd.closeTest
  | closeQueue => exact hd.closeQueue h
  | closeFile => exact hd.closeFile

/-- What one step preserves. -/
theorem Inv.step (hs : Inv c s) (hd : s.Drained) {e : Event α} (h : Admissible c s e) : Inv c (step c s e) := by
  cases e with
  | capture t a => exact hs.capture t a
  | putTest t => exact hs.putTest h
  | put t => exact hs.put hd t
  | work shutdown rotates => exact hs.work h.1 h.2
  | openFile same => exact hs.openFile hd h
  | openQueue => exact hs.openQueue hd h
  | closeTest => exact hs.closeTest
  | closeQueue => exact hs.closeQueue
  | closeFile => exact hs.closeFile hd

theorem Inv.run (hs : Inv c s) (hd : s.Drained) {events : List (Event α)} (h : AdmissibleRun c s events) : Inv c (run c s events) := by
  induction events generalizing s with
  | nil => exact hs
  | cons e events ih =>
    have hrun : AsyncSink.run c s (e :: events) = AsyncSink.run c (AsyncSink.step c s e) events := by
      rw [AsyncSink.run, List.foldl_cons, hs.running]
      rfl
    rw [hrun]
    exact ih (hs.step hd h.1) (hd.step hs h.1) h.2

/-- Two threads capture an item each, the batch is inserted, and the database closed. -/
def writtenAndClosed : List (Event Unit) :=
  [.openFile false, .openQueue, .work false false, .capture 0 (), .capture 1 (), .putTest 0, .putTest 1, .put 1, .put 0] ++
    List.replicate 7 (.work false false) ++ [.closeTest, .closeQueue, .work false false, .closeFile]

/-- The sink is closed before its worker gets to the item, and opened again; a
database is closed before its worker starts. -/
def closedEarly : List (Event Unit) :=
  [.openFile false, .openQueue, .capture 0 (), .putTest 0, .put 0, .closeTest, .closeQueue, .closeFile]

end AsyncSink

end CommonCore.Logging
