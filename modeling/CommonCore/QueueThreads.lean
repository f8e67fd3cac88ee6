import CommonCore.BlockingQueue

/-!
# Blocking queues across threads

Every section under the lock is one step, and so is every test of `closed_`
without it, every notification and every awakening. A free place in a full
queue must be announced to the producers asleep on it. The invariant counts the
announcements: as long as a producer sleeps on an open queue, there are at
least as many of them under way as there are free places.
-/

namespace CommonCore

namespace BlockingQueue

open Relation

variable {T : Type}

/-- Where a thread is in its current call. -/
inductive Phase (T : Type)
  | idle
  | putTested (value : T) (reopen : Bool)
  | putAsleep (value : T)
  | putAwake (value : T)
  | putDone
  | getting
  | getAsleep
  | getDone (removed : Bool)
  | clearCalled
  | closeCalled
  | closed
  | closeNotified
  | reopenCalled
  deriving DecidableEq

/-- What `pushable` waits for in a full queue. -/
def spaceOrClosed (q : BlockingQueue T) : Prop := q.queue.length < q.maxsize ∨ q.closed = true

/-- The steps that leave the other threads alone. A thread may wake up without
having been notified, and a deadline may pass. -/
inductive Act : BlockingQueue T → Phase T → BlockingQueue T → Phase T → Prop
  | putTest {q value reopen} : reopen = true ∨ q.closed = false → Act q .idle q (.putTested value reopen)
  | put {q value reopen r} : q.putLocked value = some r → Act q (.putTested value reopen) r.2 .putDone
  | putSleep {q value reopen} : q.putLocked value = none → Act q (.putTested value reopen) q.reopen (.putAsleep value)
  | putWake {q value} : Act q (.putAsleep value) q (.putAwake value)
  | putAwake {q value} : q.spaceOrClosed →
      Act q (.putAwake value) (if q.closed then q else q.push value) .putDone
  | putSleepAgain {q value} : ¬ q.spaceOrClosed → Act q (.putAwake value) q (.putAsleep value)
  | putSilent {q} : Act q .putDone q .idle
  | getCall {q} : Act q .idle q .getting
  | get {q shutdown r} : q.get shutdown = some r → Act q .getting r.2 (.getDone r.1.isSome)
  | getSleep {q} : q.get false = none → Act q .getting q .getAsleep
  | getWake {q} : Act q .getAsleep q .getting
  | clearCall {q} : Act q .idle q .clearCalled
  | clear {q} : Act q .clearCalled q.clear .idle
  | closeCall {q} : Act q .idle q .closeCalled
  | close {q} : Act q .closeCalled q.close .closed
  | reopenCall {q} : Act q .idle q .reopenCalled
  | reopen {q} : Act q .reopenCalled q.reopen .idle

/-- The two condition variables. -/
inductive Condition
  | itemAvailable | spaceAvailable

/-- A thread after a notification that reaches it. -/
def Phase.notified : Condition → Phase T → Phase T
  | .itemAvailable, .getAsleep => .getting
  | .spaceAvailable, .putAsleep value => .putAwake value
  | _, p => p

/-- `notify_one` reaches one of those that sleep, if there is one. -/
inductive NotifyOne (c : Condition) : Multiset (Phase T) → Multiset (Phase T) → Prop
  | one {p ts} : p.notified c ≠ p → NotifyOne c (p ::ₘ ts) (p.notified c ::ₘ ts)
  | none {ts} : (∀ p ∈ ts, p.notified c = p) → NotifyOne c ts ts

structure Threads (T : Type) where
  q : BlockingQueue T
  threads : Multiset (Phase T)

namespace Threads

/-- The thread that takes the step is at `p`. -/
inductive Step : Phase T → Threads T → Threads T → Prop
  | act {q q' p p' ts} : Act q p q' p' → Step p ⟨q, p ::ₘ ts⟩ ⟨q', p' ::ₘ ts⟩
  | putNotify {q ts ts'} : NotifyOne .itemAvailable ts ts' → Step .putDone ⟨q, .putDone ::ₘ ts⟩ ⟨q, .idle ::ₘ ts'⟩
  | getNotify {q removed ts ts'} : NotifyOne .spaceAvailable ts ts' →
      Step (.getDone removed) ⟨q, .getDone removed ::ₘ ts⟩ ⟨q, .idle ::ₘ ts'⟩
  | closeNotifySpace {q ts} :
      Step .closed ⟨q, .closed ::ₘ ts⟩ ⟨q, .closeNotified ::ₘ ts.map (Phase.notified .spaceAvailable)⟩
  | closeNotifyItem {q ts} :
      Step .closeNotified ⟨q, .closeNotified ::ₘ ts⟩ ⟨q, .idle ::ₘ ts.map (Phase.notified .itemAvailable)⟩

def start (maxsize : ℕ) (d : OverflowDisposition) (n : ℕ) : Threads T where
  q := { maxsize, overflowDisposition := d }
  threads := Multiset.replicate n .idle

end Threads

/-! ## Who waits and who will notify -/

namespace Phase

def asleep : Phase T → ℕ
  | putAsleep _ => 1
  | _ => 0

def awake : Phase T → ℕ
  | putAwake _ => 1
  | _ => 0

/-- Between removing an item and its notification. -/
def removing : Phase T → ℕ
  | getDone true => 1
  | _ => 0

def closing : Phase T → ℕ
  | closed => 1
  | _ => 0

end Phase

/-- How many of the threads, each counted as often as `f` says. -/
def tally (f : Phase T → ℕ) (ts : Multiset (Phase T)) : ℕ := (ts.map f).sum

@[simp] theorem tally_cons (f : Phase T → ℕ) (p : Phase T) (ts : Multiset (Phase T)) :
    tally f (p ::ₘ ts) = f p + tally f ts := by
  unfold tally
  rw [Multiset.map_cons, Multiset.sum_cons]

theorem tally_eq_zero {f : Phase T → ℕ} {ts : Multiset (Phase T)} (h : ∀ p ∈ ts, f p = 0) : tally f ts = 0 := by
  unfold tally
  rw [Multiset.map_congr rfl h]
  simp

theorem tally_map {f : Phase T → ℕ} {g : Phase T → Phase T} (h : ∀ p, f (g p) = f p) (ts : Multiset (Phase T)) :
    tally f (ts.map g) = tally f ts := by
  unfold tally
  rw [Multiset.map_map]
  exact congrArg Multiset.sum (Multiset.map_congr rfl fun p _ => h p)

/-! ## Notifications -/

section
variable {ts ts' : Multiset (Phase T)}

theorem NotifyOne.space (h : NotifyOne .spaceAvailable ts ts') :
    (tally Phase.asleep ts = 0 ∧ ts' = ts) ∨
      (tally Phase.asleep ts = tally Phase.asleep ts' + 1 ∧ tally Phase.awake ts' = tally Phase.awake ts + 1 ∧
        tally Phase.removing ts' = tally Phase.removing ts ∧ tally Phase.closing ts' = tally Phase.closing ts) := by
  cases h with
  | @one p us hp =>
    right
    cases p with
    | putAsleep value =>
      simp only [Phase.notified, tally_cons]
      show 1 + tally Phase.asleep us = 0 + tally Phase.asleep us + 1 ∧
        1 + tally Phase.awake us = 0 + tally Phase.awake us + 1 ∧ _ = _ ∧ _ = _
      refine ⟨by omega, by omega, rfl, rfl⟩
    | _ => exact absurd rfl hp
  | none hnone =>
    left
    refine ⟨tally_eq_zero fun p hp => ?_, rfl⟩
    have hsame := hnone p hp
    cases p with
    | putAsleep value => cases hsame
    | _ => rfl

/-- Producers are not concerned by what is notified to those that wait for items. -/
theorem NotifyOne.item {f : Phase T → ℕ} (h : NotifyOne .itemAvailable ts ts')
    (hf : ∀ p, f (p.notified .itemAvailable) = f p) : tally f ts' = tally f ts := by
  cases h with
  | one => rw [tally_cons, tally_cons, hf]
  | none => rfl

theorem asleep_notified (ts : Multiset (Phase T)) : tally Phase.asleep (ts.map (Phase.notified .spaceAvailable)) = 0 := by
  apply tally_eq_zero
  intro p hp
  obtain ⟨p₀, -, rfl⟩ := Multiset.mem_map.mp hp
  cases p₀ <;> rfl

theorem awake_notified (ts : Multiset (Phase T)) :
    tally Phase.awake (ts.map (Phase.notified .spaceAvailable)) = tally Phase.asleep ts + tally Phase.awake ts := by
  unfold tally
  rw [Multiset.map_map, ← Multiset.sum_map_add]
  apply congrArg Multiset.sum
  apply Multiset.map_congr rfl
  intro p _
  cases p <;> rfl

theorem notified_item (p : Phase T) :
    (p.notified .itemAvailable).asleep = p.asleep ∧ (p.notified .itemAvailable).awake = p.awake ∧
      (p.notified .itemAvailable).removing = p.removing ∧ (p.notified .itemAvailable).closing = p.closing := by
  cases p <;> exact ⟨rfl, rfl, rfl, rfl⟩

end

namespace Threads

def asleep (s : Threads T) : ℕ := tally Phase.asleep s.threads

def awake (s : Threads T) : ℕ := tally Phase.awake s.threads

def removing (s : Threads T) : ℕ := tally Phase.removing s.threads

def closing (s : Threads T) : ℕ := tally Phase.closing s.threads

/-- A section of `put` that may reopen the queue, or `reopen`. -/
def Reopens (p : Phase T) : Prop := p = .reopenCalled ∨ ∃ value, p = .putTested value true

/-- A `put` that must not reopen the queue finds it open, and a queue is only
cleared when nobody would have to be told. -/
def Careful (p : Phase T) (s : Threads T) : Prop :=
  (∀ value, p = .putTested value false → s.q.closed = false) ∧
    (p = .clearCalled → s.asleep = 0 ∨ 0 < s.closing ∨ s.q.maxsize ≤ s.awake + s.removing)

/-- Where a place is free and a producer waits, one of them will be told. -/
def Announced (s : Threads T) : Prop :=
  s.q.HasSpace → 0 < s.asleep + s.awake → 0 < s.awake ∨ 0 < s.closing ∨ 0 < s.removing

structure Served (s : Threads T) : Prop where
  closed : s.q.closed = true → s.asleep = 0 ∨ 0 < s.closing
  free : s.asleep = 0 ∨ 0 < s.closing ∨ s.q.maxsize ≤ s.q.queue.length + s.awake + s.removing
  bound : s.q.maxsize = 0 → s.asleep = 0 ∧ s.awake = 0

variable {s s' : Threads T}

/-- What the invariant says when a thread goes from `p` to `p'`, with `ts` the
others: everything but the counts of `p` and `p'` stays. -/
theorem served_iff {q : BlockingQueue T} {p : Phase T} {ts : Multiset (Phase T)} :
    (⟨q, p ::ₘ ts⟩ : Threads T).Served ↔
      (q.closed = true → p.asleep + tally Phase.asleep ts = 0 ∨ 0 < p.closing + tally Phase.closing ts) ∧
      (p.asleep + tally Phase.asleep ts = 0 ∨ 0 < p.closing + tally Phase.closing ts ∨
        q.maxsize ≤ q.queue.length + (p.awake + tally Phase.awake ts) + (p.removing + tally Phase.removing ts)) ∧
      (q.maxsize = 0 → p.asleep + tally Phase.asleep ts = 0 ∧ p.awake + tally Phase.awake ts = 0) := by
  simp only [← tally_cons]
  exact ⟨fun h => ⟨h.closed, h.free, h.bound⟩, fun h => ⟨h.1, h.2.1, h.2.2⟩⟩

theorem putLocked_some {q : BlockingQueue T} {value : T} {r : Bool × BlockingQueue T}
    (h : q.putLocked value = some r) :
    r.2.maxsize = q.maxsize ∧ r.2.closed = false ∧ q.queue.length ≤ r.2.queue.length := by
  have hput : q.put value true = some ⟨true, r.1, r.2⟩ := by
    unfold put
    rw [h]
    rfl
  rcases put_cases hput with ⟨h', -, -⟩ | ⟨-, ⟨-, hr⟩ | ⟨-, -, hr⟩ | ⟨hs, -, hr⟩⟩
  · cases h'
  all_goals
    rw [PutResult.mk.injEq] at hr
    rw [hr.2.2]
  · exact ⟨rfl, rfl, by simp [push, BlockingQueue.reopen]⟩
  · exact ⟨rfl, rfl, le_refl _⟩
  · refine ⟨rfl, rfl, ?_⟩
    obtain ⟨hm, hlt⟩ := not_or.mp hs
    simp only [push, discardOldest, BlockingQueue.reopen, List.length_append, List.length_tail, List.length_singleton]
    omega

theorem putLocked_none {q : BlockingQueue T} {value : T} (h : q.putLocked value = none) :
    q.maxsize ≠ 0 ∧ q.maxsize ≤ q.queue.length := by
  by_cases hs : q.reopen.HasSpace
  · simp [putLocked, pushable, hs] at h
  · obtain ⟨hm, hlt⟩ := not_or.mp hs
    exact ⟨hm, Nat.le_of_not_lt hlt⟩

theorem take_length (q : BlockingQueue T) :
    q.queue.length = q.take.2.queue.length + (Phase.getDone q.take.1.isSome : Phase T).removing := by
  unfold take discardOldest
  cases q.queue <;> rfl

theorem Served.act {q q' : BlockingQueue T} {p p' : Phase T} {ts : Multiset (Phase T)} (ha : Act q p q' p')
    (hc : Careful p ⟨q, p ::ₘ ts⟩) (hs : (⟨q, p ::ₘ ts⟩ : Threads T).Served) :
    (⟨q', p' ::ₘ ts⟩ : Threads T).Served := by
  rw [served_iff] at hs ⊢
  obtain ⟨hclosed, hfree, hbound⟩ := hs
  cases ha with
  | put hp =>
    obtain ⟨hm, hopen, hle⟩ := putLocked_some hp
    simp only [Phase.asleep, Phase.awake, Phase.removing, Phase.closing] at *
    rw [hm, hopen]
    exact ⟨fun h => (by cases h), by omega, hbound⟩
  | putSleep hp =>
    obtain ⟨hm, hle⟩ := putLocked_none hp
    simp only [Phase.asleep, Phase.awake, Phase.removing, Phase.closing, BlockingQueue.reopen] at *
    exact ⟨fun h => (by cases h), by omega, by omega⟩
  | putWake =>
    simp only [Phase.asleep, Phase.awake, Phase.removing, Phase.closing] at *
    exact ⟨fun h => by have := hclosed h; omega, by omega, by omega⟩
  | putAwake hspace =>
    simp only [Phase.asleep, Phase.awake, Phase.removing, Phase.closing] at *
    by_cases hq : q.closed = true
    · rw [if_pos hq]
      have := hclosed hq
      exact ⟨hclosed, by omega, by omega⟩
    · rw [if_neg hq]
      simp only [push, List.length_append, List.length_singleton]
      exact ⟨fun h => absurd h hq, by omega, by omega⟩
  | putSleepAgain hfull =>
    obtain ⟨hlt, hq⟩ := not_or.mp hfull
    simp only [Phase.asleep, Phase.awake, Phase.removing, Phase.closing] at *
    exact ⟨fun h => absurd h hq, by omega, by omega⟩
  | get hg =>
    unfold BlockingQueue.get at hg
    split_ifs at hg
    cases hg
    have hlen := take_length q
    have hmax : q.take.2.maxsize = q.maxsize := rfl
    have hbefore : (Phase.getting : Phase T).removing = 0 := rfl
    rw [hbefore] at hfree
    simp only [Phase.asleep, Phase.awake, Phase.closing] at *
    exact ⟨hclosed, by omega, hbound⟩
  | clear =>
    have hnobody := hc.2 rfl
    unfold Threads.asleep Threads.awake Threads.removing Threads.closing at hnobody
    simp only [tally_cons, Phase.asleep, Phase.awake, Phase.removing, Phase.closing] at *
    simp only [BlockingQueue.clear, List.length_nil]
    exact ⟨hclosed, by omega, hbound⟩
  | close => 
    simp only [Phase.asleep, Phase.awake, Phase.removing, Phase.closing] at *
    exact ⟨fun _ => .inr (by omega), by omega, hbound⟩
  | reopen =>
    simp only [Phase.asleep, Phase.awake, Phase.removing, Phase.closing] at *
    exact ⟨fun h => (by cases h), hfree, hbound⟩
  | _ => exact ⟨hclosed, hfree, hbound⟩

theorem Served.announced (hs : s.Served) : s.Announced := by
  intro hspace hwaits
  by_cases ha : s.awake = 0
  · right
    rcases hspace with hm | hlt
    · have := (hs.bound hm).1
      omega
    · rcases hs.free with h | h | h
      · omega
      · exact .inl h
      · right
        omega
  · left
    omega

/-- One step of any thread. -/
theorem Served.step {p : Phase T} (h : Step p s s') (hc : Careful p s) (hs : s.Served) : s'.Served := by
  cases h with
  | act ha => exact hs.act ha hc
  | @putNotify q ts ts' hn =>
    have ha := hn.item fun p => (notified_item p).1
    have hw := hn.item fun p => (notified_item p).2.1
    have hr := hn.item fun p => (notified_item p).2.2.1
    have hc := hn.item fun p => (notified_item p).2.2.2
    rw [served_iff] at hs ⊢
    rw [ha, hw, hr, hc]
    exact hs
  | @getNotify q removed ts ts' hn =>
    rw [served_iff] at hs ⊢
    obtain ⟨hclosed, hfree, hbound⟩ := hs
    have hle : (Phase.getDone removed : Phase T).removing ≤ 1 := by
      cases removed
      · exact Nat.zero_le 1
      · exact le_refl 1
    simp only [Phase.asleep, Phase.awake, Phase.closing] at *
    rw [show (Phase.idle : Phase T).removing = 0 from rfl]
    rcases hn.space with ⟨hnone, rfl⟩ | ⟨ha, hw, hr, hc⟩
    · refine ⟨hclosed, .inl ?_, hbound⟩
      rw [hnone]
    · refine ⟨fun h => ?_, ?_, fun h => ?_⟩
      · have := hclosed h
        omega
      · omega
      · have := hbound h
        omega
  | @closeNotifySpace q ts =>
    rw [served_iff] at hs ⊢
    rw [asleep_notified, awake_notified]
    refine ⟨fun _ => .inl rfl, .inl rfl, fun h => ⟨rfl, ?_⟩⟩
    obtain ⟨ha, hw⟩ := hs.2.2 h
    simp only [Phase.asleep, Phase.awake] at *
    omega
  | @closeNotifyItem q ts =>
    rw [served_iff] at hs ⊢
    rw [tally_map fun p => (notified_item p).1, tally_map fun p => (notified_item p).2.1,
      tally_map fun p => (notified_item p).2.2.1, tally_map fun p => (notified_item p).2.2.2]
    exact hs

/-! ## Runs -/

/-- Some thread takes a step, and it is a careful one. -/
def CarefulStep (s s' : Threads T) : Prop := ∃ p, Step p s s' ∧ Careful p s

/-- A step that does not ask for the queue to be open. -/
def CarefulStay (s s' : Threads T) : Prop := ∃ p, Step p s s' ∧ Careful p s ∧ ¬ Reopens p

theorem served_start (maxsize : ℕ) (d : OverflowDisposition) (n : ℕ) : (start maxsize d n : Threads T).Served := by
  have hidle : ∀ f : Phase T → ℕ, f .idle = 0 → tally f (start maxsize d n : Threads T).threads = 0 := by
    intro f hf
    apply tally_eq_zero
    intro p hp
    rw [Multiset.eq_of_mem_replicate hp, hf]
  exact ⟨fun h => (by cases h), .inl (hidle _ rfl), fun _ => ⟨hidle _ rfl, hidle _ rfl⟩⟩

theorem Careful.closed_of_putTested {value : T} {reopen : Bool} (hc : Careful (.putTested value reopen) s)
    (hr : ¬ Reopens (.putTested value reopen)) : s.q.closed = false := by
  cases reopen with
  | true => exact absurd (.inr ⟨value, rfl⟩) hr
  | false => exact hc.1 value rfl

theorem Step.closed_of_stay {p : Phase T} (h : Step p s s') (hc : Careful p s) (hr : ¬ Reopens p)
    (hq : s.q.closed = true) : s'.q.closed = true := by
  cases h with
  | act ha =>
    cases ha with
    | @put value reopen => exact absurd hq (Bool.eq_false_iff.mp (hc.closed_of_putTested hr))
    | @putSleep value reopen => exact absurd hq (Bool.eq_false_iff.mp (hc.closed_of_putTested hr))
    | putAwake =>
      show (if _ then _ else _ : BlockingQueue T).closed = true
      rw [if_pos hq]
      exact hq
    | get hg =>
      unfold BlockingQueue.get at hg
      split_ifs at hg
      cases hg
      exact hq
    | close => rfl
    | reopen => exact absurd (.inl rfl) hr
    | _ => exact hq
  | _ => exact hq

theorem served_run {maxsize n : ℕ} {d : OverflowDisposition} (hr : ReflTransGen CarefulStep (start maxsize d n) s) :
    s.Served := by
  induction hr with
  | refl => exact served_start maxsize d n
  | tail _ hs ih =>
    obtain ⟨p, hs, hc⟩ := hs
    exact ih.step hs hc

theorem closed_run (hr : ReflTransGen CarefulStay s s') (hq : s.q.closed = true) : s'.q.closed = true := by
  induction hr with
  | refl => exact hq
  | tail _ hs ih =>
    obtain ⟨p, hs, hc, hp⟩ := hs
    exact hs.closed_of_stay hc hp ih

theorem Step.closed_of_close (h : Step .closeCalled s s') : s'.q.closed = true := by
  cases h with
  | act ha =>
    cases ha
    rfl

/-- Runs of careful steps: a producer that waits while there is space will be
told, and a closed queue stays closed until it is reopened. -/
theorem told_and_closed {maxsize n : ℕ} {d : OverflowDisposition}
    (hr : ReflTransGen CarefulStep (start maxsize d n) s) :
    s.Announced ∧ ∀ s₁ s₂, Step .closeCalled s s₁ → ReflTransGen CarefulStay s₁ s₂ → s₂.q.closed = true :=
  ⟨(served_run hr).announced, fun _ _ hclose hstay => closed_run hstay hclose.closed_of_close⟩

/-! ## Two threads -/

def two (q : BlockingQueue ℕ) (p r : Phase ℕ) : Threads ℕ := ⟨q, p ::ₘ r ::ₘ 0⟩

theorem two_swap (q : BlockingQueue ℕ) (p r : Phase ℕ) : two q p r = two q r p := by
  unfold two
  rw [Multiset.cons_swap]

variable {q q' : BlockingQueue ℕ} {p p' r : Phase ℕ}

theorem step_first (ha : Act q p q' p') : Step p (two q p r) (two q' p' r) := .act ha

theorem step_second (ha : Act q p q' p') : Step p (two q r p) (two q' r p') := by
  rw [two_swap q, two_swap q']
  exact .act ha

/-- The queue for one item and what it holds. -/
def one (queue : List ℕ) : BlockingQueue ℕ := { maxsize := 1, overflowDisposition := .block, queue }

theorem two_start : start 1 .block 2 = two (one []) .idle .idle := rfl

/-- Any step but a `put` that must not reopen the queue, and `clear`. -/
theorem careful_step {s s' : Threads ℕ} (h : Step p s s') (hput : ∀ value, p ≠ .putTested value false)
    (hclear : p ≠ .clearCalled) : CarefulStep s s' :=
  ⟨p, h, fun value hp => absurd hp (hput value), fun hp => absurd hp hclear⟩

/-- A `put` into an open queue. -/
theorem careful_put {value : ℕ} (ha : Act q (.putTested value false) q' p') (hq : q.closed = false) :
    CarefulStep (two q r (.putTested value false)) (two q' r p') :=
  ⟨_, step_second ha, fun _ _ => hq, nofun⟩

/-- The second thread has filled the queue, and sleeps until there is space for another item. -/
theorem full_reached : ReflTransGen CarefulStep (start 1 .block 2) (two (one [7]) .idle (.putAsleep 8)) := by
  rw [two_start]
  calc ReflTransGen CarefulStep (two (one []) .idle .idle) (two (one []) .idle (.putTested 7 false)) :=
        .single (careful_step (step_second (.putTest (.inr rfl))) nofun nofun)
    ReflTransGen CarefulStep _ (two (one [7]) .idle .putDone) :=
        .single (careful_put (.put (show (one []).putLocked 7 = some (true, one [7]) from rfl)) rfl)
    ReflTransGen CarefulStep _ (two (one [7]) .idle .idle) :=
        .single (careful_step (step_second .putSilent) nofun nofun)
    ReflTransGen CarefulStep _ (two (one [7]) .idle (.putTested 8 false)) :=
        .single (careful_step (step_second (.putTest (.inr rfl))) nofun nofun)
    ReflTransGen CarefulStep _ (two (one [7]) .idle (.putAsleep 8)) :=
        .single (careful_put (.putSleep rfl) rfl)

/-- The first thread takes the item, and has not told the producer yet. -/
theorem taken_reached : ReflTransGen CarefulStep (start 1 .block 2) (two (one []) (.getDone true) (.putAsleep 8)) := by
  calc ReflTransGen CarefulStep (start 1 .block 2) (two (one [7]) .idle (.putAsleep 8)) := full_reached
    ReflTransGen CarefulStep _ (two (one [7]) .getting (.putAsleep 8)) :=
        .single (careful_step (step_first .getCall) nofun nofun)
    ReflTransGen CarefulStep _ (two (one []) (.getDone true) (.putAsleep 8)) :=
        .single (careful_step
          (step_first (.get (show (one [7]).get false = some (some 7, one []) from rfl))) nofun nofun)

/-- The producer is told, puts its item, and sleeps again, as the first thread is about to close the queue. -/
theorem closing_reached : ReflTransGen CarefulStep (start 1 .block 2) (two (one [8]) .closeCalled (.putAsleep 9)) := by
  have hnotify : Step (.getDone true) (two (one []) (.getDone true) (.putAsleep 8)) (two (one []) .idle (.putAwake 8)) :=
    .getNotify (.one (p := .putAsleep 8) nofun)
  calc ReflTransGen CarefulStep (start 1 .block 2) (two (one []) (.getDone true) (.putAsleep 8)) := taken_reached
    ReflTransGen CarefulStep _ (two (one []) .idle (.putAwake 8)) := .single (careful_step hnotify nofun nofun)
    ReflTransGen CarefulStep _ (two (one [8]) .idle .putDone) :=
        .single (careful_step (step_second (.putAwake (.inl Nat.zero_lt_one))) nofun nofun)
    ReflTransGen CarefulStep _ (two (one [8]) .idle .idle) :=
        .single (careful_step (step_second .putSilent) nofun nofun)
    ReflTransGen CarefulStep _ (two (one [8]) .idle (.putTested 9 false)) :=
        .single (careful_step (step_second (.putTest (.inr rfl))) nofun nofun)
    ReflTransGen CarefulStep _ (two (one [8]) .idle (.putAsleep 9)) :=
        .single (careful_put (.putSleep rfl) rfl)
    ReflTransGen CarefulStep _ (two (one [8]) .closeCalled (.putAsleep 9)) :=
        .single (careful_step (step_first .closeCall) nofun nofun)

/-- After `close` the producer is told, and gives up. -/
theorem closed_reached : ReflTransGen CarefulStay (two (one [8]).close .closed (.putAsleep 9))
    (two (one [8]).close .closeNotified .putDone) := by
  have hnotify : Step .closed (two (one [8]).close .closed (.putAsleep 9))
      (two (one [8]).close .closeNotified (.putAwake 9)) := .closeNotifySpace
  have hwake : Step (.putAwake 9) (two (one [8]).close .closeNotified (.putAwake 9))
      (two (one [8]).close .closeNotified .putDone) := step_second (.putAwake (.inr rfl))
  have hstay : ∀ {p : Phase ℕ} {s s' : Threads ℕ}, Step p s s' → p = .closed ∨ p = .putAwake 9 → CarefulStay s s' := by
    rintro p s s' h (rfl | rfl)
    · exact ⟨_, h, ⟨nofun, nofun⟩, by simp [Reopens]⟩
    · exact ⟨_, h, ⟨nofun, nofun⟩, by simp [Reopens]⟩
  exact .tail (.single (hstay hnotify (.inl rfl))) (hstay hwake (.inr rfl))

/-- A producer sleeps while a place is free, and another one when the queue is closed. -/
theorem told_and_closed_of_asleep :
    (two (one []) (.getDone true) (.putAsleep 8)).Announced ∧ (one []).HasSpace ∧
      0 < (two (one []) (.getDone true) (.putAsleep 8)).asleep ∧
        (two (one [8]).close .closeNotified .putDone).q.closed = true :=
  ⟨(told_and_closed taken_reached).1, .inr Nat.zero_lt_one, Nat.zero_lt_one,
    (told_and_closed closing_reached).2 _ _ (step_first .close) closed_reached⟩

/-- A producer that has tested the queue, and another thread about to close it. -/
theorem tested_reached : ReflTransGen CarefulStep (start 1 .block 2) (two (one []) (.putTested 7 false) .closeCalled) := by
  rw [two_start]
  exact .tail (.single (careful_step (step_first (.putTest (.inr rfl))) nofun nofun))
    (careful_step (step_second .closeCall) nofun nofun)

def AnyStep (s s' : Threads T) : Prop := ∃ p, Step p s s'

def AnyStay (s s' : Threads T) : Prop := ∃ p, Step p s s' ∧ ¬ Reopens p

theorem careful_any {s s' : Threads T} (h : ReflTransGen CarefulStep s s') : ReflTransGen AnyStep s s' := by
  refine ReflTransGen.mono ?_ _ _ h
  rintro _ _ ⟨p, hs, -⟩
  exact ⟨p, hs⟩

theorem put_seven (closed : Bool) : Act { one [] with closed } (.putTested 7 false) (one [7]) .putDone :=
  .put (show ({ one [] with closed } : BlockingQueue ℕ).putLocked 7 = some (true, one [7]) from rfl)

/-- A producer falls asleep on a full queue, which is then cleared. -/
theorem cleared_reached : ReflTransGen AnyStep (start 1 .block 2) (two (one []) (.putAsleep 8) .idle) := by
  rw [two_start]
  calc ReflTransGen AnyStep (two (one []) .idle .idle) (two (one []) (.putTested 7 false) .idle) :=
        .single ⟨_, step_first (.putTest (.inr rfl))⟩
    ReflTransGen AnyStep _ (two (one [7]) .putDone .idle) :=
        .single ⟨_, step_first (put_seven false)⟩
    ReflTransGen AnyStep _ (two (one [7]) .idle .idle) :=
        .single ⟨_, step_first .putSilent⟩
    ReflTransGen AnyStep _ (two (one [7]) (.putTested 8 false) .idle) :=
        .single ⟨_, step_first (.putTest (.inr rfl))⟩
    ReflTransGen AnyStep _ (two (one [7]) (.putAsleep 8) .idle) :=
        .single ⟨_, step_first (.putSleep rfl)⟩
    ReflTransGen AnyStep _ (two (one [7]) (.putAsleep 8) .clearCalled) :=
        .single ⟨_, step_second .clearCall⟩
    ReflTransGen AnyStep _ (two (one []) (.putAsleep 8) .idle) :=
        .single ⟨_, step_second .clear⟩

theorem not_told_or_closed :
    ¬ (∀ s : Threads ℕ, ReflTransGen AnyStep (start 1 .block 2) s → s.Announced) ∧
      ¬ (∀ s s₁ s₂ : Threads ℕ, ReflTransGen AnyStep (start 1 .block 2) s → Step .closeCalled s s₁ →
          ReflTransGen AnyStay s₁ s₂ → s₂.q.closed = true) := by
  constructor
  · intro hall
    have htold := hall _ cleared_reached (.inr Nat.zero_lt_one) Nat.zero_lt_one
    revert htold
    decide
  · intro hall
    have hclose : Step .closeCalled (two (one []) (.putTested 7 false) .closeCalled) _ := step_second .close
    have hput : AnyStay (two (one []).close (.putTested 7 false) .closed) (two (one [7]) .putDone .closed) := by
      refine ⟨_, step_first (put_seven true), ?_⟩
      rintro (h | ⟨value, h⟩) <;> cases h
    have := hall _ _ _ (careful_any tested_reached) hclose (.single hput)
    exact absurd this (by decide)

end Threads

end BlockingQueue

end CommonCore
