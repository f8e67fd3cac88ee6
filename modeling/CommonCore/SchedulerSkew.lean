import CommonCore.SchedulerHandles
import CommonCore.SchedulerSlots

/-!
# The clock is set

The watcher finds the clock before or far behind the time of its task, and moves
all tasks. The expected time that it hands over is the key of this very task, so
that it is a new time from the second task on.
-/

namespace CommonCore

namespace Scheduler

open Relation

/-- Is a task due at a distance from others, and not at slots of its own? -/
def Alignment.relative : Alignment → Bool
  | .alignStart | .alignNext => true
  | .alignUtc | .alignLocal => false

/-- All tasks are as the clock was moved from `tp` to `now`. -/
structure Shifted (tp now : Int) (old new : List Entry) : Prop where
  tasks : (new.map fun e => (e.id, e.task)).Perm (old.map fun e => (e.id, e.task))
  moved : ∀ e ∈ old, e.task.align.relative = true → ∀ e' ∈ new, e'.id = e.id → e'.tp = e.tp + (now - tp)
  aligned : ∀ e ∈ old, e.task.align = .alignUtc → ∀ e' ∈ new, e'.id = e.id →
    IsLeast {t | e.task.interval ∣ t ∧ now ≤ t} e'.tp

/-- A task whose time stays what it is when the clock is set to `now`. -/
def Entry.stays (localAdjustment : Int → Int) (e : Entry) (now : Int) : Prop :=
  match e.task.align with
  | .alignStart | .alignNext => now = e.tp
  | .alignUtc => e.task.interval ∣ e.tp ∧ now ≤ e.tp ∧ e.tp < now + e.task.interval
  | .alignLocal => e.task.interval ∣ e.tp - localAdjustment now ∧ now ≤ e.tp ∧ e.tp < now + e.task.interval

section
variable {localAdjustment : Int → Int} {task : Task}

theorem adjustedTime_relative (h : task.align.relative = true) (old new tp : Int) :
    task.adjustedTime localAdjustment old new tp = tp + (new - old) := by
  unfold Task.adjustedTime
  cases ha : task.align with
  | alignStart | alignNext => rfl
  | alignUtc | alignLocal =>
    rw [ha] at h
    cases h

theorem adjustedTime_utc (hpos : 0 < task.interval) (h : task.align = .alignUtc) (old new tp : Int) :
    IsLeast {t | task.interval ∣ t ∧ new ≤ t} (task.adjustedTime localAdjustment old new tp) := by
  have hleast := nextAligned_isLeast hpos 0 new
  simp only [sub_zero] at hleast
  simp only [Task.adjustedTime, Task.alignedTime, h]
  exact hleast

/-- The first slot is known by its place. -/
theorem isLeast_slot_iff {interval : Int} (hpos : 0 < interval) {reference now slot : Int}
    (h : IsLeast {t | interval ∣ t - reference ∧ now ≤ t} slot) (tp : Int) :
    slot = tp ↔ interval ∣ tp - reference ∧ now ≤ tp ∧ tp < now + interval := by
  obtain ⟨⟨hdvd, hle⟩, hleast⟩ := h
  constructor
  · rintro rfl
    refine ⟨hdvd, hle, ?_⟩
    by_contra hfar
    have hbefore : slot ≤ slot - interval := by
      refine hleast ⟨?_, by omega⟩
      rw [sub_right_comm]
      exact dvd_sub_self_right.mpr hdvd
    omega
  · rintro ⟨hdvd', hle', hlt⟩
    have hbelow : slot ≤ tp := hleast ⟨hdvd', hle'⟩
    have hapart : interval ∣ tp - slot := by
      rw [← sub_sub_sub_cancel_right tp slot reference]
      exact dvd_sub hdvd' hdvd
    have hzero : tp - slot = 0 := Int.eq_zero_of_dvd_of_nonneg_of_lt (by omega) (by omega) hapart
    omega

theorem adjustedTime_eq_iff (e : Entry) (hpos : 0 < e.task.interval) (now : Int) :
    e.task.adjustedTime localAdjustment e.tp now e.tp = e.tp ↔ e.stays localAdjustment now := by
  unfold Task.adjustedTime Task.alignedTime Entry.stays
  cases e.task.align with
  | alignStart | alignNext =>
    dsimp only
    omega
  | alignUtc =>
    have h := isLeast_slot_iff hpos (nextAligned_isLeast hpos 0 now) e.tp
    rwa [sub_zero] at h
  | alignLocal => exact isLeast_slot_iff hpos (nextAligned_isLeast hpos (localAdjustment now) now) e.tp

def Entry.adjusted (localAdjustment : Int → Int) (expected now : Int) (e : Entry) : Entry :=
  { e with tp := e.task.adjustedTime localAdjustment expected now e.tp }

/-- Behind the watcher's task, all are moved from the same time. -/
theorem rekey_behind {id : ℕ} {tasks : List Entry} (h : ∀ e ∈ tasks, e.id ≠ id) (now expected : Int) :
    State.rekey localAdjustment id now expected tasks = tasks.map (.adjusted localAdjustment expected now) := by
  induction tasks with
  | nil => rfl
  | cons e tasks ih =>
    rw [List.forall_mem_cons] at h
    rw [State.rekey, if_neg h.1, ih h.2, List.map_cons]
    rfl

end

namespace State

variable {localAdjustment : Int → Int} {s s' : State}

/-- Tasks have addresses of their own, and intervals that `add` accepts. -/
structure Mapped (s : State) : Prop extends s.Filed where
  intervals : ∀ e ∈ s.tasks, 0 < e.task.interval

/-! ## The map in every run -/

/-- No task has an interval that was not there. -/
def Drawn (s s' : State) : Prop := ∀ e' ∈ s'.tasks, ∃ e ∈ s.tasks, e'.task.interval = e.task.interval

theorem Drawn.of_subset (h : s'.tasks ⊆ s.tasks) : Drawn s s' := fun e he => ⟨e, h he, rfl⟩

theorem Drawn.trans {s'' : State} (h : Drawn s s') (h' : Drawn s' s'') : Drawn s s'' := by
  intro e he
  obtain ⟨e', he', heq'⟩ := h' e he
  obtain ⟨e'', he'', heq''⟩ := h e' he'
  exact ⟨e'', he'', heq'.trans heq''⟩

theorem Drawn.of_pairs (h : s'.pairs.Perm s.pairs) : Drawn s s' := by
  intro e' he'
  obtain ⟨e, he, heq⟩ := List.mem_map.mp (h.mem_iff.mp (List.mem_map.mpr ⟨e', he', rfl⟩))
  exact ⟨e, he, congrArg (·.interval) (Prod.mk.inj heq).2.symm⟩

theorem drawn_loop (w : ℕ) : Drawn s (s.loop w) := by
  rcases loop_cases s w with h | ⟨e, -, h⟩ <;> rw [h] <;> exact .of_subset (List.Subset.refl _)

theorem tasks_stopWatcher (restart : Bool) : (s.stopWatcher restart).tasks = s.tasks := by
  unfold stopWatcher
  split
  · rfl
  · split_ifs <;> rfl

theorem drawn_wake (w id : ℕ) (now : Int) : Drawn s (s.wake localAdjustment w id now) := by
  unfold wake
  split_ifs
  · exact .of_subset (List.Subset.refl _)
  · split
    · rename_i c e hc he
      split_ifs
      · exact (Drawn.of_pairs (pairs_adjustTimes id e.tp now)).trans (drawn_loop w)
      · exact .of_subset (List.Subset.refl _)
      · exact drawn_loop w
    · exact drawn_loop w

theorem invoke_interval (task : Task) (threw : Bool) : (task.invoke threw).2.interval = task.interval := by
  unfold Task.invoke
  split_ifs <;> rfl

theorem drawn_putBack {e : Entry} (he : e ∈ s.tasks) (threw : Bool) (now : Int) :
    Drawn s { s with tasks := s.putBack localAdjustment e threw now } := by
  intro e' he'
  unfold putBack at he'
  dsimp only at he'
  split_ifs at he' with hk
  · rcases List.mem_cons.mp ((insert_perm _ _).mem_iff.mp he') with rfl | he'
    · exact ⟨e, he, invoke_interval e.task threw⟩
    · exact ⟨e', (List.mem_filter.mp he').1, rfl⟩
  · obtain ⟨e₀, he₀, rfl⟩ := List.mem_map.mp he'
    split_ifs
    · exact ⟨e, he, invoke_interval e.task threw⟩
    · exact ⟨e₀, he₀, rfl⟩

theorem drawn_finish (w id : ℕ) (threw : Bool) (now : Int) : Drawn s (s.finish localAdjustment w id threw now) := by
  unfold finish
  dsimp only
  split
  · have hnote : Drawn s (s.note id (Record.finish threw)) := .of_subset (List.Subset.refl _)
    exact hnote.trans (drawn_loop w)
  · rename_i e he
    have hin : e ∈ s.tasks := (entry_some he).1
    exact (drawn_putBack hin threw now).trans (drawn_loop (s := { s.note id _ with tasks := _ }) w)

theorem Mapped.step (h : s.Mapped) {a : Act} (hs : Step localAdjustment a s s') : s'.Mapped := by
  refine ⟨h.toFiled.step hs, fun e' he' => ?_⟩
  have hdrawn : Drawn s s' → 0 < e'.task.interval := fun hd => by
    obtain ⟨e, he, heq⟩ := hd e' he'
    rw [heq]
    exact h.intervals e he
  cases hs with
  | @add _ handle interval align count retries catchup now hpos =>
    have hin : e' ∈ (s.insertTask localAdjustment ⟨handle, interval, align, count, count, retries, 0, catchup⟩ now).tasks := by
      unfold add at he'
      dsimp only at he'
      split_ifs at he'
      · rwa [tasks_stopWatcher] at he'
      · exact he'
    rcases List.mem_cons.mp ((insert_perm _ _).mem_iff.mp hin) with rfl | hin
    · exact hpos
    · exact h.intervals e' (List.mem_filter.mp hin).1
  | removeHandle | removeTask => exact hdrawn (.of_subset List.filter_sublist.subset)
  | stop => exact hdrawn (.of_subset fun e he => by rwa [tasks_stopWatcher] at he)
  | joined | restarted => exact hdrawn (.of_subset (List.Subset.refl _))
  | begin => exact hdrawn (drawn_loop _)
  | @wake _ w id now => exact hdrawn (drawn_wake w id now)
  | @finish _ w id threw now => exact hdrawn (drawn_finish w id threw now)

theorem mapped_run {maxJitter : Int} (hr : ReflTransGen (AnyStep localAdjustment) (start maxJitter) s) : s.Mapped := by
  induction hr with
  | refl => exact ⟨⟨List.nodup_nil, List.nodup_nil, nofun, fun _ _ => rfl⟩, nofun⟩
  | tail _ hs ih =>
    obtain ⟨a, hs⟩ := hs
    exact ih.step hs

/-! ## The map after a skew -/

section
variable {first : Entry} {rest : List Entry} (h : s.Mapped) (ht : s.tasks = first :: rest)
include h ht

theorem Mapped.apart : ∀ e ∈ rest, e.id ≠ first.id := by
  have hn := h.pairs
  unfold State.pairs at hn
  rw [ht, List.map_cons, List.map_cons, List.nodup_cons, List.map_map] at hn
  exact fun e he heq => hn.1 (List.mem_map.mpr ⟨e, he, heq⟩)

theorem mem_adjustTimes (localAdjustment : Int → Int) (now : Int) (e' : Entry) : e' ∈ (s.adjustTimes localAdjustment first.id first.tp now).tasks ↔
    e' = first.adjusted localAdjustment first.tp now ∨
      ∃ e ∈ rest, e.adjusted localAdjustment (first.adjusted localAdjustment first.tp now).tp now = e' := by
  unfold adjustTimes
  rw [(foldl_insert_perm _ []).mem_iff, List.append_nil, ht, rekey, if_pos rfl, rekey_behind (h.apart ht),
    List.mem_cons, List.mem_map]
  rfl

/-- The first task is where it should be, and one behind it if the first one is
not moved or it has slots of its own. -/
theorem shifted_iff (now : Int) :
    Shifted first.tp now s.tasks (s.adjustTimes localAdjustment first.id first.tp now).tasks ↔
      (∀ e ∈ rest, e.task.align.relative = false) ∨ first.stays localAdjustment now := by
  have hpos : ∀ e ∈ s.tasks, 0 < e.task.interval := h.intervals
  have hfirst : first ∈ s.tasks := by simp [ht]
  have hbehind : ∀ e ∈ rest, e ∈ s.tasks := fun e he => by simp [ht, he]
  have hmem := mem_adjustTimes h ht localAdjustment now
  rw [← adjustedTime_eq_iff first (hpos first hfirst)]
  constructor
  · intro hs
    by_contra hno
    push Not at hno
    obtain ⟨⟨e, he, hrel⟩, hne⟩ := hno
    rw [ne_eq, Bool.not_eq_false] at hrel
    have hin := (hmem (e.adjusted localAdjustment (first.adjusted localAdjustment first.tp now).tp now)).mpr (.inr ⟨e, he, rfl⟩)
    have hmoved : e.task.adjustedTime localAdjustment (first.adjusted localAdjustment first.tp now).tp now e.tp = e.tp + (now - first.tp) :=
      hs.moved e (hbehind e he) hrel _ hin rfl
    rw [adjustedTime_relative hrel] at hmoved
    apply hne
    show (first.adjusted localAdjustment first.tp now).tp = first.tp
    omega
  · intro hcond
    have hsame : ∀ e ∈ s.tasks, ∀ e' ∈ (s.adjustTimes localAdjustment first.id first.tp now).tasks, e'.id = e.id →
        e = first ∧ e' = first.adjusted localAdjustment first.tp now ∨
          e ∈ rest ∧ e' = e.adjusted localAdjustment (first.adjusted localAdjustment first.tp now).tp now := by
      intro e he e' he' hid
      rcases (hmem e').mp he' with rfl | ⟨e₀, he₀, rfl⟩
      · exact .inl ⟨eq_of_id h.pairs he hfirst hid.symm, rfl⟩
      · obtain rfl : e = e₀ := eq_of_id h.pairs he (hbehind e₀ he₀) hid.symm
        exact .inr ⟨he₀, rfl⟩
    constructor
    · exact pairs_adjustTimes first.id first.tp now
    · intro e he hrel e' he' hid
      rcases hsame e he e' he' hid with ⟨rfl, rfl⟩ | ⟨he, rfl⟩
      · exact adjustedTime_relative hrel e.tp now e.tp
      · rcases hcond with hcond | hcond
        · rw [hcond e he] at hrel
          cases hrel
        · have hkey : (first.adjusted localAdjustment first.tp now).tp = first.tp := hcond
          rw [hkey]
          exact adjustedTime_relative hrel first.tp now e.tp
    · intro e he hutc e' he' hid
      rcases hsame e he e' he' hid with ⟨rfl, rfl⟩ | ⟨-, rfl⟩ <;> exact adjustedTime_utc (hpos e he) hutc ..

end

/-- What the watcher does when it finds that the clock was set while it waited
for the first task. -/
theorem shifted_of_skew_iff (h : s.Mapped) {first : Entry} {rest : List Entry} (ht : s.tasks = first :: rest)
    (ha : s.activeWatcher ≠ none) (hc : s.current ≠ none) {now : Int}
    (hskew : now < first.tp ∨ first.tp + s.maxJitter < now) (w : ℕ) :
    Shifted first.tp now s.tasks (s.wake localAdjustment w first.id now).tasks ↔
      (∀ e ∈ rest, e.task.align.relative = false) ∨ first.stays localAdjustment now := by
  have hentry : s.entry first.id = some first := by
    unfold entry
    rw [ht]
    exact List.find?_cons_of_pos (by simp)
  obtain ⟨c, hc⟩ := Option.ne_none_iff_exists'.mp hc
  have hwake : (s.wake localAdjustment w first.id now).tasks = (s.adjustTimes localAdjustment first.id first.tp now).tasks := by
    simp only [wake, if_neg ha, hc, hentry, if_pos hskew]
    rcases loop_cases (s.adjustTimes localAdjustment first.id first.tp now) w with hl | ⟨e, -, hl⟩
    · rw [hl]
    · rw [hl]
      rfl
  rw [hwake]
  exact shifted_iff h ht now

/-! ## Two tasks -/

def leading (align : Alignment) : Task := ⟨ascii "leading", 10, align, 0, 0, 0, 0, false⟩

def following : Task := ⟨ascii "following", 10, .alignStart, 0, 0, 0, 0, false⟩

/-- The two are added at the times `0` and `2`, and the watcher waits for the
first. -/
def waitingFor (align : Alignment) : State := (((start 5).add utc (leading align) 0).add utc following 2).loop 1

theorem waitingFor_reached {align : Alignment} (h : align = .alignStart ∨ align = .alignUtc) :
    ReflTransGen (AnyStep utc) (start 5) (waitingFor align) := by
  have hstarting : (1, .starting) ∈ (((start 5).add utc (leading align) 0).add utc following 2).watchers := by
    rcases h with rfl | rfl <;> exact List.mem_singleton_self _
  calc ReflTransGen (AnyStep utc) (start 5) ((start 5).add utc (leading align) 0) := .single ⟨_, .add (by decide)⟩
    ReflTransGen (AnyStep utc) _ (((start 5).add utc (leading align) 0).add utc following 2) :=
        .single ⟨_, .add (by decide)⟩
    ReflTransGen (AnyStep utc) _ (waitingFor align) := .single ⟨_, .begin hstarting⟩

/-- The clock is set back by less than an interval, so that the first task keeps
its slot. -/
theorem following_shifted : Shifted 0 (-3) (waitingFor .alignUtc).tasks ((waitingFor .alignUtc).wake utc 1 0 (-3)).tasks :=
  (shifted_of_skew_iff (mapped_run (waitingFor_reached (.inr rfl))) rfl nofun nofun (.inl (by decide)) 1).mpr
    (.inr ⟨by decide, by decide, by decide⟩)

/-- The clock is set ahead, and the second task stays where it is. -/
theorem following_not_shifted : ¬ ∀ (localAdjustment : Int → Int) (s : State) (maxJitter : Int),
    ReflTransGen (AnyStep localAdjustment) (start maxJitter) s → ∀ (first : Entry) (rest : List Entry),
      s.tasks = first :: rest → s.activeWatcher ≠ none → s.current ≠ none → ∀ now,
        now < first.tp ∨ first.tp + s.maxJitter < now → ∀ w, (w, .waiting first.id) ∈ s.watchers →
          Shifted first.tp now s.tasks (s.wake localAdjustment w first.id now).tasks := by
  intro hall
  have hold : (waitingFor .alignStart).tasks = [⟨0, 0, leading .alignStart⟩, ⟨2, 2, following⟩] := rfl
  have hnew : ((waitingFor .alignStart).wake utc 1 0 100).tasks = [⟨2, 2, following⟩, ⟨100, 0, leading .alignStart⟩] := rfl
  have hs := hall utc (waitingFor .alignStart) 5 (waitingFor_reached (.inl rfl)) _ _ hold nofun nofun 100
    (.inr (by decide)) 1 (List.mem_singleton_self _)
  rw [hold, hnew] at hs
  have hmoved := hs.moved ⟨2, 2, following⟩ (by simp) rfl ⟨2, 2, following⟩ (by simp) rfl
  revert hmoved
  decide

end State

end Scheduler

end CommonCore
