import CommonCore.SchedulerRuns

/-!
# Handles of scheduled tasks

The map never has two tasks with one handle, and a task that has been removed
is not invoked again, whatever the watcher is doing meanwhile. `add_if_missing`
is a `find`, which changes nothing, and maybe an `add` some steps later.
-/

namespace CommonCore

namespace Scheduler

namespace State

open Relation

variable {localAdjustment : Int → Int} {s s' s'' : State}

/-- Which tasks are in the map, with their handles. -/
def roster (s : State) : List (ℕ × Bytes) := s.tasks.map fun e => (e.id, e.task.handle)

theorem has_iff_roster {id : ℕ} : s.has id ↔ ∃ handle, (id, handle) ∈ s.roster := by
  unfold roster has
  simp

theorem roster_ids : s.roster.map Prod.fst = s.pairs.map Prod.fst := by
  unfold roster pairs
  rw [List.map_map, List.map_map]
  rfl

theorem roster_handles : s.roster.map Prod.snd = s.tasks.map fun e => e.task.handle := by
  unfold roster
  rw [List.map_map]
  rfl

/-! ## What a step leaves of the map -/

/-- An invocation of `id` begins between these states. -/
def Begins (s s' : State) (id : ℕ) : Prop := (s'.record id).started ≠ (s.record id).started

/-- No task is new, and only tasks of the map are invoked. -/
structure Kin (s s' : State) : Prop where
  roster : s'.roster.Subperm s.roster
  fresh : s.fresh ≤ s'.fresh
  begins : ∀ id, s.Begins s' id → s.has id

theorem Kin.has (h : Kin s s') {id : ℕ} (hid : s'.has id) : s.has id := by
  obtain ⟨handle, hm⟩ := has_iff_roster.mp hid
  exact has_iff_roster.mpr ⟨handle, h.roster.subset hm⟩

theorem Kin.trans (h : Kin s s') (h' : Kin s' s'') : Kin s s'' := by
  refine ⟨h'.roster.trans h.roster, h.fresh.trans h'.fresh, fun id hb => ?_⟩
  by_cases hs : (s'.record id).started = (s.record id).started
  · apply h.has
    apply h'.begins
    unfold Begins at *
    rwa [hs]
  · exact h.begins id hs

theorem Kin.of_tasks (ht : s'.tasks = s.tasks) (hf : s.fresh ≤ s'.fresh) (hr : s'.record = s.record) : Kin s s' := by
  refine ⟨?_, hf, fun id hb => ?_⟩
  · unfold State.roster
    rw [ht]
  · unfold Begins at hb
    rw [hr] at hb
    exact absurd rfl hb

theorem kin_removeTask (p : Entry → Bool) : Kin s (s.removeTask p) :=
  ⟨(List.filter_sublist.map _).subperm, le_rfl, fun _ hb => absurd rfl hb⟩

theorem kin_startWatcher : Kin s s.startWatcher := .of_tasks rfl (Nat.le_succ _) rfl

theorem kin_stopWatcher (restart : Bool) : Kin s (s.stopWatcher restart) := by
  unfold stopWatcher
  split
  · exact .of_tasks rfl le_rfl rfl
  · split_ifs
    · exact kin_startWatcher
    · exact .of_tasks rfl le_rfl rfl

theorem record_stopWatcher (restart : Bool) : (s.stopWatcher restart).record = s.record := by
  unfold stopWatcher
  split
  · rfl
  · split_ifs <;> rfl

theorem kin_loop (w : ℕ) : Kin s (s.loop w) := by
  rcases loop_cases s w with h | ⟨e, -, h⟩
  · rw [h]
    exact .of_tasks rfl le_rfl rfl
  · rw [h]
    exact .of_tasks rfl le_rfl rfl

theorem kin_adjustTimes (id : ℕ) (expected now : Int) : Kin s (s.adjustTimes localAdjustment id expected now) := by
  refine ⟨List.Perm.subperm ?_, le_rfl, fun _ hb => absurd rfl hb⟩
  unfold roster adjustTimes
  refine ((foldl_insert_perm _ []).map _).trans ?_
  rw [List.append_nil, map_rekey _ fun _ _ => rfl]

theorem kin_wake (w id : ℕ) (now : Int) : Kin s (s.wake localAdjustment w id now) := by
  unfold wake
  split_ifs
  · exact .of_tasks rfl le_rfl rfl
  · split
    · rename_i c e hcur he
      split_ifs
      · exact (kin_adjustTimes id e.tp now).trans (kin_loop w)
      · refine ⟨.refl _, le_rfl, fun id' hb => ?_⟩
        by_cases hid : id' = id
        · rw [hid]
          exact ⟨e, entry_some he⟩
        · have hsame : ((s.note id Record.begin).setPhase w (.invoking id)).record id' = s.record id' :=
            Function.update_of_ne hid ..
          unfold Begins at hb
          rw [hsame] at hb
          exact absurd rfl hb
      · exact kin_loop w
    · exact kin_loop w

theorem invoke_handle (task : Task) (threw : Bool) : (task.invoke threw).2.handle = task.handle := by
  unfold Task.invoke
  split_ifs <;> rfl

/-- A task that is put back is the one that was in the map. -/
theorem roster_putBack (hn : (s.pairs.map Prod.fst).Nodup) {e : Entry} (he : e ∈ s.tasks) (threw : Bool) (now : Int) :
    (({ s with tasks := s.putBack localAdjustment e threw now } : State).roster).Subperm s.roster := by
  unfold putBack
  by_cases hk : (e.task.invoke threw).1 = true ∧ s.current.isSome = true
  · simp only [if_pos hk]
    have hperm := (insert_perm ⟨(e.task.invoke threw).2.nextTime localAdjustment e.tp now, e.id,
      (e.task.invoke threw).2⟩ (s.tasks.filter (·.id ≠ e.id))).map fun e => (e.id, e.task.handle)
    refine hperm.subperm.trans ?_
    rw [List.map_cons, invoke_handle]
    have hsplit : (s.tasks.filter (·.id = e.id) ++ s.tasks.filter (·.id ≠ e.id)).Perm s.tasks := by
      have := List.filter_append_perm (fun e' : Entry => decide (e'.id = e.id)) s.tasks
      simpa using this
    have hone : [e].Subperm (s.tasks.filter (·.id = e.id)) :=
      List.singleton_subperm_iff.mpr (List.mem_filter.mpr ⟨he, by simp⟩)
    have hboth : (e :: s.tasks.filter (·.id ≠ e.id)).Subperm s.tasks :=
      ((List.subperm_append_right _).mpr hone).trans hsplit.subperm
    obtain ⟨l, hp, hl⟩ := hboth
    exact ⟨l.map _, hp.map _, hl.map _⟩
  · simp only [if_neg hk]
    apply List.Perm.subperm
    unfold roster
    rw [List.map_map]
    refine .of_eq (List.map_congr_left fun e' he' => ?_)
    by_cases hid : e'.id = e.id
    · rw [eq_of_id hn he' he hid]
      simp [invoke_handle]
    · simp [hid]

theorem kin_putBack (hn : (s.pairs.map Prod.fst).Nodup) {e : Entry} (he : e ∈ s.tasks) (threw : Bool) (now : Int) :
    Kin s { s with tasks := s.putBack localAdjustment e threw now } :=
  ⟨roster_putBack hn he threw now, le_rfl, fun _ hb => absurd rfl hb⟩

theorem kin_note (id : ℕ) (threw : Bool) : Kin s (s.note id (Record.finish threw)) := by
  refine ⟨.refl _, le_rfl, fun id' hb => absurd ?_ hb⟩
  show (Function.update s.record id ((s.record id).finish threw) id').started = (s.record id').started
  by_cases hid : id' = id
  · rw [hid, Function.update_self]
    rfl
  · rw [Function.update_of_ne hid]

theorem kin_finish (hn : (s.pairs.map Prod.fst).Nodup) (w id : ℕ) (threw : Bool) (now : Int) :
    Kin s (s.finish localAdjustment w id threw now) := by
  have hnote : Kin s (s.note id (Record.finish threw)) := kin_note id threw
  unfold finish
  dsimp only
  split
  · exact hnote.trans (kin_loop w)
  · rename_i e he
    have hn : ((s.note id (Record.finish threw)).pairs.map Prod.fst).Nodup := hn
    exact (hnote.trans (kin_putBack hn (entry_some he).1 threw now)).trans (kin_loop w)

/-- A step takes in one task, or none. -/
theorem kin_step (hn : (s.pairs.map Prod.fst).Nodup) {a : Act} (hs : Step localAdjustment a s s') :
    (∃ task now, a = .add task now ∧ Kin (s.insertTask localAdjustment task now) s') ∨ Kin s s' := by
  cases hs with
  | @add s handle interval align count retries catchup now =>
    refine .inl ⟨_, now, rfl, ?_⟩
    unfold add
    dsimp only
    split_ifs
    · exact kin_stopWatcher true
    · exact .of_tasks rfl le_rfl rfl
  | removeHandle => exact .inr (kin_removeTask _)
  | removeTask => exact .inr (kin_removeTask _)
  | stop => exact .inr (kin_stopWatcher false)
  | joined => exact .inr (.of_tasks rfl le_rfl rfl)
  | restarted => exact .inr (.of_tasks rfl (Nat.le_succ _) rfl)
  | begin => exact .inr (kin_loop _)
  | wake => exact .inr (kin_wake ..)
  | finish => exact .inr (kin_finish hn ..)

/-! ## One task for each handle -/

structure Filed (s : State) : Prop where
  ids : (s.roster.map Prod.fst).Nodup
  handles : (s.roster.map Prod.snd).Nodup
  below : ∀ p ∈ s.roster, p.1 < s.fresh
  blank : ∀ id, s.fresh ≤ id → (s.record id).started = 0

theorem Filed.pairs (h : s.Filed) : (s.pairs.map Prod.fst).Nodup := by
  rw [← roster_ids]
  exact h.ids

theorem Filed.lt (h : s.Filed) {id : ℕ} (hid : s.has id) : id < s.fresh := by
  obtain ⟨handle, hm⟩ := has_iff_roster.mp hid
  exact h.below _ hm

theorem nodup_of_subperm {α : Type*} {l l' : List α} (hl : l'.Subperm l) (h : l.Nodup) : l'.Nodup := by
  obtain ⟨l₀, hp, hs⟩ := hl
  exact hp.nodup_iff.mp (hs.nodup h)

theorem Filed.kin (h : s.Filed) (hk : Kin s s') : s'.Filed := by
  obtain ⟨l, hp, hl⟩ := hk.roster
  refine ⟨?_, ?_, fun p hm => (h.below p (hk.roster.subset hm)).trans_le hk.fresh, fun id hid => ?_⟩
  · exact nodup_of_subperm ⟨_, hp.map _, hl.map _⟩ h.ids
  · exact nodup_of_subperm ⟨_, hp.map _, hl.map _⟩ h.handles
  · have hno : ¬ s.has id := fun hhas => by
      have := h.lt hhas
      have := hk.fresh
      omega
    have hsame : (s'.record id).started = (s.record id).started := not_not.mp fun hb => hno (hk.begins id hb)
    rw [hsame]
    exact h.blank id (hk.fresh.trans hid)

theorem roster_insertTask (task : Task) (now : Int) : (s.insertTask localAdjustment task now).roster.Perm
    ((s.fresh, task.handle) :: (s.removeTask fun e => e.task.handle == task.handle).roster) := by
  unfold roster insertTask
  exact (insert_perm _ _).map _

theorem handle_removeTask {handle : Bytes} {p : ℕ × Bytes}
    (hp : p ∈ (s.removeTask fun e => e.task.handle == handle).roster) : p.2 ≠ handle := by
  obtain ⟨e, he, rfl⟩ := List.mem_map.mp hp
  simpa using (List.mem_filter.mp he).2

theorem Filed.insertTask (h : s.Filed) (task : Task) (now : Int) : (s.insertTask localAdjustment task now).Filed := by
  have hperm : (s.insertTask localAdjustment task now).roster.Perm _ := roster_insertTask task now
  have hr := h.kin (kin_removeTask fun e => e.task.handle == task.handle)
  constructor
  · rw [(hperm.map _).nodup_iff, List.map_cons, List.nodup_cons]
    refine ⟨fun hm => ?_, hr.ids⟩
    obtain ⟨p, hp, he⟩ := List.mem_map.mp hm
    exact Nat.ne_of_lt (hr.below p hp) he
  · rw [(hperm.map _).nodup_iff, List.map_cons, List.nodup_cons]
    refine ⟨fun hm => ?_, hr.handles⟩
    obtain ⟨p, hp, he⟩ := List.mem_map.mp hm
    exact handle_removeTask hp he
  · intro p hp
    rcases List.mem_cons.mp (hperm.mem_iff.mp hp) with rfl | hp
    · exact Nat.lt_succ_self _
    · exact Nat.lt_succ_of_lt (hr.below p hp)
  · intro id hid
    have hne : id ≠ s.fresh := Nat.ne_of_gt hid
    show (Function.update s.record s.fresh _ id).started = 0
    rw [Function.update_of_ne hne]
    exact h.blank id (Nat.le_of_succ_le hid)

theorem Filed.step (h : s.Filed) {a : Act} (hs : Step localAdjustment a s s') : s'.Filed := by
  rcases kin_step h.pairs hs with ⟨task, now, -, hk⟩ | hk
  · exact (h.insertTask task now).kin hk
  · exact h.kin hk

/-- An invocation that begins is one of a task in the map. -/
theorem Filed.begins (h : s.Filed) {a : Act} (hs : Step localAdjustment a s s') {id : ℕ} (hb : s.Begins s' id) :
    s.has id := by
  rcases kin_step h.pairs hs with ⟨task, now, rfl, -⟩ | hk
  · exfalso
    apply hb
    have hrec : s'.record = Function.update s.record s.fresh { count := task.count } := by
      cases hs with
      | add =>
        unfold add
        dsimp only
        split_ifs
        · rw [record_stopWatcher]
          rfl
        · rfl
    rw [hrec]
    by_cases hid : id = s.fresh
    · rw [hid, Function.update_self, h.blank _ le_rfl]
    · rw [Function.update_of_ne hid]
  · exact hk.begins id hb

/-- What is not in the map does not come back. -/
theorem Filed.gone (h : s.Filed) {a : Act} (hs : Step localAdjustment a s s') {id : ℕ} (hlt : id < s.fresh)
    (hno : ¬ s.has id) : id < s'.fresh ∧ ¬ s'.has id := by
  rcases kin_step h.pairs hs with ⟨task, now, -, hk⟩ | hk
  · refine ⟨(Nat.lt_succ_of_lt hlt).trans_le hk.fresh, fun hhas => ?_⟩
    obtain ⟨handle, hm⟩ := has_iff_roster.mp (hk.has hhas)
    rcases List.mem_cons.mp ((roster_insertTask task now).mem_iff.mp hm) with heq | hm
    · exact Nat.ne_of_lt hlt (Prod.mk.inj heq).1
    · exact hno ((kin_removeTask _).has (has_iff_roster.mpr ⟨handle, hm⟩))
  · exact ⟨hlt.trans_le hk.fresh, fun hhas => hno (hk.has hhas)⟩

/-! ## Runs with one watcher -/

/-- Some call or watcher takes a step, and there is no second watcher. -/
def SoleStep (localAdjustment : Int → Int) (s s' : State) : Prop :=
  (∃ a, Step localAdjustment a s s') ∧ s'.watchers.length ≤ 1

/-- The same, where nobody adds a task with this handle. -/
def StepWithout (localAdjustment : Int → Int) (handle : Bytes) (s s' : State) : Prop :=
  (∃ a, Step localAdjustment a s s' ∧ ∀ task now, a = .add task now → task.handle ≠ handle) ∧ s'.watchers.length ≤ 1

/-- The watcher never looks at a task that is gone. -/
structure Sole (s : State) : Prop extends s.Filed where
  alone : s.watchers.length ≤ 1
  held : ∀ t ∈ s.watchers, ∀ id, t.2.watched = some id → s.Held id

theorem watchers_of_alone (h : s.watchers.length ≤ 1) {t : ℕ × Phase} (ht : t ∈ s.watchers) : s.watchers = [t] := by
  rcases hw : s.watchers with _ | ⟨t', rest⟩
  · rw [hw] at ht
    cases ht
  · rw [hw] at h ht
    obtain rfl : rest = [] := List.length_eq_zero_iff.mp (Nat.le_zero.mp (Nat.le_of_succ_le_succ h))
    rw [List.mem_singleton] at ht
    rw [ht]

theorem held_loop (h : s.Filed) {w : ℕ} {p : Phase} (hw : s.watchers = [(w, p)]) :
    ∀ t ∈ (s.loop w).watchers, ∀ id, t.2.watched = some id → (s.loop w).Held id := by
  rcases loop_cases s w with hl | ⟨e, he, hl⟩
  · rw [hl]
    simp [hw]
  · rw [hl]
    unfold setPhase
    intro t ht id hid
    have ht : t = (w, .waiting e.id) := by simpa [hw] using ht
    subst ht
    cases hid
    exact ⟨h.lt ⟨e, he, rfl⟩, .inl ⟨rfl, e, he, rfl⟩⟩

theorem held_insertTask (h : s.Filed) (task : Task) (now : Int) {id : ℕ} (hid : s.Held id) :
    (s.insertTask localAdjustment task now).Held id := by
  obtain ⟨hlt, hheld⟩ := held_removeTask h.pairs (fun e => e.task.handle == task.handle) hid
  have hhas : (s.insertTask localAdjustment task now).has id ↔
      (s.removeTask fun e => e.task.handle == task.handle).has id := by
    rw [has_iff, has_iff, ((pairs_insertTask task now).map Prod.fst).mem_iff, List.map_cons, List.mem_cons]
    exact or_iff_right (Nat.ne_of_lt hlt)
  refine ⟨Nat.lt_succ_of_lt hlt, ?_⟩
  rw [hhas]
  exact hheld

/-- A call that starts or stops watchers leaves the map alone. -/
theorem held_stopWatcher (h : ∀ t ∈ s.watchers, ∀ id, t.2.watched = some id → s.Held id) (restart : Bool) :
    ∀ t ∈ (s.stopWatcher restart).watchers, ∀ id, t.2.watched = some id → (s.stopWatcher restart).Held id := by
  unfold stopWatcher
  split
  · exact h
  · split_ifs
    · unfold startWatcher
      intro t ht id hid
      rcases List.mem_cons.mp ht with rfl | ht
      · cases hid
      · exact ⟨Nat.lt_succ_of_lt (h t ht id hid).1, (h t ht id hid).2⟩
    · exact h

theorem held_wake (h : s.Sole) {w id : ℕ} (hw : (w, .waiting id) ∈ s.watchers) (now : Int) :
    ∀ t ∈ (s.wake localAdjustment w id now).watchers, ∀ id', t.2.watched = some id' →
      (s.wake localAdjustment w id now).Held id' := by
  have hws := watchers_of_alone h.alone hw
  have hloop := held_loop h.toFiled hws
  unfold wake
  split_ifs with ha
  · simp [hws]
  · split
    · rename_i c e hcur he
      split_ifs with hjit hcid
      · exact held_loop (h.kin (kin_adjustTimes id e.tp now)) hws
      · subst hcid
        intro t ht id' hid
        have ht : t = (w, .invoking c) := by simpa [setPhase, note, hws] using ht
        subst ht
        cases hid
        exact h.held _ hw c rfl
      · exact hloop
    · exact hloop

theorem held_finish (h : s.Sole) {w id : ℕ} (hw : (w, .invoking id) ∈ s.watchers) (threw : Bool) (now : Int) :
    ∀ t ∈ (s.finish localAdjustment w id threw now).watchers, ∀ id', t.2.watched = some id' →
      (s.finish localAdjustment w id threw now).Held id' := by
  have hws := watchers_of_alone h.alone hw
  have hn : (s.note id (Record.finish threw)).Filed := h.kin (kin_note id threw)
  unfold finish
  dsimp only
  split
  · exact held_loop hn hws
  · rename_i e he
    exact held_loop (hn.kin (kin_putBack hn.pairs (entry_some he).1 threw now)) hws

theorem Sole.step (h : s.Sole) (hs : SoleStep localAdjustment s s') : s'.Sole := by
  obtain ⟨⟨a, hs⟩, halone⟩ := hs
  refine ⟨h.toFiled.step hs, halone, ?_⟩
  cases hs with
  | @add s handle interval align count retries catchup now =>
    have hi : ∀ t ∈ s.watchers, ∀ id, t.2.watched = some id →
        (s.insertTask localAdjustment ⟨handle, interval, align, count, count, retries, 0, catchup⟩ now).Held id :=
      fun t ht id hid => held_insertTask h.toFiled _ now (h.held t ht id hid)
    unfold add
    dsimp only
    split_ifs
    · exact held_stopWatcher hi true
    · exact hi
  | removeHandle => exact fun t ht id hid => held_removeTask h.pairs _ (h.held t ht id hid)
  | removeTask => exact fun t ht id hid => held_removeTask h.pairs _ (h.held t ht id hid)
  | stop => exact held_stopWatcher h.held false
  | joined => exact h.held
  | @restarted s w hj hw ha =>
    have := held_stopWatcher (s := { s with joining := s.joining.erase (w, true) }) h.held true
    unfold stopWatcher at this
    simpa [ha] using this
  | begin hw => exact held_loop h.toFiled (watchers_of_alone h.alone hw)
  | wake hw => exact held_wake h hw _
  | finish hw => exact held_finish h hw _ _

theorem sole_run {maxJitter : Int} (hr : ReflTransGen (SoleStep localAdjustment) (start maxJitter) s) : s.Sole := by
  induction hr with
  | refl => exact ⟨⟨List.nodup_nil, List.nodup_nil, nofun, fun _ _ => rfl⟩, Nat.zero_le _, nofun⟩
  | tail _ hs ih => exact ih.step hs

theorem StepWithout.sole {handle : Bytes} (h : StepWithout localAdjustment handle s s') :
    SoleStep localAdjustment s s' := by
  obtain ⟨⟨a, hs, -⟩, halone⟩ := h
  exact ⟨⟨a, hs⟩, halone⟩

/-- Without an `add`, no task has the handle. -/
theorem handle_gone {handle : Bytes} (h : s.Filed) (hno : ∀ e ∈ s.tasks, e.task.handle ≠ handle)
    (hs : StepWithout localAdjustment handle s s') : ∀ e ∈ s'.tasks, e.task.handle ≠ handle := by
  obtain ⟨⟨a, hs, hother⟩, -⟩ := hs
  have hno : ∀ p ∈ s.roster, p.2 ≠ handle := by
    intro p hp
    obtain ⟨e, he, rfl⟩ := List.mem_map.mp hp
    exact hno e he
  intro e he
  have hm : (e.id, e.task.handle) ∈ s'.roster := List.mem_map.mpr ⟨e, he, rfl⟩
  rcases kin_step h.pairs hs with ⟨task, now, rfl, hk⟩ | hk
  · rcases List.mem_cons.mp ((roster_insertTask task now).mem_iff.mp (hk.roster.subset hm)) with heq | hm
    · rw [(Prod.mk.inj heq).2]
      exact hother task now rfl
    · exact hno _ ((kin_removeTask _).roster.subset hm)
  · exact hno _ (hk.roster.subset hm)

/-- The tasks with this handle in `s` have been removed, and none has been
invoked since. -/
structure Retired (handle : Bytes) (s s' : State) : Prop where
  sole : s'.Sole
  gone : ∀ e ∈ s.tasks, e.task.handle = handle → e.id < s'.fresh ∧ ¬ s'.has e.id
  still : ∀ e ∈ s.tasks, e.task.handle = handle → ¬ s.Begins s' e.id
  none : ∀ e ∈ s'.tasks, e.task.handle ≠ handle

theorem Sole.retired (h : s.Sole) {handle : Bytes} (hs : Step localAdjustment (.removeHandle handle) s s') :
    Retired handle s s' := by
  have hsole : s'.Sole := h.step ⟨⟨_, hs⟩, by cases hs; exact h.alone⟩
  cases hs
  have hnone : ∀ e ∈ (s.removeTask fun e => e.task.handle == handle).tasks, e.task.handle ≠ handle := by
    intro e he
    simpa using (List.mem_filter.mp he).2
  refine ⟨hsole, fun e he hh => ⟨h.lt ⟨e, he, rfl⟩, ?_⟩, fun _ _ _ hb => absurd rfl hb, hnone⟩
  rintro ⟨e', he', hid⟩
  apply hnone e' he'
  rw [eq_of_id h.pairs (List.mem_filter.mp he').1 he hid]
  exact hh

theorem Retired.step {handle : Bytes} (h : Retired handle s s') (hs : StepWithout localAdjustment handle s' s'') :
    Retired handle s s'' := by
  have hsole := h.sole.step hs.sole
  have hnone := handle_gone h.sole.toFiled h.none hs
  obtain ⟨⟨a, hstep, -⟩, -⟩ := hs
  refine ⟨hsole, fun e he hh => ?_, fun e he hh => ?_, hnone⟩
  · obtain ⟨hlt, hno⟩ := h.gone e he hh
    exact h.sole.gone hstep hlt hno
  · have hsame : ¬ s'.Begins s'' e.id := fun hb => (h.gone e he hh).2 (h.sole.begins hstep hb)
    have hstill := h.still e he hh
    unfold Begins at *
    omega

theorem Retired.run {handle : Bytes} (h : Retired handle s s')
    (hr : ReflTransGen (StepWithout localAdjustment handle) s' s'') : Retired handle s s'' := by
  induction hr with
  | refl => exact h
  | tail _ hs ih => exact ih.step hs

/-- In every run with one watcher: the handles are distinct, and after `remove`
has returned its task is not invoked, nor is any other with its handle unless
one is added. -/
theorem handles_of_run {maxJitter : Int} (hr : ReflTransGen (SoleStep localAdjustment) (start maxJitter) s) :
    (s.tasks.map fun e => e.task.handle).Nodup ∧
      ∀ handle s₁ s₂, Step localAdjustment (.removeHandle handle) s s₁ →
        ReflTransGen (StepWithout localAdjustment handle) s₁ s₂ →
        (∀ e ∈ s.tasks, e.task.handle = handle → ¬ s.Begins s₂ e.id) ∧
          ∀ s₃ id, SoleStep localAdjustment s₂ s₃ → s₂.Begins s₃ id → ∃ e ∈ s₂.tasks, e.id = id ∧ e.task.handle ≠ handle := by
  have h := sole_run hr
  refine ⟨roster_handles ▸ h.handles, fun handle s₁ s₂ hs hr₂ => ?_⟩
  have hretired := (h.retired hs).run hr₂
  refine ⟨hretired.still, fun s₃ id hs₃ hb => ?_⟩
  obtain ⟨⟨a, hs₃⟩, -⟩ := hs₃
  obtain ⟨e, he, hid⟩ := hretired.sole.begins hs₃ hb
  exact ⟨e, he, hid, hretired.none e he⟩

/-! ## A task is removed after an invocation -/

/-- Two tasks, of which the first has been invoked. -/
def invokedFirst : State :=
  (((((start 5).add utc (named "first") 0).add utc (named "second") 2).loop 1).wake utc 1 0 0).finish utc 1 0 false 0

theorem invokedFirst_reached : ReflTransGen (SoleStep utc) (start 5) invokedFirst := by
  calc ReflTransGen (SoleStep utc) (start 5) ((start 5).add utc (named "first") 0) :=
        .single ⟨⟨_, .add (by decide)⟩, by decide⟩
    ReflTransGen (SoleStep utc) _ (((start 5).add utc (named "first") 0).add utc (named "second") 2) :=
        .single ⟨⟨_, .add (by decide)⟩, by decide⟩
    ReflTransGen (SoleStep utc) _ ((((start 5).add utc (named "first") 0).add utc (named "second") 2).loop 1) :=
        .single ⟨⟨_, .begin (List.mem_singleton_self _)⟩, by decide⟩
    ReflTransGen (SoleStep utc) _ (((((start 5).add utc (named "first") 0).add utc (named "second") 2).loop 1).wake utc 1 0 0) :=
        .single ⟨⟨_, .wake (List.mem_singleton_self _)⟩, by decide⟩
    ReflTransGen (SoleStep utc) _ invokedFirst :=
        .single ⟨⟨_, .finish (List.mem_singleton_self _)⟩, by decide⟩

/-- The first one is removed. -/
def removedFirst : State := invokedFirst.removeTask fun e => e.task.handle == ascii "first"

/-- After that the second one is invoked, and the watcher waits for it again. -/
def invokedSecond : State := (removedFirst.wake utc 1 2 2).finish utc 1 2 false 2

theorem invokedSecond_reached : ReflTransGen (StepWithout utc (ascii "first")) removedFirst invokedSecond := by
  calc ReflTransGen (StepWithout utc (ascii "first")) removedFirst (removedFirst.wake utc 1 2 2) :=
        .single ⟨⟨_, .wake (List.mem_singleton_self _), nofun⟩, by decide⟩
    ReflTransGen (StepWithout utc (ascii "first")) _ invokedSecond :=
        .single ⟨⟨_, .finish (List.mem_singleton_self _), nofun⟩, by decide⟩

theorem handles_of_removed :
    (invokedFirst.tasks.map fun e => e.task.handle).Nodup ∧ ¬ invokedFirst.Begins invokedSecond 0 ∧
      invokedSecond.Begins (invokedSecond.wake utc 1 2 12) 2 ∧
        ∃ e ∈ invokedSecond.tasks, e.id = 2 ∧ e.task.handle ≠ ascii "first" := by
  obtain ⟨hnodup, hremoved⟩ := handles_of_run invokedFirst_reached
  obtain ⟨hstill, hbegins⟩ := hremoved (ascii "first") removedFirst invokedSecond .removeHandle invokedSecond_reached
  have hmem : (⟨10, 0, named "first"⟩ : Entry) ∈ invokedFirst.tasks :=
    List.mem_of_getElem? (i := 1) rfl
  have hbegun : invokedSecond.Begins (invokedSecond.wake utc 1 2 12) 2 := by
    unfold Begins
    decide
  have hstep : SoleStep utc invokedSecond (invokedSecond.wake utc 1 2 12) :=
    ⟨⟨_, .wake (List.mem_singleton_self _)⟩, by decide⟩
  exact ⟨hnodup, hstill _ hmem rfl, hbegun, hbegins _ 2 hstep hbegun⟩

end State

end Scheduler

end CommonCore
