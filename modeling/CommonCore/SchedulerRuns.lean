import CommonCore.Scheduler

/-!
# Runs of the scheduler

A task that shall run a number of times is in the map with the invocations that
remain as long as somebody removes it in time: the watcher does not.
-/

namespace CommonCore

namespace Scheduler

open Relation

theorem insert_perm (e : Entry) (tasks : List Entry) : (insert e tasks).Perm (e :: tasks) := by
  have hsplit := List.takeWhile_append_dropWhile (p := fun x => decide (x.tp ≤ e.tp)) (l := tasks)
  calc (insert e tasks).Perm (e :: (tasks.takeWhile (·.tp ≤ e.tp) ++ tasks.dropWhile (·.tp ≤ e.tp))) :=
        List.perm_middle
    _ = e :: tasks := by rw [hsplit]

theorem foldl_insert_perm (l tasks : List Entry) : (l.foldl (fun l e => insert e l) tasks).Perm (l ++ tasks) := by
  induction l generalizing tasks with
  | nil => exact .refl _
  | cons e l ih =>
    refine (ih (insert e tasks)).trans ?_
    refine ((insert_perm e tasks).append_left l).trans ?_
    exact List.perm_middle

/-! ## Counting invocations -/

abbrev Pair := ℕ × Task

/-- What is known of the tasks in the map, when `invoked` is being invoked. -/
structure Counted (pairs : List Pair) (record : ℕ → Record) (invoked : Option ℕ) (fresh : ℕ) : Prop where
  nodup : (pairs.map Prod.fst).Nodup
  below : ∀ p ∈ pairs, p.1 < fresh
  blank : ∀ id, fresh ≤ id → record id = {}
  ran : ∀ id, invoked = some id → id < fresh
  counted : ∀ p ∈ pairs, (record p.1).threw = false → 0 < (record p.1).count →
    p.2.count = (record p.1).count ∧
      (record p.1).started = (record p.1).ended + (if invoked = some p.1 then 1 else 0) ∧
      (record p.1).ended + p.2.remaining = (record p.1).count ∧ 0 < p.2.remaining
  bounded : ∀ id, (record id).threw = false → 0 < (record id).count → (record id).started ≤ (record id).count

section
variable {pairs pairs' : List Pair} {record : ℕ → Record} {invoked : Option ℕ} {fresh : ℕ}

theorem Counted.perm (h : Counted pairs record invoked fresh) (hp : pairs'.Perm pairs) :
    Counted pairs' record invoked fresh :=
  ⟨(hp.map Prod.fst).nodup_iff.mpr h.nodup, fun p hm => h.below p (hp.mem_iff.mp hm), h.blank, h.ran,
    fun p hm => h.counted p (hp.mem_iff.mp hm), h.bounded⟩

theorem Counted.sublist (h : Counted pairs record invoked fresh) (hp : pairs'.Sublist pairs) :
    Counted pairs' record invoked fresh :=
  ⟨(hp.map Prod.fst).nodup h.nodup, fun p hm => h.below p (hp.subset hm), h.blank, h.ran,
    fun p hm => h.counted p (hp.subset hm), h.bounded⟩

theorem Counted.succ (h : Counted pairs record invoked fresh) : Counted pairs record invoked (fresh + 1) :=
  ⟨h.nodup, fun p hm => Nat.lt_succ_of_lt (h.below p hm), fun id hid => h.blank id (Nat.le_of_succ_le hid),
    fun id hid => Nat.lt_succ_of_lt (h.ran id hid), h.counted, h.bounded⟩

theorem Counted.add (h : Counted pairs record invoked fresh) {task : Task} (ht : task.remaining = task.count) :
    Counted ((fresh, task) :: pairs) (Function.update record fresh { count := task.count }) invoked (fresh + 1) := by
  have hother : ∀ id, id < fresh → Function.update record fresh { count := task.count } id = record id := by
    intro id hid
    exact Function.update_of_ne (Nat.ne_of_lt hid) ..
  constructor
  · rw [List.map_cons, List.nodup_cons]
    refine ⟨fun hm => ?_, h.nodup⟩
    obtain ⟨p, hp, he⟩ := List.mem_map.mp hm
    have := h.below p hp
    omega
  · intro p hp
    rcases List.mem_cons.mp hp with rfl | hp
    · exact Nat.lt_succ_self _
    · exact Nat.lt_succ_of_lt (h.below p hp)
  · intro id hid
    rw [Function.update_of_ne (by omega)]
    exact h.blank id (by omega)
  · exact fun id hid => Nat.lt_succ_of_lt (h.ran id hid)
  · intro p hp
    rcases List.mem_cons.mp hp with rfl | hp
    · rw [Function.update_self]
      intro _ hc
      have hran : invoked ≠ some fresh := fun he => Nat.lt_irrefl _ (h.ran fresh he)
      refine ⟨rfl, ?_, ?_, ?_⟩
      · rw [if_neg hran]
      · rw [Nat.zero_add, ht]
      · rw [ht]
        exact hc
    · rw [hother _ (h.below p hp)]
      exact h.counted p hp
  · intro id
    by_cases hid : id = fresh
    · subst hid
      rw [Function.update_self]
      exact fun _ _ => Nat.zero_le _
    · rw [Function.update_of_ne hid]
      exact h.bounded id

theorem Counted.start (h : Counted pairs record none fresh) {id : ℕ} (hid : id ∈ pairs.map Prod.fst) :
    Counted pairs (Function.update record id (record id).begin) (some id) fresh := by
  obtain ⟨p₀, hp₀, he⟩ := List.mem_map.mp hid
  subst he
  have hnone : ∀ j, (none : Option ℕ) ≠ some j := nofun
  constructor
  · exact h.nodup
  · exact h.below
  · intro j hj
    have := h.below p₀ hp₀
    rw [Function.update_of_ne (by omega)]
    exact h.blank j hj
  · intro j hj
    cases hj
    exact h.below p₀ hp₀
  · rintro ⟨j, task⟩ hp
    have := h.counted _ hp
    rw [if_neg (hnone _)] at this
    by_cases hj : j = p₀.1
    · subst hj
      rw [Function.update_self, if_pos rfl]
      intro ht hc
      obtain ⟨h1, h2, h3, h4⟩ := this ht hc
      exact ⟨h1, congrArg Nat.succ h2, h3, h4⟩
    · rw [Function.update_of_ne hj, if_neg (fun e => hj (Option.some.inj e).symm)]
      exact this
  · intro j
    by_cases hj : j = p₀.1
    · subst hj
      rw [Function.update_self]
      intro ht hc
      obtain ⟨-, h2, h3, h4⟩ := h.counted p₀ hp₀ ht hc
      rw [if_neg (hnone _)] at h2
      show (record p₀.1).started + 1 ≤ (record p₀.1).count
      omega
    · rw [Function.update_of_ne hj]
      exact h.bounded j

/-- The invocation of `id` ends, and the map is then as `pairs'` says: without
it, or with one invocation less. -/
theorem Counted.finish {id : ℕ} {threw : Bool} (h : Counted pairs record (some id) fresh)
    (hnodup : (pairs'.map Prod.fst).Nodup)
    (hother : ∀ p ∈ pairs', p.1 ≠ id → p ∈ pairs)
    (hself : ∀ task, (id, task) ∈ pairs' → ∃ task₀, (id, task₀) ∈ pairs ∧
      (threw = false → 0 < task₀.count → task.count = task₀.count ∧ task.remaining + 1 = task₀.remaining ∧ 0 < task.remaining)) :
    Counted pairs' (Function.update record id ((record id).finish threw)) none fresh := by
  have hnone : ∀ j, (none : Option ℕ) ≠ some j := nofun
  have hlt := h.ran id rfl
  constructor
  · exact hnodup
  · rintro ⟨j, task⟩ hp
    by_cases hj : j = id
    · rw [hj]
      exact hlt
    · exact h.below _ (hother _ hp hj)
  · intro j hj
    rw [Function.update_of_ne (by omega)]
    exact h.blank j hj
  · exact fun j hj => absurd hj (hnone j)
  · rintro ⟨j, task⟩ hp
    by_cases hj : j = id
    · subst hj
      rw [Function.update_self]
      rw [Record.finish_threw]
      rintro ⟨ht, hthrew⟩ hc
      obtain ⟨task₀, hp₀, hstep⟩ := hself task hp
      obtain ⟨h1, h2, h3, h4⟩ := h.counted _ hp₀ ht hc
      dsimp only at h1 h2 h3 h4
      rw [if_pos rfl] at h2
      replace hc : 0 < (record j).count := hc
      obtain ⟨hcount, hrem, hpos⟩ := hstep hthrew (by omega)
      show task.count = (record j).count ∧ (record j).started = (record j).ended + 1 + _ ∧
        (record j).ended + 1 + task.remaining = (record j).count ∧ _
      rw [if_neg (hnone _)]
      exact ⟨hcount.trans h1, h2, by omega, hpos⟩
    · rw [Function.update_of_ne hj, if_neg (hnone _)]
      have := h.counted _ (hother _ hp hj)
      rwa [if_neg (fun e => hj (Option.some.inj e).symm)] at this
  · intro j
    by_cases hj : j = id
    · subst hj
      rw [Function.update_self]
      rw [Record.finish_threw]
      exact fun ht hc => h.bounded j ht.1 hc
    · rw [Function.update_of_ne hj]
      exact h.bounded j

end

/-! ## One watcher at a time -/

/-- The thread in `activeWatcher`, the running ones, and the calls that wait for
one to end: there is at most one of each. -/
inductive Lone : Option ℕ → List (ℕ × Phase) → List (ℕ × Bool) → Prop
  | vacant : Lone none [] []
  | ended {w} : Lone (some w) [] []
  | running {w p} : Lone (some w) [(w, p)] []
  | stopped {w b} : Lone none [] [(w, b)]
  | stopping {w p b} : Lone none [(w, p)] [(w, b)]

def Phase.watched : Phase → Option ℕ
  | starting => none
  | waiting id => some id
  | invoking id => some id

def Phase.invoked : Phase → Option ℕ
  | invoking id => some id
  | _ => none

theorem Lone.watchers {a : Option ℕ} {ws : List (ℕ × Phase)} {js : List (ℕ × Bool)} (h : Lone a ws js)
    {w : ℕ} {p : Phase} (hw : (w, p) ∈ ws) : ws = [(w, p)] ∧ ∀ p', Lone a [(w, p')] js ∧ Lone a [] js := by
  cases h with
  | running =>
    rw [List.mem_singleton] at hw
    cases hw
    exact ⟨rfl, fun _ => ⟨.running, .ended⟩⟩
  | stopping =>
    rw [List.mem_singleton] at hw
    cases hw
    exact ⟨rfl, fun _ => ⟨.stopping, .stopped⟩⟩
  | _ => cases hw

theorem Lone.idle {ws : List (ℕ × Phase)} (h : Lone none ws []) : ws = [] := by
  cases h
  rfl

theorem Lone.stop {w : ℕ} {ws : List (ℕ × Phase)} {js : List (ℕ × Bool)} (h : Lone (some w) ws js) (b : Bool) :
    Lone none ws ((w, b) :: js) := by
  cases h with
  | ended => exact .stopped
  | running => exact .stopping

/-- The call that has waited goes on when no watcher is left. -/
theorem Lone.join {a : Option ℕ} {ws : List (ℕ × Phase)} {js : List (ℕ × Bool)} (h : Lone a ws js) {j : ℕ × Bool}
    (hj : j ∈ js) (hw : ∀ t ∈ ws, t.1 ≠ j.1) : a = none ∧ ws = [] ∧ js.erase j = [] := by
  cases h with
  | stopped =>
    rw [List.mem_singleton] at hj
    subst hj
    simp
  | stopping =>
    rw [List.mem_singleton] at hj
    subst hj
    exact absurd rfl (hw _ (List.mem_singleton_self _))
  | _ => cases hj

namespace State

def pairs (s : State) : List Pair := s.tasks.map fun e => (e.id, e.task)

def invoked (s : State) : Option ℕ := s.watchers.findSome? (·.2.invoked)

theorem has_iff {s : State} {id : ℕ} : s.has id ↔ id ∈ s.pairs.map Prod.fst := by
  unfold has pairs
  simp

/-- The watcher's task is the current one, or has been removed. -/
def Held (s : State) (id : ℕ) : Prop :=
  id < s.fresh ∧ (s.current = some id ∧ s.has id ∨ s.current = none ∧ ¬ s.has id)

structure Sound (s : State) : Prop where
  lone : Lone s.activeWatcher s.watchers s.joining
  held : ∀ t ∈ s.watchers, ∀ id, t.2.watched = some id → s.Held id
  counted : Counted s.pairs s.record s.invoked s.fresh

variable {localAdjustment : Int → Int} {s s' : State}

theorem pairs_removeTask (p : Entry → Bool) : (s.removeTask p).pairs.Sublist s.pairs :=
  List.filter_sublist.map _

theorem pairs_insertTask (task : Task) (now : Int) : (s.insertTask localAdjustment task now).pairs.Perm
    ((s.fresh, task) :: (s.removeTask fun e => e.task.handle == task.handle).pairs) := by
  unfold pairs insertTask
  exact (insert_perm _ _).map _

/-- Only the times of tasks are new. -/
theorem map_rekey {α : Type} (f : Entry → α) (hf : ∀ e tp, f { e with tp } = f e) (id : ℕ) (now expected : Int)
    (tasks : List Entry) : (rekey localAdjustment id now expected tasks).map f = tasks.map f := by
  induction tasks generalizing expected with
  | nil => rfl
  | cons e tasks ih =>
    rw [rekey, List.map_cons, List.map_cons, ih, hf]

theorem pairs_adjustTimes (id : ℕ) (expected now : Int) :
    (s.adjustTimes localAdjustment id expected now).pairs.Perm s.pairs := by
  unfold pairs adjustTimes
  refine ((foldl_insert_perm _ []).map _).trans ?_
  rw [List.append_nil, map_rekey _ fun _ _ => rfl]

theorem loop_cases (s : State) (w : ℕ) :
    s.loop w = { s with watchers := s.watchers.filter (·.1 ≠ w) } ∨
      ∃ e ∈ s.tasks, s.loop w = { s with current := some e.id }.setPhase w (.waiting e.id) := by
  unfold loop
  split
  · exact .inl rfl
  · rename_i e rest ht
    exact .inr ⟨e, by simp [ht], rfl⟩

/-- From the top of the watcher's loop, where no task is being invoked. -/
theorem sound_loop {w : ℕ} {p : Phase} (hw : s.watchers = [(w, p)]) (hl : Lone s.activeWatcher s.watchers s.joining)
    (hc : Counted s.pairs s.record none s.fresh) : (s.loop w).Sound := by
  obtain ⟨-, hl⟩ := hl.watchers (w := w) (p := p) (by simp [hw])
  rcases loop_cases s w with h | ⟨e, he, h⟩
  · have hnil : s.watchers.filter (·.1 ≠ w) = [] := by simp [hw]
    rw [h, hnil]
    exact ⟨(hl .starting).2, nofun, hc⟩
  · have hset : s.watchers.map (fun t => if t.1 = w then (w, Phase.waiting e.id) else t) = [(w, .waiting e.id)] := by
      simp [hw]
    rw [h]
    unfold setPhase
    rw [hset]
    refine ⟨(hl _).1, fun t hm id hid => ?_, hc⟩
    rw [List.mem_singleton] at hm
    subst hm
    cases hid
    exact ⟨hc.below (e.id, e.task) (List.mem_map.mpr ⟨e, he, rfl⟩), .inl ⟨rfl, e, he, rfl⟩⟩

theorem eq_of_id (hc : (s.pairs.map Prod.fst).Nodup) {e e' : Entry} (he : e ∈ s.tasks) (he' : e' ∈ s.tasks)
    (hid : e.id = e'.id) : e = e' := by
  have hnodup : (s.tasks.map (·.id)).Nodup := by
    unfold pairs at hc
    rwa [List.map_map] at hc
  exact List.inj_on_of_nodup_map hnodup he he' hid

theorem held_removeTask (hc : (s.pairs.map Prod.fst).Nodup) (p : Entry → Bool) {id : ℕ} (h : s.Held id) :
    (s.removeTask p).Held id := by
  obtain ⟨hlt, ⟨hcur, e, he, rfl⟩ | ⟨hcur, hno⟩⟩ := h
  · refine ⟨hlt, ?_⟩
    by_cases hp : p e = true
    · right
      constructor
      · unfold removeTask
        rw [if_pos]
        rw [List.any_eq_true]
        exact ⟨e, he, by simp [hp, hcur]⟩
      · rintro ⟨e', he', hid⟩
        obtain ⟨he', hp'⟩ := List.mem_filter.mp he'
        rw [eq_of_id hc he' he hid, hp] at hp'
        cases hp'
    · left
      constructor
      · unfold removeTask
        rw [if_neg]
        · exact hcur
        · rw [List.any_eq_true]
          rintro ⟨e', he', hp'⟩
          rw [Bool.and_eq_true, hcur, beq_iff_eq] at hp'
          rw [eq_of_id hc he' he (Option.some.inj hp'.2).symm] at hp'
          exact hp hp'.1
      · exact ⟨e, List.mem_filter.mpr ⟨he, by simp [hp]⟩, rfl⟩
  · refine ⟨hlt, .inr ⟨?_, ?_⟩⟩
    · unfold removeTask
      simp only [hcur]
      exact ite_self _
    · rintro ⟨e, he, hid⟩
      exact hno ⟨e, (List.mem_filter.mp he).1, hid⟩

theorem Sound.removeTask (h : s.Sound) (p : Entry → Bool) : (s.removeTask p).Sound :=
  ⟨h.lone, fun t ht id hid => held_removeTask h.counted.nodup p (h.held t ht id hid),
    h.counted.sublist (pairs_removeTask p)⟩

theorem Sound.insertTask (h : s.Sound) {task : Task} (ht : task.remaining = task.count) (now : Int) :
    (s.insertTask localAdjustment task now).Sound := by
  have hr := h.removeTask fun e => e.task.handle == task.handle
  refine ⟨h.lone, fun t ht id hid => ?_, (hr.counted.add ht).perm (pairs_insertTask task now)⟩
  obtain ⟨hlt, hheld⟩ := hr.held t ht id hid
  have hhas : (s.insertTask localAdjustment task now).has id ↔
      (s.removeTask fun e => e.task.handle == task.handle).has id := by
    rw [has_iff, has_iff, ((pairs_insertTask task now).map Prod.fst).mem_iff, List.map_cons, List.mem_cons]
    exact or_iff_right (Nat.ne_of_lt hlt)
  refine ⟨Nat.lt_succ_of_lt hlt, ?_⟩
  rw [hhas]
  exact hheld

theorem Sound.startWatcher (h : s.Sound) (hw : s.activeWatcher = none) (hj : s.joining = []) :
    s.startWatcher.Sound := by
  have hl := h.lone
  rw [hw, hj] at hl
  have hws := hl.idle
  have hinv : s.invoked = none := by
    unfold invoked
    rw [hws]
    rfl
  have hc := h.counted
  rw [hinv] at hc
  unfold State.startWatcher
  rw [hws, hj]
  refine ⟨.running, fun t ht id hid => ?_, hc.succ⟩
  rw [List.mem_singleton] at ht
  subst ht
  cases hid

theorem Sound.stopWatcher (h : s.Sound) {restart : Bool} (hr : restart = true → s.joining = []) :
    (s.stopWatcher restart).Sound := by
  unfold State.stopWatcher
  split
  · rename_i w hw
    have hl := h.lone
    rw [hw] at hl
    exact ⟨hl.stop restart, h.held, h.counted⟩
  · rename_i hw
    cases restart with
    | false => exact h
    | true => exact h.startWatcher hw (hr rfl)

/-! ## Every locked section -/

theorem Sound.add (h : s.Sound) {task : Task} (ht : task.remaining = task.count) {now : Int}
    (hj : (s.insertTask localAdjustment task now).isFirst s.fresh = true → s.joining = []) :
    (s.add localAdjustment task now).Sound := by
  have hi : (s.insertTask localAdjustment task now).Sound := h.insertTask ht now
  unfold State.add
  by_cases hf : (s.insertTask localAdjustment task now).isFirst s.fresh = true
  · rw [if_pos hf]
    exact hi.stopWatcher fun _ => hj hf
  · rw [if_neg hf]
    exact hi

theorem Sound.join (h : s.Sound) {j : ℕ × Bool} (hj : j ∈ s.joining) (hw : ∀ t ∈ s.watchers, t.1 ≠ j.1) :
    ({ s with joining := s.joining.erase j } : State).Sound := by
  obtain ⟨ha, hws, hjs⟩ := h.lone.join hj hw
  refine ⟨?_, h.held, h.counted⟩
  show Lone s.activeWatcher s.watchers (s.joining.erase j)
  rw [ha, hws, hjs]
  exact .vacant

theorem Sound.invoked_eq (h : s.Sound) {w : ℕ} {p : Phase} (hw : (w, p) ∈ s.watchers) : s.invoked = p.invoked := by
  unfold invoked
  rw [(h.lone.watchers hw).1]
  cases p <;> rfl

theorem Sound.wake (h : s.Sound) {w id : ℕ} (hw : (w, .waiting id) ∈ s.watchers) (now : Int) :
    (s.wake localAdjustment w id now).Sound := by
  obtain ⟨hws, hl⟩ := h.lone.watchers hw
  have hinv := h.invoked_eq hw
  have hc := h.counted
  rw [hinv] at hc
  unfold State.wake
  by_cases ha : s.activeWatcher = none
  · rw [if_pos ha]
    have hnil : s.watchers.filter (·.1 ≠ w) = [] := by simp [hws]
    rw [hnil]
    exact ⟨(hl .starting).2, nofun, hc⟩
  · rw [if_neg ha]
    have hloop : (s.loop w).Sound := sound_loop hws h.lone hc
    obtain ⟨hlt, hheld⟩ := h.held _ hw id rfl
    split
    · rename_i c e hcur he
      split_ifs with hjit hcid
      · apply sound_loop (s := s.adjustTimes localAdjustment id e.tp now) (p := .waiting id) hws h.lone
        exact hc.perm (pairs_adjustTimes id e.tp now)
      · subst hcid
        have hhas : s.has c := by
          rcases hheld with ⟨-, hhas⟩ | ⟨hno, -⟩
          · exact hhas
          · rw [hno] at hcur
            cases hcur
        have hset : s.watchers.map (fun t => if t.1 = w then (w, Phase.invoking c) else t) = [(w, .invoking c)] := by
          simp [hws]
        unfold setPhase note
        rw [hset]
        refine ⟨(hl _).1, fun t ht id hid => ?_, hc.start (has_iff.mp hhas)⟩
        rw [List.mem_singleton] at ht
        subst ht
        cases hid
        exact ⟨hlt, .inl ⟨hcur, hhas⟩⟩
      · exact hloop
    · exact hloop

theorem entry_some {id : ℕ} {e : Entry} (h : s.entry id = some e) : e ∈ s.tasks ∧ e.id = id :=
  ⟨List.mem_of_find?_eq_some h, by simpa using List.find?_some h⟩

theorem entry_none {id : ℕ} (h : s.entry id = none) : ¬ s.has id := by
  rintro ⟨e, he, hid⟩
  exact (List.find?_eq_none.mp h) e he (by simp [hid])

/-- The map after an invocation: the task that was invoked, and the others as
they were. -/
theorem pairs_putBack (localAdjustment : Int → Int) (hc : (s.pairs.map Prod.fst).Nodup) (e : Entry)
    (threw : Bool) (now : Int) :
    (({ s with tasks := s.putBack localAdjustment e threw now } : State).pairs.map Prod.fst).Nodup ∧
      ∀ p ∈ ({ s with tasks := s.putBack localAdjustment e threw now } : State).pairs,
        p.1 ≠ e.id ∧ p ∈ s.pairs ∨ p = (e.id, (e.task.invoke threw).2) := by
  unfold putBack
  by_cases hk : (e.task.invoke threw).1 = true ∧ s.current.isSome = true
  · simp only [if_pos hk]
    have hperm := (insert_perm ⟨(e.task.invoke threw).2.nextTime localAdjustment e.tp now, e.id,
      (e.task.invoke threw).2⟩ (s.tasks.filter (·.id ≠ e.id))).map fun e => (e.id, e.task)
    constructor
    · unfold pairs
      rw [(hperm.map Prod.fst).nodup_iff, List.map_cons, List.map_cons, List.nodup_cons]
      constructor
      · simp
      · exact ((List.filter_sublist.map _).map _).nodup hc
    · intro p hp
      rcases List.mem_cons.mp (hperm.mem_iff.mp hp) with rfl | hp
      · exact .inr rfl
      · obtain ⟨e', he', rfl⟩ := List.mem_map.mp hp
        obtain ⟨he', hne⟩ := List.mem_filter.mp he'
        exact .inl ⟨by simpa using hne, List.mem_map.mpr ⟨e', he', rfl⟩⟩
  · simp only [if_neg hk]
    constructor
    · unfold pairs at *
      rw [List.map_map] at hc
      rw [List.map_map, List.map_map]
      have hsame : (Prod.fst ∘ fun e : Entry => (e.id, e.task)) ∘
          (fun e' : Entry => if e'.id = e.id then { e' with task := (e.task.invoke threw).2 } else e') =
          Prod.fst ∘ fun e : Entry => (e.id, e.task) := by
        funext e'
        by_cases hid : e'.id = e.id <;> simp [hid]
      rw [hsame]
      exact hc
    · intro p hp
      obtain ⟨e₂, he₂, rfl⟩ := List.mem_map.mp hp
      obtain ⟨e', he', rfl⟩ := List.mem_map.mp he₂
      by_cases hid : e'.id = e.id
      · simp [hid]
      · simp only [if_neg hid]
        exact .inl ⟨hid, List.mem_map.mpr ⟨e', he', rfl⟩⟩

theorem Sound.finish (h : s.Sound) {w id : ℕ} (hw : (w, .invoking id) ∈ s.watchers) {threw : Bool} (now : Int)
    (hlast : threw = false → ∀ e ∈ s.tasks, e.id = id → 0 < e.task.count → 1 < e.task.remaining) :
    (s.finish localAdjustment w id threw now).Sound := by
  obtain ⟨hws, hl⟩ := h.lone.watchers hw
  have hc := h.counted
  rw [h.invoked_eq hw] at hc
  unfold State.finish
  dsimp only
  cases he : (s.note id (Record.finish threw)).entry id with
  | none =>
    have hno := entry_none he
    have hfin : Counted s.pairs (Function.update s.record id ((s.record id).finish threw)) none s.fresh :=
      hc.finish hc.nodup (fun p hp _ => hp) fun task hp =>
        absurd (has_iff.mpr (List.mem_map.mpr ⟨_, hp, rfl⟩)) hno
    exact sound_loop (s := s.note id _) hws h.lone hfin
  | some e =>
    obtain ⟨he, rfl⟩ := entry_some he
    obtain ⟨hnodup, hmem⟩ := pairs_putBack localAdjustment hc.nodup e threw now
    apply sound_loop (s := { s.note e.id _ with tasks := s.putBack localAdjustment e threw now }) hws h.lone
    apply hc.finish hnodup
    · intro p hp hne
      rcases hmem p hp with ⟨-, hp⟩ | rfl
      · exact hp
      · exact absurd rfl hne
    · intro task hp
      refine ⟨e.task, List.mem_map.mpr ⟨e, he, rfl⟩, fun hthrew hcount => ?_⟩
      rcases hmem _ hp with ⟨hne, -⟩ | htask
      · exact absurd rfl hne
      · obtain rfl := (Prod.mk.inj htask).2
        have hlast := hlast hthrew e he rfl hcount
        have hinvoke : (e.task.invoke threw).2 = { e.task with remaining := e.task.remaining - 1 } := by
          unfold Task.invoke
          rw [hthrew, if_neg Bool.false_ne_true, if_neg (Nat.ne_of_gt hcount), if_pos (by omega)]
        rw [hinvoke]
        refine ⟨rfl, ?_, ?_⟩
        · show e.task.remaining - 1 + 1 = e.task.remaining
          omega
        · show 0 < e.task.remaining - 1
          omega

/-- Two calls that start a watcher do not overlap, and a task whose last
permitted invocation returns has been removed meanwhile. -/
def Careful (localAdjustment : Int → Int) (s : State) : Act → Prop
  | .add task now => (s.insertTask localAdjustment task now).isFirst s.fresh = true → s.joining = []
  | .finish _ id false _ => ∀ e ∈ s.tasks, e.id = id → 0 < e.task.count → 1 < e.task.remaining
  | _ => True

instance (localAdjustment : Int → Int) (s : State) (a : Act) : Decidable (s.Careful localAdjustment a) :=
  match a with
  | .add task now =>
    inferInstanceAs (Decidable ((s.insertTask localAdjustment task now).isFirst s.fresh = true → s.joining = []))
  | .finish _ id false _ =>
    inferInstanceAs (Decidable (∀ e ∈ s.tasks, e.id = id → 0 < e.task.count → 1 < e.task.remaining))
  | .finish _ _ true _ | .removeHandle _ | .removeTask _ | .stop | .joined _ | .restarted _ | .begin _ | .wake _ _ _ =>
    inferInstanceAs (Decidable True)

theorem Sound.step {a : Act} (h : s.Sound) (hs : Step localAdjustment a s s') (hc : s.Careful localAdjustment a) :
    s'.Sound := by
  cases hs with
  | add => exact h.add rfl hc
  | removeHandle => exact h.removeTask _
  | removeTask => exact h.removeTask _
  | stop => exact h.stopWatcher nofun
  | joined hj hw => exact h.join hj hw
  | restarted hj hw ha => exact (h.join hj hw).startWatcher ha (h.lone.join hj hw).2.2
  | begin hw =>
    apply sound_loop (h.lone.watchers hw).1 h.lone
    have := h.counted
    rwa [h.invoked_eq hw] at this
  | wake hw => exact h.wake hw _
  | @finish s w id threw now hw =>
    apply h.finish hw
    rintro rfl
    exact hc

/-- Some call or watcher takes a step that is a careful one. -/
def CarefulStep (localAdjustment : Int → Int) (s s' : State) : Prop :=
  ∃ a, Step localAdjustment a s s' ∧ s.Careful localAdjustment a

def AnyStep (localAdjustment : Int → Int) (s s' : State) : Prop := ∃ a, Step localAdjustment a s s'

def start (maxJitter : Int) : State := { maxJitter }

theorem sound_start (maxJitter : Int) : (start maxJitter).Sound :=
  ⟨.vacant, nofun, ⟨List.nodup_nil, nofun, fun _ _ => rfl, nofun, nofun, fun _ _ _ => Nat.zero_le _⟩⟩

theorem sound_run {maxJitter : Int} (hr : ReflTransGen (CarefulStep localAdjustment) (start maxJitter) s) :
    s.Sound := by
  induction hr with
  | refl => exact sound_start maxJitter
  | tail _ hs ih =>
    obtain ⟨a, hs, hc⟩ := hs
    exact ih.step hs hc

/-- No task that shall be invoked a number of times has been invoked more often,
or is still there after the last one, unless an invocation threw. -/
def Bounded (s : State) : Prop :=
  ∀ id, 0 < (s.record id).count → (s.record id).threw = false →
    (s.record id).started ≤ (s.record id).count ∧ ((s.record id).ended = (s.record id).count → ¬ s.has id)

theorem Sound.bounded (h : s.Sound) : s.Bounded := by
  intro id hcount hthrew
  refine ⟨h.counted.bounded id hthrew hcount, fun hend hhas => ?_⟩
  obtain ⟨p, hp, rfl⟩ := List.mem_map.mp (has_iff.mp hhas)
  obtain ⟨-, -, hsum, hpos⟩ := h.counted.counted p hp hthrew hcount
  omega

/-- Over every run in which each task is removed in time. -/
theorem bounded_of_careful {maxJitter : Int}
    (hr : ReflTransGen (CarefulStep localAdjustment) (start maxJitter) s) : s.Bounded :=
  (sound_run hr).bounded

/-! ## A task that shall run twice -/

def utc : Int → Int := fun _ => 0

def repeated (count : ℕ) : Task := ⟨[], 1, .alignStart, count, count, 0, 0, false⟩

def named (handle : String) : Task := ⟨ascii handle, 10, .alignStart, 0, 0, 0, 0, false⟩

def added (count : ℕ) : State := (start 5).add utc (repeated count) 0

/-- The watcher has invoked the task once, and is invoking it again. -/
def invokedTwice : State := ((((added 2).loop 1).wake utc 1 0 0).finish utc 1 0 false 0).wake utc 1 0 1

/-- The task is removed while it is invoked, and the watcher goes on. -/
def removedInTime : State := (invokedTwice.removeTask fun e => e.task.handle == []).finish utc 1 0 false 1

theorem removedInTime_reached : ReflTransGen (CarefulStep utc) (start 5) removedInTime := by
  calc ReflTransGen (CarefulStep utc) (start 5) (added 2) :=
        .single ⟨.add (repeated 2) 0, .add (by decide), fun _ => rfl⟩
    ReflTransGen (CarefulStep utc) _ ((added 2).loop 1) :=
        .single ⟨_, .begin (List.mem_singleton_self _), trivial⟩
    ReflTransGen (CarefulStep utc) _ (((added 2).loop 1).wake utc 1 0 0) :=
        .single ⟨_, .wake (List.mem_singleton_self _), trivial⟩
    ReflTransGen (CarefulStep utc) _ ((((added 2).loop 1).wake utc 1 0 0).finish utc 1 0 false 0) :=
        .single ⟨.finish 1 0 false 0, .finish (List.mem_singleton_self _), by decide⟩
    ReflTransGen (CarefulStep utc) _ invokedTwice :=
        .single ⟨_, .wake (List.mem_singleton_self _), trivial⟩
    ReflTransGen (CarefulStep utc) _ (invokedTwice.removeTask fun e => e.task.handle == []) :=
        .single ⟨_, .removeHandle, trivial⟩
    ReflTransGen (CarefulStep utc) _ removedInTime :=
        .single ⟨.finish 1 0 false 1, .finish (List.mem_singleton_self _), by decide⟩

theorem bounded_of_removed :
    (removedInTime.record 0).ended = 2 ∧ (removedInTime.record 0).started ≤ 2 ∧ ¬ removedInTime.has 0 := by
  have hended : (removedInTime.record 0).ended = 2 := by decide
  obtain ⟨hle, hgone⟩ := bounded_of_careful removedInTime_reached 0 (by decide) (by decide)
  exact ⟨hended, hle, hgone hended⟩

/-- The watcher wakes up in time for the task, invokes it, and goes on. -/
def invokedOnce : State := (((added 1).loop 1).wake utc 1 0 0).finish utc 1 0 false 0

theorem invokedOnce_reached : ReflTransGen (AnyStep utc) (start 5) invokedOnce := by
  calc ReflTransGen (AnyStep utc) (start 5) (added 1) := .single ⟨.add (repeated 1) 0, .add (by decide)⟩
    ReflTransGen (AnyStep utc) _ ((added 1).loop 1) :=
        .single ⟨_, .begin (List.mem_singleton_self _)⟩
    ReflTransGen (AnyStep utc) _ (((added 1).loop 1).wake utc 1 0 0) :=
        .single ⟨_, .wake (List.mem_singleton_self _)⟩
    ReflTransGen (AnyStep utc) _ invokedOnce :=
        .single ⟨_, .finish (List.mem_singleton_self _)⟩

/-- The task is still the first of the map, and is invoked a second time. -/
theorem not_bounded : ¬ ∀ s, ReflTransGen (AnyStep utc) (start 5) s → s.Bounded := by
  intro hall
  have hagain : AnyStep utc invokedOnce (invokedOnce.wake utc 1 0 0) := ⟨_, .wake (List.mem_singleton_self _)⟩
  have htwice := (hall _ (invokedOnce_reached.tail hagain) 0 (by decide) rfl).1
  revert htwice
  decide

end State

end Scheduler

end CommonCore
