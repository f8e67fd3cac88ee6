import CommonCore.DateTime
import CommonCore.Scheduler

/-!
# The slots of a scheduled task

The slots of a task are apart by multiples of its interval, unless it is aligned
to the local time. There the offset of the time zone is added where it should be
taken off.
-/

namespace CommonCore

namespace Scheduler

open Dt (second minute hour lastAlignedRef)

section
variable {localAdjustment : Int → Int} {task : Task} (hpos : 0 < task.interval)
include hpos

/-- The first slot that is not before `tp`. -/
theorem nextAligned_isLeast (reference tp : Int) :
    IsLeast {t | task.interval ∣ t - reference ∧ tp ≤ t} (task.nextAligned reference tp) := by
  have haligned : lastAlignedRef tp reference task.interval = tp - (tp - reference) % task.interval :=
    Dt.last_aligned_ref_eq hpos tp reference
  have hlt := Int.emod_lt_of_pos (tp - reference) hpos
  have hnonneg := Int.emod_nonneg (tp - reference) hpos.ne'
  have hdvd : task.interval ∣ lastAlignedRef tp reference task.interval - reference := by
    rw [haligned, sub_right_comm]
    exact Int.dvd_self_sub_emod
  unfold Task.nextAligned
  dsimp only
  split_ifs with h
  · constructor
    · refine ⟨?_, by omega⟩
      rw [add_sub_right_comm]
      exact dvd_add_self_right.mpr hdvd
    · rintro t ⟨ht, hle⟩
      -- The slots that are after the last one before `tp`.
      have hapart : task.interval ∣ t - lastAlignedRef tp reference task.interval := by
        rw [← sub_sub_sub_cancel_right t _ reference]
        exact dvd_sub ht hdvd
      have := Int.le_of_dvd (by omega) hapart
      omega
  · refine ⟨⟨hdvd, not_lt.mp h⟩, fun t ht => ?_⟩
    have hle := ht.2
    omega

/-- Skipping slots keeps to the interval. -/
theorem skip_spec {next now : Int} (h : next < now) :
    task.interval ∣ now - (now - next).tmod task.interval + task.interval - next ∧
      now < now - (now - next).tmod task.interval + task.interval ∧
        now - (now - next).tmod task.interval + task.interval ≤ now + task.interval := by
  have hmod : (now - next).tmod task.interval = (now - next) % task.interval := Int.tmod_eq_emod_of_nonneg (by omega)
  have hlt := Int.emod_lt_of_pos (now - next) hpos
  have hnonneg := Int.emod_nonneg (now - next) hpos.ne'
  rw [hmod]
  refine ⟨?_, by omega, by omega⟩
  have hdvd : task.interval ∣ now - next - (now - next) % task.interval := Int.dvd_self_sub_emod
  have heq : now - (now - next) % task.interval + task.interval - next = now - next - (now - next) % task.interval + task.interval := by
    omega
  rw [heq]
  exact dvd_add_self_right.mpr hdvd

/-- The slot after `tp`, at the time `now`. -/
structure Follows (task : Task) (tp now next : Int) : Prop where
  after : tp < next
  apart : task.interval ∣ next - tp
  due : task.catchup = false → now ≤ next ∧ next ≤ max now tp + task.interval
  caughtUp : task.catchup = true → next = tp + task.interval

theorem nextTime_follows (halign : task.align ≠ .alignLocal) (tp now : Int) :
    Follows task tp now (task.nextTime localAdjustment tp now) := by
  have hnext : task.nextTime localAdjustment tp now =
      if tp + task.interval < now ∧ task.catchup = false then
        now - (now - (tp + task.interval)).tmod task.interval + task.interval
      else tp + task.interval := by
    have hlocal : ¬ (task.align = .alignLocal ∧ hour < task.interval ∧ hour.tmod task.interval ≠ 0) := fun h => halign h.1
    simp only [Task.nextTime, if_neg hlocal]
  rw [hnext]
  split_ifs with h
  · obtain ⟨hdvd, hnow, hle⟩ := skip_spec hpos h.1
    refine ⟨by omega, ?_, fun _ => ⟨by omega, hle.trans (by omega)⟩, fun hc => absurd (h.2.symm.trans hc) Bool.false_ne_true⟩
    rw [← sub_add_sub_cancel _ (tp + task.interval) tp]
    exact dvd_add hdvd ⟨1, by ring⟩
  · exact ⟨by omega, ⟨1, by ring⟩, fun hc => ⟨by_contra fun hlt => h ⟨by omega, hc⟩, by omega⟩, fun _ => rfl⟩

omit hpos in
/-- A task that is not aligned to the local time, and one that is aligned to UTC. -/
theorem slots_spec (localAdjustment : Int → Int) (task : Task) (hpos : 0 < task.interval) (halign : task.align ≠ .alignLocal) :
    (∀ tp now, Follows task tp now (task.nextTime localAdjustment tp now)) ∧
      (task.align = .alignUtc → ∀ now, IsLeast {t | task.interval ∣ t ∧ now ≤ t} (task.alignedTime localAdjustment now)) := by
  refine ⟨nextTime_follows hpos halign, fun hutc now => ?_⟩
  have h := nextAligned_isLeast hpos 0 now
  simp only [sub_zero] at h
  rw [Task.alignedTime, hutc]
  exact h

end

/-- Every second, from the last full one. -/
def tick : Task := ⟨ascii "tick", 1000000000, .alignUtc, 0, 0, 0, 0, false⟩

theorem tick_slots : 0 < tick.interval ∧ tick.align ≠ .alignLocal ∧ Follows tick 5000000000 5500000000 6000000000 ∧
    IsLeast {t | tick.interval ∣ t ∧ -1500000000 ≤ t} (-1000000000) := by
  have hpos : 0 < tick.interval := by decide
  have halign : tick.align ≠ .alignLocal := by decide
  obtain ⟨hfollows, hleast⟩ := slots_spec (fun _ => 0) tick hpos halign
  exact ⟨hpos, halign, hfollows 5000000000 5500000000, hleast rfl (-1500000000)⟩

/-! ## Slots in local time -/

def day : Int := 24 * hour

/-- The slots of a task, at the times when it is added and when it has been
invoked. -/
def Task.slot (task : Task) (localAdjustment : Int → Int) (now : ℕ → Int) : ℕ → Int
  | 0 => task.alignedTime localAdjustment (now 0)
  | k + 1 => task.nextTime localAdjustment (task.slot localAdjustment now k) (now (k + 1))

/-- In local time, a multiple of the interval after midnight. -/
def OnLocalMultiple (localAdjustment : Int → Int) (task : Task) (tp : Int) : Prop := task.interval ∣ (tp + localAdjustment tp) % day

instance (localAdjustment : Int → Int) (task : Task) (tp : Int) : Decidable (OnLocalMultiple localAdjustment task tp) :=
  inferInstanceAs (Decidable (_ ∣ _))

/-- By how much the local time moves against the clock within an interval. -/
def change (localAdjustment : Int → Int) (interval tp : Int) : Int := localAdjustment (tp + interval) - localAdjustment tp

/-- The offset is added to the reference. It should be taken off: that is the
same for the multiple of the interval from `now` on, if the interval divides the
sum of the two offsets. -/
def FirstSuits (localAdjustment : Int → Int) (interval now : Int) : Prop :=
  ∀ tp, now ≤ tp → tp < now + interval → interval ∣ tp - localAdjustment now → interval ∣ localAdjustment now + localAdjustment tp

/-- The change is added to the slot. If that has passed the ones that were missed
are skipped. -/
def StepSuits (localAdjustment : Int → Int) (task : Task) (tp now : Int) : Prop :=
  if tp + task.interval + change localAdjustment task.interval tp < now ∧ task.catchup = false then
    ∀ next, now < next → next ≤ now + task.interval → task.interval ∣ next - (tp + change localAdjustment task.interval tp) →
      task.interval ∣ change localAdjustment task.interval tp + (localAdjustment next - localAdjustment tp)
  else
    task.interval ∣ change localAdjustment task.interval tp +
      (localAdjustment (tp + task.interval + change localAdjustment task.interval tp) - localAdjustment tp)

section
variable {localAdjustment : Int → Int} {task : Task}

theorem onLocalMultiple_iff (hday : task.interval ∣ day) (tp : Int) :
    OnLocalMultiple localAdjustment task tp ↔ task.interval ∣ tp + localAdjustment tp := EuclideanDomain.dvd_mod_iff hday

variable (halign : task.align = .alignLocal) (hhour : hour < task.interval)
include halign hhour

theorem alignedTime_local (now : Int) :
    IsLeast {t | task.interval ∣ t - localAdjustment now ∧ now ≤ t} (task.alignedTime localAdjustment now) := by
  have hpos : 0 < task.interval := lt_trans (by decide) hhour
  rw [Task.alignedTime, halign]
  exact nextAligned_isLeast hpos (localAdjustment now) now

/-- The slot after `tp`, in local time that changes. -/
theorem nextTime_local (tp now : Int) :
    task.nextTime localAdjustment tp now =
      if tp + task.interval + change localAdjustment task.interval tp < now ∧ task.catchup = false then
        now - (now - (tp + task.interval + change localAdjustment task.interval tp)).tmod task.interval + task.interval
      else tp + task.interval + change localAdjustment task.interval tp := by
  have hlocal : task.align = .alignLocal ∧ hour < task.interval ∧ hour.tmod task.interval ≠ 0 := by
    refine ⟨halign, hhour, ?_⟩
    rw [Int.tmod_eq_of_lt (by decide) hhour]
    decide
  simp only [Task.nextTime, if_pos hlocal]
  rfl

theorem alignedTime_local_iff (now : Int) :
    task.interval ∣ task.alignedTime localAdjustment now + localAdjustment (task.alignedTime localAdjustment now) ↔
      FirstSuits localAdjustment task.interval now := by
  obtain ⟨⟨hdvd, hnow⟩, hle⟩ := @alignedTime_local localAdjustment task halign hhour now
  generalize task.alignedTime localAdjustment now = first at *
  have hsum : task.interval ∣ first + localAdjustment first ↔ task.interval ∣ localAdjustment now + localAdjustment first :=
    dvd_iff_dvd_of_dvd_sub (by rwa [add_sub_add_right_eq_sub])
  rw [hsum]
  constructor
  · intro h tp htp hlt ht
    -- Only one multiple lies in the interval after `now`.
    have hapart : task.interval ∣ tp - first := by
      rw [← sub_sub_sub_cancel_right tp first (localAdjustment now)]
      exact dvd_sub ht hdvd
    have hfirst := hle ⟨ht, htp⟩
    have hzero := Int.eq_zero_of_dvd_of_nonneg_of_lt (by omega) (by omega) hapart
    rwa [eq_of_sub_eq_zero hzero]
  · intro h
    refine h first hnow ?_ hdvd
    by_contra hlt
    have hbefore : task.interval ∣ first - task.interval - localAdjustment now := by
      rw [sub_right_comm]
      exact dvd_sub_self_right.mpr hdvd
    have hpos : 0 < task.interval := lt_trans (by decide) hhour
    have hfirst := hle ⟨hbefore, by omega⟩
    omega

/-- What a step keeps. -/
theorem nextTime_local_iff {tp : Int} (htp : task.interval ∣ tp + localAdjustment tp) (now : Int) :
    task.interval ∣ task.nextTime localAdjustment tp now + localAdjustment (task.nextTime localAdjustment tp now) ↔
      StepSuits localAdjustment task tp now := by
  have hpos : 0 < task.interval := lt_trans (by decide) hhour
  -- The slot is a multiple of the interval from the one before it and the change.
  have hsum : ∀ next, task.interval ∣ next - (tp + change localAdjustment task.interval tp) →
      (task.interval ∣ next + localAdjustment next ↔
        task.interval ∣ change localAdjustment task.interval tp + (localAdjustment next - localAdjustment tp)) := by
    intro next hnext
    refine dvd_iff_dvd_of_dvd_sub ?_
    have heq : next + localAdjustment next - (change localAdjustment task.interval tp + (localAdjustment next - localAdjustment tp)) =
        next - (tp + change localAdjustment task.interval tp) + (tp + localAdjustment tp) := by ring
    rw [heq]
    exact dvd_add hnext htp
  rw [nextTime_local halign hhour]
  unfold StepSuits
  generalize change localAdjustment task.interval tp = moved at hsum
  split_ifs with h
  · obtain ⟨hdvd, hnow, hle⟩ := skip_spec hpos h.1
    generalize now - (now - (tp + task.interval + moved)).tmod task.interval + task.interval = next at hdvd hnow hle
    have hnext : task.interval ∣ next - (tp + moved) := by
      have heq : next - (tp + moved) = next - (tp + task.interval + moved) + task.interval := by ring
      rw [heq]
      exact dvd_add_self_right.mpr hdvd
    rw [hsum next hnext]
    refine ⟨fun hd other hother hlt hdo => ?_, fun hall => hall next hnow hle hnext⟩
    -- Only one multiple lies in the interval after `now`.
    have hapart : task.interval ∣ other - next := by
      rw [← sub_sub_sub_cancel_right other next (tp + moved)]
      exact dvd_sub hdo hnext
    have habs : |other - next| < task.interval := abs_sub_lt_iff.mpr ⟨by omega, by omega⟩
    have heq := Int.eq_zero_of_abs_lt_dvd hapart habs
    rwa [eq_of_sub_eq_zero heq]
  · refine hsum _ ?_
    have heq : tp + task.interval + moved - (tp + moved) = task.interval := by ring
    rw [heq]

/-- In every run. -/
theorem slots_local_iff (now : ℕ → Int) :
    (∀ k, task.interval ∣ task.slot localAdjustment now k + localAdjustment (task.slot localAdjustment now k)) ↔
      FirstSuits localAdjustment task.interval (now 0) ∧
        ∀ k, StepSuits localAdjustment task (task.slot localAdjustment now k) (now (k + 1)) := by
  constructor
  · intro h
    exact ⟨(alignedTime_local_iff halign hhour (now 0)).mp (h 0),
      fun k => (nextTime_local_iff halign hhour (h k) (now (k + 1))).mp (h (k + 1))⟩
  · rintro ⟨hfirst, hstep⟩ k
    induction k with
    | zero => exact (alignedTime_local_iff halign hhour (now 0)).mpr hfirst
    | succ k ih => exact (nextTime_local_iff halign hhour ih (now (k + 1))).mpr (hstep k)

omit halign hhour in
/-- In a zone any two offsets of which add up to a multiple of the interval. -/
theorem suits_of_sums (h : ∀ tp other, task.interval ∣ localAdjustment tp + localAdjustment other) :
    (∀ now, FirstSuits localAdjustment task.interval now) ∧ ∀ tp now, StepSuits localAdjustment task tp now := by
  have hstep : ∀ tp next, task.interval ∣ change localAdjustment task.interval tp + (localAdjustment next - localAdjustment tp) := by
    intro tp next
    have heq : change localAdjustment task.interval tp + (localAdjustment next - localAdjustment tp) =
        localAdjustment (tp + task.interval) + localAdjustment next - (localAdjustment tp + localAdjustment tp) := by
      unfold change
      ring
    rw [heq]
    exact dvd_sub (h _ _) (h _ _)
  refine ⟨fun now tp _ _ _ => h now tp, fun tp now => ?_⟩
  unfold StepSuits
  split_ifs
  · exact fun next _ _ _ => hstep tp next
  · exact hstep tp _

end

/-- A task that is aligned to the local time, whose interval is longer than an
hour and divides the day. -/
theorem local_slots_iff (localAdjustment : Int → Int) (task : Task) (halign : task.align = .alignLocal) (hday : task.interval ∣ day)
    (hhour : hour < task.interval) (now : ℕ → Int) :
    ((∀ k, OnLocalMultiple localAdjustment task (task.slot localAdjustment now k)) ↔
      FirstSuits localAdjustment task.interval (now 0) ∧
        ∀ k, StepSuits localAdjustment task (task.slot localAdjustment now k) (now (k + 1))) ∧
    -- Where no slot is missed, two are as far apart as the local time asks for.
    (∀ tp now, now ≤ tp + task.interval + change localAdjustment task.interval tp →
      (task.nextTime localAdjustment tp now - tp =
          task.interval - (localAdjustment (task.nextTime localAdjustment tp now) - localAdjustment tp) ↔
        localAdjustment (tp + task.interval + change localAdjustment task.interval tp) =
          localAdjustment tp - change localAdjustment task.interval tp)) ∧
    ((∀ tp other, task.interval ∣ localAdjustment tp + localAdjustment other) →
      ∀ k, OnLocalMultiple localAdjustment task (task.slot localAdjustment now k)) ∧
    ∀ offset, (∀ tp, localAdjustment tp = offset) →
      ((∀ k, OnLocalMultiple localAdjustment task (task.slot localAdjustment now k)) ↔ task.interval ∣ 2 * offset) := by
  simp only [onLocalMultiple_iff hday]
  have hrun := @slots_local_iff localAdjustment task halign hhour now
  have hsums : (∀ tp other, task.interval ∣ localAdjustment tp + localAdjustment other) →
      ∀ k, task.interval ∣ task.slot localAdjustment now k + localAdjustment (task.slot localAdjustment now k) :=
    fun h => hrun.mpr ⟨(suits_of_sums h).1 _, fun k => (suits_of_sums h).2 _ _⟩
  refine ⟨hrun, fun tp now hnow => ?_, hsums, fun offset hoffset => ⟨fun h => ?_, fun h => hsums fun tp other => ?_⟩⟩
  · rw [nextTime_local halign hhour, if_neg fun hmiss => absurd hmiss.1 (not_lt.mpr hnow)]
    omega
  · have hfirst := h 0
    have hdvd := (@alignedTime_local localAdjustment task halign hhour (now 0)).1.1
    rw [hoffset] at hfirst hdvd
    have heq : 2 * offset = task.slot localAdjustment now 0 + offset - (task.alignedTime localAdjustment (now 0) - offset) := by
      rw [Task.slot]
      ring
    rw [heq]
    exact dvd_sub hfirst hdvd
  · rw [hoffset, hoffset, ← two_mul]
    exact h

/-- The summer time of a zone that is at UTC in the winter. -/
def summerTime (tp : Int) : Int := if tp < hour then 0 else hour

def winterTime (tp : Int) : Int := if tp < hour then hour else 0

/-- Every two hours. -/
def chimes : Task := ⟨ascii "chimes", 2 * hour, .alignLocal, 0, 0, 0, 0, false⟩

theorem summerTime_or (tp : Int) : summerTime tp = 0 ∨ summerTime tp = hour := ite_eq_or_eq ..

theorem chimes_change {tp : Int} (htp : 0 ≤ tp) : change summerTime chimes.interval tp = hour - summerTime tp := by
  have hlate : ¬ tp + 2 * hour < hour := by
    unfold hour minute second
    omega
  exact congrArg (· - summerTime tp) (if_neg hlate)

/-- The slot after `tp` is in the summer time. -/
theorem chimes_late {tp : Int} (htp : 0 ≤ tp) : hour ≤ tp + chimes.interval + (hour - summerTime tp) := by
  have hoffset := summerTime_or tp
  have hinterval : chimes.interval = 2 * hour := rfl
  have hpos : 0 < hour := by decide
  omega

theorem chimes_suits {tp : Int} (htp : 0 ≤ tp) : StepSuits summerTime chimes tp 0 := by
  have hlate := chimes_late htp
  have hpos : 0 < hour := by decide
  have hnext : summerTime (tp + chimes.interval + (hour - summerTime tp)) = hour := if_neg (not_lt.mpr hlate)
  rw [StepSuits, chimes_change htp, if_neg fun hmiss => by omega, hnext]
  rcases summerTime_or tp with h | h
  · rw [h]
    decide
  · rw [h, sub_self]
    decide

/-- At the change of the time every two hours still falls on an even one, but
the first of them is left out. -/
theorem chimes_slots : (∀ k, OnLocalMultiple summerTime chimes (chimes.slot summerTime (fun _ => 0) k)) ∧
    chimes.nextTime summerTime 0 0 - 0 ≠ 2 * hour - (hour - 0) := by
  have hslots := local_slots_iff summerTime chimes rfl (by decide) (by decide) fun _ => 0
  have hnonneg : ∀ k, 0 ≤ chimes.slot summerTime (fun _ => 0) k := by
    intro k
    induction k with
    | zero => decide
    | succ k ih =>
      have hlate := chimes_late ih
      have hpos : 0 < hour := by decide
      rw [Task.slot, nextTime_local rfl (by decide), chimes_change ih, if_neg fun hmiss => by omega]
      omega
  have hfirst : FirstSuits summerTime chimes.interval 0 := (alignedTime_local_iff rfl (by decide) 0).mp (by decide)
  refine ⟨hslots.1.mpr ⟨hfirst, fun k => chimes_suits (hnonneg k)⟩, fun h => ?_⟩
  exact absurd ((hslots.2.1 0 0 (by decide)).mp h) (by decide)

/-- Four times a day. -/
def rounds : Task := ⟨ascii "rounds", 6 * hour, .alignLocal, 0, 0, 0, 0, false⟩

/-- One hour east of UTC the slots are two hours late. Where the summer time
begins there are seven hours between two of them, and five where it ends. -/
theorem rounds_not_local : ¬ (∀ (localAdjustment : Int → Int) (task : Task), task.align = .alignLocal → task.interval ∣ day →
    hour < task.interval → ∀ now : ℕ → Int, (∀ k, |localAdjustment (task.slot localAdjustment now (k + 1)) -
      localAdjustment (task.slot localAdjustment now k)| < hour + task.interval) →
        ∀ k, OnLocalMultiple localAdjustment task (task.slot localAdjustment now k)) ∧
    rounds.nextTime summerTime 0 0 - 0 = 7 * hour ∧ rounds.nextTime winterTime (-hour) 0 - -hour = 5 * hour := by
  refine ⟨fun h => ?_, by decide, by decide⟩
  have hfirst := h (fun _ => hour) rounds rfl (by decide) (by decide) (fun _ => 0) (fun _ => by simp [rounds, hour, minute, second]) 0
  exact absurd hfirst (by decide)

end Scheduler

end CommonCore
