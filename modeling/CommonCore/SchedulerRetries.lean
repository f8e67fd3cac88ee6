import CommonCore.Scheduler

/-!
# Retries of scheduled tasks

A task may throw a number of times in a row before it is dropped. What
`Task::invoke` counts are all the times that it has thrown.
-/

namespace CommonCore

/-! ## The first of those in a row -/

namespace InARow

variable {p : ℕ → Prop}

/-- There `p` holds after having held `n` times in a row. -/
def Streak (p : ℕ → Prop) (n k : ℕ) : Prop := p k ∧ n ≤ k ∧ ∀ j, k - n ≤ j → j < k → p j

def First (q : ℕ → Prop) (k : ℕ) : Prop := q k ∧ ∀ j < k, ¬ q j

/-- The first `n + 1` times that `p` holds, if there are so many, are in a row. -/
def Unbroken (p : ℕ → Prop) [DecidablePred p] (n : ℕ) : Prop := ∀ k, p k → Nat.count p k = n → Streak p n k

variable [DecidablePred p] {n k : ℕ}

/-- Some time is the `n`-th one. -/
theorem exists_of_lt_count (h : n < Nat.count p k) : ∃ j < k, p j ∧ Nat.count p j = n := by
  induction k with
  | zero => exact absurd h (by simp)
  | succ k ih =>
    rw [Nat.count_succ] at h
    by_cases hlt : n < Nat.count p k
    · obtain ⟨j, hj, hpj, hcount⟩ := ih hlt
      exact ⟨j, Nat.lt_succ_of_lt hj, hpj, hcount⟩
    · by_cases hpk : p k
      · rw [if_pos hpk] at h
        exact ⟨k, Nat.lt_succ_self k, hpk, by omega⟩
      · rw [if_neg hpk] at h
        exact absurd h hlt

theorem Streak.le_count (h : Streak p n k) : n ≤ Nat.count p k := by
  obtain ⟨-, hle, hall⟩ := h
  have hsplit : k = k - n + n := (Nat.sub_add_cancel hle).symm
  rw [hsplit, Nat.count_add]
  have hrow : Nat.count (fun j => p (k - n + j)) n = n := by
    rw [Nat.count_iff_forall]
    exact fun j hj => hall (k - n + j) (Nat.le_add_right _ _) (by omega)
  omega

theorem count_lt_of_lt {j : ℕ} (hj : p j) (hlt : j < k) : Nat.count p j < Nat.count p k := by
  calc Nat.count p j < Nat.count p (j + 1) := by rw [Nat.count_succ, if_pos hj]; exact Nat.lt_succ_self _
    _ ≤ Nat.count p k := Nat.count_monotone p hlt

/-- The first streak is at the `n`-th time if and only if no earlier streak was
interrupted. -/
theorem first_streak_iff : (∀ k, (p k ∧ Nat.count p k = n) ↔ First (Streak p n) k) ↔ Unbroken p n := by
  constructor
  · intro h k hk hcount
    exact ((h k).mp ⟨hk, hcount⟩).1
  · intro h k
    constructor
    · rintro ⟨hk, hcount⟩
      refine ⟨h k hk hcount, fun j hj hstreak => ?_⟩
      have hle := hstreak.le_count
      have hlt := count_lt_of_lt hstreak.1 hj
      omega
    · rintro ⟨hstreak, hfirst⟩
      refine ⟨hstreak.1, hstreak.le_count.antisymm' (Nat.le_of_not_lt fun hlt => ?_)⟩
      obtain ⟨j, hj, hpj, hcount⟩ := exists_of_lt_count hlt
      exact hfirst j hj (h j hpj hcount)

end InARow

namespace Scheduler

open InARow

/-- The task before the `k`-th invocation, given which of them throw. -/
def Task.after (task : Task) (threw : ℕ → Bool) : ℕ → Task
  | 0 => task
  | k + 1 => ((task.after threw k).invoke (threw k)).2

/-- The `k`-th invocation throws, and the task is not to be kept. -/
def Task.GivesUp (task : Task) (threw : ℕ → Bool) (k : ℕ) : Prop :=
  threw k = true ∧ ((task.after threw k).invoke (threw k)).1 = false

theorem invoke_failures (task : Task) (threw : Bool) :
    (task.invoke threw).2.failures = (if threw then (task.failures + 1) % 2 ^ 32 else task.failures) ∧
      (task.invoke threw).2.retries = task.retries := by
  unfold Task.invoke
  split_ifs <;> exact ⟨rfl, rfl⟩

section
variable {task : Task} {threw : ℕ → Bool}

theorem failures_after (threw : ℕ → Bool) (hfresh : task.failures = 0) (k : ℕ) :
    (task.after threw k).failures = Nat.count (fun j => threw j = true) k % 2 ^ 32 ∧ (task.after threw k).retries = task.retries := by
  induction k with
  | zero => exact ⟨hfresh, rfl⟩
  | succ k ih =>
    obtain ⟨hfailures, hretries⟩ := invoke_failures (task.after threw k) (threw k)
    refine ⟨?_, hretries.trans ih.2⟩
    rw [Task.after, hfailures, ih.1, Nat.count_succ]
    split_ifs
    · omega
    · rfl

theorem givesUp_iff (hfresh : task.failures = 0) (k : ℕ) :
    task.GivesUp threw k ↔ threw k = true ∧ task.retries ≤ Nat.count (fun j => threw j = true) k % 2 ^ 32 := by
  refine and_congr_right fun hk => ?_
  obtain ⟨hfailures, hretries⟩ := failures_after threw hfresh k
  rw [hk, Task.invoke, if_pos rfl, hfailures, hretries]
  simp

/-- The task is given up at the first throw that is beyond its retries. -/
theorem first_givesUp_iff (hfresh : task.failures = 0) (hretries : task.retries < 2 ^ 32) (k : ℕ) :
    First (task.GivesUp threw) k ↔ threw k = true ∧ Nat.count (fun j => threw j = true) k = task.retries := by
  constructor
  · rintro ⟨hk, hfirst⟩
    obtain ⟨hthrew, hle⟩ := (givesUp_iff hfresh k).mp hk
    have hmod := Nat.mod_le (Nat.count (fun j => threw j = true) k) (2 ^ 32)
    refine ⟨hthrew, (hle.trans hmod).antisymm' (Nat.le_of_not_lt fun hlt => ?_)⟩
    obtain ⟨j, hj, hthrewj, hcount⟩ := exists_of_lt_count hlt
    refine hfirst j hj ((givesUp_iff hfresh j).mpr ⟨hthrewj, ?_⟩)
    rw [hcount, Nat.mod_eq_of_lt hretries]
  · rintro ⟨hthrew, hcount⟩
    refine ⟨(givesUp_iff hfresh k).mpr ⟨hthrew, by rw [hcount, Nat.mod_eq_of_lt hretries]⟩, fun j hj hgivesUp => ?_⟩
    obtain ⟨hthrewj, hle⟩ := (givesUp_iff hfresh j).mp hgivesUp
    have hmod := Nat.mod_le (Nat.count (fun j => threw j = true) j) (2 ^ 32)
    have hlt := count_lt_of_lt (p := fun j => threw j = true) hthrewj hj
    omega

end

/-- A task that has not been invoked yet, whose retries fit 32 bits. -/
theorem retries_in_a_row_iff (task : Task) (hfresh : task.failures = 0) (hretries : task.retries < 2 ^ 32) (threw : ℕ → Bool) :
    (∀ k, First (task.GivesUp threw) k ↔ First (Streak (fun j => threw j = true) task.retries) k) ↔
      Unbroken (fun j => threw j = true) task.retries := by
  rw [← first_streak_iff]
  exact forall_congr' fun k => iff_congr (first_givesUp_iff hfresh hretries k) Iff.rfl

/-- It runs forever, and may throw once. -/
def poll : Task := ⟨ascii "poll", 1000000000, .alignStart, 0, 0, 1, 0, false⟩

/-- It throws twice, and then no more. -/
theorem poll_given_up : First (poll.GivesUp fun j => j < 2) 1 ↔ First (Streak (fun j => decide (j < 2) = true) 1) 1 := by
  refine (retries_in_a_row_iff poll rfl (by decide) fun j => j < 2).mpr (fun k hk hcount => ?_) 1
  have hk' : k < 2 := of_decide_eq_true hk
  interval_cases k
  · exact absurd hcount (by decide)
  · exact ⟨rfl, le_rfl, fun j _ hj => decide_eq_true (by omega)⟩

/-- It throws, returns, and throws again. -/
theorem poll_given_up_early : ¬ ∀ (task : Task) (threw : ℕ → Bool), task.failures = 0 → task.retries < 2 ^ 32 →
    ∀ k, First (task.GivesUp threw) k ↔ First (Streak (fun j => threw j = true) task.retries) k := by
  intro h
  have hgivesUp : First (poll.GivesUp fun j => j ≠ 1) 2 := (first_givesUp_iff rfl (by decide) 2).mpr ⟨rfl, by decide⟩
  have hstreak := ((h poll (fun j => j ≠ 1) rfl (by decide) 2).mp hgivesUp).1
  exact absurd (hstreak.2.2 1 (by decide) (by decide)) (by decide)

end Scheduler

end CommonCore
