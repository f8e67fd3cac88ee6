import Mathlib

/-!
# Alignment

An alignment takes a point to the last aligned one that is not after it.
-/

namespace CommonCore

structure Alignment {α : Type*} [PartialOrder α] (f : α → α) : Prop where
  le : ∀ t, f t ≤ t
  mono : Monotone f
  idem : ∀ t, f (f t) = f t

namespace Alignment

section
variable {α : Type*} [PartialOrder α] {f : α → α}

theorem eq_of_between (hf : Alignment f) {t r : α} (hlo : f t ≤ r) (hhi : r ≤ t) : f r = f t := by
  refine le_antisymm (hf.mono hhi) ?_
  rw [← hf.idem t]
  exact hf.mono hlo

end

section
variable {α : Type*} [AddCommGroup α] [LinearOrder α] [IsOrderedAddMonoid α] {f g : α → α}

/-- `g` divides each of the spans that `f` aligns to. -/
theorem within (hf : Alignment f) (hg : Alignment g) (h₀ : g 0 = 0) : Alignment fun t => f t + g (t - f t) := by
  have hnonneg : ∀ t, 0 ≤ g (t - f t) := by
    intro t
    rw [← h₀]
    exact hg.mono (sub_nonneg.mpr (hf.le t))
  have hge : ∀ t, f t ≤ f t + g (t - f t) := fun t => le_add_of_nonneg_right (hnonneg t)
  have hle : ∀ t, f t + g (t - f t) ≤ t := by
    intro t
    calc f t + g (t - f t) ≤ f t + (t - f t) := add_le_add_right (hg.le _) _
      _ = t := by abel
  refine ⟨hle, fun t s hts => ?_, fun t => ?_⟩
  · rcases (hf.mono hts).lt_or_eq with h | h
    · have hts' : t < f s := by
        by_contra hst
        exact h.ne (hf.eq_of_between (not_lt.mp hst) hts)
      exact ((hle t).trans_lt hts').le.trans (hge s)
    · show f t + g (t - f t) ≤ f s + g (s - f s)
      rw [h]
      exact add_le_add_right (hg.mono (sub_le_sub_right hts _)) _
  · show f (f t + g (t - f t)) + g (f t + g (t - f t) - f (f t + g (t - f t))) = f t + g (t - f t)
    rw [hf.eq_of_between (hge t) (hle t), add_sub_cancel_left, hg.idem]

end

section
variable {α β : Type*} [PartialOrder α] [PartialOrder β]

/-- The greater part stays. -/
theorem lesser {g : β → β} (hg : Alignment g) : Alignment fun p : α ×ₗ β => toLex ((ofLex p).1, g (ofLex p).2) := by
  refine ⟨fun p => ?_, fun p q hpq => ?_, fun p => ?_⟩
  · exact Prod.Lex.le_iff'.mpr ⟨le_rfl, fun _ => hg.le _⟩
  · obtain ⟨hle, hrest⟩ := Prod.Lex.le_iff'.mp hpq
    exact Prod.Lex.le_iff'.mpr ⟨hle, fun heq => hg.mono (hrest heq)⟩
  · exact congrArg (fun b => toLex ((ofLex p).1, b)) (hg.idem _)

/-- The lesser part starts again. -/
theorem greater [OrderBot β] {f : α → α} (hf : Alignment f) : Alignment fun p : α ×ₗ β => toLex (f (ofLex p).1, (⊥ : β)) := by
  refine ⟨fun p => ?_, fun p q hpq => ?_, fun p => ?_⟩
  · exact Prod.Lex.le_iff'.mpr ⟨hf.le _, fun _ => bot_le⟩
  · exact Prod.Lex.le_iff'.mpr ⟨hf.mono (Prod.Lex.le_iff'.mp hpq).1, fun _ => le_rfl⟩
  · exact congrArg (fun a => toLex (a, (⊥ : β))) (hf.idem _)

end

/-- In another count of the same points. -/
theorem counted {α β : Type*} [LinearOrder α] [PartialOrder β] {f : α → α} {s : Set α} {count : α → β} {point : β → α}
    (hf : Alignment f) (hs : ∀ a ∈ s, f a ∈ s) (hcount : StrictMonoOn count s) (hpoint : ∀ b, point b ∈ s ∧ count (point b) = b) :
    Alignment fun b => count (f (point b)) := by
  refine ⟨fun b => ?_, fun b c hbc => ?_, fun b => ?_⟩
  · calc count (f (point b)) ≤ count (point b) := hcount.monotoneOn (hs _ (hpoint b).1) (hpoint b).1 (hf.le _)
      _ = b := (hpoint b).2
  · have hle : point b ≤ point c := by
      rw [← hcount.le_iff_le (hpoint b).1 (hpoint c).1, (hpoint b).2, (hpoint c).2]
      exact hbc
    exact hcount.monotoneOn (hs _ (hpoint b).1) (hs _ (hpoint c).1) (hf.mono hle)
  · have hpoints : point (count (f (point b))) = f (point b) :=
      hcount.injOn (hpoint _).1 (hs _ (hpoint b).1) (hpoint _).2
    show count (f (point (count (f (point b))))) = count (f (point b))
    rw [hpoints, hf.idem]

/-- Multiples of `m`, counted from `r`. -/
theorem multiple {m : ℤ} (hm : 0 < m) (r : ℤ) : Alignment fun t : ℤ => t - (t - r) % m := by
  have heq : ∀ t : ℤ, t - (t - r) % m = r + m * ((t - r) / m) := by
    intro t
    have := Int.emod_add_mul_ediv (t - r) m
    omega
  refine ⟨fun t => ?_, fun t s hts => ?_, fun t => ?_⟩
  · have := Int.emod_nonneg (t - r) hm.ne'
    show t - (t - r) % m ≤ t
    omega
  · show t - (t - r) % m ≤ s - (s - r) % m
    rw [heq t, heq s]
    have := Int.mul_le_mul_of_nonneg_left (Int.ediv_le_ediv hm (sub_le_sub_right hts r)) hm.le
    omega
  · show t - (t - r) % m - (t - (t - r) % m - r) % m = t - (t - r) % m
    rw [heq t, add_sub_cancel_left, Int.mul_emod_right, sub_zero]

/-- Multiples of `n` among the natural numbers, or zero. -/
theorem natMultiple (n : ℕ) : Alignment fun t : ℕ => t / n * n := by
  refine ⟨fun t => Nat.div_mul_le_self t n, fun t s hts => Nat.mul_le_mul_right n (Nat.div_le_div_right hts), fun t => ?_⟩
  show t / n * n / n * n = t / n * n
  rcases Nat.eq_zero_or_pos n with rfl | hn
  · rfl
  · rw [Nat.mul_div_cancel _ hn]

end Alignment

end CommonCore
