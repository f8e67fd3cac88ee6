import Mathlib.Order.Lattice
import Mathlib.Order.Nat
import Mathlib.Tactic.Common

/-!
# Runs that keep their state

Programs with a state and an amount of fuel, which leave the state as it is when
they throw or run out of fuel. Two programs that differ only in how they take
their input are compared by relations that the binding of programs keeps.
-/

namespace StatefulRuns

inductive Outcome (ε α : Type)
  | going
  | error (e : ε)
  | value (a : α)

def Prog (σ ε α : Type) : Type := σ → Outcome ε α × σ

variable {σ ε ι α β : Type}

namespace Prog

protected def pure (a : α) : Prog σ ε α := fun s => (.value a, s)

protected def bind (x : Prog σ ε α) (f : α → Prog σ ε β) : Prog σ ε β := fun s =>
  match x s with
  | (.value a, s') => f a s'
  | (.error e, s') => (.error e, s')
  | (.going, s') => (.going, s')

instance : Monad (Prog σ ε) where
  pure := Prog.pure
  bind := Prog.bind

/-- There is no fuel left. -/
def going : Prog σ ε α := fun s => (.going, s)

def throw (e : ε) : Prog σ ε α := fun s => (.error e, s)

def ofExcept (x : Except ε α) : Prog σ ε α :=
  match x with
  | .ok a => Prog.pure a
  | .error e => throw e

section
variable {x : Prog σ ε α} {f : α → Prog σ ε β} {s s' : σ}

theorem bind_value {a : α} (h : x s = (.value a, s')) : (x >>= f) s = f a s' := by
  show Prog.bind x f s = _
  unfold Prog.bind
  rw [h]

theorem bind_error {e : ε} (h : x s = (.error e, s')) : (x >>= f) s = (.error e, s') := by
  show Prog.bind x f s = _
  unfold Prog.bind
  rw [h]

theorem bind_going (h : x s = (.going, s')) : (x >>= f) s = (.going, s') := by
  show Prog.bind x f s = _
  unfold Prog.bind
  rw [h]

end

/-- A program that leaves the input alone. -/
def Frame (input : σ → ι) (x : Prog σ ε α) : Prop := ∀ s, input (x s).2 = input s

/-! ## Relations between programs -/

/-- A relation that programs are taken apart by. -/
structure Respects (input : σ → ι) (R : ∀ α : Type, Prog σ ε α → Prog σ ε α → Prop) : Prop where
  frame : ∀ {α : Type} {x : Prog σ ε α}, Frame input x → R α x x
  bind : ∀ {α β : Type} {x y : Prog σ ε α} {f g : α → Prog σ ε β}, R α x y → (∀ a, R β (f a) (g a)) → R β (x >>= f) (y >>= g)

theorem Respects.pure {input : σ → ι} {R : ∀ α : Type, Prog σ ε α → Prog σ ε α → Prop} (hR : Respects input R) (a : α) :
    R α (pure a) (pure a) := hR.frame fun _ => rfl

/-- The second program does what the first does as far as that gets. -/
def Below (α : Type) (x y : Prog σ ε α) : Prop := ∀ s, (x s).1 ≠ .going → y s = x s

theorem below_going (y : Prog σ ε α) : Below α going y := fun _ h => absurd rfl h

theorem respects_below (input : σ → ι) : Respects input (Below (σ := σ) (ε := ε)) where
  frame _ := fun _ _ => rfl
  bind {_ _ x y f g} hx hf := fun s hgoing => by
    have hxs := hx s
    rcases h : x s with ⟨_ | e | a, s'⟩
    · exact absurd (congrArg Prod.fst (bind_going h)) hgoing
    · rw [h] at hxs
      rw [bind_error h, bind_error (hxs (by simp))]
    · rw [h] at hxs
      rw [bind_value h] at hgoing ⊢
      rw [bind_value (hxs (by simp))]
      exact hf a s' hgoing

/-- The second program does what the first does, and throws where the first comes to a
certain kind of input. -/
structure Follows (input : σ → ι) (P : ι → Prop) (α : Type) (x y : Prog σ ε α) : Prop where
  keeps : ∀ s, P (input s) → P (input (x s).2)
  follows : ∀ s, ¬ P (input s) → (y s = x s ∧ ¬ P (input (x s).2)) ∨ (P (input (x s).2) ∧ ∃ e, (y s).1 = .error e)

theorem respects_follows (input : σ → ι) (P : ι → Prop) : Respects input (Follows (ε := ε) input P) where
  frame hx := by
    refine ⟨fun s h => ?_, fun s h => .inl ⟨rfl, ?_⟩⟩
    · rwa [hx s]
    · rwa [hx s]
  bind {_ _ x y f g} hx hf := by
    have hkeeps : ∀ s, P (input (x s).2) → P (input ((x >>= f) s).2) := by
      intro s hs
      rcases h : x s with ⟨_ | e | a, s'⟩
      · rw [h] at hs
        rwa [bind_going h]
      · rw [h] at hs
        rwa [bind_error h]
      · rw [h] at hs
        rw [bind_value h]
        exact (hf a).keeps s' hs
    refine ⟨fun s hs => hkeeps s (hx.keeps s hs), fun s hs => ?_⟩
    rcases hx.follows s hs with ⟨heq, hnot⟩ | ⟨hcut, e, he⟩
    · rcases h : x s with ⟨_ | e | a, s'⟩
      · rw [h] at heq hnot
        rw [bind_going h, bind_going heq]
        exact .inl ⟨rfl, hnot⟩
      · rw [h] at heq hnot
        rw [bind_error h, bind_error heq]
        exact .inl ⟨rfl, hnot⟩
      · rw [h] at heq hnot
        rw [bind_value h, bind_value heq]
        exact (hf a).follows s' hnot
    · right
      refine ⟨hkeeps s hcut, e, ?_⟩
      rcases h : y s with ⟨_ | e' | a, s'⟩
      · rw [h] at he
        cases he
      · rw [h] at he
        cases he
        rw [bind_error h]
      · rw [h] at he
        cases he

end Prog

/-! ## Enough fuel -/

open Prog

/-- With some amount of fuel, this is what comes back. -/
def Returns (run : ℕ → Prog σ ε α) (s : σ) (a : α) : Prop := ∃ n, (run n s).1 = .value a

def Fails (run : ℕ → Prog σ ε α) (s : σ) : Prop := ∃ n e, (run n s).1 = .error e

/-- The same value comes back from both runs, or both fail. -/
def Agree (first second : ℕ → Prog σ ε α) (s : σ) : Prop :=
  (∀ a, Returns first s a ↔ Returns second s a) ∧ (Fails first s ↔ Fails second s)

section
variable {run first second : ℕ → Prog σ ε α} {s : σ}

theorem eq_of_le (hmono : ∀ n, Below α (run n) (run (n + 1))) {m n : ℕ} (hle : m ≤ n) (h : (run m s).1 ≠ .going) :
    run n s = run m s := by
  induction hle with
  | refl => rfl
  | step _ ih => rw [← ih, hmono _ s (ih ▸ h)]

theorem not_returns_of_fails (hmono : ∀ n, Below α (run n) (run (n + 1))) (h : Fails run s) (a : α) : ¬ Returns run s a := by
  rintro ⟨m, hm⟩
  obtain ⟨n, e, hn⟩ := h
  have hleft := eq_of_le hmono (le_max_left m n) (by rw [hm]; simp)
  have hright := eq_of_le hmono (le_max_right m n) (by rw [hn]; simp)
  rw [hleft] at hright
  rw [hright, hn] at hm
  cases hm

/-- Runs on two kinds of input agree when the first fails, or never comes to the input
that makes the second one throw. -/
theorem agree_iff {input : σ → ι} {P : ι → Prop} (hmono : ∀ n, Below α (first n) (first (n + 1)))
    (hfollows : ∀ n, Follows input P α (first n) (second n)) (hs : ¬ P (input s)) :
    Agree first second s ↔ Fails first s ∨ ∀ n, ¬ P (input (first n s).2) := by
  have hstep := fun n => (hfollows n).follows s hs
  constructor
  · rintro ⟨-, hfails⟩
    by_contra hnot
    push Not at hnot
    obtain ⟨hfirst, n, hcut⟩ := hnot
    rcases hstep n with ⟨-, hsafe⟩ | ⟨-, e, he⟩
    · exact hsafe hcut
    · exact hfirst (hfails.mpr ⟨n, e, he⟩)
  · rintro (hfirst | hsafe)
    · obtain ⟨n, e, hn⟩ := hfirst
      have hsecond : Fails second s := by
        rcases hstep n with ⟨heq, -⟩ | ⟨-, e', he'⟩
        · exact ⟨n, e, by rw [heq, hn]⟩
        · exact ⟨n, e', he'⟩
      refine ⟨fun a => iff_of_false (not_returns_of_fails hmono ⟨n, e, hn⟩ a) ?_, iff_of_true ⟨n, e, hn⟩ hsecond⟩
      rintro ⟨m, hm⟩
      rcases hstep m with ⟨heq, -⟩ | ⟨-, e', he'⟩
      · exact not_returns_of_fails hmono ⟨n, e, hn⟩ a ⟨m, by rw [← heq, hm]⟩
      · rw [hm] at he'
        cases he'
    · have heq : ∀ n, second n s = first n s := fun n => ((hstep n).resolve_right fun h => hsafe n h.1).1
      unfold Agree Returns Fails
      simp only [heq, iff_self, implies_true, and_self]

end

end StatefulRuns
