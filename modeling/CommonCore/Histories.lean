import Mathlib.Data.Option.Basic
import Mathlib.Logic.Function.Basic

/-!
# Runs with their history

A machine takes an action to a next state, or refuses it, and some of its steps
are events. A run keeps the events so far, the latest first, and may be confined
to steps that the history allows.
-/

namespace CommonCore

structure Machine (σ α ε : Type) where
  step : σ → α → Option σ
  event : σ → α → Option ε

namespace Machine

variable {σ α ε : Type} (m : Machine σ α ε)

def log (h : List ε) (s : σ) (a : α) : List ε := (m.event s a).toList ++ h

theorem log_of_none {h : List ε} {s : σ} {a : α} (e : m.event s a = none) : m.log h s a = h := by
  simp [log, e]

theorem log_of_some {h : List ε} {s : σ} {a : α} {x : ε} (e : m.event s a = some x) : m.log h s a = x :: h := by
  simp [log, e]

/-- A run from `s₀` all of whose steps are allowed. -/
inductive Run (allowed : List ε → σ → α → Prop) (s₀ : σ) : List ε → σ → Prop
  | start : Run allowed s₀ [] s₀
  | step {h s a s'} : Run allowed s₀ h s → allowed h s a → m.step s a = some s' → Run allowed s₀ (m.log h s a) s'

/-- Any step the machine can make. -/
def anyStep : List ε → σ → α → Prop := fun _ _ _ => True

instance (h : List ε) (s : σ) (a : α) : Decidable (anyStep h s a) := inferInstanceAs (Decidable True)

/-- The run of a list of actions, as long as none is refused. -/
def exec (allowed : List ε → σ → α → Prop) [∀ h s a, Decidable (allowed h s a)] :
    List α → List ε × σ → Option (List ε × σ)
  | [], r => some r
  | a :: rest, (h, s) =>
    if allowed h s a then (m.step s a).bind fun s' => exec allowed rest (m.log h s a, s') else none

variable {m}

theorem Run.invariant {allowed : List ε → σ → α → Prop} {s₀ : σ} {I : List ε → σ → Prop} (start : I [] s₀)
    (step : ∀ h s a s', I h s → allowed h s a → m.step s a = some s' → I (m.log h s a) s')
    {h : List ε} {s : σ} (run : m.Run allowed s₀ h s) : I h s := by
  induction run with
  | start => exact start
  | step _ ok stepped ih => exact step _ _ _ _ ih ok stepped

theorem Run.mono {P Q : List ε → σ → α → Prop} {s₀ : σ} (weaker : ∀ h s a, P h s a → Q h s a) {h : List ε} {s : σ}
    (run : m.Run P s₀ h s) : m.Run Q s₀ h s := by
  induction run with
  | start => exact .start
  | step _ ok stepped ih => exact .step ih (weaker _ _ _ ok) stepped

/-- A run with a history that one kind of step would spoil has none of these steps. -/
theorem Run.confine {P Q : List ε → σ → α → Prop} {s₀ : σ} {good : List ε → Prop}
    (suffix : ∀ x h, good (x :: h) → good h)
    (step : ∀ h s a s', m.Run P s₀ h s → m.step s a = some s' → good (m.log h s a) → Q h s a)
    {h : List ε} {s : σ} (run : m.Run P s₀ h s) (ends : good h) : m.Run Q s₀ h s := by
  induction run with
  | start => exact .start
  | @step h s a s' run _ stepped ih =>
    have earlier : good h := by
      cases e : m.event s a with
      | none => rwa [m.log_of_none e] at ends
      | some x => exact suffix x h (by rwa [m.log_of_some e] at ends)
    exact .step (ih earlier) (step h s a s' run stepped ends) stepped

theorem Run.exec {allowed : List ε → σ → α → Prop} [∀ h s a, Decidable (allowed h s a)] {s₀ : σ} {as : List α}
    {h h' : List ε} {s s' : σ} (run : m.Run allowed s₀ h s) (executed : m.exec allowed as (h, s) = some (h', s')) :
    m.Run allowed s₀ h' s' := by
  induction as generalizing h s with
  | nil =>
    obtain ⟨rfl, rfl⟩ := Prod.mk.inj (Option.some.inj executed)
    exact run
  | cons a rest ih =>
    rw [Machine.exec] at executed
    split at executed
    next ok =>
      obtain ⟨t, stepped, executed⟩ := Option.bind_eq_some_iff.mp executed
      exact ih (run.step ok stepped) executed
    next => cases executed

end Machine

end CommonCore
