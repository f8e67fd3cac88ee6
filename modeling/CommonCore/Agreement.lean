import CommonCore.Coop

/-!
# Programs that agree

Two programs agree if, from related states, both end or neither does, with
related results, in related states and after the same waits.
-/

namespace Coop.Prog

variable {σ κ β ε ρ α α' γ γ' : Type}

def Together (R : σ → σ → Prop) (A : α → α' → Prop) : Option (α × σ × ℕ) → Option (α' × σ × ℕ) → Prop
  | some x, some y => A x.1 y.1 ∧ R x.2.1 y.2.1 ∧ x.2.2 = y.2.2
  | none, none => True
  | _, _ => False

/-- Procedures that are called alike come to the same. -/
def AgreeOn (R : σ → σ → Prop) (C : κ → κ → Prop) (callee : κ → σ → ℕ → Option (β × σ × ℕ)) : Prop :=
  ∀ c c', C c c' → ∀ s t n, R s t → Together R (· = ·) (callee c s n) (callee c' t n)

def Agree (R : σ → σ → Prop) (callee : κ → σ → ℕ → Option (β × σ × ℕ)) (ω : ℕ → ε → ρ) (A : α → α' → Prop)
    (p : Prog σ κ β ε ρ α) (q : Prog σ κ β ε ρ α') : Prop :=
  ∀ s t n, R s t → Together R A (exec callee ω p s n) (exec callee ω q t n)

section
variable {R : σ → σ → Prop} {C : κ → κ → Prop} {callee : κ → σ → ℕ → Option (β × σ × ℕ)} {ω : ℕ → ε → ρ} {A : α → α' → Prop}
  {B : γ → γ' → Prop}

theorem Agree.pure {a : α} {a' : α'} (h : A a a') : Agree R callee ω A (Pure.pure a) (Pure.pure a') :=
  fun _ _ _ hst => ⟨h, hst, rfl⟩

theorem Agree.bind {p : Prog σ κ β ε ρ α} {q : Prog σ κ β ε ρ α'} {f : α → Prog σ κ β ε ρ γ} {g : α' → Prog σ κ β ε ρ γ'}
    (h : Agree R callee ω A p q) (hf : ∀ a a', A a a' → Agree R callee ω B (f a) (g a')) : Agree R callee ω B (p >>= f) (q >>= g) := by
  intro s t n hst
  have hpq := h s t n hst
  rw [exec_then, exec_then]
  cases hx : exec callee ω p s n with
  | none =>
    cases hy : exec callee ω q t n with
    | none => trivial
    | some y =>
      rw [hx, hy] at hpq
      exact hpq.elim
  | some x =>
    cases hy : exec callee ω q t n with
    | none =>
      rw [hx, hy] at hpq
      exact hpq.elim
    | some y =>
      rw [hx, hy] at hpq
      obtain ⟨ha, hs, hn⟩ := hpq
      rw [Option.bind_some, Option.bind_some, ← hn]
      exact hf _ _ ha _ _ _ hs

theorem Agree.bind_eq {p q : Prog σ κ β ε ρ α} {f : α → Prog σ κ β ε ρ γ} {g : α → Prog σ κ β ε ρ γ'}
    (h : Agree R callee ω (· = ·) p q) (hf : ∀ a, Agree R callee ω B (f a) (g a)) : Agree R callee ω B (p >>= f) (q >>= g) := by
  apply h.bind
  intro a a' ha
  subst ha
  exact hf a

theorem Agree.get {f : σ → α} {g : σ → α'} (h : ∀ s t, R s t → A (f s) (g t)) : Agree R callee ω A (get f) (get g) :=
  fun s t _ hst => ⟨h s t hst, hst, rfl⟩

theorem Agree.modify {f g : σ → σ} (h : ∀ s t, R s t → R (f s) (g t)) : Agree R callee ω (· = ·) (modify f) (modify g) :=
  fun s t _ hst => ⟨rfl, h s t hst, rfl⟩

theorem Agree.wait {e : ε} : Agree R callee ω (· = ·) (wait e) (wait e) :=
  fun _ _ _ hst => ⟨rfl, hst, rfl⟩

theorem Agree.invoke (hcallee : AgreeOn R C callee) {c c' : κ} (h : C c c') : Agree R callee ω (· = ·) (invoke c) (invoke c') := by
  intro s t n hst
  rw [exec_invoke, exec_invoke]
  exact hcallee c c' h s t n hst

theorem Agree.ite {c c' : Prop} [Decidable c] [Decidable c'] {p p' : Prog σ κ β ε ρ α} {q q' : Prog σ κ β ε ρ α'} (hc : c ↔ c')
    (h : Agree R callee ω A p q) (h' : Agree R callee ω A p' q') : Agree R callee ω A (if c then p else p') (if c' then q else q') := by
  by_cases hp : c
  · rw [if_pos hp, if_pos (hc.mp hp)]
    exact h
  · rw [if_neg hp, if_neg (mt hc.mpr hp)]
    exact h'

end

/-- Procedures agree if their bodies do, as far as those that they call agree. -/
theorem agreeOn_run {R : σ → σ → Prop} {C : κ → κ → Prop} {body : κ → Prog σ κ β ε ρ β} {ω : ℕ → ε → ρ}
    (h : ∀ callee, AgreeOn R C callee → ∀ c c', C c c' → Agree R callee ω (· = ·) (body c) (body c')) (fuel : ℕ) :
    AgreeOn R C (run body ω fuel) := by
  induction fuel with
  | zero => exact fun _ _ _ _ _ _ _ => trivial
  | succ fuel ih => exact fun c c' hc => h _ ih c c' hc

end Coop.Prog
