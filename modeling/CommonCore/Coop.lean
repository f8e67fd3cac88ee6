import Mathlib

/-!
# Cooperative programs

A program reads and writes a shared state, calls procedures, and waits for its
environment. `exec` runs one program alone.

`wp` reads a program under a contract: what each procedure requires and
delivers, what must hold when the program waits, and what may have happened
when it goes on. A contract can be built up in layers, where each layer is met
by procedures that call those below.
-/

namespace Coop

open Relation

/-- Programs over states `σ`, procedure calls `κ` that return a `β`, and waits
`ε` that are answered by a `ρ`. -/
inductive Prog (σ κ β ε ρ α : Type) : Type
  | ret (a : α)
  | read (k : σ → Prog σ κ β ε ρ α)
  | write (s : σ) (k : Prog σ κ β ε ρ α)
  | call (c : κ) (k : β → Prog σ κ β ε ρ α)
  | await (e : ε) (k : ρ → Prog σ κ β ε ρ α)

variable {σ κ β ε ρ α γ δ : Type}

namespace Prog

def bind : Prog σ κ β ε ρ α → (α → Prog σ κ β ε ρ γ) → Prog σ κ β ε ρ γ
  | ret a, f => f a
  | read k, f => read fun s => (k s).bind f
  | write s k, f => write s (k.bind f)
  | call c k, f => call c fun b => (k b).bind f
  | await e k, f => await e fun r => (k r).bind f

instance : Monad (Prog σ κ β ε ρ) where
  pure := ret
  bind := bind

theorem bind_ret (p : Prog σ κ β ε ρ α) : p.bind ret = p := by
  induction p with
  | ret a => rfl
  | read k ih => exact congrArg read (funext ih)
  | write s k ih => exact congrArg (write s) ih
  | call c k ih => exact congrArg (call c) (funext ih)
  | await e k ih => exact congrArg (await e) (funext ih)

instance : LawfulMonad (Prog σ κ β ε ρ) := by
  refine LawfulMonad.mk' _ (fun p => bind_ret p) (fun a f => rfl) (fun p f g => ?_)
  induction p with
  | ret a => rfl
  | read k ih => exact congrArg read (funext ih)
  | write s k ih => exact congrArg (write s) ih
  | call c k ih => exact congrArg (call c) (funext ih)
  | await e k ih => exact congrArg (await e) (funext ih)

/-- Read a part of the state. -/
def get (f : σ → α) : Prog σ κ β ε ρ α := read fun s => ret (f s)

def modify (f : σ → σ) : Prog σ κ β ε ρ Unit := read fun s => write (f s) (ret ())

def invoke (c : κ) : Prog σ κ β ε ρ β := call c ret

def wait (e : ε) : Prog σ κ β ε ρ ρ := await e ret

/-! ## Running one program -/

/-- Run a program alone: `callee` answers its calls, and `ω` the waits, which
are numbered from `n`. -/
def exec (callee : κ → σ → ℕ → Option (β × σ × ℕ)) (ω : ℕ → ε → ρ) :
    Prog σ κ β ε ρ α → σ → ℕ → Option (α × σ × ℕ)
  | ret a, s, n => some (a, s, n)
  | read k, s, n => exec callee ω (k s) s n
  | write s k, _, n => exec callee ω k s n
  | call c k, s, n =>
    match callee c s n with
    | some (b, s', n') => exec callee ω (k b) s' n'
    | none => none
  | await e k, s, n => exec callee ω (k (ω n e)) s (n + 1)

/-- Run a procedure with calls nested at most `fuel` deep. -/
def run (body : κ → Prog σ κ β ε ρ β) (ω : ℕ → ε → ρ) : ℕ → κ → σ → ℕ → Option (β × σ × ℕ)
  | 0 => fun _ _ _ => none
  | fuel + 1 => fun c => exec (run body ω fuel) ω (body c)

theorem exec_bind (callee : κ → σ → ℕ → Option (β × σ × ℕ)) (ω : ℕ → ε → ρ)
    (p : Prog σ κ β ε ρ α) (f : α → Prog σ κ β ε ρ γ) (s : σ) (n : ℕ) :
    exec callee ω (p.bind f) s n =
      (exec callee ω p s n).bind fun r => exec callee ω (f r.1) r.2.1 r.2.2 := by
  induction p generalizing s n with
  | ret a => rfl
  | read k ih => exact ih s s n
  | write s' k ih => exact ih s' n
  | call c k ih =>
    simp only [bind, exec]
    cases callee c s n with
    | none => rfl
    | some r => exact ih r.1 r.2.1 r.2.2
  | await e k ih => exact ih (ω n e) s (n + 1)

section
variable {callee : κ → σ → ℕ → Option (β × σ × ℕ)} {ω : ℕ → ε → ρ} {s : σ} {n : ℕ}

@[simp] theorem exec_pure {a : α} :
    exec callee ω (Pure.pure a : Prog σ κ β ε ρ α) s n = some (a, s, n) := rfl

@[simp] theorem exec_then {p : Prog σ κ β ε ρ α} {f : α → Prog σ κ β ε ρ γ} :
    exec callee ω (p >>= f) s n = (exec callee ω p s n).bind fun r => exec callee ω (f r.1) r.2.1 r.2.2 :=
  exec_bind callee ω p f s n

@[simp] theorem exec_get {f : σ → α} :
    exec callee ω (get f : Prog σ κ β ε ρ α) s n = some (f s, s, n) := rfl

@[simp] theorem exec_modify {f : σ → σ} :
    exec callee ω (modify f : Prog σ κ β ε ρ Unit) s n = some ((), f s, n) := rfl

@[simp] theorem exec_invoke {c : κ} : exec callee ω (invoke c : Prog σ κ β ε ρ β) s n = callee c s n := by
  simp only [invoke, exec]
  split <;> simp_all

@[simp] theorem exec_wait {e : ε} : exec callee ω (wait e : Prog σ κ β ε ρ ρ) s n = some (ω n e, s, n + 1) := rfl

end

/-! ## Contracts -/

/-- What a program may rely on and what it owes: the requirement and the result
of each procedure, what holds whenever the program waits, and what may be the
answer to a wait and the state after it. -/
structure Contract (σ κ β ε ρ : Type) where
  pre : κ → σ → Prop
  post : κ → σ → β → σ → Prop
  parked : σ → Prop
  wait : σ → ε → ρ → σ → Prop

def wp (K : Contract σ κ β ε ρ) : Prog σ κ β ε ρ α → σ → (α → σ → Prop) → Prop
  | ret a, s, Q => Q a s
  | read k, s, Q => wp K (k s) s Q
  | write s k, _, Q => wp K k s Q
  | call c k, s, Q => K.pre c s ∧ ∀ b s', K.post c s b s' → wp K (k b) s' Q
  | await e k, s, Q => K.parked s ∧ ∀ r s', K.wait s e r s' → wp K (k r) s' Q

section
variable (K : Contract σ κ β ε ρ)

theorem wp_mono {Q Q' : α → σ → Prop} (hQ : ∀ a s, Q a s → Q' a s) :
    ∀ (p : Prog σ κ β ε ρ α) (s : σ), wp K p s Q → wp K p s Q' := by
  intro p
  induction p with
  | ret a => intro s h; exact hQ a s h
  | read k ih => intro s h; exact ih s s h
  | write s' k ih => intro s h; exact ih s' h
  | call c k ih => intro s h; exact ⟨h.1, fun b s' hp => ih b s' (h.2 b s' hp)⟩
  | await e k ih => intro s h; exact ⟨h.1, fun r s' hw => ih r s' (h.2 r s' hw)⟩

theorem wp_bind (p : Prog σ κ β ε ρ α) (f : α → Prog σ κ β ε ρ γ) (s : σ) (Q : γ → σ → Prop) :
    wp K (p.bind f) s Q ↔ wp K p s fun a s' => wp K (f a) s' Q := by
  induction p generalizing s with
  | ret a => exact Iff.rfl
  | read k ih => exact ih s s
  | write s' k ih => exact ih s'
  | call c k ih =>
    exact and_congr Iff.rfl (forall_congr' fun b => forall_congr' fun s' => imp_congr Iff.rfl (ih b s'))
  | await e k ih =>
    exact and_congr Iff.rfl (forall_congr' fun r => forall_congr' fun s' => imp_congr Iff.rfl (ih r s'))

/-! The same for programs as they are written. -/

variable {K} {s : σ}

@[simp] theorem wp_pure {a : α} {Q : α → σ → Prop} : wp K (Pure.pure a) s Q ↔ Q a s := Iff.rfl

@[simp] theorem wp_then {p : Prog σ κ β ε ρ α} {f : α → Prog σ κ β ε ρ γ} {Q : γ → σ → Prop} :
    wp K (p >>= f) s Q ↔ wp K p s fun a s' => wp K (f a) s' Q := wp_bind K p f s Q

@[simp] theorem wp_get {f : σ → α} {Q : α → σ → Prop} : wp K (get f) s Q ↔ Q (f s) s := Iff.rfl

@[simp] theorem wp_modify {f : σ → σ} {Q : Unit → σ → Prop} : wp K (modify f) s Q ↔ Q () (f s) := Iff.rfl

@[simp] theorem wp_invoke {c : κ} {Q : β → σ → Prop} :
    wp K (invoke c) s Q ↔ K.pre c s ∧ ∀ b s', K.post c s b s' → Q b s' := Iff.rfl

@[simp] theorem wp_wait {e : ε} {Q : ρ → σ → Prop} :
    wp K (wait e) s Q ↔ K.parked s ∧ ∀ r s', K.wait s e r s' → Q r s' := Iff.rfl

@[simp] theorem wp_ite {c : Prop} [Decidable c] {p q : Prog σ κ β ε ρ α} {Q : α → σ → Prop} :
    wp K (if c then p else q) s Q ↔ if c then wp K p s Q else wp K q s Q := by
  split <;> rfl

/-- Every procedure body delivers what its contract promises. -/
def Contract.Meets (K : Contract σ κ β ε ρ) (body : κ → Prog σ κ β ε ρ β) : Prop :=
  ∀ c s, K.pre c s → wp K (body c) s (K.post c s)

/-- The answers of `ω` are among those the contract reckons with, for a program
that runs alone. -/
def Contract.Allows (K : Contract σ κ β ε ρ) (ω : ℕ → ε → ρ) : Prop :=
  ∀ s n e, K.parked s → K.wait s e (ω n e) s

variable {body : κ → Prog σ κ β ε ρ β} {ω : ℕ → ε → ρ}

theorem exec_sound_of {callee : κ → σ → ℕ → Option (β × σ × ℕ)} (hω : K.Allows ω)
    (hc : ∀ c s n b s' n', K.pre c s → callee c s n = some (b, s', n') → K.post c s b s')
    {Q : α → σ → Prop} : ∀ (p : Prog σ κ β ε ρ α) {s : σ} {n : ℕ} {a : α} {s' : σ} {n' : ℕ},
      wp K p s Q → exec callee ω p s n = some (a, s', n') → Q a s' := by
  intro p
  induction p with
  | ret a =>
    intro s n a' s' n' h he
    simp only [exec, Option.some.injEq, Prod.mk.injEq] at he
    obtain ⟨rfl, rfl, -⟩ := he
    exact h
  | read k ih => intro s n a s' n' h he; exact ih s h he
  | write s₁ k ih => intro s n a s' n' h he; exact ih h he
  | call c k ih =>
    intro s n a s' n' h he
    simp only [exec] at he
    split at he
    · rename_i b s₁ n₁ hb
      exact ih b (h.2 b s₁ (hc c s n b s₁ n₁ h.1 hb)) he
    · cases he
  | await e k ih => intro s n a s' n' h he; exact ih (ω n e) (h.2 _ _ (hω s n e h.1)) he

theorem run_sound (hω : K.Allows ω) (hb : K.Meets body) :
    ∀ (fuel : ℕ) (c : κ) (s : σ) (n : ℕ) (b : β) (s' : σ) (n' : ℕ),
      K.pre c s → run body ω fuel c s n = some (b, s', n') → K.post c s b s' := by
  intro fuel
  induction fuel with
  | zero => intro c s n b s' n' _ h; cases h
  | succ fuel ih => intro c s n b s' n' hp h; exact exec_sound_of hω ih (body c) (hb c s hp) h

/-- A program that meets its contract ends, when it ends, as `wp` says. -/
theorem exec_sound (hω : K.Allows ω) (hb : K.Meets body) {Q : α → σ → Prop} {p : Prog σ κ β ε ρ α} {s : σ}
    {fuel n : ℕ} {a : α} {s' : σ} {n' : ℕ} (h : wp K p s Q)
    (he : exec (run body ω fuel) ω p s n = some (a, s', n')) : Q a s' :=
  exec_sound_of hω (run_sound hω hb fuel) p h he

/-- If every call is answered as its contract says, the program ends. -/
theorem exec_total {callee : κ → σ → ℕ → Option (β × σ × ℕ)} (hω : K.Allows ω)
    (hc : ∀ c s n, K.pre c s → ∃ b s' n', callee c s n = some (b, s', n') ∧ K.post c s b s')
    {Q : α → σ → Prop} : ∀ (p : Prog σ κ β ε ρ α) (s : σ) (n : ℕ),
      wp K p s Q → ∃ a s' n', exec callee ω p s n = some (a, s', n') ∧ Q a s' := by
  intro p
  induction p with
  | ret a => intro s n h; exact ⟨a, s, n, rfl, h⟩
  | read k ih => intro s n h; exact ih s s n h
  | write s₁ k ih => intro s n h; exact ih s₁ n h
  | call c k ih =>
    intro s n h
    obtain ⟨b, s₁, n₁, hb, hp⟩ := hc c s n h.1
    obtain ⟨a, s', n', he, hQ⟩ := ih b s₁ n₁ (h.2 b s₁ hp)
    refine ⟨a, s', n', ?_, hQ⟩
    simp only [exec, hb, he]
  | await e k ih => intro s n h; exact ih (ω n e) s (n + 1) (h.2 _ _ (hω s n e h.1))

end

/-! ## Contracts in layers -/

section
variable {K K' : Contract σ κ β ε ρ} {body : κ → Prog σ κ β ε ρ β}

theorem wp_and {Q Q' : α → σ → Prop} : ∀ (p : Prog σ κ β ε ρ α) {s : σ}, wp K p s Q → wp K p s Q' →
    wp K p s fun a s' => Q a s' ∧ Q' a s' := by
  intro p
  induction p with
  | ret a => exact fun h h' => ⟨h, h'⟩
  | read k ih => exact fun h h' => ih _ h h'
  | write s₁ k ih => exact fun h h' => ih h h'
  | call c k ih => exact fun h h' => ⟨h.1, fun b s' hp => ih b (h.2 b s' hp) (h'.2 b s' hp)⟩
  | await e k ih => exact fun h h' => ⟨h.1, fun r s' hw => ih r (h.2 r s' hw) (h'.2 r s' hw)⟩

/-- Where `K` may be relied on, so may `K'`. -/
structure Contract.Refines (K K' : Contract σ κ β ε ρ) : Prop where
  pre : ∀ c s, K.pre c s → K'.pre c s
  post : ∀ c s b s', K.pre c s → K'.post c s b s' → K.post c s b s'
  parked : ∀ s, K.parked s → K'.parked s
  wait : ∀ s e r s', K'.wait s e r s' → K.wait s e r s'

theorem Contract.Refines.wp (h : K.Refines K') {Q : α → σ → Prop} :
    ∀ {p : Prog σ κ β ε ρ α} {s : σ}, wp K p s Q → wp K' p s Q := by
  intro p
  induction p with
  | ret a => exact id
  | read k ih => exact fun hw => ih _ hw
  | write s₁ k ih => exact fun hw => ih hw
  | call c k ih => exact fun hw => ⟨h.pre _ _ hw.1, fun b s' hp => ih b (hw.2 b s' (h.post _ _ _ _ hw.1 hp))⟩
  | await e k ih => exact fun hw => ⟨h.parked _ hw.1, fun r s' hp => ih r (hw.2 r s' (h.wait _ _ _ _ hp))⟩

/-- The contract with one more layer of procedures. -/
def Contract.extend (K : Contract σ κ β ε ρ) (pre : κ → σ → Prop) (post : κ → σ → β → σ → Prop) :
    Contract σ κ β ε ρ :=
  { K with
    pre := fun c s => K.pre c s ∨ pre c s
    post := fun c s b s' => (K.pre c s → K.post c s b s') ∧ (pre c s → post c s b s') }

variable {pre : κ → σ → Prop} {post : κ → σ → β → σ → Prop}

theorem Contract.refines_extend : K.Refines (K.extend pre post) :=
  ⟨fun _ _ => .inl, fun _ _ _ _ hp h => h.1 hp, fun _ => id, fun _ _ _ _ => id⟩

/-- The procedures of a new layer are checked against the layers below. -/
theorem Contract.Meets.extend (hK : K.Meets body) (h : ∀ c s, pre c s → wp K (body c) s (post c s)) :
    (K.extend pre post).Meets body := by
  intro c s hc
  refine refines_extend.wp ?_
  by_cases hp : K.pre c s
  · by_cases hp' : pre c s
    · exact wp_mono K (fun _ _ h => ⟨fun _ => h.1, fun _ => h.2⟩) _ _ (wp_and _ (hK c s hp) (h c s hp'))
    · exact wp_mono K (fun _ _ h => ⟨fun _ => h, fun h' => absurd h' hp'⟩) _ _ (hK c s hp)
  · exact wp_mono K (fun _ _ h => ⟨fun h' => absurd h' hp, fun _ => h⟩) _ _ (h c s (hc.resolve_left hp))

/-- Calls that are nested at least `m` deep are answered as `K` says. -/
def Contract.Answered (K : Contract σ κ β ε ρ) (body : κ → Prog σ κ β ε ρ β) (ω : ℕ → ε → ρ) (m : ℕ) : Prop :=
  ∀ fuel, m ≤ fuel → ∀ c s n, K.pre c s →
    ∃ b s' n', run body ω fuel c s n = some (b, s', n') ∧ K.post c s b s'

theorem Contract.Answered.extend {ω : ℕ → ε → ρ} {m : ℕ} (hω : K.Allows ω) (hK : K.Answered body ω m)
    (h : ∀ c s, pre c s → wp K (body c) s (post c s)) : (K.extend pre post).Answered body ω (m + 1) := by
  intro fuel hm c s n hc
  have old : K.pre c s → ∃ b s' n', run body ω fuel c s n = some (b, s', n') ∧ K.post c s b s' :=
    hK fuel (by omega) c s n
  have new : pre c s → ∃ b s' n', run body ω fuel c s n = some (b, s', n') ∧ post c s b s' := by
    obtain ⟨fuel, rfl⟩ : ∃ f, fuel = f + 1 := ⟨fuel - 1, by omega⟩
    exact fun hp => exec_total hω (hK fuel (by omega)) _ s n (h c s hp)
  by_cases hp : K.pre c s
  · obtain ⟨b, s', n', he, hpost⟩ := old hp
    refine ⟨b, s', n', he, fun _ => hpost, fun hp' => ?_⟩
    obtain ⟨b₁, s₁, n₁, he₁, hpost₁⟩ := new hp'
    rw [he] at he₁
    cases he₁
    exact hpost₁
  · obtain ⟨b, s', n', he, hpost⟩ := new (hc.resolve_left hp)
    exact ⟨b, s', n', he, fun hp' => absurd hp' hp, fun _ => hpost⟩

end

end Prog

end Coop
