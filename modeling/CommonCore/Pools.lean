import CommonCore.Coop

/-!
# Pools of threads

In a pool a thread keeps running until it waits or returns, so the waits are
the only points at which another thread can change the state.

What is proved of a program in `wp` holds of every schedule: one invariant for
the whole pool (`pool_inv`), or the contract of a thread whose companions have
returned (`solo_meets`). A run of one program alone is one of the schedules
(`exec_pool`).
-/

namespace Coop

open Relation

variable {σ κ β ε ρ : Type}

/-- What is left of a call that runs in a pool: the current program, and the
rest of each caller. -/
structure Thread (σ κ β ε ρ : Type) where
  prog : Prog σ κ β ε ρ β
  stack : List (β → Prog σ κ β ε ρ β)

namespace Thread

def start (p : Prog σ κ β ε ρ β) : Thread σ κ β ε ρ := ⟨p, []⟩

def done (b : β) : Thread σ κ β ε ρ := ⟨.ret b, []⟩

/-- A thread gives way when it waits or has returned. -/
def Parked (t : Thread σ κ β ε ρ) : Prop :=
  (∃ e k, t.prog = .await e k) ∨ ∃ b, t = done b

/-- The postcondition a thread's current program must meet so that its callers
can go on. -/
def callers (K : Prog.Contract σ κ β ε ρ) (Q : β → σ → Prop) :
    List (β → Prog σ κ β ε ρ β) → β → σ → Prop
  | [] => Q
  | k :: st => fun b s => Prog.wp K (k b) s (callers K Q st)

def Meets (K : Prog.Contract σ κ β ε ρ) (Q : β → σ → Prop) (t : Thread σ κ β ε ρ) (s : σ) : Prop :=
  Prog.wp K t.prog s (callers K Q t.stack)

end Thread

section
variable (body : κ → Prog σ κ β ε ρ β)

/-- One step of the running thread. -/
inductive Micro : σ × Thread σ κ β ε ρ → σ × Thread σ κ β ε ρ → Prop
  | read {s k st} : Micro (s, ⟨.read k, st⟩) (s, ⟨k s, st⟩)
  | write {s s' k st} : Micro (s, ⟨.write s' k, st⟩) (s', ⟨k, st⟩)
  | call {s c k st} : Micro (s, ⟨.call c k, st⟩) (s, ⟨body c, k :: st⟩)
  | ret {s b k st} : Micro (s, ⟨.ret b, k :: st⟩) (s, ⟨k b, st⟩)

/-- A thread has the processor until it gives way. -/
def Turn (s : σ) (t : Thread σ κ β ε ρ) (s' : σ) (t' : Thread σ κ β ε ρ) : Prop :=
  ReflTransGen (Micro body) (s, t) (s', t') ∧ t'.Parked

abbrev Pool (σ κ β ε ρ : Type) := σ × List (Thread σ κ β ε ρ)

/-- A new thread enters the pool and takes its first turn. -/
inductive Starts (p : Prog σ κ β ε ρ β) : Pool σ κ β ε ρ → Pool σ κ β ε ρ → Prop
  | mk {s s' ts t} : Turn body s (Thread.start p) s' t → Starts p (s, ts) (s', ts ++ [t])

/-- A waiting thread is answered and takes its next turn. -/
inductive Resumes : Pool σ κ β ε ρ → Pool σ κ β ε ρ → Prop
  | mk {s s' l l' e k st r t} : Turn body s ⟨k r, st⟩ s' t →
      Resumes (s, l ++ ⟨.await e k, st⟩ :: l') (s', l ++ t :: l')

/-- What a pool does when programs from `P` may start at any time. -/
inductive PoolStep (P : Prog σ κ β ε ρ β → Prop) : Pool σ κ β ε ρ → Pool σ κ β ε ρ → Prop
  | starts {c c' p} : P p → Starts body p c c' → PoolStep P c c'
  | resumes {c c'} : Resumes body c c' → PoolStep P c c'

end

/-! ### Following a turn -/

section
variable {body : κ → Prog σ κ β ε ρ β}

theorem Micro.deterministic {c c₁ c₂ : σ × Thread σ κ β ε ρ} (h₁ : Micro body c c₁) (h₂ : Micro body c c₂) : c₁ = c₂ := by
  cases h₁ <;> cases h₂ <;> rfl

theorem Thread.Parked.not_micro {s : σ} {t : Thread σ κ β ε ρ} (ht : t.Parked) {c : σ × Thread σ κ β ε ρ} :
    ¬ Micro body (s, t) c := by
  intro h
  rcases ht with ⟨e, k, he⟩ | ⟨b, rfl⟩
  · cases h <;> cases he
  · cases h

theorem turn_micro {s s₁ s' : σ} {t t₁ t' : Thread σ κ β ε ρ} (h : Micro body (s, t) (s₁, t₁)) :
    Turn body s t s' t' ↔ Turn body s₁ t₁ s' t' := by
  refine ⟨fun ht => ⟨?_, ht.2⟩, fun ht => ⟨.head h ht.1, ht.2⟩⟩
  obtain ⟨hrun, hpark⟩ := ht
  rcases hrun.cases_head with heq | ⟨c, hstep, hrest⟩
  · cases heq
    exact absurd h hpark.not_micro
  · rwa [h.deterministic hstep]

theorem turn_parked {s s' : σ} {t t' : Thread σ κ β ε ρ} (ht : t.Parked) :
    Turn body s t s' t' ↔ s' = s ∧ t' = t := by
  refine ⟨fun h => ?_, fun h => ?_⟩
  · rcases h.1.cases_head with heq | ⟨c, hstep, -⟩
    · cases heq
      exact ⟨rfl, rfl⟩
    · exact absurd hstep ht.not_micro
  · obtain ⟨rfl, rfl⟩ := h
    exact ⟨.refl, ht⟩

variable {α : Type} {s s' : σ} {st : List (β → Prog σ κ β ε ρ β)} {t : Thread σ κ β ε ρ}

theorem turn_get {f : σ → α} {k : α → Prog σ κ β ε ρ β} :
    Turn body s ⟨Prog.get f >>= k, st⟩ s' t ↔ Turn body s ⟨k (f s), st⟩ s' t := turn_micro .read

theorem turn_modify {f : σ → σ} {k : Unit → Prog σ κ β ε ρ β} :
    Turn body s ⟨Prog.modify f >>= k, st⟩ s' t ↔ Turn body (f s) ⟨k (), st⟩ s' t :=
  (turn_micro .read).trans (turn_micro .write)

theorem turn_invoke {c : κ} {k : β → Prog σ κ β ε ρ β} :
    Turn body s ⟨Prog.invoke c >>= k, st⟩ s' t ↔ Turn body s ⟨body c, k :: st⟩ s' t := turn_micro .call

theorem turn_wait {e : ε} {k : ρ → Prog σ κ β ε ρ β} :
    Turn body s ⟨Prog.wait e >>= k, st⟩ s' t ↔ s' = s ∧ t = ⟨.await e k, st⟩ := turn_parked (.inl ⟨e, k, rfl⟩)

end

section
variable {K : Prog.Contract σ κ β ε ρ} {body : κ → Prog σ κ β ε ρ β} {Q : β → σ → Prop}

theorem micro_meets (hb : K.Meets body) {c c' : σ × Thread σ κ β ε ρ} (h : Micro body c c')
    (hm : c.2.Meets K Q c.1) : c'.2.Meets K Q c'.1 := by
  cases h with
  | read => exact hm
  | write => exact hm
  | call => exact Prog.wp_mono K (fun b s' hp => hm.2 b s' hp) _ _ (hb _ _ hm.1)
  | ret => exact hm

theorem turn_meets (hb : K.Meets body) {s s' : σ} {t t' : Thread σ κ β ε ρ} (h : Turn body s t s' t')
    (hm : t.Meets K Q s) : t'.Meets K Q s' := by
  have key : ∀ c, ReflTransGen (Micro body) (s, t) c → c.2.Meets K Q c.1 := by
    intro c hc
    induction hc with
    | refl => exact hm
    | tail _ hstep ih => exact micro_meets hb hstep ih
  exact key (s', t') h.1

/-! ### One invariant for the whole pool -/

/-- A parked thread that keeps `Inv`, whatever `Inv`-state and answer it goes
on with. -/
def Ready (K : Prog.Contract σ κ β ε ρ) (Inv : σ → Prop) (t : Thread σ κ β ε ρ) : Prop :=
  ∀ e k, t.prog = .await e k → ∀ r s, Inv s → (⟨k r, t.stack⟩ : Thread σ κ β ε ρ).Meets K (fun _ => Inv) s

variable {Inv : σ → Prop} (hb : K.Meets body) (hpark : ∀ s, K.parked s → Inv s)
  (hwait : ∀ s e r s', Inv s' → K.wait s e r s')
include hb hpark hwait

theorem turn_inv {s s' : σ} {t t' : Thread σ κ β ε ρ} (h : Turn body s t s' t')
    (hm : t.Meets K (fun _ => Inv) s) : Inv s' ∧ Ready K Inv t' := by
  have hm' := turn_meets hb h hm
  rcases h.2 with ⟨e, k, he⟩ | ⟨b, rfl⟩
  · unfold Thread.Meets at hm'
    rw [he] at hm'
    refine ⟨hpark s' hm'.1, fun e₂ k₂ he₂ r s₂ hs₂ => ?_⟩
    rw [he] at he₂
    cases he₂
    exact hm'.2 r s₂ (hwait s' e r s₂ hs₂)
  · exact ⟨hm', fun e k he => by cases he⟩

/-- If every program of `P` keeps `Inv` from wait to wait, then so does every
schedule of every pool of such programs. -/
theorem pool_inv {P : Prog σ κ β ε ρ β → Prop}
    (hP : ∀ p, P p → ∀ s, Inv s → Prog.wp K p s fun _ => Inv) {s : σ} (hs : Inv s)
    {c : Pool σ κ β ε ρ} (h : ReflTransGen (PoolStep body P) (s, []) c) : Inv c.1 := by
  have key : Inv c.1 ∧ ∀ t ∈ c.2, Ready K Inv t := by
    induction h with
    | refl => exact ⟨hs, by simp⟩
    | tail _ hstep ih =>
      obtain ⟨hi, hr⟩ := ih
      cases hstep with
      | starts hp hst =>
        obtain ⟨ht⟩ := hst
        obtain ⟨hi', hr'⟩ := turn_inv hb hpark hwait ht (hP _ hp _ hi)
        refine ⟨hi', fun t₂ ht₂ => ?_⟩
        rcases List.mem_append.mp ht₂ with hl | hl
        · exact hr t₂ hl
        · rw [List.mem_singleton.mp hl]; exact hr'
      | resumes hst =>
        obtain @⟨s₁, s₂, l, l', e, k, st, r, t₁, ht⟩ := hst
        have hm := hr ⟨.await e k, st⟩ (by simp) e k rfl r s₁ hi
        obtain ⟨hi', hr'⟩ := turn_inv hb hpark hwait ht hm
        refine ⟨hi', fun t₂ ht₂ => ?_⟩
        rcases List.mem_append.mp ht₂ with hl | hl
        · exact hr t₂ (List.mem_append_left _ hl)
        · rcases List.mem_cons.mp hl with rfl | hl
          · exact hr'
          · exact hr t₂ (List.mem_append_right _ (List.mem_cons_of_mem _ hl))
  exact key.1

end

/-! ### A thread among finished ones -/

section
variable {K : Prog.Contract σ κ β ε ρ} {body : κ → Prog σ κ β ε ρ β} {Q : β → σ → Prop}

/-- The only thread that has not returned keeps its own contract. -/
theorem solo_meets (hb : K.Meets body) (hwait : ∀ s e r, K.wait s e r s) {s s' : σ}
    {t : Thread σ κ β ε ρ} {ds ts : List (Thread σ κ β ε ρ)} (hd : ∀ d ∈ ds, ∃ b, d = Thread.done b)
    (h : ReflTransGen (Resumes body) (s, t :: ds) (s', ts)) (hm : t.Meets K Q s) :
    ∃ t', ts = t' :: ds ∧ t'.Meets K Q s' := by
  have key : ∀ c : Pool σ κ β ε ρ, ReflTransGen (Resumes body) (s, t :: ds) c →
      ∃ t', c.2 = t' :: ds ∧ t'.Meets K Q c.1 := by
    intro c hc
    induction hc with
    | refl => exact ⟨t, rfl, hm⟩
    | tail _ hstep ih =>
      obtain ⟨t₁, heq, hm₁⟩ := ih
      cases hstep with
      | @mk s₁ s₂ l l' e k st r t₂ ht =>
        cases l with
        | nil =>
          obtain ⟨rfl, rfl⟩ := List.cons.inj heq
          exact ⟨t₂, rfl, turn_meets hb ht (hm₁.2 r _ (hwait _ _ r))⟩
        | cons t₀ l =>
          -- every other thread has returned, so it is not waiting
          obtain ⟨rfl, rfl⟩ := List.cons.inj heq
          obtain ⟨b, hb'⟩ := hd ⟨.await e k, st⟩ (by simp)
          cases hb'
  exact key (s', ts) h

end

/-! ### A run alone is a schedule -/

section
variable (body : κ → Prog σ κ β ε ρ β)

/-- A step of a thread that is answered without anybody else's turn. -/
inductive Solo : σ × Thread σ κ β ε ρ → σ × Thread σ κ β ε ρ → Prop
  | micro {c c'} : Micro body c c' → Solo c c'
  | answer {s e k st r} : Solo (s, ⟨.await e k, st⟩) (s, ⟨k r, st⟩)

variable {body}

theorem exec_solo (ω : ℕ → ε → ρ) :
    ∀ (fuel : ℕ) {α : Type} (p : Prog σ κ β ε ρ α) {s : σ} {n : ℕ} {a : α} {s' : σ} {n' : ℕ},
      Prog.exec (Prog.run body ω fuel) ω p s n = some (a, s', n') →
      ∀ (f : α → Prog σ κ β ε ρ β) st, ReflTransGen (Solo body) (s, ⟨p.bind f, st⟩) (s', ⟨f a, st⟩) := by
  intro fuel
  induction fuel with
  | zero =>
    intro α p
    induction p with
    | ret a =>
      intro s n a' s' n' h f st
      simp only [Prog.exec, Option.some.injEq, Prod.mk.injEq] at h
      obtain ⟨rfl, rfl, -⟩ := h
      exact .refl
    | read k ih => intro s n a s' n' h f st; exact .head (.micro .read) (ih s h f st)
    | write s₁ k ih => intro s n a s' n' h f st; exact .head (.micro .write) (ih h f st)
    | call c k ih => intro s n a s' n' h f st; cases h
    | await e k ih => intro s n a s' n' h f st; exact .head .answer (ih (ω n e) h f st)
  | succ fuel ihf =>
    intro α p
    induction p with
    | ret a =>
      intro s n a' s' n' h f st
      simp only [Prog.exec, Option.some.injEq, Prod.mk.injEq] at h
      obtain ⟨rfl, rfl, -⟩ := h
      exact .refl
    | read k ih => intro s n a s' n' h f st; exact .head (.micro .read) (ih s h f st)
    | write s₁ k ih => intro s n a s' n' h f st; exact .head (.micro .write) (ih h f st)
    | call c k ih =>
      intro s n a s' n' h f st
      simp only [Prog.exec] at h
      split at h
      · rename_i b s₁ n₁ hb
        have hbody := ihf (body c) hb Prog.ret ((fun b => (k b).bind f) :: st)
        rw [Prog.bind_ret] at hbody
        refine .head (.micro .call) (hbody.trans ?_)
        exact .head (.micro .ret) (ih b h f st)
      · cases h
    | await e k ih => intro s n a s' n' h f st; exact .head .answer (ih (ω n e) h f st)

theorem solo_turns (l l' : List (Thread σ κ β ε ρ)) {c : σ × Thread σ κ β ε ρ} {s' : σ} {b : β}
    (h : ReflTransGen (Solo body) c (s', Thread.done b)) :
    ∃ s₁ t₁, Turn body c.1 c.2 s₁ t₁ ∧
      ReflTransGen (Resumes body) (s₁, l ++ t₁ :: l') (s', l ++ Thread.done b :: l') := by
  induction h using ReflTransGen.head_induction_on with
  | refl => exact ⟨s', Thread.done b, ⟨.refl, .inr ⟨b, rfl⟩⟩, .refl⟩
  | head hstep _ ih =>
    obtain ⟨s₁, t₁, ht, hr⟩ := ih
    cases hstep with
    | micro hm => exact ⟨s₁, t₁, ⟨.head hm ht.1, ht.2⟩, hr⟩
    | @answer s e k st r =>
      refine ⟨s, ⟨.await e k, st⟩, ⟨.refl, .inl ⟨e, k, rfl⟩⟩, .head ?_ hr⟩
      exact Resumes.mk ht

/-- A thread whose calls are answered can be run to its end. -/
theorem meets_finishes {K : Prog.Contract σ κ β ε ρ} {Q : β → σ → Prop} {ω : ℕ → ε → ρ} {fuel : ℕ} (hω : K.Allows ω)
    (hc : ∀ c s n, K.pre c s → ∃ b s' n', Prog.run body ω fuel c s n = some (b, s', n') ∧ K.post c s b s') :
    ∀ (st : List (β → Prog σ κ β ε ρ β)) (p : Prog σ κ β ε ρ β) (s : σ), (Thread.mk p st).Meets K Q s →
      ∃ b s', ReflTransGen (Solo body) (s, ⟨p, st⟩) (s', Thread.done b) ∧ Q b s' := by
  intro st
  induction st with
  | nil =>
    intro p s h
    obtain ⟨b, s', n', he, hQ⟩ := Prog.exec_total hω hc p s 0 h
    have hrun := exec_solo ω fuel p he Prog.ret []
    rw [Prog.bind_ret] at hrun
    exact ⟨b, s', hrun, hQ⟩
  | cons k st ih =>
    intro p s h
    obtain ⟨b, s₁, n', he, hk⟩ := Prog.exec_total hω hc p s 0 h
    have hrun := exec_solo ω fuel p he Prog.ret (k :: st)
    rw [Prog.bind_ret] at hrun
    obtain ⟨b', s', hrest, hQ⟩ := ih (k b) s₁ hk
    exact ⟨b', s', hrun.trans (.head (.micro .ret) hrest), hQ⟩

/-- Among others that do not move, too. -/
theorem finishes_among {K : Prog.Contract σ κ β ε ρ} {Q : β → σ → Prop} {ω : ℕ → ε → ρ} {fuel : ℕ} (hω : K.Allows ω)
    (hc : ∀ c s n, K.pre c s → ∃ b s' n', Prog.run body ω fuel c s n = some (b, s', n') ∧ K.post c s b s')
    {s : σ} {t : Thread σ κ β ε ρ} (ht : t.Parked) (hm : t.Meets K Q s) (l l' : List (Thread σ κ β ε ρ)) :
    ∃ b s', ReflTransGen (Resumes body) (s, l ++ t :: l') (s', l ++ Thread.done b :: l') ∧ Q b s' := by
  obtain ⟨b, s', hrun, hQ⟩ := meets_finishes hω hc t.stack t.prog s hm
  obtain ⟨s₁, t₁, hturn, hres⟩ := solo_turns l l' hrun
  obtain ⟨rfl, rfl⟩ := (turn_parked ht).mp hturn
  exact ⟨b, s', hres, hQ⟩

/-- What `exec` computes is one of the schedules of a pool. -/
theorem exec_pool {ω : ℕ → ε → ρ} {fuel : ℕ} {p : Prog σ κ β ε ρ β} {s : σ} {n : ℕ} {b : β} {s' : σ} {n' : ℕ}
    (h : Prog.exec (Prog.run body ω fuel) ω p s n = some (b, s', n')) (ts : List (Thread σ κ β ε ρ)) :
    ∃ c, Starts body p (s, ts) c ∧ ReflTransGen (Resumes body) c (s', ts ++ [Thread.done b]) := by
  have hs := exec_solo ω fuel p h Prog.ret []
  rw [Prog.bind_ret] at hs
  obtain ⟨s₁, t₁, ht, hr⟩ := solo_turns ts [] hs
  exact ⟨_, .mk ht, hr⟩

end

end Coop
