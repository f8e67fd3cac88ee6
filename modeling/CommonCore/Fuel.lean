import Mathlib.Logic.Relation
import Mathlib.Order.Filter.AtTopBot.Basic
import Mathlib.Order.Filter.Finite
import Mathlib.Tactic.Common

/-!
# Recursion with fuel

What a function returns that calls itself without a bound is given for an amount
of fuel. A run that is out of fuel is still going; others end, with a result or
with an error.
-/

namespace Fuel

variable {ε α β : Type}

abbrev Run (ε α : Type) := ExceptT ε Option α

namespace Run

def going : Run ε α := ExceptT.mk none

def ofExcept (x : Except ε α) : Run ε α := ExceptT.mk (some x)

def Ends (x : Run ε α) : Prop := ∃ r, x = ofExcept r

/-- No error has ended the run. -/
def Quiet (x : Run ε α) : Prop := ∀ e, x ≠ ofExcept (.error e)

/-! ## Sequences of runs -/

@[simp]
theorem ofExcept_ok (a : α) : (ofExcept (.ok a) : Run ε α) = pure a := rfl

@[simp]
theorem going_bind (f : α → Run ε β) : (going : Run ε α) >>= f = going := rfl

@[simp]
theorem error_bind (e : ε) (f : α → Run ε β) : ofExcept (.error e) >>= f = ofExcept (.error e) := rfl

theorem cases (x : Run ε α) : x = going ∨ (∃ e, x = ofExcept (.error e)) ∨ ∃ a, x = pure a := by
  rcases x with _ | e | a
  · exact .inl rfl
  · exact .inr (.inl ⟨e, rfl⟩)
  · exact .inr (.inr ⟨a, rfl⟩)

theorem ends_pure (a : α) : Ends (pure a : Run ε α) := ⟨.ok a, rfl⟩

theorem ends_ofExcept (r : Except ε α) : Ends (ofExcept r) := ⟨r, rfl⟩

theorem not_ends_going : ¬ Ends (going : Run ε α) := by
  rintro ⟨r, hr⟩
  cases hr

theorem pure_inj {a b : α} : (pure a : Run ε α) = pure b ↔ a = b := by
  refine ⟨fun h => ?_, congrArg _⟩
  cases h
  rfl

theorem quiet_pure (a : α) : Quiet (pure a : Run ε α) := by
  intro e he
  cases he

theorem quiet_going : Quiet (going : Run ε α) := by
  intro e he
  cases he

theorem Ends.returns {x : Run ε α} (h : Ends x) (hquiet : Quiet x) : ∃ a, x = pure a := by
  rcases h with ⟨e | a, rfl⟩
  · exact absurd rfl (hquiet e)
  · exact ⟨a, rfl⟩

theorem Ends.bind {x : Run ε α} {f : α → Run ε β} (h : Ends x) (hf : ∀ a, x = pure a → Ends (f a)) : Ends (x >>= f) := by
  rcases h with ⟨e | a, rfl⟩
  · exact ends_ofExcept (.error e)
  · rw [ofExcept_ok, pure_bind]
    exact hf a rfl

theorem Ends.of_bind {x : Run ε α} {f : α → Run ε β} (h : Ends (x >>= f)) : Ends x := by
  rcases x.cases with rfl | ⟨e, rfl⟩ | ⟨a, rfl⟩
  · exact absurd h not_ends_going
  · exact ends_ofExcept _
  · exact ends_pure a

theorem Quiet.bind {x : Run ε α} {f : α → Run ε β} (h : Quiet x) (hf : ∀ a, Quiet (f a)) : Quiet (x >>= f) := by
  rcases x.cases with rfl | ⟨e, rfl⟩ | ⟨a, rfl⟩
  · exact quiet_going
  · exact absurd rfl (h e)
  · rw [pure_bind]
    exact hf a

theorem Ends.map {x : Run ε α} {f : α → β} (h : Ends x) : Ends (f <$> x) := by
  rw [map_eq_pure_bind]
  exact h.bind fun a _ => ends_pure (f a)

theorem Ends.of_map {x : Run ε α} {f : α → β} (h : Ends (f <$> x)) : Ends x := by
  rw [map_eq_pure_bind] at h
  exact h.of_bind

theorem map_eq_pure {x : Run ε α} {f : α → β} {b : β} : f <$> x = pure b ↔ ∃ a, x = pure a ∧ f a = b := by
  constructor
  · intro h
    obtain ⟨a, rfl⟩ := (Ends.of_map (h ▸ ends_pure b)).returns fun e he => by
      rw [he] at h
      cases h
    rw [map_pure, pure_inj] at h
    exact ⟨a, rfl, h⟩
  · rintro ⟨a, rfl, rfl⟩
    rw [map_pure]

theorem Quiet.of_map {x : Run ε α} {f : α → β} (h : Quiet (f <$> x)) : Quiet x := by
  rintro e rfl
  exact h e rfl

theorem Quiet.map {x : Run ε α} {f : α → β} (h : Quiet x) : Quiet (f <$> x) := by
  rw [map_eq_pure_bind]
  exact h.bind fun a => quiet_pure (f a)

/-! ## One run for each member of a list -/

section
variable {f : α → Run ε β} {l : List α}

theorem Ends.mapM (h : ∀ a ∈ l, Ends (f a)) : Ends (l.mapM f) := by
  induction l with
  | nil => exact ends_pure []
  | cons a l ih =>
    have hrest := ih fun b hb => h b (List.mem_cons_of_mem a hb)
    rw [List.mapM_cons]
    exact (h a List.mem_cons_self).bind fun b _ => hrest.bind fun _ _ => ends_pure _

theorem Quiet.mapM (h : ∀ a ∈ l, Quiet (f a)) : Quiet (l.mapM f) := by
  induction l with
  | nil => exact quiet_pure []
  | cons a l ih =>
    have hrest := ih fun b hb => h b (List.mem_cons_of_mem a hb)
    rw [List.mapM_cons]
    exact (h a List.mem_cons_self).bind fun b => hrest.bind fun _ => quiet_pure _

/-- Unless an error has ended the run before, it has got to each member. -/
theorem Ends.of_mapM (h : Ends (l.mapM f)) (hquiet : ∀ a ∈ l, Quiet (f a)) : ∀ a ∈ l, Ends (f a) := by
  induction l with
  | nil => simp
  | cons a l ih =>
    rw [List.mapM_cons] at h
    obtain ⟨b, hb⟩ := h.of_bind.returns (hquiet a List.mem_cons_self)
    rw [hb, pure_bind] at h
    have hrest := ih h.of_bind fun c hc => hquiet c (List.mem_cons_of_mem a hc)
    intro c hc
    rcases List.mem_cons.1 hc with rfl | hc
    · exact hb ▸ ends_pure b
    · exact hrest c hc

theorem mapM_eq_pure {bs : List β} : l.mapM f = pure bs ↔ List.Forall₂ (fun a b => f a = pure b) l bs := by
  induction l generalizing bs with
  | nil =>
    rw [List.mapM_nil, pure_inj, List.forall₂_nil_left_iff]
    exact eq_comm
  | cons a l ih =>
    rw [List.mapM_cons]
    refine ⟨fun h => ?_, fun h => ?_⟩
    · rcases (f a).cases with ha | ⟨e, ha⟩ | ⟨b, ha⟩
      · rw [ha, going_bind] at h
        cases h
      · rw [ha, error_bind] at h
        cases h
      · rw [ha, pure_bind] at h
        rcases (l.mapM f).cases with hl | ⟨e, hl⟩ | ⟨bs', hl⟩
        · rw [hl, going_bind] at h
          cases h
        · rw [hl, error_bind] at h
          cases h
        · rw [hl, pure_bind, pure_inj] at h
          exact h ▸ .cons ha (ih.1 hl)
    · cases h with
      | cons ha hl => rw [ha, pure_bind, ih.2 hl, pure_bind]

end

end Run

/-! ## Enough fuel -/

section
open Filter

/-- With enough fuel, the function returns this. -/
def Returns (f : ℕ → Run ε α) (a : α) : Prop := ∀ᶠ n in atTop, f n = pure a

theorem Returns.unique {f : ℕ → Run ε α} {a b : α} (ha : Returns f a) (hb : Returns f b) : a = b := by
  obtain ⟨n, hna, hnb⟩ := (Eventually.and ha hb).exists
  exact Run.pure_inj.1 (hna.symm.trans hnb)

variable {P : ℕ → Prop} {Q : α → ℕ → Prop} {l : List α}

theorem eventually_forall_mem (h : ∀ a ∈ l, ∀ᶠ n in atTop, Q a n) : ∀ᶠ n in atTop, ∀ a ∈ l, Q a n :=
  (eventually_all_finite l.finite_toSet).2 h

theorem eventually_forall₂ {R : α → β → ℕ → Prop} {bs : List β} (h : List.Forall₂ (fun a b => ∀ᶠ n in atTop, R a b n) l bs) :
    ∀ᶠ n in atTop, List.Forall₂ (R · · n) l bs := by
  induction h with
  | nil => exact Eventually.of_forall fun n => .nil
  | cons ha _ ih =>
    filter_upwards [ha, ih] with n hn hrest
    exact .cons hn hrest

/-- What holds for enough fuel takes one more where a call is made. -/
theorem eventually_of_succ (h : ∀ᶠ n in atTop, P (n + 1)) : ∀ᶠ n in atTop, P n := by
  obtain ⟨n, hn⟩ := eventually_atTop.1 h
  refine eventually_atTop.2 ⟨n + 1, fun k hk => ?_⟩
  obtain ⟨k, rfl⟩ := Nat.exists_eq_add_of_lt hk
  exact hn (n + k) (Nat.le_add_right n k)

end

/-! ## Descending into parts -/

section
open Filter

variable {μ ρ : Type} (parts : μ → List μ) (P : μ → Prop)

/-- What holds of a thing, of its parts and of theirs. -/
def Throughout (m : μ) : Prop := ∀ m', Relation.ReflTransGen (fun a b => b ∈ parts a) m m' → P m'

variable {parts P} {m : μ}

theorem Throughout.self (h : Throughout parts P m) : P m := h m .refl

theorem Throughout.part (h : Throughout parts P m) {m' : μ} (hm : m' ∈ parts m) : Throughout parts P m' :=
  fun _ hm' => h _ (.head hm hm')

theorem throughout_iff : Throughout parts P m ↔ P m ∧ ∀ m' ∈ parts m, Throughout parts P m' := by
  refine ⟨fun h => ⟨h.self, fun m' hm => h.part hm⟩, fun h m' hm => ?_⟩
  rcases hm.cases_head with rfl | ⟨c, hc, hm⟩
  · exact h.1
  · exact h.2 c hc m' hm

variable {run : ℕ → μ → Run ε ρ}

/-- A run ends that is at the parts of whole things only. -/
theorem eventually_ends (hfinite : WellFounded fun a b => a ∈ parts b)
    (hrun : ∀ n m, P m → (∀ m' ∈ parts m, (run n m').Ends) → (run (n + 1) m).Ends) (h : Throughout parts P m) :
    ∀ᶠ n in atTop, (run n m).Ends := by
  induction m using hfinite.induction with
  | _ m ih =>
    apply eventually_of_succ
    filter_upwards [eventually_forall_mem fun m' hm => ih m' hm (h.part hm)] with n hn
    exact hrun n m h.self hn

/-- A run that gets to all parts, where the things are whole if it ends. -/
theorem throughout_of_ends {fine : μ → Prop} (hzero : ∀ m, (run 0 m).Ends → P m ∧ parts m = [])
    (hquietzero : ∀ m, fine m → (run 0 m).Quiet)
    (hquiet : ∀ n m, fine m → (∀ m' ∈ parts m, (run n m').Quiet) → (run (n + 1) m).Quiet)
    (hends : ∀ n m, fine m → (∀ m' ∈ parts m, (run n m').Quiet) → (run (n + 1) m).Ends →
      P m ∧ ∀ m' ∈ parts m, (run n m').Ends)
    {n : ℕ} (hfine : Throughout parts fine m) (h : (run n m).Ends) : Throughout parts P m := by
  have hallquiet : ∀ n m, Throughout parts fine m → (run n m).Quiet := by
    intro n
    induction n with
    | zero => exact fun m hm => hquietzero m hm.self
    | succ n ih => exact fun m hm => hquiet n m hm.self fun m' hm' => ih m' (hm.part hm')
  induction n generalizing m with
  | zero =>
    obtain ⟨hP, hparts⟩ := hzero m h
    exact throughout_iff.2 ⟨hP, by simp [hparts]⟩
  | succ n ih =>
    obtain ⟨hP, hparts⟩ := hends n m hfine.self (fun m' hm => hallquiet n m' (hfine.part hm)) h
    exact throughout_iff.2 ⟨hP, fun m' hm => ih (hfine.part hm) (hparts m' hm)⟩

end

end Fuel
