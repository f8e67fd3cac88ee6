import CommonCore.Switch

/-!
# The graph of switches

`getPredecessors` resolves the names of dependencies, aliases included, while
`getSuccessors` looks the switch's own name up among the dependencies of the
others. The two agree as long as no dependency goes by an alias.

Where all predecessors are settled, `autoState` is a function of their states.
-/

namespace CommonCore

namespace Board

variable {b : Board} {p q : SwitchName}

/-! ## Successors and predecessors -/

theorem find_of_mem (h : p ∈ b.switches) : b.find p = some p := by
  unfold find
  rw [if_pos h]

theorem mem_getSuccessors :
    q ∈ b.getSuccessors p ↔ q ∈ b.switches ∧ ((b.spec q).dependencies.get? p).isSome = true := by
  simp [getSuccessors, Std.ExtTreeSet.mem_toList]

theorem mem_getPredecessors :
    p ∈ b.getPredecessors q ↔ ∃ d ∈ (b.spec q).dependencies.values, b.predecessor d = some p := by
  simp [getPredecessors]

theorem get?_isSome_iff :
    ((b.spec q).dependencies.get? p).isSome = true ↔
      ∃ d ∈ (b.spec q).dependencies.values, d.predecessorName = p := by
  constructor
  · intro h
    obtain ⟨d, hd⟩ := Option.isSome_iff_exists.mp h
    have hn := Keyed.Filed.name_of_get? hd
    exact ⟨d, Keyed.Filed.mem_values.mpr (hn ▸ hd), hn⟩
  · rintro ⟨d, hd, rfl⟩
    rw [Keyed.Filed.mem_values.mp hd]
    rfl

/-- A dependency of `q` reaches `p` through an alias. -/
def ReachesByAlias (b : Board) (q p : SwitchName) : Prop :=
  ∃ d ∈ (b.spec q).dependencies.values, d.predecessorName ∉ b.switches ∧ b.predecessor d = some p

/-- A dependency that names a switch has that switch as its predecessor. -/
theorem predecessor_of_named {d : Dependency} (h : d.predecessorName ∈ b.switches) :
    b.predecessor d = some d.predecessorName := find_of_mem h

/-- Successors and predecessors agree if and only if a switch that is reached
through an alias is reached under its own name as well. -/
theorem duality_iff (hp : p ∈ b.switches) (hq : q ∈ b.switches) :
    (q ∈ b.getSuccessors p ↔ p ∈ b.getPredecessors q) ↔
      (b.ReachesByAlias q p → ∃ d ∈ (b.spec q).dependencies.values, d.predecessorName = p) := by
  rw [mem_getSuccessors, mem_getPredecessors, get?_isSome_iff]
  constructor
  · rintro h ⟨d, hd, -, hpred⟩
    exact (h.mpr ⟨d, hd, hpred⟩).2
  · intro h
    constructor
    · rintro ⟨-, d, hd, rfl⟩
      exact ⟨d, hd, predecessor_of_named hp⟩
    · rintro ⟨d, hd, hpred⟩
      refine ⟨hq, ?_⟩
      by_cases hn : d.predecessorName ∈ b.switches
      · exact ⟨d, hd, Option.some.inj ((predecessor_of_named hn).symm.trans hpred)⟩
      · exact h ⟨d, hd, hn, hpred⟩

/-- A dependency that goes by the name of its predecessor. -/
theorem duality_of_name :
    let b := Board.new [] ["p", "q"] fun n =>
      if n = "q" then { dependencies := .ofList [{ predecessorName := "p" }] }
      else if n = "p" then { aliases := Std.ExtTreeSet.ofList ["r"] }
      else {}
    "q" ∈ b.getSuccessors "p" ↔ "p" ∈ b.getPredecessors "q" :=
  (duality_iff (by decide) (by decide)).mpr fun _ => ⟨{ predecessorName := "p" }, by decide, rfl⟩

/-- A dependency that goes by an alias of its predecessor. -/
theorem no_duality_of_alias :
    let b := Board.new [] ["p", "q"] fun n =>
      if n = "q" then { dependencies := .ofList [{ predecessorName := "r" }] }
      else if n = "p" then { aliases := Std.ExtTreeSet.ofList ["r"] }
      else {}
    "p" ∈ b.switches ∧ "q" ∈ b.switches ∧ "p" ∈ b.getPredecessors "q" ∧ "q" ∉ b.getSuccessors "p" := by
  decide

/-- `update_descendants` starts a thread for the switches that have a triggered
dependency under the name of this switch. -/
theorem mem_triggered :
    q ∈ b.triggered p ↔
      q ∈ b.switches ∧ ∃ d, (b.spec q).dependencies.get? p = some d ∧
        d.autoTrigger (b.status p).currentState = true := by
  unfold triggered triggers
  rw [List.mem_filter, mem_getSuccessors]
  cases (b.spec q).dependencies.get? p <;> simp

end Board

/-! ## The automatic state -/

/-- Not on the way from one state to another. -/
def State.Resting (s : State) : Prop := s = .unset ∨ s.isSettled = true

theorem State.settled_cases {s : State} (h : s.isSettled = true) : s = .active ∨ s = .inactive ∨ s = .failed := by
  cases s <;> simp [isSettled] at h ⊢

theorem State.isSettled_inverted {s : State} (h : s.isSettled = true) : s.inverted.isSettled = true := by
  rcases settled_cases h with rfl | rfl | rfl <;> rfl

theorem State.Resting.inverted {s : State} (h : s.Resting) : s.inverted.Resting := by
  rcases h with rfl | h
  · exact .inl rfl
  · exact .inr (isSettled_inverted h)

namespace Tally

variable {t : Tally} {s : State} {sufficient : Bool}

/-- No dependency is on its way. -/
def Still (t : Tally) : Prop :=
  t.satisfied.pending = false ∧ t.unsatisfied.pending = false ∧ t.failed.pending = false

/-- Some dependency is settled, and none undetermined. -/
def Voted (t : Tally) : Prop :=
  t.undetermined = {} ∧
    (t.failed.strong = true ∨ t.satisfied.strong = true ∨ t.satisfied.weak = true ∨
      t.unsatisfied.strong = true ∨ t.unsatisfied.weak = true)

theorem still_add (h : t.Still) (hs : s.Resting) : (t.add s sufficient).Still := by
  obtain ⟨h₁, h₂, h₃⟩ := h
  rcases hs with rfl | hs
  · exact ⟨h₁, h₂, h₃⟩
  · rcases State.settled_cases hs with rfl | rfl | rfl <;> cases sufficient <;>
      first | exact ⟨h₁, h₂, h₃⟩ | exact ⟨h₁, h₂, rfl⟩

theorem voted_add (h : t.undetermined = {}) (hs : s.isSettled = true) : (t.add s sufficient).Voted := by
  refine ⟨by rcases State.settled_cases hs with rfl | rfl | rfl <;> exact h, ?_⟩
  rcases State.settled_cases hs with rfl | rfl | rfl
  · cases sufficient
    · exact .inr (.inr (.inl rfl))
    · exact .inr (.inl rfl)
  · cases sufficient
    · exact .inr (.inr (.inr (.inl rfl)))
    · exact .inr (.inr (.inr (.inr rfl)))
  · exact .inl rfl

theorem resting_verdict (h : t.Still) : ∀ st ∈ t.verdict, st.Resting := by
  obtain ⟨h₁, h₂, h₃⟩ := h
  unfold verdict
  rw [if_neg (by simp [h₃] : ¬ t.failed.pending = true), if_neg (by simp [h₁] : ¬ t.satisfied.pending = true),
    if_neg (by simp [h₂] : ¬ t.unsatisfied.pending = true)]
  intro st hst
  split_ifs at hst <;> cases hst <;> first | exact .inr rfl | exact .inl rfl

theorem resting_state (h : t.Still) {st : Status} (hs : st.currentState.Resting) : (t.state st).Resting := by
  unfold state
  cases hv : t.verdict with
  | some s => exact resting_verdict h s hv
  | none =>
    dsimp only
    split_ifs
    · exact hs
    · exact .inl rfl
    · exact .inr rfl
    · exact .inr rfl

theorem verdict_isSome (h : t.Voted) : t.verdict.isSome = true := by
  obtain ⟨-, hv⟩ := h
  simp only [verdict, apply_ite Option.isSome, Option.isSome_some, Option.isSome_none]
  rcases hv with h | h | h | h | h <;> simp [h]

/-- A tally of settled dependencies decides by itself. -/
theorem state_congr (h : t.Voted) (st st' : Status) : t.state st = t.state st' := by
  obtain ⟨s, hs⟩ := Option.isSome_iff_exists.mp (verdict_isSome h)
  unfold state
  rw [hs]

end Tally

namespace Board

variable {b b' : Board} {q : SwitchName}

theorem derivedState_congr {d : Dependency} (hd : d.polarity ≠ .toggle)
    (h : b'.predecessorState d = b.predecessorState d) (active active' : Bool) :
    b'.derivedState d active' = b.derivedState d active := by
  unfold derivedState
  cases hp : d.polarity with
  | toggle => exact absurd hp hd
  | positive => exact h
  | negative => simp only [h]

section
variable (hpol : ∀ d ∈ (b.spec q).dependencies.values, d.polarity ≠ .toggle)
include hpol

theorem resting_autoState (hp : ∀ d ∈ (b.spec q).dependencies.values, (b.predecessorState d).Resting)
    (hq : (b.status q).currentState.Resting) : (b.autoState q).Resting := by
  refine Tally.resting_state ?_ hq
  have key : ∀ (l : List Dependency) (t : Tally), t.Still →
      (∀ d ∈ l, (b.derivedState d (b.status q).active).Resting) →
      (l.foldl (fun t d => t.add (b.derivedState d (b.status q).active) d.sufficient) t).Still := by
    intro l
    induction l with
    | nil => intro t ht _; exact ht
    | cons d l ih =>
      intro t ht hl
      exact ih _ (Tally.still_add ht (hl d (List.mem_cons_self ..)))
        fun d' hd' => hl d' (List.mem_cons_of_mem _ hd')
  refine key _ _ ⟨rfl, rfl, rfl⟩ fun d hd => ?_
  unfold derivedState
  cases hpd : d.polarity with
  | toggle => exact absurd hpd (hpol d hd)
  | positive => exact hp d hd
  | negative => exact (hp d hd).inverted

theorem voted_tally (hp : ∀ d ∈ (b.spec q).dependencies.values, (b.predecessorState d).isSettled = true)
    (hne : (b.spec q).dependencies.values ≠ []) : (b.tally q).Voted := by
  have key : ∀ (l : List Dependency) (t : Tally), t.Voted ∨ t.undetermined = {} ∧ l ≠ [] →
      (∀ d ∈ l, (b.derivedState d (b.status q).active).isSettled = true) →
      (l.foldl (fun t d => t.add (b.derivedState d (b.status q).active) d.sufficient) t).Voted := by
    intro l
    induction l with
    | nil =>
      rintro t (ht | ht) _
      · exact ht
      · exact absurd rfl ht.2
    | cons d l ih =>
      intro t ht hl
      have hu : t.undetermined = {} := ht.elim (fun h => h.1) fun h => h.1
      exact ih _ (.inl (Tally.voted_add hu (hl d (List.mem_cons_self ..))))
        fun d' hd' => hl d' (List.mem_cons_of_mem _ hd')
  refine key _ _ (.inr ⟨rfl, hne⟩) fun d hd => ?_
  unfold derivedState
  cases hpd : d.polarity with
  | toggle => exact absurd hpd (hpol d hd)
  | positive => exact hp d hd
  | negative => exact State.isSettled_inverted (hp d hd)

/-- With settled predecessors, the automatic state is theirs to decide. -/
theorem autoState_congr (hspec : b'.spec q = b.spec q)
    (hstate : ∀ d ∈ (b.spec q).dependencies.values, b'.predecessorState d = b.predecessorState d)
    (hp : ∀ d ∈ (b.spec q).dependencies.values, (b.predecessorState d).isSettled = true)
    (hne : (b.spec q).dependencies.values ≠ []) : b'.autoState q = b.autoState q := by
  have ht : b'.tally q = b.tally q := by
    unfold tally
    rw [hspec]
    refine List.foldl_ext _ _ _ fun t d hd => ?_
    rw [derivedState_congr (hpol d hd) (hstate d hd) (b.status q).active]
  unfold autoState
  rw [ht]
  exact Tally.state_congr (voted_tally hpol hp hne) _ _

end

end Board

end CommonCore
