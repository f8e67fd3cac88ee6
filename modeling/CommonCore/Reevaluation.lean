import CommonCore.Propagation

/-!
# Reevaluation after changes of dependencies

`add_dependency`, `remove_dependency` and `update_spec` can be asked to evaluate
`auto_state()` once the dependencies have changed. A dependency that replaces
another one has that request ignored.
-/

namespace CommonCore

open Coop Coop.Prog

/-- Operations on `n` that are asked to reevaluate, with the board as it is when
they have changed the specification. -/
inductive Asks : Op → Board → SwitchName → Board → Prop
  | addDependency {n dep b} :
      Asks (.addDependency n dep true true) b n
        (b.setSpec n { b.spec n with dependencies := (b.spec n).dependencies.insertOrAssign dep })
  | removeDependency {n p b} : ((b.spec n).dependencies.get? p).isSome = true →
      Asks (.removeDependency n p true) b n
        (b.setSpec n { b.spec n with dependencies := (b.spec n).dependencies.erase p })
  | updateSpec {n u b} : u.updateState = true → Asks (.updateSpec n u) b n (b.setSpec n (u.apply (b.spec n)))

/-- The operation replaces a dependency. -/
def Op.Replaces : Op → Board → Prop
  | addDependency n dep _ _, b => ((b.spec n).dependencies.get? dep.predecessorName).isSome = true
  | _, _ => False

/-- The switch is in the automatic state: in the one it had when the specification
had changed, and in the one it has now unless it depends on itself. -/
structure Reevaluated (b₁ b' : Board) (n : SwitchName) : Prop where
  arrived : (b'.status n).currentState = b₁.autoState n
  stays : n ∉ b₁.getPredecessors n → (b'.status n).currentState = b'.autoState n

section
variable {ω : ℕ → Launch → Failures} {op : Op} {b b₁ b' : Board} {n : SwitchName} {r : Bool}

theorem Asks.status (h : Asks op b n b₁) : b₁.status = b.status := by
  cases h <;> rfl

/-- The operation only changes the specification, or sets the automatic target after that. -/
theorem wp_asks {K : Contract Board Call Bool Launch Failures} (h : Asks op b n b₁) {Q : Board → Prop}
    (hreplace : op.Replaces b → Q b₁)
    (hauto : ¬ op.Replaces b → wp K (setTarget n { targetState := .unset }) b₁ fun _ => Q) :
    wp K op.prog b fun _ => Q := by
  cases h with
  | addDependency =>
    simp only [Op.prog, addDependency, wp_then, wp_get, wp_ite, wp_pure, wp_modify, Bool.true_or, if_true, Bool.and_true]
    split_ifs with hpresent
    · exact hauto fun hr => by
        rw [show Option.isSome _ = true from hr] at hpresent
        cases hpresent
    · exact hreplace (Option.isSome_iff_ne_none.mpr (by simpa using hpresent))
  | removeDependency he =>
    simp only [Op.prog, removeDependency, wp_then, wp_get, wp_ite, wp_pure, wp_modify, he, if_true]
    exact hauto id
  | updateSpec hu =>
    simp only [Op.prog, updateSpec, wp_then, wp_modify, hu, if_true]
    exact hauto id

/-- What the operation comes to on a switch without interceptors. -/
theorem Asks.performs (h : Asks op b n b₁) (hi : b₁.interceptors n = []) (ω : ℕ → Launch → Failures) :
    (∃ r b', Performs ω op b r b') ∧ ∀ r b', Performs ω op b r b' →
      (op.Replaces b → b' = b₁) ∧
        (¬ op.Replaces b → ∃ r, Applied b₁ n (b₁.autoState n) { targetState := .unset } r b') := by
  have hw : wp (alone ω) op.prog b fun _ b' => (op.Replaces b → b' = b₁) ∧
      (¬ op.Replaces b → ∃ r, Applied b₁ n (b₁.autoState n) { targetState := .unset } r b') := by
    refine wp_asks h (fun hr => ⟨fun _ => rfl, fun hn => absurd hr hn⟩) fun hn => wp_setTarget.mpr ?_
    exact wp_mono _ (fun r b' happ => ⟨fun hr => absurd hr hn, fun _ => ⟨r, happ.1⟩⟩) _ _
      (wp_applyTarget_alone fun _ => b₁.passes_of_nil hi ω _ _)
  refine ⟨?_, fun r b' hp => hp.sound (alone_allows ω) (alone_meets ω) hw⟩
  obtain ⟨r, b', k', he, -⟩ := exec_total (alone_allows ω) (run_alone ω 0) _ b 0 hw
  exact ⟨r, b', 1, 0, k', he⟩

/-- The automatic state is the same again once it has been entered. -/
theorem Tally.state_idem {t : Tally} {s s' : Status} (h : s'.currentState = t.state s) :
    t.state s' = t.state s := by
  unfold Tally.state at h ⊢
  cases hv : t.verdict with
  | some state => rfl
  | none =>
    rw [hv] at h
    dsimp only at h ⊢
    by_cases hsettled : s.currentState.isSettled = true
    · rw [if_pos hsettled] at h ⊢
      rw [h, if_pos hsettled]
    · rw [if_neg hsettled] at h ⊢
      by_cases hweak : t.undetermined.weak = true
      · rw [if_pos hweak] at h ⊢
        rw [h, if_neg (by decide), if_pos hweak]
      · rw [if_neg hweak] at h ⊢
        have hsettled' : s'.currentState.isSettled = true := by
          rw [h]
          cases s.active <;> rfl
        rw [if_pos hsettled', h, if_neg hweak]

theorem Moves.predecessorState (hm : Moves b₁ n (b₁.autoState n) b') {d : Dependency}
    (h : b₁.predecessor d ≠ some n) : b'.predecessorState d = b₁.predecessorState d := by
  have hpred : b'.predecessor d = b₁.predecessor d := by
    unfold Board.predecessor Board.find
    rw [hm.spec, hm.switches]
  unfold Board.predecessorState
  rw [hpred]
  cases hp : b₁.predecessor d with
  | none => rfl
  | some p => exact hm.others p fun hn => h (hn ▸ hp)

/-- The automatic state has not changed by moving there. -/
theorem Moves.autoState (hm : Moves b₁ n (b₁.autoState n) b')
    (hpol : ∀ d ∈ (b₁.spec n).dependencies.values, d.polarity ≠ .toggle) (hself : n ∉ b₁.getPredecessors n) :
    b'.autoState n = b₁.autoState n := by
  have htally : b'.tally n = b₁.tally n := by
    unfold Board.tally
    rw [hm.spec]
    refine List.foldl_ext _ _ _ fun t d hd => ?_
    rw [Board.derivedState_congr (hpol d hd) (hm.predecessorState fun hp => hself (Board.mem_getPredecessors.mpr ⟨d, hd, hp⟩))]
  have harrives := hm.arrives
  unfold Board.autoState at harrives ⊢
  rw [htally]
  exact Tally.state_idem harrives

/-- The state follows, unless a dependency is replaced and the state would have to change. -/
theorem reevaluated_iff (h : Asks op b n b₁) (hi : b₁.interceptors n = [])
    (hpol : ∀ d ∈ (b₁.spec n).dependencies.values, d.polarity ≠ .toggle)
    (hs : (b.status n).currentState.Resting) (ω : ℕ → Launch → Failures) :
    (∃ r b', Performs ω op b r b') ∧ ∀ r b', Performs ω op b r b' →
      (Reevaluated b₁ b' n ↔ (op.Replaces b → (b.status n).currentState = b₁.autoState n)) := by
  obtain ⟨hex, hall⟩ := h.performs hi ω
  refine ⟨hex, fun r b' hperf => ?_⟩
  obtain ⟨hreplace, hauto⟩ := hall r b' hperf
  rw [← h.status] at hs ⊢
  by_cases hr : op.Replaces b
  · obtain rfl := hreplace hr
    exact ⟨fun he _ => he.arrived, fun he => ⟨he hr, fun _ => he hr⟩⟩
  · obtain ⟨r', happ⟩ := hauto hr
    have hm := moves_of_applied hi hs rfl happ
    refine ⟨fun _ hr' => absurd hr' hr, fun _ => ⟨hm.arrives, fun hself => ?_⟩⟩
    rw [hm.arrives, hm.autoState hpol hself]

end

/-- A door that is open, and its bell. -/
def bell (dependencies : DependencyMap) (state : State) : Board :=
  let b := Board.new [] ["bell", "door"] fun n => if n = "bell" then { dependencies } else {}
  { b with status := fun n => { currentState := if n = "door" then .active else state } }

/-- The bell rings once it depends on the door. -/
theorem reevaluated_bell : ∃ r b',
    Performs noFailures (.addDependency "bell" { predecessorName := "door" } true true) (bell .empty .unset) r b' ∧
      (b'.status "bell").currentState = .active := by
  have hasks : Asks (.addDependency "bell" { predecessorName := "door" } true true) (bell .empty .unset) "bell" _ :=
    .addDependency
  obtain ⟨⟨r, b', hp⟩, hall⟩ := reevaluated_iff hasks rfl (by decide) (.inl rfl) noFailures
  have hnew : ¬ (Op.addDependency "bell" { predecessorName := "door" } true true).Replaces (bell .empty .unset) :=
    fun hr => Bool.false_ne_true hr
  have harrived := ((hall r b' hp).mpr fun hr => absurd hr hnew).arrived
  exact ⟨r, b', hp, harrived.trans (by decide)⟩

/-- It keeps ringing when it is to do the opposite of the door. -/
theorem not_reevaluated : ¬ ∀ (op : Op) (b b₁ b' : Board) (n : SwitchName) (ω : ℕ → Launch → Failures) (r : Bool),
    Asks op b n b₁ → b₁.interceptors n = [] → (∀ d ∈ (b₁.spec n).dependencies.values, d.polarity ≠ .toggle) →
      (b.status n).currentState.Resting → (∀ p ∈ b₁.getPredecessors n, (b.status p).currentState.isSettled = true) →
        Performs ω op b r b' → Reevaluated b₁ b' n := by
  intro h
  let b := bell (.ofList [{ predecessorName := "door" }]) .active
  let dep : Dependency := { predecessorName := "door", polarity := .negative }
  obtain ⟨r, hp⟩ := executes_after 2 noFailures (Op.addDependency "bell" dep true true).prog b (by decide)
  have harrived := (h _ b _ _ "bell" noFailures r .addDependency rfl (by decide) (.inr rfl) (by decide) hp).arrived
  revert harrived
  decide

end CommonCore
