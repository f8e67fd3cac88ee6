import CommonCore.SwitchRuns

/-!
# Removal of a switch

`remove_switch` finds the switch by its name or by an alias, and then takes the
dependencies on the name that it was given out of the others. A dependency that
names the switch in another way stays behind.
-/

namespace CommonCore

open Coop Coop.Prog

/-- `switches.erase`; the destructor of the switch clears its status. -/
def Board.eraseSwitch (b : Board) (n : SwitchName) : Board :=
  { b with switches := b.switches.erase n, signalStatus := b.signalStatus.clear n {} }

/-- `remove_dependency`, on one switch after the other. -/
def removeDependencies (name : SwitchName) (propagate : Bool) : List SwitchName → M Unit
  | [] => pure ()
  | n :: candidates => do
    let _ ← removeDependency n name propagate
    removeDependencies name propagate candidates

/-- `Provider::remove_switch`. -/
def removeSwitch (name : SwitchName) (propagate : Bool) : M Bool := do
  let found ← get fun b => b.find name
  match found with
  | none => pure false
  | some n => do
    modify fun b => b.eraseSwitch n
    let candidates ← get fun b => b.switches.toList
    removeDependencies name propagate candidates
    pure true

/-! ## What a reevaluation leaves alone -/

/-- The same switches are registered, with the same specifications. -/
structure Board.Declares (b b' : Board) : Prop where
  spec : b'.spec = b.spec
  switches : b'.switches = b.switches

namespace Board.Declares

variable {b b' b'' : Board} {n : SwitchName}

theorem refl (b : Board) : b.Declares b := ⟨rfl, rfl⟩

theorem trans (h : b.Declares b') (h' : b'.Declares b'') : b.Declares b'' :=
  ⟨h'.spec.trans h.spec, h'.switches.trans h.switches⟩

theorem logDiversion (h : b.Declares b') (error : Option Error) : b.Declares (b'.logDiversion error) :=
  ⟨(Board.logDiversion_spec _ _).trans h.spec, (Board.logDiversion_switches _ _).trans h.switches⟩

theorem touch (b : Board) (n : SwitchName) (args : TargetArgs) : b.Declares (b.touch n args) := by
  unfold Board.touch
  split_ifs <;> exact ⟨rfl, rfl⟩

theorem leave (h : b.Declares b') (n : SwitchName) (invokes triggers : Bool) : b.Declares (b'.leave n invokes triggers) := by
  refine h.trans ?_
  unfold Board.leave
  cases triggers
  · exact ⟨rfl, rfl⟩
  · exact ⟨updateDescendants_spec .., updateDescendants_switches ..⟩

end Board.Declares

/-- Whatever the others do meanwhile, they do not register switches or change
specifications. -/
def declared : Contract Board Call Bool Launch Failures where
  pre _ _ := True
  post _ b _ b' := b.Declares b'
  parked _ := True
  wait b _ _ b' := b.Declares b'

theorem declared_allows (ω : ℕ → Launch → Failures) : declared.Allows ω := fun b _ _ _ => .refl b

section
variable {n : SwitchName} {b b₀ : Board}

/-- However a state change is diverted. -/
theorem diverts_declared {Q : Bool → Board → Prop} (hQ : ∀ d b', b.Declares b' → Q d b') (error : Option Error)
    (eh : ExceptionHandling) : Diverts declared n error b Q eh := by
  cases eh with
  | fail | abort | revert => exact ⟨trivial, fun _ b' h => hQ true b' h⟩
  | ignore | default => exact hQ _ b (.refl b)

theorem keeps_declared (b₀ : Board) (n : SwitchName) (state : State) (onCancel onError : ExceptionHandling) :
    Keeps declared n state onCancel onError b₀.Declares b₀.Declares where
  notify _ h := ⟨h.spec, h.switches⟩
  parked _ _ _ _ := trivial
  wait _ _ _ _ h _ hw := h.trans hw
  cancel _ _ _ _ h _ := diverts_declared (fun d _ h' => by cases d <;> exact h.trans h') _ _
  errors _ _ _ _ h _ hw _ _ :=
    diverts_declared (fun d _ h' => by cases d <;> exact ((h.trans hw).logDiversion _).trans h') _ _

theorem wp_setTarget_declared (n : SwitchName) (args : TargetArgs) (b : Board) :
    wp declared (setTarget n args) b fun _ => b.Declares := by
  have henters : ∀ {target b'}, b.Declares b' → EntersTarget declared n target args (fun _ => b.Declares) b' :=
    fun h => ⟨trivial, fun _ _ h' => h.trans ⟨h'.spec, h'.switches⟩⟩
  rw [wp_setTarget, wp_applyTarget]
  split_ifs
  · exact .touch b n args
  · exact .refl b
  · refine ⟨trivial, fun r b' h => ?_⟩
    cases r
    · exact h
    · exact henters h
  · exact henters (.refl b)

theorem declared_meets : declared.Meets body := by
  intro c b _
  cases c with
  | setTarget n args => exact wp_setTarget_declared n args b
  | setCurrentState n state invokes triggers onCancel onError =>
    refine wp_setCurrentState.mpr ?_
    have henter : b.Declares ((b.enter n state).setPending n true) := ⟨rfl, rfl⟩
    split_ifs
    · refine wp_mono _ (fun r b₁ h₁ => ?_) _ _ ((keeps_declared b n state onCancel onError).invokeInterceptors henter)
      have h : b.Declares b₁ := by cases r <;> exact h₁
      have hcleared : b.Declares (b₁.setPending n false) := ⟨h.spec, h.switches⟩
      exact hcleared.leave n invokes triggers
    · have hentered : b.Declares (b.enter n state) := ⟨rfl, rfl⟩
      exact hentered.leave n invokes triggers

end

/-! ## The dependencies that are left -/

/-- The dependency of `n` on the name `key`. -/
def Board.edge (b : Board) (n key : SwitchName) : Option Dependency := (b.spec n).dependencies.get? key

/-- Of the dependencies, those of `candidates` on `name` are gone. -/
structure Cut (name : SwitchName) (candidates : List SwitchName) (b b' : Board) : Prop where
  switches : b'.switches = b.switches
  edge : ∀ n key, b'.edge n key = if n ∈ candidates ∧ key = name then none else b.edge n key

variable {name : SwitchName} {b b' : Board}

theorem edge_setSpec (b : Board) (n n' : SwitchName) (s : Specification) (key : SwitchName) :
    (b.setSpec n s).edge n' key = if n' = n then s.dependencies.get? key else b.edge n' key := by
  unfold Board.edge
  show ((Function.update b.spec n s) n').dependencies.get? key = _
  split_ifs with hn
  · rw [hn, Function.update_self]
  · rw [Function.update_of_ne hn]

theorem cut_erase (b : Board) (n : SwitchName) :
    Cut name [n] b (b.setSpec n { b.spec n with dependencies := (b.spec n).dependencies.erase name }) := by
  refine ⟨rfl, fun n' key => ?_⟩
  have herase : ((b.spec n).dependencies.erase name).get? key = if key = name then none else b.edge n key := by
    show ((b.spec n).dependencies.map.erase name)[key]? = _
    rw [Std.ExtTreeMap.getElem?_erase]
    by_cases hkey : key = name
    · simp [hkey]
    · have hne : compare name key ≠ .eq := fun h => hkey (Std.LawfulEqCmp.eq_of_compare h).symm
      rw [if_neg hne, if_neg hkey]
      rfl
  rw [edge_setSpec]
  by_cases hn : n' = n
  · rw [if_pos hn, herase, hn]
    simp only [List.mem_singleton, true_and]
  · rw [if_neg hn, if_neg fun h => hn (List.mem_singleton.mp h.1)]

theorem wp_removeDependency (n : SwitchName) (propagate : Bool) (b : Board) :
    wp declared (removeDependency n name propagate) b fun _ => Cut name [n] b := by
  have hcut : Cut name [n] b _ := cut_erase b n
  simp only [removeDependency, wp_then, wp_get, wp_ite, wp_modify, wp_pure, setAuto]
  split_ifs with herased
  · refine wp_mono _ (fun _ b' h => ⟨h.switches.trans hcut.switches, fun n' key => ?_⟩) _ _
      (wp_setTarget_declared n { targetState := .unset } _)
    rw [← hcut.edge, Board.edge, h.spec]
    rfl
  · exact hcut
  · refine ⟨rfl, fun n' key => ?_⟩
    split_ifs with h
    · obtain ⟨rfl, rfl⟩ : n' = n ∧ key = name := by simpa using h
      simpa [Board.edge] using herased
    · rfl

theorem wp_removeDependencies (propagate : Bool) (candidates : List SwitchName) (b : Board) :
    wp declared (removeDependencies name propagate candidates) b fun _ => Cut name candidates b := by
  induction candidates generalizing b with
  | nil => exact ⟨rfl, fun n key => (if_neg fun h => List.not_mem_nil h.1).symm⟩
  | cons n candidates ih =>
    simp only [removeDependencies, wp_then]
    refine wp_mono _ (fun _ b₁ h₁ => ?_) _ _ (wp_removeDependency n propagate b)
    refine wp_mono _ (fun _ b' h => ⟨h.switches.trans h₁.switches, fun n' key => ?_⟩) _ _ (ih b₁)
    rw [h.edge, h₁.edge]
    by_cases hkey : key = name
    · by_cases hn : n' = n
      · simp [hkey, hn]
      · simp [hkey, hn]
    · simp [hkey]

/-- The switch `n` is gone, and so is every dependency on it. -/
structure Removed (b b' : Board) (n : SwitchName) : Prop where
  switches : ∀ q, q ∈ b'.switches ↔ q ∈ b.switches ∧ q ≠ n
  edges : ∀ q ∈ b'.switches, ∀ key, b.find key = some n → b'.edge q key = none

theorem removeSwitch_cut {n : SwitchName} (hfind : b.find name = some n) {propagate : Bool} {ω : ℕ → Launch → Failures}
    {r : Bool} (h : Executes ω (removeSwitch name propagate) b r b') :
    r = true ∧ Cut name (b.eraseSwitch n).switches.toList (b.eraseSwitch n) b' := by
  refine h.sound (Q := fun r b' => r = true ∧ Cut name (b.eraseSwitch n).switches.toList (b.eraseSwitch n) b')
    (declared_allows ω) declared_meets ?_
  simp only [removeSwitch, wp_then, wp_get, hfind, wp_modify, wp_pure]
  exact wp_mono _ (fun _ b' hcut => ⟨trivial, hcut⟩) _ _ (wp_removeDependencies propagate _ _)

theorem mem_eraseSwitch {n q : SwitchName} : q ∈ (b.eraseSwitch n).switches ↔ q ∈ b.switches ∧ q ≠ n := by
  show q ∈ b.switches.erase n ↔ _
  rw [Std.ExtTreeSet.mem_erase, and_comm]
  refine and_congr_right fun _ => not_congr ?_
  rw [Std.LawfulEqCmp.compare_eq_iff_eq, eq_comm]

theorem find_of_removed {propagate : Bool} {ω : ℕ → Launch → Failures}
    (h : Executes ω (removeSwitch name propagate) b true b') : ∃ n, b.find name = some n := by
  cases hfind : b.find name with
  | some n => exact ⟨n, rfl⟩
  | none =>
    have hfalse : wp declared (removeSwitch name propagate) b fun r _ => r = false := by
      simp only [removeSwitch, wp_then, wp_get, hfind, wp_pure]
    cases h.sound (declared_allows ω) declared_meets hfalse

/-- Every dependency on the switch has to be on the very name it is removed by. -/
theorem removed_iff {propagate : Bool} {ω : ℕ → Launch → Failures}
    (h : Executes ω (removeSwitch name propagate) b true b') : ∃ n, b.find name = some n ∧ (Removed b b' n ↔
      ∀ q ∈ b.switches, q ≠ n → ∀ key, b.find key = some n → key ≠ name → b.edge q key = none) := by
  obtain ⟨n, hfind⟩ := find_of_removed h
  have hcut := (removeSwitch_cut hfind h).2
  have hmem : ∀ q, q ∈ b'.switches ↔ q ∈ b.switches ∧ q ≠ n := fun q => by
    rw [hcut.switches, mem_eraseSwitch]
  have hedge : ∀ q ∈ b'.switches, ∀ key, b'.edge q key = if key = name then none else b.edge q key := by
    intro q hq key
    have hcand : q ∈ (b.eraseSwitch n).switches.toList := by
      rwa [Std.ExtTreeSet.mem_toList, ← hcut.switches]
    rw [hcut.edge]
    simp only [hcand, true_and]
    rfl
  refine ⟨n, hfind, fun hr q hq hne key hkey hname => ?_, fun hall => ⟨hmem, fun q hq key hkey => ?_⟩⟩
  · have hin := (hmem q).mpr ⟨hq, hne⟩
    have hgone := hr.edges q hin key hkey
    rwa [hedge q hin, if_neg hname] at hgone
  · rw [hedge q hq]
    split_ifs with hname
    · rfl
    · exact hall q ((hmem q).mp hq).1 ((hmem q).mp hq).2 key hkey hname

/-! ## A gate that is also called the entrance -/

/-- The chime depends on the gate, under the given name. -/
def entrance (key : SwitchName) : Board :=
  Board.new [] ["chime", "gate"] fun n =>
    if n = "gate" then { aliases := Std.ExtTreeSet.ofList ["entrance"] }
    else { dependencies := .ofList [{ predecessorName := key }] }

theorem edge_entrance {key key' n : SwitchName} (hn : n ≠ "gate") :
    (entrance key).edge n key' = if key' = key then some { predecessorName := key } else none := by
  show (if n = "gate" then _ else _ : Specification).dependencies.get? key' = _
  rw [if_neg hn]
  split_ifs with h
  · rw [h]
    exact Keyed.Filed.get?_insertOrAssign_self ({ predecessorName := key } : Dependency)
  · exact Keyed.Filed.get?_insertOrAssign_of_ne (v := ({ predecessorName := key } : Dependency)) fun he => h he.symm

theorem entrance_gate {name : SwitchName} (hfind : (entrance "entrance").find name = some "gate")
    (h : (execute 2 noFailures (removeSwitch name false) (entrance "entrance")).isSome = true) :
    ∃ b', Executes noFailures (removeSwitch name false) (entrance "entrance") true b' := by
  obtain ⟨r, hr⟩ := executes_after 2 noFailures _ _ h
  obtain rfl := (removeSwitch_cut hfind hr).1
  exact ⟨_, hr⟩

/-- The gate is removed by the name that the chime has for it. -/
theorem removed_entrance : ∃ b', Executes noFailures (removeSwitch "entrance" false) (entrance "entrance") true b' ∧
    Removed (entrance "entrance") b' "gate" := by
  have hgate : (entrance "entrance").find "entrance" = some "gate" := by decide
  obtain ⟨b', h⟩ := entrance_gate hgate (by decide)
  obtain ⟨n, hfind, hiff⟩ := removed_iff h
  obtain rfl : "gate" = n := Option.some.inj (hgate.symm.trans hfind)
  exact ⟨b', h, hiff.mpr fun q _ hne key _ hkey => (edge_entrance hne).trans (if_neg hkey)⟩

/-- It is removed by its own name, and the chime still depends on the entrance. -/
theorem not_removed : ¬ ∀ (b b' : Board) (name n : SwitchName) (propagate : Bool) (ω : ℕ → Launch → Failures),
    Executes ω (removeSwitch name propagate) b true b' → b.find name = some n → Removed b b' n := by
  intro hall
  have hgate : (entrance "entrance").find "gate" = some "gate" := by decide
  obtain ⟨b', h⟩ := entrance_gate hgate (by decide)
  have hr := hall _ b' "gate" "gate" false noFailures h hgate
  have hchime : "chime" ∈ b'.switches := (hr.switches "chime").mpr ⟨by decide, by decide⟩
  have hgone := hr.edges "chime" hchime "entrance" (by decide)
  rw [(removeSwitch_cut hgate h).2.edge, if_neg fun h => absurd h.2 (by decide)] at hgone
  have hkept : (entrance "entrance").edge "chime" "entrance" = some { predecessorName := "entrance" } :=
    (edge_entrance (by decide)).trans (if_pos rfl)
  cases hkept.symm.trans hgone

end CommonCore
