import CommonCore.Gathering
import CommonCore.Graph

/-!
# Ancestors, errors and culprits

What a switch gathers from its predecessors, or from its successors, by calling
the same method of theirs. Nothing keeps dependencies from being circular, and
the recursions have fuel: without a result the stack has overflowed.

They return for all switches exactly where dependencies are not circular. The
culprits are then the switches at the ends of the paths along which every switch
is in the wrong position.
-/

namespace CommonCore

open Gathering Relation

/-- The order in which a `SwitchSet` is visited, which is by address. -/
structure Addresses where
  visit : List SwitchName → List SwitchName
  mem_visit : ∀ l p, p ∈ visit l ↔ p ∈ l

abbrev ErrorMap := Std.ExtTreeMap SwitchName Error compare

abbrev CulpritsMap := Std.ExtTreeMap SwitchName State compare

/-- `Dependency::expected_predecessor_value`. -/
def Dependency.expectedPredecessorValue (d : Dependency) (expected : Bool) : Option Bool :=
  match d.polarity with
  | .positive => some expected
  | .negative => some !expected
  | .toggle => none

namespace Board

variable (b : Board) (A : Addresses)

def getAncestors : ℕ → SwitchName → Option (Finset SwitchName) := gather fun n => A.visit (b.getPredecessors n)

def getDescendants : ℕ → SwitchName → Option (Finset SwitchName) := gather fun n => A.visit (b.getSuccessors n)

/-- `merge`, which keeps what is there. -/
def mergeErrors (map others : ErrorMap) : ErrorMap := others ∪ map

def errors : ℕ → SwitchName → Option ErrorMap
  | 0, _ => none
  | fuel + 1, n =>
    if (b.status n).settledState = .failed then
      let own : ErrorMap :=
        match (b.status n).error with
        | some error => (∅ : ErrorMap).insert n error
        | none => ∅
      (A.visit (b.getPredecessors n)).foldlM (fun map p => (errors fuel p).map (mergeErrors map)) own
    else some ∅

/-- `Dependency::expected_state`. -/
def expectedState (d : Dependency) : Option State :=
  match d.polarity with
  | .positive => some (b.predecessorState d)
  | .negative => some (b.predecessorState d).inverted
  | .toggle => none

/-- The loop of `culprits` over the dependencies. -/
def blame (culprits : SwitchName → Bool → Option CulpritsMap) (expected : Bool) : List Dependency → CulpritsMap → Option CulpritsMap
  | [], map => some map
  | d :: ds, map =>
    match b.expectedState d with
    | some predExpectedState =>
      if predExpectedState ≠ .ofActive expected then
        match d.expectedPredecessorValue expected, b.predecessor d with
        | some value, some pred => (culprits pred value).bind fun others => blame culprits expected ds (others ∪ map)
        | _, _ => blame culprits expected ds map
      else blame culprits expected ds map
    | none => if d.sufficient then some ∅ else blame culprits expected ds map

def culprits : ℕ → SwitchName → Bool → Option CulpritsMap
  | 0, _, _ => none
  | fuel + 1, n, expected =>
    let current := (b.status n).currentState
    if current ≠ .ofActive expected then
      (if (b.spec n).primary then some ∅ else b.blame (culprits fuel) expected (b.spec n).dependencies.values ∅).map
        fun map => if map.isEmpty then map.insert n current else map
    else some ∅

end Board

/-! ## Circular dependencies -/

namespace Board

variable {b : Board} {A : Addresses} {n p : SwitchName}

def Precedes (b : Board) : SwitchName → SwitchName → Prop := Edge b.getPredecessors

def Succeeds (b : Board) : SwitchName → SwitchName → Prop := Edge b.getSuccessors

/-- A switch depends on itself, directly or through others. -/
def Circular (b : Board) : Prop := ∃ n, TransGen b.Precedes n n

theorem find_mem {name : SwitchName} (h : b.find name = some n) : n ∈ b.switches := by
  unfold find at h
  split_ifs at h with hn
  · exact Option.some.inj h ▸ hn
  · exact Std.ExtTreeSet.mem_toList.mp (List.mem_of_find?_eq_some h)

theorem Precedes.mem (h : b.Precedes n p) : p ∈ b.switches := by
  obtain ⟨d, -, hd⟩ := mem_getPredecessors.mp h
  exact find_mem hd

theorem Succeeds.mem (h : b.Succeeds n p) : p ∈ b.switches := (mem_getSuccessors.mp h).1

theorem Succeeds.precedes (hn : n ∈ b.switches) (h : b.Succeeds n p) : b.Precedes p n := by
  obtain ⟨d, hd, rfl⟩ := get?_isSome_iff.mp (mem_getSuccessors.mp h).2
  exact mem_getPredecessors.mpr ⟨d, hd, predecessor_of_named hn⟩

theorem edge_visit {next : SwitchName → List SwitchName} : Edge (fun n => A.visit (next n)) = Edge next := by
  funext n p
  exact propext (A.mem_visit (next n) p)

theorem transGen_succeeds (h : TransGen b.Succeeds n p) (hn : n ∈ b.switches) : TransGen b.Precedes p n ∧ p ∈ b.switches := by
  induction h with
  | single h => exact ⟨.single (h.precedes hn), h.mem⟩
  | tail _ h ih => exact ⟨.head (h.precedes ih.2) ih.1, h.mem⟩

theorem grounded_precedes (h : ¬ b.Circular) (n : SwitchName) : Grounded b.getPredecessors n := by
  refine grounded_of_acyclic b.switches.toList.toFinset ?_ (fun n hn => h ⟨n, hn⟩) n
  intro n p hp
  rw [List.mem_toFinset, Std.ExtTreeSet.mem_toList]
  exact Precedes.mem hp

/-- Successors lead through switches, and back along their dependencies. -/
theorem grounded_succeeds (h : ¬ b.Circular) (n : SwitchName) : Grounded b.getSuccessors n := by
  refine grounded_of_acyclic b.switches.toList.toFinset ?_ ?_ n
  · intro n p hp
    rw [List.mem_toFinset, Std.ExtTreeSet.mem_toList]
    exact Succeeds.mem hp
  · intro n hn
    have hmem : n ∈ b.switches := by
      obtain ⟨q, -, hq⟩ := TransGen.tail'_iff.mp hn
      exact Succeeds.mem hq
    exact h ⟨n, (transGen_succeeds hn hmem).1⟩

theorem exists_errors (h : ¬ b.Circular) (n : SwitchName) : ∃ least, ∀ fuel ≥ least, (b.errors A fuel n).isSome = true := by
  refine exists_fuel (grounded_precedes h n) fun fuel n hp => ?_
  have hfold : ∀ (l : List SwitchName) (map : ErrorMap), (∀ p ∈ l, (b.errors A fuel p).isSome = true) →
      (l.foldlM (fun map p => (b.errors A fuel p).map (mergeErrors map)) map).isSome = true := by
    intro l
    induction l with
    | nil => exact fun _ _ => rfl
    | cons p l ih =>
      intro map hl
      obtain ⟨m, hm⟩ := Option.isSome_iff_exists.mp (hl p (List.mem_cons_self ..))
      rw [List.foldlM_cons, hm]
      exact ih _ fun q hq => hl q (List.mem_cons_of_mem _ hq)
  unfold errors
  split_ifs
  · exact hfold _ _ fun p hmem => hp p ((A.mem_visit _ p).mp hmem)
  · rfl

theorem isSome_blame {f : SwitchName → Bool → Option CulpritsMap} {expected : Bool} {ds : List Dependency}
    (hds : ∀ d ∈ ds, ∀ p, b.predecessor d = some p → ∀ value, (f p value).isSome = true) (map : CulpritsMap) :
    (b.blame f expected ds map).isSome = true := by
  induction ds generalizing map with
  | nil => rfl
  | cons d ds ih =>
    have hrest := fun map => ih (fun d' hd' => hds d' (List.mem_cons_of_mem _ hd')) map
    unfold blame
    split
    · split_ifs
      · split
        · rename_i value p _ hp
          obtain ⟨m, hm⟩ := Option.isSome_iff_exists.mp (hds d (List.mem_cons_self ..) p hp value)
          rw [hm]
          exact hrest _
        · exact hrest _
      · exact hrest _
    · split_ifs
      · rfl
      · exact hrest _

theorem exists_culprits (h : ¬ b.Circular) (n : SwitchName) :
    ∃ least, ∀ fuel ≥ least, ∀ expected, (b.culprits fuel n expected).isSome = true := by
  -- both positions at once, so that the recursion is over switches
  let both (fuel : ℕ) (n : SwitchName) : Option Unit :=
    (b.culprits fuel n true).bind fun _ => (b.culprits fuel n false).map fun _ => ()
  have hboth : ∀ fuel n, (both fuel n).isSome = true ↔ ∀ expected, (b.culprits fuel n expected).isSome = true := by
    intro fuel n
    simp only [both, Bool.forall_bool, Option.isSome_bind, Option.isSome_map]
    cases b.culprits fuel n true <;> simp
  obtain ⟨least, hleast⟩ := exists_fuel (grounded_precedes h n) fun fuel n hp => by
    rw [hboth]
    intro expected
    have hds : ∀ d ∈ (b.spec n).dependencies.values, ∀ p, b.predecessor d = some p → ∀ value,
        (b.culprits fuel p value).isSome = true :=
      fun d hd p hpred => (hboth fuel p).mp (hp p (mem_getPredecessors.mpr ⟨d, hd, hpred⟩))
    unfold culprits
    dsimp only
    split_ifs
    · rfl
    · rw [Option.isSome_map]
      exact isSome_blame hds ∅
    · rfl
  exact ⟨least, fun fuel hf => (hboth fuel n).mp (hleast fuel hf)⟩

/-- What is gathered is what can be reached, and all four recursions return. -/
structure Explored (b : Board) (A : Addresses) : Prop where
  ancestors : ∀ n ∈ b.switches, ∃ s, Yields (b.getAncestors A) n s ∧ ∀ p, p ∈ s ↔ TransGen b.Precedes n p
  descendants : ∀ n ∈ b.switches, ∃ s, Yields (b.getDescendants A) n s ∧ ∀ p, p ∈ s ↔ TransGen b.Succeeds n p
  errors : ∀ n ∈ b.switches, ∃ least, ∀ fuel ≥ least, (b.errors A fuel n).isSome = true
  culprits : ∀ n ∈ b.switches, ∀ expected, ∃ least, ∀ fuel ≥ least, (b.culprits fuel n expected).isSome = true

theorem gather_exact {next : SwitchName → List SwitchName} {n : SwitchName} (h : Grounded next n) :
    ∃ s, Yields (gather fun n => A.visit (next n)) n s ∧ ∀ p, p ∈ s ↔ TransGen (Edge next) n p := by
  have hg : Grounded (fun n => A.visit (next n)) n := by
    unfold Grounded
    rw [edge_visit]
    exact h
  obtain ⟨s, hs⟩ := gather_yields hg
  obtain ⟨least, hleast⟩ := hs
  refine ⟨s, ⟨least, hleast⟩, fun p => ?_⟩
  rw [mem_gather (hleast least (Nat.le_refl _)), edge_visit]

theorem Explored.not_circular (h : b.Explored A) : ¬ b.Circular := by
  rintro ⟨n, hn⟩
  have hmem : n ∈ b.switches := by
    obtain ⟨q, -, hq⟩ := TransGen.tail'_iff.mp hn
    exact Precedes.mem hq
  obtain ⟨s, ⟨least, hleast⟩, -⟩ := h.ancestors n hmem
  have hground := exists_gather_iff.mp ⟨least, Option.isSome_iff_exists.mpr ⟨s, hleast least (Nat.le_refl _)⟩⟩
  refine hground.not_cyclic ?_
  rw [edge_visit]
  exact hn

/-- The recursions return if and only if dependencies are not circular. -/
theorem explored_iff (b : Board) (A : Addresses) : b.Explored A ↔ ¬ b.Circular := by
  refine ⟨Explored.not_circular, fun h => ?_⟩
  exact {
    ancestors := fun n _ => gather_exact (grounded_precedes h n)
    descendants := fun n _ => gather_exact (grounded_succeeds h n)
    errors := fun n _ => exists_errors h n
    culprits := fun n _ expected => (exists_culprits h n).imp fun least hleast fuel hf => hleast fuel hf expected }

/-- A switch that depends on itself -/
theorem not_explored : ¬ ∀ (b : Board) (A : Addresses), b.Explored A := by
  intro h
  let b := Board.new [] ["p"] fun _ => { dependencies := .ofList [{ predecessorName := "p" }] }
  have hself : b.Precedes "p" "p" := mem_getPredecessors.mpr ⟨{ predecessorName := "p" }, by decide, rfl⟩
  exact (h b ⟨id, fun _ _ => Iff.rfl⟩).not_circular ⟨"p", .single hself⟩

end Board

/-! ## Root causes -/

/-- A switch is not in the position it is expected in. -/
def Board.Mismatches (b : Board) (n : SwitchName) (expected : Bool) : Prop := (b.status n).currentState ≠ .ofActive expected

/-- The position that is expected of a predecessor -/
def Dependency.flips (d : Dependency) (expected : Bool) : Bool := if d.polarity = .negative then !expected else expected

namespace Board

/-- One step along the path to a culprit, with the positions that are expected. -/
def Blames (b : Board) (s t : SwitchName × Bool) : Prop :=
  b.Mismatches s.1 s.2 ∧ (b.spec s.1).primary = false ∧
    ∃ d ∈ (b.spec s.1).dependencies.values, b.predecessor d = some t.1 ∧ t.2 = d.flips s.2

/-- The search ends at a switch that is primary, or that no predecessor excuses. -/
def Terminal (b : Board) (n : SwitchName) (expected : Bool) : Prop :=
  (b.spec n).primary = true ∨
    ∀ d ∈ (b.spec n).dependencies.values, ∀ p, b.predecessor d = some p → ¬ b.Mismatches p (d.flips expected)

/-- A path of mismatches leads to the culprit, and ends there. -/
def RootCause (b : Board) (n : SwitchName) (expected : Bool) (c : SwitchName) : Prop :=
  ∃ e, ReflTransGen b.Blames (n, expected) (c, e) ∧ b.Mismatches c e ∧ b.Terminal c e

variable {b : Board} {n p c : SwitchName} {expected : Bool} {f : SwitchName → Bool → Option CulpritsMap}

theorem RootCause.mismatches (h : b.RootCause n expected c) : b.Mismatches n expected := by
  obtain ⟨e, hpath, hmis, -⟩ := h
  rcases ReflTransGen.cases_head hpath with heq | ⟨t, ht, -⟩
  · obtain ⟨rfl, rfl⟩ := Prod.mk.inj heq
    exact hmis
  · exact ht.1

/-- A culprit of a switch that is not primary, at the switch or behind it. -/
theorem rootCause_iff (hmis : b.Mismatches n expected) (hprimary : (b.spec n).primary = false) :
    b.RootCause n expected c ↔ c = n ∧ b.Terminal n expected ∨
      ∃ d ∈ (b.spec n).dependencies.values, ∃ p, b.predecessor d = some p ∧ b.RootCause p (d.flips expected) c := by
  constructor
  · rintro ⟨e, hpath, hc, hend⟩
    rcases ReflTransGen.cases_head hpath with heq | ⟨⟨p, value⟩, ⟨-, -, d, hd, hp, rfl⟩, hpath⟩
    · obtain ⟨rfl, rfl⟩ := Prod.mk.inj heq
      exact .inl ⟨rfl, hend⟩
    · exact .inr ⟨d, hd, p, hp, e, hpath, hc, hend⟩
  · rintro (⟨rfl, hend⟩ | ⟨d, hd, p, hp, e, hpath, hc, hend⟩)
    · exact ⟨expected, .refl, hmis, hend⟩
    · exact ⟨e, .head ⟨hmis, hprimary, d, hd, hp, rfl⟩ hpath, hc, hend⟩

theorem rootCause_of_primary (hmis : b.Mismatches n expected) (hprimary : (b.spec n).primary = true) :
    b.RootCause n expected c ↔ c = n := by
  constructor
  · rintro ⟨e, hpath, -, -⟩
    rcases ReflTransGen.cases_head hpath with heq | ⟨t, ht, -⟩
    · exact (Prod.mk.inj heq).1.symm
    · exact absurd (hprimary.symm.trans ht.2.1) (by decide)
  · rintro rfl
    exact ⟨expected, .refl, hmis, .inl hprimary⟩

/-- The map has the given switches, each with its current state. -/
def Lists (b : Board) (map : CulpritsMap) (S : Set SwitchName) : Prop :=
  ∀ c st, map[c]? = some st ↔ c ∈ S ∧ st = (b.status c).currentState

theorem lists_empty : b.Lists ∅ ∅ := by
  intro c st
  simp

theorem Lists.union {map others : CulpritsMap} {S T : Set SwitchName} (h : b.Lists map S) (h' : b.Lists others T) :
    b.Lists (others ∪ map) (S ∪ T) := by
  intro c st
  rw [Std.ExtTreeMap.getElem?_union, Option.or_eq_some_iff, h c st, h' c st, Set.mem_union]
  constructor
  · rintro (⟨hc, hst⟩ | ⟨-, hc, hst⟩)
    · exact ⟨.inl hc, hst⟩
    · exact ⟨.inr hc, hst⟩
  · rintro ⟨hc, rfl⟩
    by_cases hS : c ∈ S
    · exact .inl ⟨hS, rfl⟩
    · refine .inr ⟨?_, hc.resolve_left hS, rfl⟩
      by_contra hne
      obtain ⟨st, hst⟩ := Option.ne_none_iff_exists'.mp hne
      exact hS ((h c st).mp hst).1

theorem lists_singleton (n : SwitchName) : b.Lists ((∅ : CulpritsMap).insert n (b.status n).currentState) {n} := by
  intro c st
  rw [Std.ExtTreeMap.getElem?_insert, Set.mem_singleton_iff]
  by_cases hc : c = n
  · subst hc
    simp [eq_comm]
  · simp [hc, eq_comm (a := n)]

theorem Lists.isEmpty_iff {map : CulpritsMap} {S : Set SwitchName} (h : b.Lists map S) : map.isEmpty = true ↔ S = ∅ := by
  rw [Std.ExtTreeMap.isEmpty_iff, Set.eq_empty_iff_forall_notMem]
  constructor
  · rintro rfl c hc
    have := (h c _).mpr ⟨hc, rfl⟩
    simp at this
  · intro hS
    refine Std.ExtTreeMap.ext_getElem? fun c => ?_
    cases hc : map[c]? with
    | none => simp
    | some st => exact absurd ((h c st).mp hc).1 (hS c)

theorem inverted_eq_iff (s : State) (active : Bool) : s.inverted = .ofActive active ↔ s = .ofActive !active := by
  cases s <;> cases active <;> decide

/-- A dependency on a switch that mismatches is looked into, and no other is. -/
theorem blame_cons (b : Board) (f : SwitchName → Bool → Option CulpritsMap) (expected : Bool) {d : Dependency} (hd : d.polarity ≠ .toggle) (ds : List Dependency) (map : CulpritsMap) :
    (∀ p, b.predecessor d = some p → ¬ b.Mismatches p (d.flips expected)) ∧
        b.blame f expected (d :: ds) map = b.blame f expected ds map ∨
      ∃ p, b.predecessor d = some p ∧ b.Mismatches p (d.flips expected) ∧
        b.blame f expected (d :: ds) map =
          (f p (d.flips expected)).bind fun others => b.blame f expected ds (others ∪ map) := by
  have hstate : ∃ s, b.expectedState d = some s ∧ d.expectedPredecessorValue expected = some (d.flips expected) ∧
      ∀ p, b.predecessor d = some p → (s ≠ .ofActive expected ↔ b.Mismatches p (d.flips expected)) := by
    unfold expectedState Dependency.expectedPredecessorValue Dependency.flips Mismatches predecessorState
    cases hpol : d.polarity with
    | toggle => exact absurd hpol hd
    | positive => exact ⟨_, rfl, rfl, fun p hp => by simp [hp]⟩
    | negative => exact ⟨_, rfl, rfl, fun p hp => by simp [hp, inverted_eq_iff]⟩
  obtain ⟨s, hs, hvalue, hmis⟩ := hstate
  rw [blame, hs, hvalue]
  dsimp only
  cases hp : b.predecessor d with
  | none => exact .inl ⟨by simp, ite_self _⟩
  | some p =>
    by_cases hne : s ≠ .ofActive expected
    · exact .inr ⟨p, rfl, (hmis p hp).mp hne, if_pos hne⟩
    · refine .inl ⟨?_, if_neg hne⟩
      rintro q hq
      exact fun hmq => hne ((hmis p hp).mpr (Option.some.inj hq ▸ hmq))

/-- The root causes behind one of the dependencies -/
def Behind (b : Board) (expected : Bool) (ds : List Dependency) : Set SwitchName :=
  {c | ∃ d ∈ ds, ∃ p, b.predecessor d = some p ∧ b.RootCause p (d.flips expected) c}

theorem mem_behind_cons {d : Dependency} {ds : List Dependency} : c ∈ b.Behind expected (d :: ds) ↔
    (∃ p, b.predecessor d = some p ∧ b.RootCause p (d.flips expected) c) ∨ c ∈ b.Behind expected ds := by
  simp [Behind]

/-- What is blamed is behind the dependencies, and all of them have been looked into
where they mismatch. -/
theorem lists_blame {ds : List Dependency} (htoggle : ∀ d ∈ ds, d.polarity ≠ .toggle)
    (hf : ∀ d ∈ ds, ∀ p m, b.predecessor d = some p → f p (d.flips expected) = some m →
      b.Lists m {c | b.RootCause p (d.flips expected) c})
    {map m : CulpritsMap} {S : Set SwitchName} (h : b.Lists map S) (hm : b.blame f expected ds map = some m) :
    b.Lists m (S ∪ b.Behind expected ds) ∧
      ∀ d ∈ ds, ∀ p, b.predecessor d = some p → b.Mismatches p (d.flips expected) → ∃ m, f p (d.flips expected) = some m := by
  induction ds generalizing map S with
  | nil =>
    obtain rfl := Option.some.inj hm
    simpa [Behind] using h
  | cons d ds ih =>
    have ih := fun {map S} => @ih (fun d' hd' => htoggle d' (List.mem_cons_of_mem _ hd'))
      (fun d' hd' => hf d' (List.mem_cons_of_mem _ hd')) map S
    rcases b.blame_cons f expected (htoggle d (List.mem_cons_self ..)) ds map with
      ⟨hno, heq⟩ | ⟨p, hp, hmp, heq⟩ <;> rw [heq] at hm
    · obtain ⟨hlists, hcalls⟩ := ih h hm
      have hset : b.Behind expected (d :: ds) = b.Behind expected ds := by
        ext c
        rw [mem_behind_cons, or_iff_right]
        rintro ⟨p, hp, hc⟩
        exact hno p hp hc.mismatches
      rw [hset]
      exact ⟨hlists, List.forall_mem_cons.mpr ⟨fun p hp hmp => absurd hmp (hno p hp), hcalls⟩⟩
    · obtain ⟨others, hothers, hm⟩ := Option.bind_eq_some_iff.mp hm
      obtain ⟨hlists, hcalls⟩ := ih (h.union (hf d (List.mem_cons_self ..) p others hp hothers)) hm
      have hset : S ∪ b.Behind expected (d :: ds) =
          S ∪ {c | b.RootCause p (d.flips expected) c} ∪ b.Behind expected ds := by
        ext c
        simp only [Set.mem_union, mem_behind_cons, hp, Option.some.injEq, exists_eq_left', Set.mem_ofPred_eq, or_assoc]
      rw [hset]
      refine ⟨hlists, List.forall_mem_cons.mpr ⟨fun q hq _ => ?_, hcalls⟩⟩
      obtain rfl := Option.some.inj (hp.symm.trans hq)
      exact ⟨others, hothers⟩

/-- The result at a switch that is not primary, from what is behind its dependencies -/
theorem lists_found {found : CulpritsMap} (hmis : b.Mismatches n expected) (hprimary : (b.spec n).primary = false)
    (h : b.Lists found (b.Behind expected (b.spec n).dependencies.values))
    (hcause : ∀ d ∈ (b.spec n).dependencies.values, ∀ p, b.predecessor d = some p → b.Mismatches p (d.flips expected) →
      ∃ c, b.RootCause p (d.flips expected) c) :
    b.Lists (if found.isEmpty then found.insert n (b.status n).currentState else found) {c | b.RootCause n expected c} := by
  by_cases hempty : found.isEmpty = true
  · -- none of the predecessors mismatches
    have hnone := Set.eq_empty_iff_forall_notMem.mp (h.isEmpty_iff.mp hempty)
    have hterminal : b.Terminal n expected := by
      refine .inr fun d hd p hp hmp => ?_
      obtain ⟨c, hc⟩ := hcause d hd p hp hmp
      exact hnone c ⟨d, hd, p, hp, hc⟩
    have hset : {c | b.RootCause n expected c} = {n} := by
      ext c
      show b.RootCause n expected c ↔ c = n
      rw [rootCause_iff hmis hprimary, and_iff_left hterminal, or_iff_left]
      exact fun hc => hnone c hc
    rw [if_pos hempty, hset, Std.ExtTreeMap.isEmpty_iff.mp hempty]
    exact lists_singleton n
  · have hset : {c | b.RootCause n expected c} = b.Behind expected (b.spec n).dependencies.values := by
      ext c
      show b.RootCause n expected c ↔ c ∈ b.Behind expected _
      rw [rootCause_iff hmis hprimary, or_iff_right]
      · rfl
      · rintro ⟨-, hend | hend⟩
        · exact absurd (hprimary.symm.trans hend) (by decide)
        · refine hempty (h.isEmpty_iff.mpr (Set.eq_empty_iff_forall_notMem.mpr ?_))
          rintro c ⟨d, hd, p, hp, hc⟩
          exact hend d hd p hp hc.mismatches
    rw [if_neg hempty, hset]
    exact h

section
variable (htoggle : ∀ n ∈ b.switches, ∀ d ∈ (b.spec n).dependencies.values, d.polarity ≠ .toggle)
include htoggle

/-- A result has the root causes, and there is one where the switch mismatches. -/
theorem lists_culprits {fuel : ℕ} {m : CulpritsMap} (hn : n ∈ b.switches) (h : b.culprits fuel n expected = some m) :
    b.Lists m {c | b.RootCause n expected c} ∧ (m.isEmpty = true ↔ ¬ b.Mismatches n expected) := by
  induction fuel generalizing n expected m with
  | zero => cases h
  | succ fuel ih =>
    unfold culprits at h
    dsimp only at h
    by_cases hmis : (b.status n).currentState ≠ .ofActive expected
    · rw [if_pos hmis] at h
      obtain ⟨found, hfound, rfl⟩ := Option.map_eq_some_iff.mp h
      have hnonempty : (if found.isEmpty then found.insert n (b.status n).currentState else found).isEmpty = false := by
        split_ifs with he <;> simp [he]
      refine ⟨?_, iff_of_false (fun he => Bool.false_ne_true (hnonempty.symm.trans he)) (not_not.mpr hmis)⟩
      cases hprimary : (b.spec n).primary with
      | true =>
        rw [hprimary, if_pos rfl] at hfound
        obtain rfl := Option.some.inj hfound
        have hset : {c | b.RootCause n expected c} = {n} := by
          ext c
          exact rootCause_of_primary hmis hprimary
        rw [hset, if_pos (by simp)]
        exact lists_singleton n
      | false =>
        rw [hprimary, if_neg Bool.false_ne_true] at hfound
        obtain ⟨hlists, hcalls⟩ := lists_blame (htoggle n hn) (fun d _ p m hp hm => (ih (find_mem hp) hm).1) lists_empty hfound
        rw [Set.empty_union] at hlists
        refine lists_found hmis hprimary hlists fun d hd p hp hmp => ?_
        obtain ⟨m, hm⟩ := hcalls d hd p hp hmp
        obtain ⟨hm', hne⟩ := ih (find_mem hp) hm
        exact Set.nonempty_iff_ne_empty.mpr fun he => hne.mp (hm'.isEmpty_iff.mpr he) hmp
    · rw [if_neg hmis] at h
      obtain rfl := Option.some.inj h
      have hset : {c | b.RootCause n expected c} = ∅ :=
        Set.eq_empty_iff_forall_notMem.mpr fun c hc => hmis hc.mismatches
      rw [hset]
      exact ⟨lists_empty, iff_of_true (by simp) hmis⟩

end

end Board

/-- Where dependencies are neither circular nor toggles, the culprits are the root
causes, each with its state. -/
theorem root_cause_law {b : Board} (hcircular : ¬ b.Circular)
    (htoggle : ∀ n ∈ b.switches, ∀ d ∈ (b.spec n).dependencies.values, d.polarity ≠ .toggle)
    {n : SwitchName} (hn : n ∈ b.switches) (expected : Bool) :
    ∃ map : CulpritsMap, (∃ least, ∀ fuel ≥ least, b.culprits fuel n expected = some map) ∧
      (map.isEmpty = true ↔ (b.status n).currentState = .ofActive expected) ∧
      ∀ c st, map[c]? = some st ↔ b.RootCause n expected c ∧ st = (b.status c).currentState := by
  obtain ⟨least, hleast⟩ := Board.exists_culprits hcircular n
  obtain ⟨map, hmap⟩ := Option.isSome_iff_exists.mp (hleast least (Nat.le_refl _) expected)
  have hlists := Board.lists_culprits htoggle hn hmap
  refine ⟨map, ⟨least, fun fuel hf => ?_⟩, hlists.2.trans not_not, hlists.1⟩
  obtain ⟨map', hmap'⟩ := Option.isSome_iff_exists.mp (hleast fuel hf expected)
  rw [hmap']
  refine congrArg some (Std.ExtTreeMap.ext_getElem? fun c => Option.ext fun st => ?_)
  exact ((Board.lists_culprits htoggle hn hmap').1 c st).trans (hlists.1 c st).symm

/-- A lamp that is off because of a fuse that has failed -/
def lamp : Board :=
  let b := Board.new [] ["fuse", "lamp"] fun n =>
    if n = "lamp" then { dependencies := .ofList [{ predecessorName := "fuse" }] } else {}
  { b with status := fun n => { currentState := if n = "fuse" then .failed else .inactive } }

theorem lamp_predecessors (n : SwitchName) : lamp.getPredecessors n = if n = "lamp" then ["fuse"] else [] := by
  by_cases hn : n = "lamp"
  · subst hn
    decide
  · have hspec : lamp.spec n = {} := if_neg hn
    rw [if_neg hn]
    unfold Board.getPredecessors
    rw [hspec]
    rfl

theorem lamp_acyclic : ¬ lamp.Circular := by
  have hstep : ∀ n p, lamp.Precedes n p → n = "lamp" ∧ p = "fuse" := by
    intro n p h
    have h : p ∈ lamp.getPredecessors n := h
    rw [lamp_predecessors] at h
    split_ifs at h with hn
    · exact ⟨hn, List.mem_singleton.mp h⟩
    · cases h
  rintro ⟨n, hn⟩
  obtain ⟨q, h, -⟩ := TransGen.head'_iff.mp hn
  obtain ⟨r, -, h'⟩ := TransGen.tail'_iff.mp hn
  exact absurd ((hstep n q h).1.symm.trans (hstep r n h').2) (by decide)

theorem lamp_polarities (n : SwitchName) : ∀ d ∈ (lamp.spec n).dependencies.values, d.polarity ≠ .toggle := by
  by_cases hn : n = "lamp"
  · subst hn
    decide
  · rw [show lamp.spec n = {} from if_neg hn]
    decide

theorem lamp_culprits : ∃ map : CulpritsMap, (∃ least, ∀ fuel ≥ least, lamp.culprits fuel "lamp" true = some map) ∧
    (map.isEmpty = true ↔ (lamp.status "lamp").currentState = .active) ∧
      ∀ c st, map[c]? = some st ↔ lamp.RootCause "lamp" true c ∧ st = (lamp.status c).currentState :=
  root_cause_law lamp_acyclic (fun n _ => lamp_polarities n) (by decide) true

end CommonCore
