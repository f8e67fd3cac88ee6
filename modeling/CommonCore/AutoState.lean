import CommonCore.Graph

/-!
# What the automatic state depends on

`auto_state` folds over the dependencies in the order of the names of the
predecessors. What it sees of each is a vote: the derived state, and whether the
dependency is sufficient.

The order of the votes matters where one dependency is `FAILED` and another
`FAILING`, because the later of the two overwrites the other. Where all votes are
`ACTIVE` or `INACTIVE`, `auto_state` is the disjunction of the sufficient
dependencies and of the conjunction of the others.
-/

namespace CommonCore

abbrev Vote := State × Bool

def Tally.count (t : Tally) (votes : List Vote) : Tally := votes.foldl (fun t v => t.add v.1 v.2) t

namespace Board

def vote (b : Board) (n : SwitchName) (d : Dependency) : Vote := (b.derivedState d (b.status n).active, d.sufficient)

def votes (b : Board) (n : SwitchName) : List Vote := (b.spec n).dependencies.values.map (b.vote n)

theorem tally_eq (b : Board) (n : SwitchName) : b.tally n = Tally.count {} (b.votes n) := by
  unfold tally Tally.count votes
  rw [List.foldl_map]
  rfl

theorem autoState_eq (b : Board) (n : SwitchName) : b.autoState n = (Tally.count {} (b.votes n)).state (b.status n) := by
  rw [autoState, tally_eq]

end Board

/-! ## The order of the votes -/

/-- Two votes that overwrite each other -/
def Vote.Overwrites (v w : Vote) : Prop := v.1 = .failing ∧ w.1 = .failed ∨ v.1 = .failed ∧ w.1 = .failing

namespace Tally

variable {t : Tally} {v w : Vote} {votes votes' : List Vote}

theorem count_append (votes votes' : List Vote) : t.count (votes ++ votes') = (t.count votes).count votes' := List.foldl_append

theorem count_cons : t.count (v :: votes) = (t.add v.1 v.2).count votes := rfl

theorem add_comm (h : ¬ v.Overwrites w) : (t.add v.1 v.2).add w.1 w.2 = (t.add w.1 w.2).add v.1 v.2 := by
  obtain ⟨s, sufficient⟩ := v
  obtain ⟨s', sufficient'⟩ := w
  cases s <;> cases s' <;>
    first
    | rfl
    | cases sufficient <;> cases sufficient' <;> rfl
    | exact absurd (.inl ⟨rfl, rfl⟩) h
    | exact absurd (.inr ⟨rfl, rfl⟩) h

theorem count_perm (hp : votes.Perm votes') (h : ∀ v ∈ votes, ∀ w ∈ votes, ¬ v.Overwrites w) : t.count votes = t.count votes' :=
  hp.foldl_eq' (fun v hv w hw _ => add_comm (h v hv w hw)) t

theorem failed_add_of_ne (h₁ : v.1 ≠ .failing) (h₂ : v.1 ≠ .failed) : (t.add v.1 v.2).failed = t.failed := by
  obtain ⟨s, sufficient⟩ := v
  cases s <;> first | rfl | exact absurd rfl h₁ | exact absurd rfl h₂

theorem failed_count (h : t.failed = { strong := true }) (hv : ∀ v ∈ votes, v.1 ≠ .failing) :
    (t.count votes).failed = { strong := true } := by
  induction votes generalizing t with
  | nil => exact h
  | cons v votes ih =>
    refine ih ?_ fun w hw => hv w (List.mem_cons_of_mem _ hw)
    show (t.add v.1 v.2).failed = _
    by_cases hf : v.1 = .failed
    · rw [hf]; rfl
    · rw [failed_add_of_ne (hv v (List.mem_cons_self ..)) hf, h]

theorem state_of_failed {s : Status} (h : t.failed = { strong := true }) : t.state s = .failed := by
  simp [state, verdict, h]

theorem state_ne_failed {s : Status} (h : t.failed = { pending := true }) : t.state s ≠ .failed := by
  unfold state verdict
  simp only [h, Bool.false_eq_true, if_false, if_true]
  split_ifs <;> simp

end Tally

/-- Neither the state nor its being `FAILED` depends on the order of the votes. -/
structure OrderFree (status : Status) (votes : List Vote) : Prop where
  same : ∀ (b : Board) n (b' : Board) n', b.status n = status → b'.status n' = status → (b.votes n).Perm votes → (b'.votes n').Perm votes →
    b.autoState n = b'.autoState n'
  failed : (∃ v ∈ votes, v.1 = .failed) → ∀ (b : Board) n, b.status n = status → (b.votes n).Perm votes → b.autoState n = .failed

/-! ### Boards with given votes -/

/-- Names in alphabetical order -/
def nthName (i : ℕ) : SwitchName := String.ofList (List.replicate i 'p')

theorem replicate_lt {i j : ℕ} (h : i < j) : List.replicate i 'p' < List.replicate j 'p' := by
  induction i generalizing j with
  | zero =>
    obtain ⟨j, rfl⟩ := Nat.exists_eq_succ_of_ne_zero (Nat.ne_of_gt h)
    exact List.nil_lt_cons ..
  | succ i ih =>
    obtain ⟨j, rfl⟩ := Nat.exists_eq_succ_of_ne_zero (Nat.ne_of_gt (Nat.zero_lt_of_lt h))
    rw [List.replicate_succ, List.replicate_succ]
    exact List.cons_lt_cons_iff.mpr (.inr ⟨rfl, ih (Nat.lt_of_succ_lt_succ h)⟩)

theorem compare_nthName {i j : ℕ} (h : i < j) : compare (nthName i) (nthName j) = .lt := by
  refine compareOfLessAndEq_eq_lt.mpr (String.lt_iff.mpr ?_)
  simpa [nthName] using replicate_lt h

/-- One predecessor for each vote, in the state that is voted for. -/
def ballot (status : Status) (votes : List Vote) : Board where
  execName := []
  debugSink := false
  crashed := false
  switches := Std.ExtTreeSet.ofList ((List.range votes.length).map nthName)
  spec _ := { dependencies := .ofList (votes.zipIdx.map fun e => { predecessorName := nthName e.2, sufficient := e.1.2 }) }
  status n := if n = "q" then status else { currentState := (votes[n.toList.length]?.map Prod.fst).getD .unset }
  signalStatus := { caching := true }
  threads := []
  entered := []

theorem votes_ballot (status : Status) (votes : List Vote) : (ballot status votes).votes "q" = votes := by
  have hvalues : ((ballot status votes).spec "q").dependencies.values =
      votes.zipIdx.map fun e => { predecessorName := nthName e.2, sufficient := e.1.2 } := by
    have hlt : (votes.zipIdx.map Prod.snd).Pairwise (· < ·) := by
      rw [List.zipIdx_map_snd]
      exact List.pairwise_lt_range'
    apply Keyed.Filed.values_ofList
    rw [List.pairwise_map] at hlt ⊢
    exact hlt.imp compare_nthName
  have hvote : ∀ e ∈ votes.zipIdx, (ballot status votes).vote "q" { predecessorName := nthName e.2, sufficient := e.1.2 } = e.1 := by
    intro e he
    have hget := List.mem_zipIdx_iff_getElem?.mp he
    obtain ⟨hi, -⟩ := List.getElem?_eq_some_iff.mp hget
    have hmem : nthName e.2 ∈ (ballot status votes).switches := by
      rw [ballot, Std.ExtTreeSet.mem_ofList, List.contains_iff_mem]
      exact List.mem_map_of_mem (List.mem_range.mpr hi)
    have hlist : (nthName e.2).toList = List.replicate e.2 'p' := by simp [nthName]
    have hne : nthName e.2 ≠ "q" := by
      intro heq
      have hq : 'q' ∈ List.replicate e.2 'p' := by rw [← hlist, heq]; decide
      exact absurd (List.eq_of_mem_replicate hq) (by decide)
    refine Prod.ext ?_ rfl
    show (ballot status votes).predecessorState _ = _
    rw [Board.predecessorState, Board.predecessor_of_named hmem]
    show (if nthName e.2 = "q" then status else _).currentState = _
    rw [if_neg hne, hlist, List.length_replicate, hget]
    rfl
  rw [Board.votes, hvalues, List.map_map]
  exact (List.map_congr_left hvote).trans (List.zipIdx_map_fst ..)

theorem exists_votes (status : Status) (votes : List Vote) : ∃ (b : Board) (n : SwitchName), b.status n = status ∧ b.votes n = votes :=
  ⟨ballot status votes, "q", rfl, votes_ballot status votes⟩

/-! ### The condition -/

/-- The state is a function of the votes in no order if and only if none of them
is `FAILED` or none is `FAILING`. -/
theorem orderFree_iff (status : Status) (votes : List Vote) :
    OrderFree status votes ↔ ¬ ((∃ v ∈ votes, v.1 = .failed) ∧ ∃ w ∈ votes, w.1 = .failing) := by
  constructor
  · rintro h ⟨hfailed, ⟨s, sufficient⟩, hw, rfl⟩
    -- the same votes with the one that is `FAILING` at the end
    obtain ⟨b, n, hstatus, hvotes⟩ := exists_votes status (votes.erase (.failing, sufficient) ++ [(.failing, sufficient)])
    have hp : (b.votes n).Perm votes := by
      rw [hvotes]
      exact (List.perm_append_singleton ..).trans (List.perm_cons_erase hw).symm
    have hstate := h.failed hfailed b n hstatus hp
    rw [Board.autoState_eq, hvotes, Tally.count_append] at hstate
    exact Tally.state_ne_failed rfl hstate
  · intro h
    have hno : ∀ v ∈ votes, ∀ w ∈ votes, ¬ v.Overwrites w := by
      rintro v hv w hw (⟨h₁, h₂⟩ | ⟨h₁, h₂⟩)
      · exact h ⟨⟨w, hw, h₂⟩, v, hv, h₁⟩
      · exact h ⟨⟨v, hv, h₁⟩, w, hw, h₂⟩
    constructor
    · intro b n b' n' hs hs' hp hp'
      rw [Board.autoState_eq, Board.autoState_eq, hs, hs', ← Tally.count_perm hp.symm hno, ← Tally.count_perm hp'.symm hno]
    · rintro ⟨⟨s, sufficient⟩, hv, rfl⟩ b n - hp
      have hfailing : ∀ w ∈ b.votes n, w.1 ≠ .failing := fun w hw hf => h ⟨⟨_, hv, rfl⟩, w, hp.mem_iff.mp hw, hf⟩
      obtain ⟨before, after, hsplit⟩ := List.append_of_mem (hp.mem_iff.mpr hv)
      rw [hsplit] at hfailing
      rw [Board.autoState_eq, hsplit, Tally.count_append, Tally.count_cons]
      exact Tally.state_of_failed (Tally.failed_count rfl fun w hw => hfailing w (by simp [hw]))

/-- A predecessor that fails after one that has failed -/
theorem not_orderFree : ¬ ∀ status votes, OrderFree status votes := by
  intro h
  have hp : ((ballot {} [(.failed, false), (.failing, false)]).votes "q").Perm [(.failed, false), (.failing, false)] := by
    rw [votes_ballot]
  have hstate := (h {} _).failed ⟨_, List.mem_cons_self .., rfl⟩ _ _ rfl hp
  rw [Board.autoState_eq, votes_ballot] at hstate
  exact absurd hstate (by decide)

/-! ## Decided votes -/

/-- Either of the two positions -/
def Vote.Decided (v : Vote) : Prop := v.1 = .active ∨ v.1 = .inactive

theorem Tally.count_decided {votes : List Vote} (h : ∀ v ∈ votes, v.Decided) :
    Tally.count {} votes =
      { satisfied := { strong := (.active, true) ∈ votes, weak := (.active, false) ∈ votes }
        unsatisfied := { strong := (.inactive, false) ∈ votes, weak := (.inactive, true) ∈ votes } } := by
  induction votes using List.reverseRecOn with
  | nil => rfl
  | append_singleton votes v ih =>
    rw [count_append, ih fun w hw => h w (List.mem_append_left _ hw)]
    obtain ⟨s, sufficient⟩ := v
    have hv : s = .active ∨ s = .inactive := h (s, sufficient) (List.mem_append_right _ (List.mem_singleton_self _))
    rcases hv with rfl | rfl <;> cases sufficient <;> simp [count, add, Satisfaction.raise]

/-- A sufficient dependency is active, or there are others and all of them are. -/
def Carried (votes : List Vote) : Prop :=
  (∃ v ∈ votes, v.2 = true ∧ v.1 = .active) ∨ (∃ v ∈ votes, v.2 = false) ∧ ∀ v ∈ votes, v.2 = false → v.1 = .active

instance (votes : List Vote) : Decidable (Carried votes) := inferInstanceAs (Decidable (_ ∨ _ ∧ _))

theorem carried_iff {votes : List Vote} (h : ∀ v ∈ votes, v.Decided) :
    Carried votes ↔ (.active, true) ∈ votes ∨ (.active, false) ∈ votes ∧ (.inactive, false) ∉ votes := by
  constructor
  · rintro (⟨⟨s, sufficient⟩, hv, rfl, rfl⟩ | ⟨⟨⟨s, sufficient⟩, hv, rfl⟩, hall⟩)
    · exact .inl hv
    · have hs : s = .active := hall _ hv rfl
      exact .inr ⟨hs ▸ hv, fun hin => absurd (hall _ hin rfl) (by decide)⟩
  · rintro (hv | ⟨hv, hno⟩)
    · exact .inl ⟨_, hv, rfl, rfl⟩
    · refine .inr ⟨⟨_, hv, rfl⟩, ?_⟩
      rintro ⟨s, sufficient⟩ hw rfl
      rcases h _ hw with hs | hs
      · exact hs
      · exact absurd ((show s = .inactive from hs) ▸ hw) hno

/-- The automatic state of a switch whose dependencies are all in a position -/
theorem and_or_law (b : Board) (n : SwitchName) (h : ∀ v ∈ b.votes n, v.Decided) :
    (Carried (b.votes n) → b.autoState n = .active) ∧
      (¬ Carried (b.votes n) → b.votes n ≠ [] → b.autoState n = .inactive) ∧
      (b.votes n = [] → (b.status n).currentState.isSettled = true → b.autoState n = (b.status n).currentState) := by
  rw [carried_iff h, Board.autoState_eq, Tally.count_decided h]
  refine ⟨?_, ?_, ?_⟩
  · rintro (hstrong | ⟨hweak, hno⟩)
    · simp [Tally.state, Tally.verdict, hstrong]
    · by_cases hstrong : (.active, true) ∈ b.votes n <;> simp [Tally.state, Tally.verdict, hstrong, hweak, hno]
  · intro hno hne
    obtain ⟨hstrong, himp⟩ := not_or.mp hno
    by_cases hin : (.inactive, false) ∈ b.votes n
    · simp [Tally.state, Tally.verdict, hstrong, hin]
    · have hweak : (.active, false) ∉ b.votes n := fun hw => himp ⟨hw, hin⟩
      -- what is left is a sufficient dependency that is inactive
      obtain ⟨⟨s, sufficient⟩, hv⟩ := List.exists_mem_of_ne_nil _ hne
      have hlast : (.inactive, true) ∈ b.votes n := by
        rcases h _ hv with hs | hs <;> obtain rfl : s = _ := hs <;> cases sufficient
        · exact absurd hv hweak
        · exact absurd hv hstrong
        · exact absurd hv hin
        · exact hv
      simp [Tally.state, Tally.verdict, hstrong, hin, hweak, hlast]
  · intro hnil hsettled
    simp [Tally.state, Tally.verdict, hnil, hsettled]

/-- A switch that is sufficient, and one that is not and is off -/
theorem and_or_law_of_ballot : (ballot {} [(.active, true), (.inactive, false)]).autoState "q" = .active := by
  refine (and_or_law _ "q" ?_).1 ?_
  · rw [votes_ballot]
    simp [Vote.Decided]
  · rw [votes_ballot]
    exact .inl ⟨_, List.mem_cons_self .., rfl, rfl⟩

end CommonCore
