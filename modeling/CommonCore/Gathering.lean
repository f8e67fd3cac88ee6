import Mathlib

/-!
# Gathering what can be reached

A recursion over a graph that starts with an empty set at every node does not
know where it has been: it returns where no infinite path starts, and only there.
Where it returns, its result is the set of the nodes that can be reached.

Recursions have fuel, and no result without it.
-/

namespace Gathering

open Relation

variable {α β : Type}

/-- There is a result, the same one for all fuel from some amount on. -/
def Yields (f : ℕ → α → Option β) (a : α) (v : β) : Prop := ∃ least, ∀ fuel ≥ least, f fuel a = some v

/-! ## Graphs -/

section
variable (next : α → List α)

/-- An edge of the graph -/
def Edge (a p : α) : Prop := p ∈ next a

/-- No infinite path starts here. -/
def Grounded (a : α) : Prop := Acc (fun p a => Edge next a p) a

variable {next}

theorem Grounded.reached {a p : α} (h : Grounded next a) (hp : TransGen (Edge next) a p) : Grounded next p :=
  h.inv_of_transGen (transGen_swap.mpr hp)

theorem Grounded.not_cyclic {a : α} (h : Grounded next a) : ¬ TransGen (Edge next) a a := by
  intro hcycle
  have hacc := h.transGen
  have hself : TransGen (fun p a => Edge next a p) a a := transGen_swap.mpr hcycle
  induction hacc with
  | intro a _ ih => exact ih a hself (h.reached hcycle) hcycle hself

/-- In a finite graph without cycles all paths are finite. -/
theorem grounded_of_acyclic (domain : Finset α) (hd : ∀ a p, Edge next a p → p ∈ domain)
    (h : ∀ a, ¬ TransGen (Edge next) a a) (a : α) : Grounded next a := by
  classical
  let rank (a : α) := (domain.filter fun p => TransGen (Edge next) a p).card
  have hrank : ∀ a p, Edge next a p → rank p < rank a := by
    intro a p hp
    apply Finset.card_lt_card
    rw [Finset.ssubset_iff_of_subset]
    · exact ⟨p, Finset.mem_filter.mpr ⟨hd a p hp, .single hp⟩, fun hmem => h p (Finset.mem_filter.mp hmem).2⟩
    · intro q hq
      obtain ⟨hq, hpath⟩ := Finset.mem_filter.mp hq
      exact Finset.mem_filter.mpr ⟨hq, .head hp hpath⟩
  exact Subrelation.accessible (fun {p a} hp => hrank a p hp) ((measure rank).wf.apply a)

/-- A recursion that returns where all its calls do returns from every node where
no infinite path starts. -/
theorem exists_fuel {f : ℕ → α → Option β} {a : α} (h : Grounded next a)
    (step : ∀ fuel a, (∀ p, Edge next a p → (f fuel p).isSome = true) → (f (fuel + 1) a).isSome = true) :
    ∃ least, ∀ fuel ≥ least, (f fuel a).isSome = true := by
  induction h with
  | intro a _ ih =>
    have hall : ∃ least, ∀ p ∈ next a, ∀ fuel ≥ least, (f fuel p).isSome = true := by
      have hlist : ∀ l : List α, (∀ p ∈ l, Edge next a p) → ∃ least, ∀ p ∈ l, ∀ fuel ≥ least, (f fuel p).isSome = true := by
        intro l
        induction l with
        | nil => exact fun _ => ⟨0, by simp⟩
        | cons p l ihl =>
          intro hl
          obtain ⟨m, hm⟩ := ih p (hl p (List.mem_cons_self ..))
          obtain ⟨k, hk⟩ := ihl fun q hq => hl q (List.mem_cons_of_mem _ hq)
          refine ⟨max m k, List.forall_mem_cons.mpr ⟨fun fuel hf => hm fuel (le_of_max_le_left hf), ?_⟩⟩
          exact fun q hq fuel hf => hk q hq fuel (le_of_max_le_right hf)
      exact hlist (next a) fun p hp => hp
    obtain ⟨least, hleast⟩ := hall
    refine ⟨least + 1, fun fuel hf => ?_⟩
    obtain ⟨fuel, rfl⟩ := Nat.exists_eq_succ_of_ne_zero (Nat.ne_of_gt (Nat.zero_lt_of_lt hf))
    exact step fuel a fun p hp => hleast p hp fuel (Nat.le_of_succ_le_succ hf)

end

/-! ## The recursion -/

section
variable [DecidableEq α]

/-- Add a node and what is gathered from it, unless the node is there already. -/
def visit (gather : α → Option (Finset α)) (set : Finset α) (a : α) : Option (Finset α) :=
  if a ∈ set then some set else (gather a).map fun s => insert a set ∪ s

def gather (next : α → List α) : ℕ → α → Option (Finset α)
  | 0, _ => none
  | fuel + 1, a => (next a).foldlM (visit (gather next fuel)) ∅

variable {next : α → List α} {g : α → Option (Finset α)}

/-- What every visit preserves. -/
theorem visits_preserve {P : Finset α → Prop} {l : List α} {set set' : Finset α}
    (step : ∀ set a s, P set → a ∈ l → g a = some s → P (insert a set ∪ s)) (h : P set)
    (hl : l.foldlM (visit g) set = some set') : P set' := by
  induction l generalizing set with
  | nil => exact Option.some.inj hl ▸ h
  | cons a l ih =>
    rw [List.foldlM_cons] at hl
    obtain ⟨mid, hmid, hl⟩ := Option.bind_eq_some_iff.mp hl
    refine ih (fun set b s hP hb => step set b s hP (List.mem_cons_of_mem _ hb)) ?_ hl
    unfold visit at hmid
    split_ifs at hmid with ha
    · exact Option.some.inj hmid ▸ h
    · obtain ⟨s, hs, rfl⟩ := Option.map_eq_some_iff.mp hmid
      exact step set a s h (List.mem_cons_self ..) hs

/-- Nothing is lost, and every node of the list is there in the end. -/
theorem visits_reach {l : List α} {set set' : Finset α} (hl : l.foldlM (visit g) set = some set') :
    set ⊆ set' ∧ ∀ a ∈ l, a ∈ set' := by
  induction l generalizing set with
  | nil => exact ⟨Option.some.inj hl ▸ subset_rfl, by simp⟩
  | cons a l ih =>
    rw [List.foldlM_cons] at hl
    obtain ⟨mid, hmid, hl⟩ := Option.bind_eq_some_iff.mp hl
    obtain ⟨hsub, hmem⟩ := ih hl
    unfold visit at hmid
    have hmid' : set ⊆ mid ∧ a ∈ mid := by
      split_ifs at hmid with ha
      · obtain rfl := Option.some.inj hmid
        exact ⟨subset_rfl, ha⟩
      · obtain ⟨s, -, rfl⟩ := Option.map_eq_some_iff.mp hmid
        exact ⟨fun x hx => by simp [hx], by simp⟩
    exact ⟨hmid'.1.trans hsub, List.forall_mem_cons.mpr ⟨hsub hmid'.2, hmem⟩⟩

theorem isSome_visits {l : List α} (h : ∀ a ∈ l, (g a).isSome = true) (set : Finset α) :
    (l.foldlM (visit g) set).isSome = true := by
  induction l generalizing set with
  | nil => rfl
  | cons a l ih =>
    have ha : (visit g set a).isSome = true := by
      unfold visit
      split_ifs
      · rfl
      · simpa using h a (List.mem_cons_self ..)
    obtain ⟨mid, hmid⟩ := Option.isSome_iff_exists.mp ha
    rw [List.foldlM_cons, hmid]
    exact ih (fun b hb => h b (List.mem_cons_of_mem _ hb)) mid

/-- What is gathered is what can be reached in one or more steps. -/
theorem mem_gather {fuel : ℕ} {a : α} {s : Finset α} (h : gather next fuel a = some s) {p : α} :
    p ∈ s ↔ TransGen (Edge next) a p := by
  induction fuel generalizing a s p with
  | zero => cases h
  | succ fuel ih =>
    rw [gather] at h
    constructor
    · -- only what can be reached is ever added
      refine visits_preserve (P := fun set => ∀ p ∈ set, TransGen (Edge next) a p) ?_ (by simp) h p
      intro set q t hset hq ht p hp
      rcases Finset.mem_union.mp hp with hp | hp
      · rcases Finset.mem_insert.mp hp with rfl | hp
        · exact .single hq
        · exact hset p hp
      · exact .head hq ((ih ht).mp hp)
    · -- the set is closed under edges, and has the first node of every path
      have hclosed : ∀ x ∈ s, ∀ y, Edge next x y → y ∈ s := by
        refine visits_preserve (P := fun set => ∀ x ∈ set, ∀ y, Edge next x y → y ∈ set) ?_ (by simp) h
        intro set q t hset _ ht x hx y hy
        rw [Finset.mem_union, Finset.mem_insert] at hx
        rw [Finset.mem_union, Finset.mem_insert]
        rcases hx with (rfl | hx) | hx
        · exact .inr ((ih ht).mpr (.single hy))
        · exact .inl (.inr (hset x hx y hy))
        · exact .inr ((ih ht).mpr (((ih ht).mp hx).tail hy))
      intro hpath
      induction hpath with
      | single hp => exact (visits_reach h).2 _ hp
      | tail _ hp ihp => exact hclosed _ ihp _ hp

/-- The recursion returns from a node if and only if no infinite path starts there. -/
theorem exists_gather_iff {a : α} : (∃ fuel, (gather next fuel a).isSome = true) ↔ Grounded next a := by
  constructor
  · rintro ⟨fuel, h⟩
    induction fuel generalizing a with
    | zero => cases h
    | succ fuel ih =>
      obtain ⟨s, hs⟩ := Option.isSome_iff_exists.mp h
      rw [gather] at hs
      have hground : ∀ p ∈ s, Grounded next p := by
        refine visits_preserve (P := fun set => ∀ p ∈ set, Grounded next p) ?_ (by simp) hs
        intro set q t hset _ ht p hp
        have hq : Grounded next q := ih (Option.isSome_iff_exists.mpr ⟨t, ht⟩)
        rcases Finset.mem_union.mp hp with hp | hp
        · rcases Finset.mem_insert.mp hp with rfl | hp
          · exact hq
          · exact hset p hp
        · exact hq.reached ((mem_gather ht).mp hp)
      exact ⟨a, fun p hp => hground p ((visits_reach hs).2 p hp)⟩
  · intro h
    obtain ⟨least, hleast⟩ := exists_fuel (f := gather next) h fun fuel a hp => isSome_visits hp ∅
    exact ⟨least, hleast least (Nat.le_refl _)⟩

theorem gather_yields {a : α} (h : Grounded next a) : ∃ s, Yields (gather next) a s := by
  obtain ⟨least, hleast⟩ := exists_fuel (f := gather next) h fun fuel a hp => isSome_visits hp ∅
  obtain ⟨s, hs⟩ := Option.isSome_iff_exists.mp (hleast least (Nat.le_refl _))
  refine ⟨s, least, fun fuel hf => ?_⟩
  obtain ⟨s', hs'⟩ := Option.isSome_iff_exists.mp (hleast fuel hf)
  rw [hs']
  exact congrArg some (Finset.ext fun p => (mem_gather hs').trans (mem_gather hs).symm)

end

end Gathering
