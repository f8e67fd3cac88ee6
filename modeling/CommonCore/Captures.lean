import Mathlib.Logic.Function.Basic
import Mathlib.Tactic.Common

/-!
# Patterns with groups

How a backtracking matcher tries a pattern, and what it has put in the groups
when it stops. Every choice is between two ways, and the first one is preferred.
-/

namespace Captures

variable {α β : Type*}

inductive Pattern (α : Type*)
  | empty
  | one (p : α → Bool)
  /-- `p*`, as many as possible. -/
  | many (p : α → Bool)
  | seq (P Q : Pattern α)
  | opt (P : Pattern α)
  | group (n : ℕ) (P : Pattern α)

/-- What each group has captured. -/
abbrev Groups (α : Type*) := ℕ → Option (List α)

/-- What a group has captured, or nothing. -/
def str (g : Groups α) (n : ℕ) : List α := (g n).getD []

/-- The rest of a match, from what the groups have captured on the way. -/
abbrev Next (α β : Type*) := Groups α → List α → Option β

def runMany (p : α → Bool) (k : Next α β) (g : Groups α) : List α → Option β
  | [] => k g []
  | c :: s => if p c then (runMany p k g s).or (k g (c :: s)) else k g (c :: s)

def Pattern.run : Pattern α → Next α β → Next α β
  | .empty, k => k
  | .one p, k => fun g s =>
    match s with
    | [] => none
    | c :: t => if p c then k g t else none
  | .many p, k => runMany p k
  | .seq P Q, k => P.run (Q.run k)
  | .opt P, k => fun g s => (P.run k g s).or (k g s)
  | .group n P, k => fun g s => P.run (fun g t => k (Function.update g n (some (s.take (s.length - t.length)))) t) g s

/-- Patterns one after another. -/
def seqs (l : List (Pattern α)) : Pattern α := l.foldr .seq .empty

/-- The words that a pattern matches. -/
def Pattern.Matches : Pattern α → List α → Prop
  | .empty, w => w = []
  | .one p, w => ∃ c, p c = true ∧ w = [c]
  | .many p, w => ∀ c ∈ w, p c = true
  | .seq P Q, w => ∃ u v, P.Matches u ∧ Q.Matches v ∧ w = u ++ v
  | .opt P, w => w = [] ∨ P.Matches w
  | .group _ P, w => P.Matches w

theorem exists_of_runMany {p : α → Bool} {k : Next α β} {g : Groups α} {s : List α} {r : β}
    (h : runMany p k g s = some r) : ∃ w t, s = w ++ t ∧ (∀ c ∈ w, p c = true) ∧ k g t = some r := by
  induction s with
  | nil => exact ⟨[], [], rfl, by simp, h⟩
  | cons c s ih =>
    unfold runMany at h
    split_ifs at h with hc
    · rcases Option.or_eq_some_iff.mp h with h | ⟨-, h⟩
      · obtain ⟨w, t, rfl, hw, hk⟩ := ih h
        exact ⟨c :: w, t, rfl, List.forall_mem_cons.mpr ⟨hc, hw⟩, hk⟩
      · exact ⟨[], c :: s, rfl, by simp, h⟩
    · exact ⟨[], c :: s, rfl, by simp, h⟩

/-- A match consumes a word that the pattern matches, and goes on with the rest. -/
theorem Pattern.exists_of_run {P : Pattern α} {k : Next α β} {g : Groups α} {s : List α} {r : β}
    (h : P.run k g s = some r) : ∃ w t g', s = w ++ t ∧ P.Matches w ∧ k g' t = some r := by
  induction P generalizing k g s with
  | empty => exact ⟨[], s, g, rfl, rfl, h⟩
  | one p =>
    cases s with
    | nil => cases h
    | cons c s =>
      unfold run at h
      dsimp only at h
      split_ifs at h with hc
      exact ⟨[c], s, g, rfl, ⟨c, hc, rfl⟩, h⟩
  | many p =>
    obtain ⟨w, t, hs, hw, hk⟩ := exists_of_runMany h
    exact ⟨w, t, g, hs, hw, hk⟩
  | seq P Q ihP ihQ =>
    obtain ⟨u, s', g', rfl, hu, h⟩ := ihP h
    obtain ⟨v, t, g'', rfl, hv, hk⟩ := ihQ h
    exact ⟨u ++ v, t, g'', (List.append_assoc ..).symm, ⟨u, v, hu, hv, rfl⟩, hk⟩
  | opt P ih =>
    rcases Option.or_eq_some_iff.mp h with h | ⟨-, h⟩
    · obtain ⟨w, t, g', hs, hw, hk⟩ := ih h
      exact ⟨w, t, g', hs, .inr hw, hk⟩
    · exact ⟨[], s, g, rfl, .inl rfl, h⟩
  | group n P ih =>
    obtain ⟨w, t, g', hs, hw, hk⟩ := ih h
    exact ⟨w, t, _, hs, hw, hk⟩

section
variable {k : Next α β} {g : Groups α} {s t w : List α} {r : β}

theorem run_seq {P Q : Pattern α} : (Pattern.seq P Q).run k g s = P.run (Q.run k) g s := rfl

theorem run_group {n : ℕ} {P : Pattern α} : (Pattern.group n P).run k g s =
    P.run (fun g t => k (Function.update g n (some (s.take (s.length - t.length)))) t) g s := rfl

theorem run_one_cons {p : α → Bool} {c : α} (hc : p c = true) : (Pattern.one p).run k g (c :: s) = k g s := by
  unfold Pattern.run
  exact if_pos hc

/-- A repetition takes all it can when the rest matches after that. -/
theorem run_many_append {p : α → Bool} (hw : ∀ c ∈ w, p c = true) (ht : ∀ c ∈ t.head?, p c = false)
    (hk : k g t = some r) : (Pattern.many p).run k g (w ++ t) = some r := by
  show runMany p k g (w ++ t) = some r
  induction w with
  | nil =>
    cases t with
    | nil => exact hk
    | cons c t =>
      rw [List.nil_append, runMany, if_neg (by simp [ht c rfl])]
      exact hk
  | cons c w ih =>
    rw [List.forall_mem_cons] at hw
    rw [List.cons_append, runMany, if_pos hw.1, ih hw.2, Option.some_or]

theorem run_many_none {p : α → Bool} (hs : ∀ c ∈ s.head?, p c = false) : (Pattern.many p).run k g s = k g s := by
  show runMany p k g s = k g s
  cases s with
  | nil => rfl
  | cons c s => rw [runMany, if_neg (by simp [hs c rfl])]

/-- What is there is taken, if the rest matches after it. -/
theorem run_opt_some {P : Pattern α} (h : P.run k g s = some r) : P.opt.run k g s = some r := by
  show (P.run k g s).or (k g s) = some r
  rw [h, Option.some_or]

/-- What is not there is left out. -/
theorem run_opt_none {P : Pattern α} (h : ∀ w t, s = w ++ t → ¬ P.Matches w) : P.opt.run k g s = k g s := by
  have hnone : P.run k g s = none := by
    cases hr : P.run k g s with
    | none => rfl
    | some r =>
      obtain ⟨w, t, -, hs, hw, -⟩ := Pattern.exists_of_run hr
      exact absurd hw (h w t hs)
  show (P.run k g s).or (k g s) = k g s
  rw [hnone, Option.none_or]

/-- What a group holds when `s` is left of a text. -/
theorem captured_append : (w ++ s).take ((w ++ s).length - s.length) = w := by
  rw [List.length_append, Nat.add_sub_cancel, List.take_left]

end

/-- The groups of a match of the whole text; `stop` accepts what is left of it. -/
def Pattern.whole (P : Pattern α) (stop : List α → Bool) (s : List α) : Option (Groups α) :=
  P.run (fun g t => if stop t then some g else none) (fun _ => none) s

end Captures
