import Mathlib.Computability.RegularExpressions

/-!
# Patterns

The usual operators of patterns as regular expressions, and which words they
match.
-/

namespace Patterns

open RegularExpression

variable {α : Type*}

/-- Any one of some characters. -/
def oneOf (l : List α) : RegularExpression α := (l.map char).sum

def word (l : List α) : RegularExpression α := (l.map char).prod

/-- `P?` -/
def opt (P : RegularExpression α) : RegularExpression α := 1 + P

/-- `P+` -/
def some1 (P : RegularExpression α) : RegularExpression α := P * P.star

/-- The characters of an expression. -/
def letters : RegularExpression α → List α
  | .zero => []
  | .epsilon => []
  | .char a => [a]
  | .plus P Q => letters P ++ letters Q
  | .comp P Q => letters P ++ letters Q
  | .star P => letters P

/-- A word that matches has no other characters. -/
theorem mem_letters {P : RegularExpression α} {x : List α} (hx : x ∈ P.matches') {c : α} (hc : c ∈ x) :
    c ∈ letters P := by
  induction P generalizing x with
  | zero => exact absurd hx (Language.notMem_zero x)
  | epsilon =>
    have : x = [] := hx
    simp [this] at hc
  | char a =>
    have : x = [a] := hx
    simpa [this, letters] using hc
  | plus P Q ihp ihq =>
    rcases hx with hx | hx
    · exact List.mem_append_left _ (ihp hx hc)
    · exact List.mem_append_right _ (ihq hx hc)
  | comp P Q ihp ihq =>
    obtain ⟨y, hy, z, hz, rfl⟩ := hx
    rcases List.mem_append.mp hc with hc | hc
    · exact List.mem_append_left _ (ihp hy hc)
    · exact List.mem_append_right _ (ihq hz hc)
  | star P ih =>
    obtain ⟨L, rfl, hL⟩ := Language.mem_kstar.mp hx
    obtain ⟨y, hy, hc⟩ := List.mem_flatten.mp hc
    exact ih (hL y hy) hc

theorem mem_char {a : α} {x : List α} : x ∈ (char a).matches' ↔ x = [a] := Iff.rfl

theorem mem_oneOf {l : List α} {x : List α} : x ∈ (oneOf l).matches' ↔ ∃ c ∈ l, x = [c] := by
  unfold oneOf
  induction l with
  | nil => simp [Language.notMem_zero]
  | cons a l ih =>
    rw [List.map_cons, List.sum_cons, matches'_add, Language.mem_add, ih, mem_char, List.exists_mem_cons_iff]

/-- The first character of a word that begins with one of some characters. -/
theorem head_mem_of_oneOf_mul {l x : List α} {L : Language α} (hx : x ∈ (oneOf l).matches' * L) :
    ∃ c ∈ l, x.head? = some c := by
  obtain ⟨y, hy, z, -, rfl⟩ := Language.mem_mul.mp hx
  obtain ⟨c, hc, rfl⟩ := mem_oneOf.mp hy
  exact ⟨c, hc, rfl⟩

section
variable [DecidableEq α]

theorem rmatch_eq_false {P : RegularExpression α} {x : List α} (h : x ∉ P.matches') : P.rmatch x = false := by
  rw [← Bool.not_eq_true, rmatch_iff_matches']
  exact h

theorem rmatch_eq_false_of_letter {P : RegularExpression α} {x : List α} {c : α} (hc : c ∈ x)
    (hP : c ∉ letters P) : P.rmatch x = false :=
  rmatch_eq_false fun hx => hP (mem_letters hx hc)

end

end Patterns
