import CommonCore.Keyed

/-!
# Nested maps

Values that may be maps of values. `delta` keeps of a map what a base does not
have, and `merge` fills in from the base what a map does not have; both descend
where two maps meet. What happens to other values is given by `skip` and
`absent`. The base merged into the delta is the map again if and only if that
is so for each value that is not one of two maps (`merge_delta_iff`).
-/

namespace Nested

open Keyed

variable {K V : Type}

/-- Which values are maps. -/
structure Shape (K V : Type) where
  entries : V → Option (List (K × V))
  wrap : List (K × V) → V
  entries_wrap : ∀ l, entries (wrap l) = some l
  wrap_entries : ∀ v l, entries v = some l → wrap l = v
  founded : ∃ size : V → ℕ, ∀ v l, entries v = some l → ∀ e ∈ l, size e.2 < size v

namespace Shape

variable (N : Shape K V)

noncomputable def size : V → ℕ := N.founded.choose

theorem size_lt (v : V) (l : List (K × V)) (h : N.entries v = some l) : ∀ e ∈ l, N.size e.2 < N.size v :=
  N.founded.choose_spec v l h

/-- The largest value in a map. -/
noncomputable def height (m : List (K × V)) : ℕ := (m.map fun e => N.size e.2 + 1).foldr max 0

theorem lt_height {m : List (K × V)} {e : K × V} (he : e ∈ m) : N.size e.2 < N.height m := by
  induction m with
  | nil => cases he
  | cons a m ih =>
    unfold height
    simp only [List.map_cons, List.foldr_cons]
    rcases List.mem_cons.mp he with rfl | he
    · exact lt_of_lt_of_le (Nat.lt_succ_self _) (le_max_left _ _)
    · exact lt_of_lt_of_le (ih he) (le_max_right _ _)

theorem height_le {m : List (K × V)} {n : ℕ} (h : ∀ e ∈ m, N.size e.2 < n) : N.height m ≤ n := by
  induction m with
  | nil => exact Nat.zero_le n
  | cons a m ih =>
    unfold height
    simp only [List.map_cons, List.foldr_cons]
    apply max_le
    · exact h a (List.mem_cons_self ..)
    · exact ih fun e he => h e (List.mem_cons_of_mem _ he)

theorem height_lt {m l : List (K × V)} {e : K × V} (he : e ∈ m) (hl : N.entries e.2 = some l) :
    N.height l < N.height m :=
  lt_of_le_of_lt (N.height_le (N.size_lt e.2 l hl)) (N.lt_height he)

variable [Ord K] (skip : V → Option V → Bool) (absent : V → Bool)

def delta (m base : List (K × V)) : List (K × V) :=
  m.attach.filterMap fun e =>
    match _h : N.entries e.1.2, (find e.1.1 base).bind N.entries with
    | some l, some l' => if (delta l l').isEmpty then none else some (e.1.1, N.wrap (delta l l'))
    | _, _ => if skip e.1.2 (find e.1.1 base) then none else some e.1
termination_by N.height m
decreasing_by all_goals exact N.height_lt e.2 _h

def merge (this other : List (K × V)) : List (K × V) :=
  other.attach.foldl (fun this e =>
    match find e.1.1 this with
    | none => put e.1.1 e.1.2 this
    | some v =>
      match N.entries v, _h : N.entries e.1.2 with
      | some l, some l' => put e.1.1 (N.wrap (merge l l')) this
      | _, _ => if absent v then put e.1.1 e.1.2 this else this) this
termination_by N.height other
decreasing_by exact N.height_lt e.2 _h

/-! ## One key at a time -/

/-- The value in the delta, or `none` where it is left out. -/
def deltaAt (v : V) (b : Option V) : Option V :=
  match N.entries v, b.bind N.entries with
  | some l, some l' => if (N.delta skip l l').isEmpty then none else some (N.wrap (N.delta skip l l'))
  | _, _ => if skip v b then none else some v

def mergeAt (v w : V) : V :=
  match N.entries v, N.entries w with
  | some l, some l' => N.wrap (N.merge absent l l')
  | _, _ => if absent v then w else v

theorem delta_eq (m base : List (K × V)) :
    N.delta skip m base = m.filterMap fun e => (N.deltaAt skip e.2 (find e.1 base)).map fun v => (e.1, v) := by
  rw [delta]
  conv => rhs; rw [← List.attach_map_subtype_val m, List.filterMap_map]
  apply List.filterMap_congr
  rintro ⟨e, he⟩ -
  simp only [Function.comp_apply]
  unfold deltaAt
  cases N.entries e.2 with
  | none => by_cases hs : skip e.2 (find e.1 base) <;> simp [hs]
  | some l =>
    cases (find e.1 base).bind N.entries with
    | none => by_cases hs : skip e.2 (find e.1 base) <;> simp [hs]
    | some l' => by_cases hs : (N.delta skip l l').isEmpty <;> simp [hs]

/-- One round of `merge`. -/
def fill (this : List (K × V)) (e : K × V) : List (K × V) :=
  match find e.1 this with
  | none => put e.1 e.2 this
  | some v =>
    match N.entries v, N.entries e.2 with
    | some l, some l' => put e.1 (N.wrap (N.merge absent l l')) this
    | _, _ => if absent v then put e.1 e.2 this else this

theorem merge_eq (this other : List (K × V)) : N.merge absent this other = other.foldl (N.fill absent) this := by
  rw [merge]
  conv => rhs; rw [← List.attach_map_subtype_val other, List.foldl_map]
  congr 1
  funext t e
  unfold fill
  cases find e.1.1 t with
  | none => rfl
  | some v =>
    simp only
    cases N.entries v with
    | none => rfl
    | some l => cases N.entries e.1.2 <;> rfl

section
variable [Std.TransOrd K]

theorem find_fill (this : List (K × V)) (e : K × V) :
    find e.1 (N.fill absent this e) = some (match find e.1 this with
      | none => e.2
      | some v => N.mergeAt absent v e.2) := by
  unfold fill
  cases hf : find e.1 this with
  | none => exact find_put_self ..
  | some v =>
    have hleaf : find e.1 (if absent v then put e.1 e.2 this else this) = some (if absent v then e.2 else v) := by
      by_cases ha : absent v = true
      · rw [if_pos ha, if_pos ha, find_put_self]
      · rw [if_neg ha, if_neg ha, hf]
    unfold mergeAt
    dsimp only
    cases N.entries v with
    | none => exact hleaf
    | some l =>
      cases N.entries e.2 with
      | none => exact hleaf
      | some l' => exact find_put_self ..

theorem find_fill_of_ne {k : K} {e : K × V} (h : compare k e.1 ≠ .eq) (this : List (K × V)) :
    find k (N.fill absent this e) = find k this := by
  unfold fill
  split
  · exact find_put_of_ne h ..
  · split
    · exact find_put_of_ne h ..
    · split
      · exact find_put_of_ne h ..
      · rfl

theorem fill_ordered {this : List (K × V)} (h : Ordered this) (e : K × V) : Ordered (N.fill absent this e) := by
  unfold fill
  split
  · exact put_ordered h
  · split
    · exact put_ordered h
    · split
      · exact put_ordered h
      · exact h

theorem merge_ordered {this : List (K × V)} (h : Ordered this) (other : List (K × V)) :
    Ordered (N.merge absent this other) := by
  rw [merge_eq]
  induction other generalizing this with
  | nil => exact h
  | cons e other ih => exact ih (N.fill_ordered absent h e)

variable [Std.LawfulEqOrd K]

theorem find_delta {m : List (K × V)} (hm : Ordered m) (base : List (K × V)) (k : K) :
    find k (N.delta skip m base) = (find k m).bind fun v => N.deltaAt skip v (find k base) := by
  rw [delta_eq]
  exact find_filterMap (fun k v => N.deltaAt skip v (find k base)) hm k

/-- What `merge` leaves under a key. -/
theorem find_merge {other : List (K × V)} (ho : Ordered other) (this : List (K × V)) (k : K) :
    find k (N.merge absent this other) = match find k other, find k this with
      | none, v => v
      | some w, none => some w
      | some w, some v => some (N.mergeAt absent v w) := by
  rw [merge_eq]
  induction other generalizing this with
  | nil => rfl
  | cons e other ih =>
    obtain ⟨he, ho⟩ := List.pairwise_cons.mp ho
    rw [List.foldl_cons, ih ho]
    by_cases hk : compare k e.1 = .eq
    · have hke := Std.LawfulEqCmp.eq_of_compare hk
      subst hke
      have hnone : find e.1 other = none := by
        by_contra hne
        obtain ⟨v, hv⟩ := Option.ne_none_iff_exists'.mp hne
        have := he _ (mem_of_find hv)
        rw [compare_self] at this
        cases this
      rw [hnone, find_fill, find, if_pos hk]
      cases find e.1 this <;> rfl
    · rw [find_fill_of_ne _ _ hk, find, if_neg hk]

theorem merge_nil {other : List (K × V)} (ho : Ordered other) : N.merge absent [] other = other := by
  apply eq_of_find (N.merge_ordered absent List.Pairwise.nil other) ho
  intro k
  rw [find_merge _ _ ho]
  cases find k other <;> rfl

end

/-! ## Is the map restored? -/

/-- In key order, at every level. -/
inductive Sorted : List (K × V) → Prop
  | mk {m} : Ordered m → (∀ e ∈ m, ∀ l, N.entries e.2 = some l → Sorted l) → Sorted m

/-- Every key of the base is in the map, also where two maps meet. -/
inductive Covers : List (K × V) → List (K × V) → Prop
  | mk {m base} : (∀ k, find k m = none → find k base = none) →
      (∀ k v b l l', find k m = some v → find k base = some b → N.entries v = some l → N.entries b = some l' →
        Covers l l') →
      Covers m base

def TwoMaps (v : V) (b : Option V) : Prop := ∃ l l', N.entries v = some l ∧ b.bind N.entries = some l'

/-- Every value of the map satisfies `P` with what the base has there, unless
both are maps. -/
inductive Keeps (P : V → Option V → Prop) : List (K × V) → List (K × V) → Prop
  | mk {m base} : (∀ k v, find k m = some v → ¬ N.TwoMaps v (find k base) → P v (find k base)) →
      (∀ k v b l l', find k m = some v → find k base = some b → N.entries v = some l → N.entries b = some l' →
        Keeps P l l') →
      Keeps P m base

section
variable {N} {k : K} {v b : V}

theorem sorted_leaf (hv : N.entries v = none) : N.Sorted [(k, v)] := by
  constructor
  · exact List.pairwise_singleton ..
  · intro e he l hl
    rw [List.mem_singleton.mp he, hv] at hl
    cases hl

/-- Entries in order that are no maps. -/
theorem sorted_of_leaves {m : List (K × V)} (ho : Ordered m) (hm : ∀ e ∈ m, N.entries e.2 = none) : N.Sorted m := by
  refine .mk ho fun e he l hl => ?_
  rw [hm e he] at hl
  cases hl

variable [Std.LawfulEqOrd K]

theorem find_leaf {j : K} {w : V} (h : find j [(k, v)] = some w) : w = v ∧ j = k := by
  have := List.mem_singleton.mp (mem_of_find h)
  cases this
  exact ⟨rfl, rfl⟩

theorem covers_leaf (hv : N.entries v = none) : N.Covers [(k, v)] [(k, b)] := by
  constructor
  · intro j hj
    by_cases hjk : compare j k = .eq <;> simp [find, hjk] at hj ⊢
  · intro j w _ l _ hw _ hl _
    rw [(find_leaf hw).1, hv] at hl
    cases hl

theorem covers_of {m base : List (K × V)} (hkeys : ∀ e ∈ base, find e.1 m ≠ none)
    (hmaps : ∀ e ∈ m, ∀ e' ∈ base, e'.1 = e.1 → ∀ l l', N.entries e.2 = some l → N.entries e'.2 = some l' →
      N.Covers l l') : N.Covers m base := by
  constructor
  · intro k hk
    by_contra hne
    obtain ⟨b, hb⟩ := Option.ne_none_iff_exists'.mp hne
    exact hkeys _ (mem_of_find hb) hk
  · intro k v b l l' hv hb hl hl'
    exact hmaps _ (mem_of_find hv) _ (mem_of_find hb) rfl l l' hl hl'

theorem keeps_of {P : V → Option V → Prop} {m base : List (K × V)}
    (hleaf : ∀ e ∈ m, ¬ N.TwoMaps e.2 (find e.1 base) → P e.2 (find e.1 base))
    (hmaps : ∀ e ∈ m, ∀ e' ∈ base, e'.1 = e.1 → ∀ l l', N.entries e.2 = some l → N.entries e'.2 = some l' →
      N.Keeps P l l') : N.Keeps P m base := by
  constructor
  · intro k v hv hnot
    exact hleaf _ (mem_of_find hv) hnot
  · intro k v b l l' hv hb hl hl'
    exact hmaps _ (mem_of_find hv) _ (mem_of_find hb) rfl l l' hl hl'

end

/-- What comes back of a value that is not one of two maps. -/
def leafBack (v : V) (b : Option V) : Option V :=
  if skip v b then b
  else match b with
    | none => some v
    | some b => if absent v then some b else some v

/-- What comes back of any value. -/
def back (v : V) (b : Option V) : Option V :=
  match b, N.deltaAt skip v b with
  | none, d => d
  | some b, none => some b
  | some b, some d => some (N.mergeAt absent d b)

theorem back_leaf {v : V} {b : Option V} (h : ¬ N.TwoMaps v b) :
    N.back skip absent v b = leafBack skip absent v b := by
  have hdelta : N.deltaAt skip v b = if skip v b then none else some v := by
    unfold deltaAt
    cases hv : N.entries v with
    | none => rfl
    | some l =>
      cases hb : b.bind N.entries with
      | none => rfl
      | some l' => exact absurd ⟨l, l', hv, hb⟩ h
  unfold back leafBack
  rw [hdelta]
  by_cases hs : skip v b = true
  · rw [if_pos hs, if_pos hs]
    cases b <;> rfl
  · rw [if_neg hs, if_neg hs]
    cases b with
    | none => rfl
    | some b =>
      have hmerge : N.mergeAt absent v b = if absent v then b else v := by
        unfold mergeAt
        cases hv : N.entries v with
        | none => rfl
        | some l =>
          cases hb : N.entries b with
          | none => rfl
          | some l' => exact absurd ⟨l, l', hv, hb⟩ h
      simp only [hmerge]
      exact apply_ite some _ _ _

section
variable [Std.TransOrd K] [Std.LawfulEqOrd K]

theorem back_maps {v b : V} {l l' : List (K × V)} (hv : N.entries v = some l) (hb : N.entries b = some l')
    (hl' : Ordered l') :
    N.back skip absent v (some b) = some (N.wrap (N.merge absent (N.delta skip l l') l')) := by
  have hdelta : N.deltaAt skip v (some b) =
      if (N.delta skip l l').isEmpty then none else some (N.wrap (N.delta skip l l')) := by
    unfold deltaAt
    rw [hv, Option.bind_some, hb]
  unfold back
  rw [hdelta]
  by_cases he : (N.delta skip l l').isEmpty = true
  · rw [if_pos he, List.isEmpty_iff.mp he, N.merge_nil absent hl', N.wrap_entries b l' hb]
  · rw [if_neg he]
    simp only [mergeAt, N.entries_wrap, hb]

theorem find_merge_delta {m base : List (K × V)} (hm : Ordered m) (hb : Ordered base)
    (hc : ∀ k, find k m = none → find k base = none) (k : K) :
    find k (N.merge absent (N.delta skip m base) base) =
      (find k m).bind fun v => N.back skip absent v (find k base) := by
  rw [find_merge _ _ hb, find_delta _ _ hm]
  cases hf : find k m with
  | none =>
    rw [hc k hf]
    rfl
  | some v =>
    simp only [Option.bind_some]
    unfold back
    cases find k base with
    | none => rfl
    | some b => cases N.deltaAt skip v (some b) <;> rfl

/-- The base merged into the delta is the map again if and only if each value
is kept. -/
theorem merge_delta_iff {P : V → Option V → Prop}
    (hP : ∀ v b, ¬ N.TwoMaps v b → (leafBack skip absent v b = some v ↔ P v b))
    {m base : List (K × V)} (hm : N.Sorted m) (hb : N.Sorted base) (hc : N.Covers m base) :
    N.merge absent (N.delta skip m base) base = m ↔ N.Keeps P m base := by
  induction hm generalizing base with
  | @mk m hord hsub ih =>
    obtain ⟨hbord, hbsub⟩ := hb
    obtain ⟨hkeys, hcsub⟩ := hc
    have hdord : Ordered (N.delta skip m base) := by
      rw [delta_eq]
      exact filterMap_ordered (f := fun k v => N.deltaAt skip v (find k base)) hord
    have hfind := N.find_merge_delta skip absent hord hbord hkeys
    have hback : N.merge absent (N.delta skip m base) base = m ↔
        ∀ k v, find k m = some v → N.back skip absent v (find k base) = some v := by
      constructor
      · intro h k v hv
        have := hfind k
        rw [h, hv] at this
        exact this.symm
      · intro h
        apply eq_of_find (N.merge_ordered absent hdord base) hord
        intro k
        rw [hfind]
        cases hv : find k m with
        | none => rfl
        | some v => exact h k v hv
    -- where two maps meet, what comes back is a map, to which the induction hypothesis applies
    have hmaps : ∀ k v b l l', find k m = some v → find k base = some b → N.entries v = some l →
        N.entries b = some l' → (N.back skip absent v (some b) = some v ↔ N.Keeps P l l') := by
      intro k v b l l' hv hbk hl hl'
      have hsort := hbsub _ (mem_of_find hbk) l' hl'
      have hl'ord : Ordered l' := by
        cases hsort with
        | mk h _ => exact h
      rw [N.back_maps skip absent hl hl' hl'ord, ← ih _ (mem_of_find hv) l hl hsort (hcsub k v b l l' hv hbk hl hl')]
      constructor
      · intro h
        have := congrArg N.entries (Option.some.inj h)
        rw [N.entries_wrap, hl] at this
        exact Option.some.inj this
      · intro h
        rw [h, N.wrap_entries v l hl]
    rw [hback]
    constructor
    · intro h
      constructor
      · intro k v hv hnot
        rw [← hP v _ hnot, ← N.back_leaf skip absent hnot]
        exact h k v hv
      · intro k v b l l' hv hbk hl hl'
        rw [← hmaps k v b l l' hv hbk hl hl', ← hbk]
        exact h k v hv
    · rintro ⟨hleaf, hnest⟩ k v hv
      by_cases htwo : N.TwoMaps v (find k base)
      · obtain ⟨l, l', hl, hl'⟩ := htwo
        obtain ⟨b, hbk, hl'⟩ := Option.bind_eq_some_iff.mp hl'
        rw [hbk, hmaps k v b l l' hv hbk hl hl']
        exact hnest k v b l l' hv hbk hl hl'
      · rw [N.back_leaf skip absent htwo, hP v _ htwo]
        exact hleaf k v hv htwo

end

end Shape

end Nested
