import Mathlib

/-!
# Maps as entries in key order

An ordered map whose values are part of the type being defined cannot be a
tree with an order proof inside. It is the list of its entries, in key order:
`put` keeps the order, and a list built by `put` from entries that are already
in order is that list.
-/

namespace Keyed

variable {κ α γ : Type} [Ord κ]

/-- Insert an entry, or replace the value of an existing one. -/
def put (k : κ) (v : α) : List (κ × α) → List (κ × α)
  | [] => [(k, v)]
  | (k', v') :: l =>
    match compare k k' with
    | .lt => (k, v) :: (k', v') :: l
    | .eq => (k, v) :: l
    | .gt => (k', v') :: put k v l

def find (k : κ) : List (κ × α) → Option α
  | [] => none
  | (k', v) :: l => if compare k k' = .eq then some v else find k l

/-- Put every entry of the second list into the first. -/
def putAll (m : List (κ × α)) (l : List (κ × α)) : List (κ × α) := l.foldl (fun m e => put e.1 e.2 m) m

def Ordered (l : List (κ × α)) : Prop := l.Pairwise fun a b => compare a.1 b.1 = .lt

theorem putAll_nil (m : List (κ × α)) : putAll m [] = m := rfl

theorem putAll_cons (m : List (κ × α)) (e : κ × α) (l : List (κ × α)) :
    putAll m (e :: l) = putAll (put e.1 e.2 m) l := rfl

theorem ordered_map (f : α → γ) {l : List (κ × α)} :
    Ordered (l.map fun e => (e.1, f e.2)) ↔ Ordered l := List.pairwise_map

theorem filterMap_ordered {f : κ → α → Option γ} {l : List (κ × α)} (hl : Ordered l) :
    Ordered (l.filterMap fun e => (f e.1 e.2).map fun v => (e.1, v)) := by
  apply List.Pairwise.filterMap _ _ hl
  rintro a a' haa' b hb b' hb'
  obtain ⟨v, -, rfl⟩ := Option.map_eq_some_iff.mp hb
  obtain ⟨v', -, rfl⟩ := Option.map_eq_some_iff.mp hb'
  exact haa'

theorem mem_keys_put [Std.LawfulEqOrd κ] {j k : κ} {v : α} {m : List (κ × α)} (h : j = k ∨ j ∈ m.map Prod.fst) :
    j ∈ (put k v m).map Prod.fst := by
  induction m with
  | nil => simpa [put] using h
  | cons a m ih =>
    unfold put
    rw [List.map_cons, List.mem_cons] at h
    split
    · simpa using h
    · rename_i heq
      have := Std.LawfulEqCmp.eq_of_compare heq
      rcases h with h | h | h <;> simp [h, this]
    · rcases h with h | h | h
      · exact List.mem_cons_of_mem _ (ih (.inl h))
      · simp [h]
      · exact List.mem_cons_of_mem _ (ih (.inr h))

theorem mem_keys_putAll [Std.LawfulEqOrd κ] {j : κ} {m l : List (κ × α)} (h : j ∈ m.map Prod.fst ∨ j ∈ l.map Prod.fst) :
    j ∈ (putAll m l).map Prod.fst := by
  induction l generalizing m with
  | nil => simpa [putAll_nil] using h
  | cons e l ih =>
    rw [putAll_cons]
    rw [List.map_cons, List.mem_cons] at h
    rcases h with h | h | h
    · exact ih (.inl (mem_keys_put (.inr h)))
    · exact ih (.inl (mem_keys_put (.inl h)))
    · exact ih (.inr h)

theorem put_fst_lt {k k₀ : κ} {v : α} {l : List (κ × α)} (hk : compare k₀ k = .lt)
    (hl : ∀ e ∈ l, compare k₀ e.1 = .lt) : ∀ e ∈ put k v l, compare k₀ e.1 = .lt := by
  induction l with
  | nil => intro e he; rw [List.mem_singleton.mp he]; exact hk
  | cons a l ih =>
    intro e he
    unfold put at he
    split at he
    · rcases List.mem_cons.mp he with rfl | he
      · exact hk
      · exact hl e he
    · rcases List.mem_cons.mp he with rfl | he
      · exact hk
      · exact hl e (List.mem_cons_of_mem _ he)
    · rcases List.mem_cons.mp he with rfl | he
      · exact hl _ (List.mem_cons_self ..)
      · exact ih (fun e he => hl e (List.mem_cons_of_mem _ he)) e he

section
variable [Std.TransOrd κ]

theorem put_ordered {k : κ} {v : α} {l : List (κ × α)} (h : Ordered l) : Ordered (put k v l) := by
  induction l with
  | nil => exact List.pairwise_singleton _ _
  | cons a l ih =>
    obtain ⟨ha, hl⟩ := List.pairwise_cons.mp h
    unfold put
    split
    · rename_i hlt
      refine List.pairwise_cons.mpr ⟨fun e he => ?_, h⟩
      rcases List.mem_cons.mp he with rfl | he
      · exact hlt
      · exact Std.TransCmp.lt_trans hlt (ha e he)
    · rename_i heq
      exact List.pairwise_cons.mpr ⟨fun e he => Std.TransCmp.lt_of_eq_of_lt heq (ha e he), hl⟩
    · rename_i hgt
      exact List.pairwise_cons.mpr ⟨put_fst_lt (Std.OrientedCmp.lt_of_gt hgt) ha, ih hl⟩

theorem putAll_ordered {m l : List (κ × α)} (h : Ordered m) : Ordered (putAll m l) := by
  induction l generalizing m with
  | nil => exact h
  | cons e l ih => exact ih (put_ordered h)

theorem put_last {k : κ} {v : α} {l : List (κ × α)} (h : ∀ e ∈ l, compare e.1 k = .lt) :
    put k v l = l ++ [(k, v)] := by
  induction l with
  | nil => rfl
  | cons a l ih =>
    have hgt : compare k a.1 = .gt := Std.OrientedCmp.gt_of_lt (h a (List.mem_cons_self ..))
    simp only [put, hgt, List.cons_append]
    rw [ih fun e he => h e (List.mem_cons_of_mem _ he)]

theorem putAll_append {m l : List (κ × α)} (h : Ordered (m ++ l)) : putAll m l = m ++ l := by
  induction l generalizing m with
  | nil => simp [putAll_nil]
  | cons e l ih =>
    have hm : ∀ a ∈ m, compare a.1 e.1 = .lt := fun a ha =>
      (List.pairwise_append.mp h).2.2 a ha e (List.mem_cons_self ..)
    have hcat : m ++ e :: l = (m ++ [e]) ++ l := by simp
    rw [putAll_cons, put_last hm, ih (by rw [← hcat]; exact h), ← hcat]

/-- Entries in order, put one by one into an empty map, are that map. -/
theorem putAll_of_ordered {l : List (κ × α)} (h : Ordered l) : putAll [] l = l := putAll_append h

theorem find_put_self (k : κ) (v : α) (l : List (κ × α)) : find k (put k v l) = some v := by
  induction l with
  | nil => simp [put, find]
  | cons a l ih =>
    unfold put
    split
    · simp [find]
    · simp [find]
    · rename_i hgt
      simp [find, hgt, ih]

theorem find_put_of_ne {k j : κ} (h : compare j k ≠ .eq) (v : α) (l : List (κ × α)) :
    find j (put k v l) = find j l := by
  induction l with
  | nil => simp [put, find, h]
  | cons a l ih =>
    unfold put
    split
    · simp [find, h]
    · rename_i heq
      have hja : compare j a.1 ≠ .eq := fun e => h (Std.TransCmp.eq_trans e (Std.OrientedCmp.eq_symm heq))
      simp [find, h, hja]
    · simp only [find, ih]

theorem find_putAll_of_notMem {j : κ} {l : List (κ × α)} (h : ∀ e ∈ l, compare j e.1 ≠ .eq)
    (m : List (κ × α)) : find j (putAll m l) = find j m := by
  induction l generalizing m with
  | nil => rfl
  | cons e l ih =>
    rw [putAll_cons, ih fun e he => h e (List.mem_cons_of_mem _ he)]
    exact find_put_of_ne (h e (List.mem_cons_self ..)) e.2 m

/-- What an update writes is what is found afterwards, if no key comes twice. -/
theorem find_putAll_of_distinct {e : κ × α} {l : List (κ × α)} (hl : l.Pairwise fun a b => compare a.1 b.1 ≠ .eq)
    (he : e ∈ l) (m : List (κ × α)) : find e.1 (putAll m l) = some e.2 := by
  induction l generalizing m with
  | nil => cases he
  | cons a l ih =>
    obtain ⟨ha, hl⟩ := List.pairwise_cons.mp hl
    rw [putAll_cons]
    rcases List.mem_cons.mp he with rfl | he
    · rw [find_putAll_of_notMem ha, find_put_self]
    · exact ih hl he _

omit [Std.TransOrd κ] in
theorem Ordered.distinct {l : List (κ × α)} (hl : Ordered l) : l.Pairwise fun a b => compare a.1 b.1 ≠ .eq := by
  apply hl.imp
  intro a b h he
  rw [he] at h
  cases h

theorem compare_self (k : κ) : compare k k = .eq := Std.ReflCmp.compare_self

theorem find_of_mem {l : List (κ × α)} (hl : Ordered l) {e : κ × α} (he : e ∈ l) : find e.1 l = some e.2 := by
  induction l with
  | nil => cases he
  | cons a l ih =>
    obtain ⟨ha, hl⟩ := List.pairwise_cons.mp hl
    unfold find
    rcases List.mem_cons.mp he with rfl | he
    · rw [if_pos (compare_self _)]
    · rw [if_neg, ih hl he]
      rw [Std.OrientedCmp.gt_of_lt (ha e he)]
      nofun

variable [Std.LawfulEqOrd κ]

omit [Std.TransOrd κ] in
theorem mem_of_find {k : κ} {v : α} {l : List (κ × α)} (h : find k l = some v) : (k, v) ∈ l := by
  induction l with
  | nil => cases h
  | cons a l ih =>
    unfold find at h
    by_cases hk : compare k a.1 = .eq
    · rw [if_pos hk] at h
      rw [Std.LawfulEqCmp.eq_of_compare hk]
      cases h
      exact List.mem_cons_self ..
    · rw [if_neg hk] at h
      exact List.mem_cons_of_mem _ (ih h)

/-- Maps that hold the same under every key are the same. -/
theorem eq_of_find {l m : List (κ × α)} (hl : Ordered l) (hm : Ordered m) (h : ∀ k, find k l = find k m) :
    l = m := by
  have hsub : ∀ {l m : List (κ × α)}, Ordered l → (∀ k, find k l = find k m) → ∀ e ∈ l, e ∈ m := by
    intro l m hl h e he
    apply mem_of_find
    rw [← h, find_of_mem hl he]
  have hirr : Std.Irrefl fun a b : κ × α => compare a.1 b.1 = .lt :=
    ⟨fun a h => by rw [compare_self] at h; cases h⟩
  have hanti : Std.Antisymm fun a b : κ × α => compare a.1 b.1 = .lt :=
    ⟨fun a b hab hba => by rw [Std.OrientedCmp.gt_of_lt hab] at hba; cases hba⟩
  apply List.Pairwise.eq_of_mem_iff hl hm
  exact fun e => ⟨hsub hl h e, hsub hm (fun k => (h k).symm) e⟩

/-- Entries in any order, put one by one into an empty map. -/
theorem putAll_of_perm {l l' : List (κ × α)} (hl : Ordered l) (hp : l'.Perm l) : putAll [] l' = l := by
  have hdistinct : l'.Pairwise fun a b => compare a.1 b.1 ≠ .eq := by
    rw [hp.pairwise_iff]
    · exact hl.distinct
    · exact fun h he => h (Std.OrientedCmp.eq_symm he)
  apply eq_of_find (putAll_ordered List.Pairwise.nil) hl
  intro k
  cases hk : find k l with
  | some v =>
    have hmem := mem_of_find hk
    exact find_putAll_of_distinct (e := (k, v)) hdistinct (hp.mem_iff.mpr hmem) []
  | none =>
    rw [find_putAll_of_notMem]
    · rfl
    · intro e he heq
      have := find_of_mem hl (hp.mem_iff.mp he)
      rw [← Std.LawfulEqCmp.eq_of_compare heq, hk] at this
      cases this

theorem find_filterMap (f : κ → α → Option γ) {l : List (κ × α)} (hl : Ordered l) (k : κ) :
    find k (l.filterMap fun e => (f e.1 e.2).map fun v => (e.1, v)) = (find k l).bind (f k) := by
  induction l with
  | nil => rfl
  | cons a l ih =>
    obtain ⟨ha, hl⟩ := List.pairwise_cons.mp hl
    rw [List.filterMap_cons]
    by_cases hk : compare k a.1 = .eq
    · have hka := Std.LawfulEqCmp.eq_of_compare hk
      subst hka
      have htail : find a.1 l = none := by
        by_contra hne
        obtain ⟨v, hv⟩ := Option.ne_none_iff_exists'.mp hne
        have := ha _ (mem_of_find hv)
        rw [compare_self] at this
        cases this
      cases hf : f a.1 a.2 with
      | none => simp [find, hf, ih hl, htail]
      | some v => simp [find, hf]
    · cases hf : f a.1 a.2 with
      | none => simp [find, hk, ih hl]
      | some v => simp [find, hk, ih hl]

end

/-! ## Trees -/

section
variable [Std.TransOrd κ] [Std.LawfulEqOrd κ]

/-- The entries of a map, inserted in any order. -/
theorem treeMap_ofList_of_perm {m : Std.ExtTreeMap κ α compare} {l : List (κ × α)} (h : l.Perm m.toList) :
    Std.ExtTreeMap.ofList l compare = m := by
  have hdistinct : l.Pairwise fun a b => ¬ compare a.1 b.1 = .eq :=
    (h.pairwise_iff fun hne heq => hne (Std.OrientedCmp.eq_symm heq)).mpr Std.ExtTreeMap.distinct_keys_toList
  refine Std.ExtTreeMap.ext_getElem? fun k => Option.ext fun v => ?_
  rw [← Std.ExtTreeMap.mem_toList_iff_getElem?_eq_some (t := m), ← h.mem_iff]
  refine ⟨fun hv => ?_, Std.ExtTreeMap.getElem?_ofList_of_mem (compare_self k) hdistinct⟩
  have hmem : k ∈ Std.ExtTreeMap.ofList l compare := Std.ExtTreeMap.mem_iff_isSome_getElem?.mpr (by rw [hv]; rfl)
  classical
  rw [Std.ExtTreeMap.mem_ofList, List.contains_iff_mem] at hmem
  obtain ⟨⟨k', w⟩, hw, rfl⟩ := List.mem_map.mp hmem
  rw [Std.ExtTreeMap.getElem?_ofList_of_mem (compare_self k') hdistinct hw] at hv
  exact Option.some.inj hv ▸ hw

theorem treeSet_ofList_of_perm {s : Std.ExtTreeSet κ compare} {l : List κ} (h : l.Perm s.toList) :
    Std.ExtTreeSet.ofList l compare = s := by
  refine Std.ExtTreeSet.ext_mem fun k => ?_
  rw [← Std.ExtTreeSet.mem_toList (t := s), ← h.mem_iff]
  classical
  rw [Std.ExtTreeSet.mem_ofList, List.contains_iff_mem]

end

/-! ## Values filed under their own names -/

/-- A map that files every value under the key that the value itself names. -/
structure Filed (κ α : Type) [Ord κ] [Std.TransOrd κ] (name : α → κ) where
  map : Std.ExtTreeMap κ α compare
  filed : ∀ k v, map[k]? = some v → name v = k

namespace Filed

section
variable [Std.TransOrd κ] {name : α → κ}

def empty : Filed κ α name := ⟨∅, by simp⟩

def get? (m : Filed κ α name) (k : κ) : Option α := m.map[k]?

/-- The values in key order. -/
def values (m : Filed κ α name) : List α := m.map.toList.map Prod.snd

def erase (m : Filed κ α name) (k : κ) : Filed κ α name where
  map := m.map.erase k
  filed j w h := by
    rw [Std.ExtTreeMap.getElem?_erase] at h
    split at h
    · cases h
    · exact m.filed j w h

theorem name_of_get? {m : Filed κ α name} {k : κ} {v : α} (h : m.get? k = some v) : name v = k := m.filed k v h

variable [Std.LawfulEqOrd κ]

def insertOrAssign (m : Filed κ α name) (v : α) : Filed κ α name where
  map := m.map.insert (name v) v
  filed k w h := by
    rw [Std.ExtTreeMap.getElem?_insert] at h
    split at h
    · rw [← Option.some.inj h]; exact Std.LawfulEqCmp.eq_of_compare ‹_›
    · exact m.filed k w h

def ofList (l : List α) : Filed κ α name := l.foldl insertOrAssign empty

/-- Every value changed where it is filed. -/
def mapValues (f : α → α) (hf : ∀ v, name (f v) = name v) (m : Filed κ α name) : Filed κ α name where
  map := m.map.map fun _ v => f v
  filed k v h := by
    rw [Std.ExtTreeMap.getElem?_map, Option.map_eq_some_iff] at h
    obtain ⟨w, hw, rfl⟩ := h
    rw [hf, m.filed k w hw]

/-- `insert`, which leaves an existing value alone. -/
def insertIfNew (m : Filed κ α name) (v : α) : Filed κ α name :=
  if name v ∈ m.map then m else m.insertOrAssign v

def insertAll (m other : Filed κ α name) : Filed κ α name := other.values.foldl insertIfNew m

variable {m : Filed κ α name}

theorem mem_values {v : α} : v ∈ m.values ↔ m.get? (name v) = some v := by
  unfold values get?
  refine ⟨fun h => ?_, fun h => List.mem_map.mpr ⟨_, Std.ExtTreeMap.mem_toList_iff_getElem?_eq_some.mpr h, rfl⟩⟩
  obtain ⟨⟨k, w⟩, hk, rfl⟩ := List.mem_map.mp h
  have hget := Std.ExtTreeMap.mem_toList_iff_getElem?_eq_some.mp hk
  rw [m.filed k w hget]
  exact hget

theorem get?_mapValues (f : α → α) (hf : ∀ v, name (f v) = name v) (k : κ) :
    (m.mapValues f hf).get? k = (m.get? k).map f := by
  unfold get? mapValues
  exact Std.ExtTreeMap.getElem?_map

theorem get?_insertOrAssign_self (v : α) : (m.insertOrAssign v).get? (name v) = some v := by
  simp [get?, insertOrAssign]

theorem get?_insertOrAssign_of_ne {k : κ} {v : α} (h : name v ≠ k) :
    (m.insertOrAssign v).get? k = m.get? k := by
  simp [get?, insertOrAssign, Std.ExtTreeMap.getElem?_insert, h]

theorem values_ordered : m.values.Pairwise fun v w => compare (name v) (name w) = .lt := by
  rw [values, List.pairwise_map]
  refine Std.ExtTreeMap.ordered_keys_toList.imp_of_mem ?_
  intro a b ha hb hlt
  have hname : ∀ e ∈ m.map.toList, name e.2 = e.1 := fun e he =>
    m.filed e.1 e.2 (Std.ExtTreeMap.mem_toList_iff_getElem?_eq_some.mp he)
  rw [hname a ha, hname b hb]
  exact hlt

theorem get?_foldl_of_ne {l : List α} {k : κ} (h : ∀ v ∈ l, name v ≠ k) : (l.foldl insertOrAssign m).get? k = m.get? k := by
  induction l generalizing m with
  | nil => rfl
  | cons a l ih =>
    rw [List.foldl_cons, ih fun v hv => h v (List.mem_cons_of_mem _ hv)]
    exact get?_insertOrAssign_of_ne (h a (List.mem_cons_self ..))

theorem get?_foldl_of_mem {l : List α} {v : α} (h : l.Pairwise fun v w => name v ≠ name w) (hv : v ∈ l) :
    (l.foldl insertOrAssign m).get? (name v) = some v := by
  induction l generalizing m with
  | nil => cases hv
  | cons a l ih =>
    obtain ⟨ha, hl⟩ := List.pairwise_cons.mp h
    rcases List.mem_cons.mp hv with rfl | hv
    · rw [List.foldl_cons, get?_foldl_of_ne fun w hw => (ha w hw).symm, get?_insertOrAssign_self]
    · exact ih hl hv

/-- Values in the order of their keys, inserted one by one into an empty map. -/
theorem values_ofList {l : List α} (h : l.Pairwise fun v w => compare (name v) (name w) = .lt) :
    (ofList l : Filed κ α name).values = l := by
  have hirr : Std.Irrefl fun v w : α => compare (name v) (name w) = .lt :=
    ⟨fun v h => by rw [compare_self] at h; cases h⟩
  have hanti : Std.Antisymm fun v w : α => compare (name v) (name w) = .lt :=
    ⟨fun v w hvw hwv => by rw [Std.OrientedCmp.gt_of_lt hvw] at hwv; cases hwv⟩
  have hne : l.Pairwise fun v w => name v ≠ name w := by
    refine h.imp fun {v w} hlt heq => ?_
    rw [heq, compare_self] at hlt
    cases hlt
  refine List.Pairwise.eq_of_mem_iff values_ordered h fun v => ?_
  rw [mem_values]
  refine ⟨fun hget => ?_, get?_foldl_of_mem hne⟩
  by_cases hname : ∃ w ∈ l, name w = name v
  · obtain ⟨w, hw, hname⟩ := hname
    rw [← hname, ofList, get?_foldl_of_mem hne hw] at hget
    exact Option.some.inj hget ▸ hw
  · rw [ofList, get?_foldl_of_ne fun w hw heq => hname ⟨w, hw, heq⟩] at hget
    simp [get?, empty] at hget

theorem ext_get? {m m' : Filed κ α name} (h : ∀ k, m.get? k = m'.get? k) : m = m' := by
  cases m; cases m'
  congr 1
  exact Std.ExtTreeMap.ext_getElem? h

theorem ofList_of_perm {l : List α} (h : l.Perm m.values) : ofList l = m := by
  have hne : l.Pairwise fun v w => name v ≠ name w := by
    refine (h.pairwise_iff fun hne heq => hne heq.symm).mpr (values_ordered.imp fun {v w} hlt heq => ?_)
    rw [heq, compare_self] at hlt
    cases hlt
  refine ext_get? fun k => ?_
  by_cases hk : ∃ v ∈ l, name v = k
  · obtain ⟨v, hv, rfl⟩ := hk
    rw [ofList, get?_foldl_of_mem hne hv, mem_values.mp (h.mem_iff.mp hv)]
  · rw [ofList, get?_foldl_of_ne fun v hv heq => hk ⟨v, hv, heq⟩]
    cases hget : m.get? k with
    | none => simp [get?, empty]
    | some v =>
      have hname := name_of_get? hget
      exact absurd ⟨v, h.mem_iff.mpr (mem_values.mpr (hname ▸ hget)), hname⟩ hk

end

end Filed

end Keyed
