import Mathlib

/-!
# Dictionaries in insertion order

A key that is set again keeps its place, one that is set for the first time
comes last.
-/

/-- Items with distinct keys. -/
structure Dict (κ α : Type) where
  items : List (κ × α)
  nodup : (items.map Prod.fst).Nodup

namespace Dict

variable {κ α β : Type}

theorem ext_items {d d' : Dict κ α} (h : d.items = d'.items) : d = d' := by
  cases d
  cases d'
  cases h
  rfl

def empty : Dict κ α := ⟨[], List.nodup_nil⟩

/-- The values under another name. -/
def mapValues (f : α → β) (d : Dict κ α) : Dict κ β :=
  ⟨d.items.map fun e => (e.1, f e.2), by
    rw [List.map_map]
    exact d.nodup⟩

variable [DecidableEq κ]

def setItems (k : κ) (v : α) : List (κ × α) → List (κ × α)
  | [] => [(k, v)]
  | e :: l => if e.1 = k then (k, v) :: l else e :: setItems k v l

theorem mem_keys_setItems {k k' : κ} {v : α} {l : List (κ × α)} :
    k' ∈ (setItems k v l).map Prod.fst ↔ k' = k ∨ k' ∈ l.map Prod.fst := by
  induction l with
  | nil => simp [setItems]
  | cons e l ih =>
    unfold setItems
    split_ifs with h
    · simp [h]
    · rw [List.map_cons, List.mem_cons, ih, List.map_cons, List.mem_cons, or_left_comm]

theorem mem_setItems {k : κ} {v : α} {l : List (κ × α)} {e : κ × α}
    (he : e ∈ setItems k v l) : e = (k, v) ∨ e ∈ l := by
  induction l with
  | nil => exact .inl (List.mem_singleton.mp he)
  | cons a l ih =>
    unfold setItems at he
    split_ifs at he
    · exact (List.mem_cons.mp he).imp_right (List.mem_cons_of_mem _)
    · rcases List.mem_cons.mp he with rfl | he
      · exact .inr List.mem_cons_self
      · exact (ih he).imp_right (List.mem_cons_of_mem _)

theorem nodup_setItems {k : κ} {v : α} {l : List (κ × α)} (h : (l.map Prod.fst).Nodup) :
    ((setItems k v l).map Prod.fst).Nodup := by
  induction l with
  | nil => exact List.nodup_singleton k
  | cons e l ih =>
    rw [List.map_cons, List.nodup_cons] at h
    unfold setItems
    split_ifs with hk
    · rw [List.map_cons, List.nodup_cons, ← hk]
      exact h
    · rw [List.map_cons, List.nodup_cons, mem_keys_setItems]
      exact ⟨fun he => he.elim hk h.1, ih h.2⟩

def set (d : Dict κ α) (k : κ) (v : α) : Dict κ α := ⟨setItems k v d.items, nodup_setItems d.nodup⟩

def pop (d : Dict κ α) (k : κ) : Dict κ α :=
  ⟨d.items.filter (·.1 ≠ k), (List.filter_sublist.map _).nodup d.nodup⟩

def get (d : Dict κ α) (k : κ) : Option α := (d.items.find? (·.1 = k)).map Prod.snd

theorem get_set (d : Dict κ α) (k k' : κ) (v : α) : (d.set k v).get k' = if k' = k then some v else d.get k' := by
  obtain ⟨l, hl⟩ := d
  show ((setItems k v l).find? (·.1 = k')).map Prod.snd = if k' = k then some v else (l.find? (·.1 = k')).map Prod.snd
  clear hl
  induction l with
  | nil => by_cases h : k' = k <;> simp [setItems, h, eq_comm]
  | cons e l ih =>
    unfold setItems
    by_cases hk : e.1 = k
    · by_cases h : k' = k
      · simp [hk, h]
      · simp [hk, h, Ne.symm h]
    · by_cases h : e.1 = k'
      · have hne : k' ≠ k := fun he => hk (h.trans he)
        simp [h, hne]
      · simp only [if_neg hk, List.find?_cons, h, decide_false]
        exact ih

theorem get_pop (d : Dict κ α) (k k' : κ) : (d.pop k).get k' = if k' = k then none else d.get k' := by
  unfold get pop
  rw [List.find?_filter]
  by_cases h : k' = k
  · subst h
    simp
  · rw [if_neg h]
    congr 2
    funext e
    by_cases he : e.1 = k'
    · simp [he, h]
    · simp [he]

theorem get_mapValues (f : α → β) (d : Dict κ α) (k : κ) : (d.mapValues f).get k = (d.get k).map f := by
  unfold get mapValues
  rw [List.find?_map, Option.map_map, Option.map_map]
  rfl

theorem get_eq_some {d : Dict κ α} {k : κ} {v : α} : d.get k = some v ↔ (k, v) ∈ d.items := by
  unfold get
  constructor
  · intro h
    obtain ⟨e, he, rfl⟩ := Option.map_eq_some_iff.mp h
    have hk : e.1 = k := by simpa using List.find?_some he
    rw [← hk]
    exact List.mem_of_find?_eq_some he
  · intro h
    have hsome : (d.items.find? (·.1 = k)).isSome := List.find?_isSome.mpr ⟨_, h, by simp⟩
    obtain ⟨e, he⟩ := Option.isSome_iff_exists.mp hsome
    have hk : e.1 = k := by simpa using List.find?_some he
    rw [he, List.inj_on_of_nodup_map d.nodup (List.mem_of_find?_eq_some he) h hk]
    rfl

theorem get_isSome {d : Dict κ α} {k : κ} : (d.get k).isSome ↔ k ∈ d.items.map Prod.fst := by
  rw [Option.isSome_iff_exists, List.mem_map]
  constructor
  · intro h
    obtain ⟨v, hv⟩ := h
    exact ⟨(k, v), get_eq_some.mp hv, rfl⟩
  · intro h
    obtain ⟨e, he, rfl⟩ := h
    exact ⟨e.2, get_eq_some.mpr he⟩

theorem mapValues_set (f : α → β) (d : Dict κ α) (k : κ) (v : α) :
    (d.set k v).mapValues f = (d.mapValues f).set k (f v) := by
  apply ext_items
  obtain ⟨l, hl⟩ := d
  show (setItems k v l).map _ = setItems k (f v) (l.map _)
  clear hl
  induction l with
  | nil => rfl
  | cons e l ih =>
    by_cases h : e.1 = k
    · simp [setItems, h]
    · simp [setItems, h, ih]

theorem mapValues_pop (f : α → β) (d : Dict κ α) (k : κ) : (d.pop k).mapValues f = (d.mapValues f).pop k := by
  apply ext_items
  show (d.items.filter _).map _ = (d.items.map _).filter _
  rw [List.filter_map]
  rfl

theorem setItems_of_ne {k : κ} {v : α} {l : List (κ × α)} (h : ∀ e ∈ l, e.1 ≠ k) : setItems k v l = l ++ [(k, v)] := by
  induction l with
  | nil => rfl
  | cons e l ih =>
    unfold setItems
    rw [if_neg (h e List.mem_cons_self), ih fun a ha => h a (List.mem_cons_of_mem _ ha), List.cons_append]

/-- Items set one by one come in their order. -/
theorem foldl_set (d : Dict κ α) (l : List (κ × α)) (h : ((d.items ++ l).map Prod.fst).Nodup) :
    l.foldl (fun d e => d.set e.1 e.2) d = ⟨d.items ++ l, h⟩ := by
  induction l generalizing d with
  | nil => exact ext_items (List.append_nil _).symm
  | cons e l ih =>
    have hlast : (d.set e.1 e.2).items = d.items ++ [e] := by
      have hno : ∀ e' ∈ d.items, e'.1 ≠ e.1 := by
        intro e' he' heq
        rw [List.map_append] at h
        refine List.disjoint_of_nodup_append h (List.mem_map.mpr ⟨e', he', rfl⟩) ?_
        rw [heq]
        exact List.mem_cons_self
      exact setItems_of_ne hno
    have hl : (((d.set e.1 e.2).items ++ l).map Prod.fst).Nodup := by
      rw [hlast, List.append_assoc]
      exact h
    rw [List.foldl_cons, ih _ hl]
    apply ext_items
    show (d.set e.1 e.2).items ++ l = d.items ++ e :: l
    rw [hlast, List.append_assoc]
    rfl

theorem foldl_set_empty (d : Dict κ α) : d.items.foldl (fun d e => d.set e.1 e.2) .empty = d :=
  foldl_set .empty d.items d.nodup

end Dict
