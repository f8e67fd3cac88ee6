import CommonCore.SettingsDelta

/-!
# Setting a value by its path, in Python

`set` makes the dictionaries on the way to a value, but it only enters those
that it makes.
-/

namespace CommonCore

namespace PySettings

/-! ## The operations -/

/-- Part of the path of a setting. -/
inductive Component
  | key (k : String)
  | index (i : Int)

inductive LookupError
  | value
  | key
  | index
  | type
  deriving DecidableEq

/-- `l[i]` -/
def item? (l : List PyValue) (i : Int) : Option PyValue :=
  if 0 ≤ i then l[i.toNat]? else if 0 ≤ l.length + i then l[(l.length + i).toNat]? else none

/-- `value[component]`, of which an integer only selects from a list. -/
def getItem : PyValue → Component → Except LookupError PyValue
  | .dict d, .key k => match Keyed.find k d with
    | some v => .ok v
    | none => .error .key
  | .list l, .index i => match item? l i with
    | some v => .ok v
    | none => .error .index
  | _, _ => .error .type

/-- `get_value` by a path, for any type. -/
def getValue (this : PyDict) (path : List Component) (default : PyValue := .none)
    (raiseInvalidType raiseMissing : Bool := false) : Except LookupError PyValue :=
  if path.isEmpty then .error .value
  else
    match path.foldlM getItem (.dict this) with
    | .ok value => .ok value
    | .error .type => if raiseInvalidType then .error .type else .ok default
    | .error e => if raiseMissing then .error e else .ok default

/-- The loop of `set`, and the assignment after it. Only a new dictionary becomes
`obj`. -/
def setIn (obj : PyDict) : List String → String → PyValue → PyDict
  | [], key, value => Keyed.put key value obj
  | element :: path, key, value =>
    match (Keyed.find element obj).bind PyValue.asDict with
    | some _ => setIn obj path key value
    | none => Keyed.put element (.dict (setIn [] path key value)) obj

def set (this : PyDict) (key : List String) (value : PyValue) : Except LookupError PyDict :=
  match key.getLast? with
  | none => .error .value
  | some last => .ok (setIn this key.dropLast last value)

/-! ## What a path reads -/

def keys (path : List String) : List Component := path.map .key

/-- On the way of `p`, the other path passes a value that is not a dictionary. -/
def PassesReplaced (this : PyDict) (p q : List String) : Prop :=
  ∃ c k, c ++ [k] <+: p ∧ c <+: q ∧ ∃ v, (keys c).foldlM getItem (.dict this) = .ok v ∧ v.asDict = none

/-- What setting a value shall leave. -/
structure Stored (old new : PyDict) (p : List String) (v : PyValue) : Prop where
  here : getValue new (keys p) = .ok v
  others : ∀ q, ¬ p <+: q → ¬ q <+: p → ¬ PassesReplaced old p q → getValue new (keys q) = getValue old (keys q)

/-- The value of one key, or `None`. -/
def sub (v : PyValue) (k : String) : PyValue := ((v.asDict.bind (Keyed.find k)).getD .none)

def read (v : PyValue) (q : List String) : PyValue := q.foldl sub v

theorem read_cons (v : PyValue) (k : String) (q : List String) : read v (k :: q) = read (sub v k) q := rfl

theorem read_none (q : List String) : read .none q = .none := by
  induction q with
  | nil => rfl
  | cons k q ih => exact ih

theorem read_leaf {v : PyValue} (hv : v.asDict = none) {q : List String} (hq : q ≠ []) : read v q = .none := by
  cases q with
  | nil => exact absurd rfl hq
  | cons k q =>
    unfold read sub
    rw [List.foldl_cons, hv]
    exact read_none q

theorem getItem_key (v : PyValue) (k : String) :
    (∃ w, getItem v (.key k) = .ok w ∧ sub v k = w) ∨ (∃ e, getItem v (.key k) = .error e) ∧ sub v k = .none := by
  cases v with
  | dict d =>
    unfold getItem sub
    simp only [PyValue.asDict, Option.bind_some]
    cases Keyed.find k d with
    | some w => exact .inl ⟨w, rfl, rfl⟩
    | none => exact .inr ⟨⟨_, rfl⟩, rfl⟩
  | _ => exact .inr ⟨⟨_, rfl⟩, rfl⟩

theorem lookup_keys (v : PyValue) (q : List String) :
    (∃ w, (keys q).foldlM getItem v = .ok w ∧ read v q = w) ∨ (∃ e, (keys q).foldlM getItem v = .error e) ∧ read v q = .none := by
  induction q generalizing v with
  | nil => exact .inl ⟨v, rfl, rfl⟩
  | cons k q ih =>
    unfold keys
    rw [List.map_cons, List.foldlM_cons, read_cons]
    rcases getItem_key v k with ⟨w, hw, hsub⟩ | ⟨⟨e, he⟩, hsub⟩
    · rw [hw, hsub]
      exact ih w
    · rw [he, hsub]
      exact .inr ⟨⟨e, rfl⟩, read_none q⟩

theorem getValue_keys (this : PyDict) (q : List String) (hq : q ≠ []) : getValue this (keys q) = .ok (read (.dict this) q) := by
  unfold getValue
  rw [if_neg (by simpa [keys] using hq)]
  rcases lookup_keys (.dict this) q with ⟨w, hw, hread⟩ | ⟨⟨e, he⟩, hread⟩
  · rw [hw, hread]
  · rw [he, hread]
    cases e <;> rfl

theorem read_append (v : PyValue) (p q : List String) : read v (p ++ q) = read (read v p) q := List.foldl_append

/-- Nothing is left to read beyond a value that is not a dictionary. -/
theorem read_of_passesReplaced {this : PyDict} {p q : List String} (h : PassesReplaced this p q) (hpre : ¬ q <+: p) :
    read (.dict this) q = .none := by
  obtain ⟨c, k, hc, ⟨q', rfl⟩, v, hv, hdict⟩ := h
  have hq' : q' ≠ [] := by
    intro hnil
    subst hnil
    rw [List.append_nil] at hpre
    exact hpre ((List.prefix_append c [k]).trans hc)
  rw [read_append]
  rcases lookup_keys (.dict this) c with ⟨w, hw, hread⟩ | ⟨⟨e, he⟩, -⟩
  · rw [hw] at hv
    cases hv
    rw [hread]
    exact read_leaf hdict hq'
  · rw [he] at hv
    cases hv

theorem sub_put_self (k : String) (v : PyValue) (d : PyDict) : sub (.dict (Keyed.put k v d)) k = v := by
  unfold sub
  simp only [PyValue.asDict, Option.bind_some, Keyed.find_put_self, Option.getD_some]

theorem sub_put_of_ne {j k : String} (h : j ≠ k) (v : PyValue) (d : PyDict) :
    sub (.dict (Keyed.put k v d)) j = sub (.dict d) j := by
  unfold sub
  simp only [PyValue.asDict, Option.bind_some]
  rw [Keyed.find_put_of_ne]
  intro heq
  exact h (Std.LawfulEqCmp.eq_of_compare heq)

/-! ## What `set` leaves -/

def IsDict (this : PyDict) (k : String) : Prop := ∃ d, (Keyed.find k this).bind PyValue.asDict = some d

theorem isDict_iff {this : PyDict} {k : String} : IsDict this k ↔ ∃ d, sub (.dict this) k = .dict d := by
  unfold IsDict sub
  simp only [PyValue.asDict, Option.bind_some]
  cases Keyed.find k this with
  | none => exact ⟨nofun, nofun⟩
  | some w => cases w <;> simp [PyValue.asDict]

theorem asDict_sub {this : PyDict} {k : String} (h : ¬ IsDict this k) : (sub (.dict this) k).asDict = none := by
  rw [isDict_iff] at h
  cases hsub : sub (.dict this) k with
  | dict d => exact absurd ⟨d, hsub⟩ h
  | _ => rfl

section
variable {this : PyDict} {key : String} {v : PyValue}

theorem setIn_cons_of_not {k : String} (h : ¬ IsDict this k) (path : List String) :
    setIn this (k :: path) key v = Keyed.put k (.dict (setIn [] path key v)) this := by
  rw [setIn]
  cases hdict : (Keyed.find k this).bind PyValue.asDict with
  | none => rfl
  | some d => exact absurd ⟨d, hdict⟩ h

theorem setIn_cons_of_isDict {k : String} (h : IsDict this k) (path : List String) :
    setIn this (k :: path) key v = setIn this path key v := by
  obtain ⟨d, hd⟩ := h
  rw [setIn, hd]

theorem setIn_of_isDict {path : List String} (h : ∀ k ∈ path, IsDict this k) : setIn this path key v = Keyed.put key v this := by
  induction path with
  | nil => rfl
  | cons k path ih =>
    rw [setIn_cons_of_isDict (h k (List.mem_cons_self ..))]
    exact ih fun j hj => h j (List.mem_cons_of_mem _ hj)

/-- The dictionary is made for the first key that has none. -/
theorem setIn_of_not (key : String) (v : PyValue) {path : List String} (h : ¬ ∀ k ∈ path, IsDict this k) :
    ∃ k ∈ path, ¬ IsDict this k ∧ ∃ d, setIn this path key v = Keyed.put k (.dict d) this := by
  induction path with
  | nil => exact absurd nofun h
  | cons k path ih =>
    by_cases hk : IsDict this k
    · have hpath : ¬ ∀ j ∈ path, IsDict this j := by
        intro hall
        apply h
        intro j hj
        rcases List.mem_cons.mp hj with rfl | hj
        · exact hk
        · exact hall j hj
      obtain ⟨j, hj, hnot, d, hd⟩ := ih hpath
      rw [setIn_cons_of_isDict hk]
      exact ⟨j, List.mem_cons_of_mem _ hj, hnot, d, hd⟩
    · exact ⟨k, List.mem_cons_self .., hk, _, setIn_cons_of_not hk path⟩

theorem not_isDict_nil (k : String) : ¬ IsDict [] k := nofun

/-- In a new dictionary there is the value and nothing else. -/
theorem read_setIn_nil (path : List String) : read (.dict (setIn [] path key v)) (path ++ [key]) = v := by
  induction path with
  | nil => exact sub_put_self key v []
  | cons k path ih =>
    rw [setIn_cons_of_not (not_isDict_nil k), List.cons_append, read_cons, sub_put_self]
    exact ih

theorem read_setIn_nil_other {path q : List String} (hext : ¬ path ++ [key] <+: q) (hpre : ¬ q <+: path ++ [key]) :
    read (.dict (setIn [] path key v)) q = .none := by
  induction path generalizing q with
  | nil =>
    cases q with
    | nil => exact absurd List.nil_prefix hpre
    | cons j q =>
      have hj : j ≠ key := by
        intro hj
        subst hj
        exact hext (List.prefix_append [j] q)
      rw [setIn, read_cons, sub_put_of_ne hj]
      exact read_none q
  | cons k path ih =>
    cases q with
    | nil => exact absurd List.nil_prefix hpre
    | cons j q =>
      rw [setIn_cons_of_not (not_isDict_nil k), read_cons]
      by_cases hj : j = k
      · subst hj
        rw [List.cons_append, List.cons_prefix_cons] at hext hpre
        rw [sub_put_self]
        exact ih (fun h => hext ⟨rfl, h⟩) fun h => hpre ⟨rfl, h⟩
      · rw [sub_put_of_ne hj]
        exact read_none q

end

/-! ## When a value is stored at its path -/

theorem sub_smaller (v : PyValue) (k : String) : sub v k = .none ∨ sizeOf (sub v k) < sizeOf v := by
  unfold sub
  cases hdict : v.asDict with
  | none => exact .inl rfl
  | some d =>
    rw [Option.bind_some]
    cases hfind : Keyed.find k d with
    | none => exact .inl rfl
    | some w => exact .inr (v.size_lt d hdict _ (Keyed.mem_of_find hfind))

theorem read_smaller (v : PyValue) (q : List String) : read v q = .none ∨ sizeOf (read v q) ≤ sizeOf v := by
  induction q generalizing v with
  | nil => exact .inr le_rfl
  | cons k q ih =>
    rw [read_cons]
    rcases sub_smaller v k with hsub | hsub
    · rw [hsub]
      exact .inl (read_none q)
    · exact (ih (sub v k)).imp_right fun h => h.trans hsub.le

/-- No value is found inside itself. -/
theorem read_eq_self {v : PyValue} {q : List String} (hq : q ≠ []) (h : read v q = v) : v = .none := by
  cases q with
  | nil => exact absurd rfl hq
  | cons k q =>
    rw [read_cons] at h
    rcases sub_smaller v k with hsub | hsub
    · rw [hsub, read_none] at h
      exact h.symm
    · rcases read_smaller (sub v k) q with hread | hread
      · exact h.symm.trans hread
      · rw [h] at hread
        exact absurd hsub (Nat.not_lt.mpr hread)

theorem set_append (this : PyDict) (path : List String) (key : String) (v : PyValue) :
    set this (path ++ [key]) v = .ok (setIn this path key v) := by
  unfold set
  rw [List.getLast?_append_of_ne_nil _ (List.cons_ne_nil _ _), List.dropLast_concat]
  rfl

/-- `Stored`, by what the paths read. -/
structure Reads (old new : PyDict) (p : List String) (v : PyValue) : Prop where
  here : read (.dict new) p = v
  others : ∀ q, ¬ p <+: q → ¬ q <+: p → ¬ PassesReplaced old p q → read (.dict new) q = read (.dict old) q

theorem stored_iff {old new : PyDict} {p : List String} (hp : p ≠ []) {v : PyValue} :
    Stored old new p v ↔ Reads old new p v := by
  have hget : ∀ this q, ¬ q <+: p → getValue this (keys q) = .ok (read (.dict this) q) := by
    intro this q hpre
    apply getValue_keys
    intro hq
    subst hq
    exact hpre List.nil_prefix
  constructor
  · intro ⟨hhere, hothers⟩
    rw [getValue_keys new p hp] at hhere
    refine ⟨Except.ok.inj hhere, fun q hext hpre hnot => ?_⟩
    have hq := hothers q hext hpre hnot
    rw [hget new q hpre, hget old q hpre] at hq
    exact Except.ok.inj hq
  · intro ⟨hhere, hothers⟩
    refine ⟨?_, fun q hext hpre hnot => ?_⟩
    · rw [getValue_keys new p hp, hhere]
    · rw [hget new q hpre, hget old q hpre, hothers q hext hpre hnot]

theorem read_put_of_ne {j k : String} (h : j ≠ k) (v : PyValue) (d : PyDict) (q : List String) :
    read (.dict (Keyed.put k v d)) (j :: q) = read (.dict d) (j :: q) := by
  rw [read_cons, read_cons, sub_put_of_ne h]

theorem read_put_self (k : String) (v : PyValue) (d : PyDict) (q : List String) :
    read (.dict (Keyed.put k v d)) (k :: q) = read v q := by
  rw [read_cons, sub_put_self]

section
variable {this : PyDict} {first key : String} {path : List String} {v : PyValue}

theorem reads_single : Reads this (Keyed.put key v this) [key] v := by
  refine ⟨read_put_self key v this [], fun q hext hpre _ => ?_⟩
  cases q with
  | nil => exact absurd List.nil_prefix hpre
  | cons j q =>
    apply read_put_of_ne
    intro hj
    subst hj
    exact hext (List.prefix_append [j] q)

/-- Everything on the way is new. -/
theorem reads_fresh (h : ¬ IsDict this first) : Reads this (setIn this (first :: path) key v) (first :: path ++ [key]) v := by
  rw [setIn_cons_of_not h, List.cons_append]
  refine ⟨?_, fun q hext hpre _ => ?_⟩
  · rw [read_put_self, read_setIn_nil]
  · cases q with
    | nil => exact absurd List.nil_prefix hpre
    | cons j q =>
      by_cases hj : j = first
      · subst hj
        rw [List.cons_prefix_cons] at hext hpre
        have hpre' : ¬ q <+: path ++ [key] := fun h => hpre ⟨rfl, h⟩
        have hq : q ≠ [] := by
          intro hq
          subst hq
          exact hpre' List.nil_prefix
        rw [read_put_self, read_setIn_nil_other (fun h => hext ⟨rfl, h⟩) hpre', read_cons, read_leaf (asDict_sub h) hq]
      · exact read_put_of_ne hj _ _ _

/-- Paths that start elsewhere must read what they read before. -/
theorem Reads.beside {new : PyDict} {p : List String} {j : String} (h : Reads this new (first :: p) v) (hj : j ≠ first)
    (q : List String) : read (.dict new) (j :: q) = read (.dict this) (j :: q) := by
  apply h.others
  · intro hp
    exact hj (List.cons_prefix_cons.mp hp).1.symm
  · intro hp
    exact hj (List.cons_prefix_cons.mp hp).1
  · rintro ⟨c, k, hc, hcq, w, hw, hdict⟩
    cases c with
    | nil =>
      cases hw
      cases hdict
    | cons a c =>
      rw [List.cons_append] at hc
      exact hj ((List.cons_prefix_cons.mp hcq).1.symm.trans (List.cons_prefix_cons.mp hc).1)

/-- A dictionary is made beside the path. -/
theorem not_reads (hfirst : IsDict this first) (h : ¬ ∀ k ∈ first :: path, IsDict this k) :
    ¬ Reads this (setIn this (first :: path) key v) (first :: path ++ [key]) v := by
  obtain ⟨k, -, hk, d, hd⟩ := setIn_of_not key v h
  intro hreads
  have hne : k ≠ first := by
    intro hkf
    subst hkf
    exact hk hfirst
  have hread := hreads.beside hne []
  rw [hd, read_put_self] at hread
  exact hk (isDict_iff.mpr ⟨d, hread.symm⟩)

theorem reads_put_of_ne (h : key ≠ first) :
    Reads this (Keyed.put key v this) (first :: path ++ [key]) v ↔
      read (.dict this) (first :: path ++ [key]) = v ∧ read (.dict this) [key] = v := by
  rw [List.cons_append]
  constructor
  · intro hreads
    have hhere := hreads.here
    have hbeside := hreads.beside h []
    rw [read_put_of_ne h.symm] at hhere
    rw [read_put_self] at hbeside
    exact ⟨hhere, hbeside.symm⟩
  · intro ⟨hhere, hkey⟩
    refine ⟨?_, fun q _ hpre _ => ?_⟩
    · rw [read_put_of_ne h.symm, hhere]
    · cases q with
      | nil => exact absurd List.nil_prefix hpre
      | cons j q =>
        by_cases hj : j = key
        · subst hj
          rw [read_put_self, ← hkey]
          rfl
        · exact read_put_of_ne hj _ _ _

theorem reads_put_self :
    Reads this (Keyed.put first v this) (first :: path ++ [first]) v ↔
      v = .none ∧ ∀ q, ¬ first :: path ++ [first] <+: first :: q → ¬ first :: q <+: first :: path ++ [first] →
        read (.dict this) (first :: q) = .none := by
  constructor
  · intro hreads
    have hhere := hreads.here
    rw [List.cons_append, read_put_self] at hhere
    have hv : v = .none := read_eq_self (List.append_ne_nil_of_right_ne_nil _ (List.cons_ne_nil _ _)) hhere
    refine ⟨hv, fun q hext hpre => ?_⟩
    by_cases hpasses : PassesReplaced this (first :: path ++ [first]) (first :: q)
    · exact read_of_passesReplaced hpasses hpre
    · rw [← hreads.others _ hext hpre hpasses, read_put_self, hv, read_none]
  · intro ⟨hv, hnone⟩
    subst hv
    refine ⟨?_, fun q hext hpre _ => ?_⟩
    · rw [List.cons_append, read_put_self, read_none]
    · cases q with
      | nil => exact absurd List.nil_prefix hpre
      | cons j q =>
        by_cases hj : j = first
        · subst hj
          rw [read_put_self, read_none, hnone q hext hpre]
        · exact read_put_of_ne hj _ _ _

end

/-- Setting the value at the path stores it there, and nothing else changes. -/
def SetHolds (this : PyDict) (path : List String) (key : String) (v : PyValue) : Prop :=
  ∃ new, set this (path ++ [key]) v = .ok new ∧ Stored this new (path ++ [key]) v

/-- There is nothing on the way yet, or what is written at the top changes nothing. -/
def NothingOnTheWay (this : PyDict) (path : List String) (key : String) (v : PyValue) : Prop :=
  match path with
  | [] => True
  | first :: _ =>
    ¬ IsDict this first ∨ (∀ k ∈ path, IsDict this k) ∧
      if key = first then
        v = .none ∧ ∀ q, ¬ path ++ [key] <+: first :: q → ¬ first :: q <+: path ++ [key] → read (.dict this) (first :: q) = .none
      else read (.dict this) (path ++ [key]) = v ∧ read (.dict this) [key] = v

theorem setHolds_iff (this : PyDict) (path : List String) (key : String) (v : PyValue) :
    SetHolds this path key v ↔ NothingOnTheWay this path key v := by
  have hp : path ++ [key] ≠ [] := List.append_ne_nil_of_right_ne_nil _ (List.cons_ne_nil _ _)
  unfold SetHolds
  simp only [set_append, Except.ok.injEq, exists_eq_left', stored_iff hp]
  cases path with
  | nil => exact ⟨fun _ => trivial, fun _ => reads_single⟩
  | cons first path =>
    simp only [NothingOnTheWay]
    by_cases hfirst : IsDict this first
    · rw [or_iff_right (not_not.mpr hfirst)]
      by_cases hall : ∀ k ∈ first :: path, IsDict this k
      · rw [setIn_of_isDict hall, and_iff_right hall]
        by_cases hkey : key = first
        · subst hkey
          rw [if_pos rfl, reads_put_self]
        · rw [if_neg hkey, reads_put_of_ne hkey]
      · exact ⟨fun h => absurd h (not_reads hfirst hall), fun h => absurd h.1 hall⟩
    · exact ⟨fun _ => .inl hfirst, fun _ => reads_fresh hfirst⟩

/-- A dictionary that is already there is not entered. -/
theorem not_setHolds : ¬ ∀ this path key v, SetHolds this path key v := by
  intro hall
  obtain ⟨new, hset, hstored⟩ := hall [("a", .dict [])] ["a"] "b" (.int 1)
  rw [set_append] at hset
  cases hset
  cases hstored.here

end PySettings

end CommonCore
