import CommonCore.SettingsDelta

/-!
# Paths in settings, in C++

`insert_value` makes the maps on the way to a value. `extract_value` does not
stop where a step fails: it goes on in the fallback, or in an empty value where
an element is missing.
-/

namespace CommonCore

/-! ## The operations -/

/-- What an integer selects from a list. An index below zero counts from the end. -/
def ValueList.at? (l : List Value) (index : Int) : Option Value :=
  if 0 ≤ index then l[index.toNat]?
  else if 0 ≤ l.length + index then l[(l.length + index).toNat]?
  else none

/-- `ValueList::get`. -/
def ValueList.get (l : List Value) (index : Int32) (fallback : Value := .none) : Value :=
  (ValueList.at? l index.toInt).getD fallback

/-- `KeyValueMap::get`. -/
def KeyValueMap.get (m : KeyValueMap) (key : Bytes) (fallback : Value := .none) : Value :=
  (Keyed.find key m).getD fallback

namespace SettingsStore

/-- One round of the loop in `extract_value`. `as_sint` has 32 bits. -/
def extractStep (fallback value element : Value) : Value :=
  match element, value with
  | .string key, .kvmap m => KeyValueMap.get m key
  | .uint n, .valuelist l => ValueList.get l n.toUInt32.toInt32
  | .sint n, .valuelist l => ValueList.get l n.toInt32
  | _, _ => fallback

def extractValue (this : KeyValueMap) (path : List Value) (fallback : Value) : Value :=
  path.foldl (extractStep fallback) (.kvmap this)

/-- The store afterwards, the entry that is returned, and whether it is new. -/
def insertValue (current : KeyValueMap) : List Bytes → Value → KeyValueMap × Option (Bytes × Value) × Bool
  | [], _ => (current, none, false)
  | [key], value => (Keyed.put key value current, some (key, value), (Keyed.find key current).isNone)
  | key :: path, value =>
    match Keyed.find key current with
    | some (.kvmap m) =>
      let (m, result) := insertValue m path value
      (Keyed.put key (.kvmap m) current, result)
    | _ =>
      let (m, result) := insertValue [] path value
      (Keyed.put key (.kvmap m) current, result)

/-! ## Where a path leads -/

inductive Step
  | key (k : Bytes)
  | uint (n : UInt64)
  | sint (n : Int64)
  deriving DecidableEq

def Step.value : Step → Value
  | key k => .string k
  | uint n => .uint n
  | sint n => .sint n

def Step.into : Step → Value → Option Value
  | key k, .kvmap m => Keyed.find k m
  | uint n, .valuelist l => ValueList.at? l n.toNat
  | sint n, .valuelist l => ValueList.at? l n.toInt
  | _, _ => none

def follow (v : Value) (path : List Step) : Option Value := path.foldlM (fun v e => e.into v) v

/-- The path leads to an existing element. -/
def Leads (store : KeyValueMap) (path : List Step) : Prop := (follow (.kvmap store) path).isSome

/-- On the way of `p`, the other path passes a value that is not a map. -/
def PassesReplaced (store : KeyValueMap) (p : List Bytes) (path : List Step) : Prop :=
  ∃ c k, c ++ [k] <+: p ∧ c.map .key <+: path ∧ ∃ v, follow (.kvmap store) (c.map .key) = some v ∧ v.getIfMap = none

/-- On the way of `p`, the other path only passes maps. -/
def PassesMaps (store : KeyValueMap) (p : List Bytes) (path : List Step) : Prop :=
  ∀ c k, c ++ [k] <+: p → c.map .key <+: path → ∃ m, follow (.kvmap store) (c.map .key) = some (.kvmap m)

/-- What an insertion shall leave. -/
structure Inserted (old new : KeyValueMap) (p : List Bytes) (v : Value) : Prop where
  extracted : ∀ fallback, extractValue new (p.map .string) fallback = v
  others : ∀ path, ¬ p.map Step.key <+: path → ¬ path <+: p.map Step.key → ¬ PassesReplaced old p path →
    follow (.kvmap new) path = follow (.kvmap old) path
  others_extracted : ∀ path, ¬ p.map Step.key <+: path → ¬ path <+: p.map Step.key → PassesMaps old p path →
    ∀ fallback, extractValue new (path.map Step.value) fallback = extractValue old (path.map Step.value) fallback

/-! ## Insertions -/

theorem extractStep_key (fallback : Value) (m : KeyValueMap) (k : Bytes) :
    extractStep fallback (.kvmap m) (.string k) = (Keyed.find k m).getD .none := rfl

theorem follow_cons (v : Value) (e : Step) (path : List Step) :
    follow v (e :: path) = (e.into v).bind fun w => follow w path := rfl

/-- The map that an insertion goes on in. -/
def subMap (current : KeyValueMap) (key : Bytes) : KeyValueMap :=
  match Keyed.find key current with
  | some (.kvmap m) => m
  | _ => []

theorem insertValue_cons (current : KeyValueMap) (key k : Bytes) (path : List Bytes) (v : Value) :
    (insertValue current (key :: k :: path) v).1 =
      Keyed.put key (.kvmap (insertValue (subMap current key) (k :: path) v).1) current := by
  unfold subMap
  rw [insertValue]
  · split <;> rfl
  · simp

theorem extractValue_insertValue (p : List Bytes) (hp : p ≠ []) (v fallback : Value) (store : KeyValueMap) :
    extractValue (insertValue store p v).1 (p.map .string) fallback = v := by
  induction p generalizing store with
  | nil => exact absurd rfl hp
  | cons key path ih =>
    unfold extractValue
    rw [List.map_cons, List.foldl_cons]
    cases path with
    | nil =>
      rw [insertValue, extractStep_key, Keyed.find_put_self]
      rfl
    | cons k path =>
      rw [insertValue_cons, extractStep_key, Keyed.find_put_self]
      exact ih (List.cons_ne_nil _ _) _

theorem into_put_of_ne (k : Bytes) (v : Value) (m : KeyValueMap) (e : Step) (h : e ≠ .key k) :
    e.into (.kvmap (Keyed.put k v m)) = e.into (.kvmap m) := by
  cases e with
  | key j =>
    apply Keyed.find_put_of_ne
    intro heq
    exact h (congrArg Step.key (Std.LawfulEqCmp.eq_of_compare heq))
  | uint n => rfl
  | sint n => rfl

theorem extractStep_map (fallback : Value) (m : KeyValueMap) (e : Step) :
    extractStep fallback (.kvmap m) e.value =
      match e with
      | .key _ => (e.into (.kvmap m)).getD .none
      | _ => fallback := by
  cases e <;> rfl

section
variable {store : KeyValueMap} {key k : Bytes} {p : List Bytes} {path : List Step}

/-- An insertion only changes what its first key leads to. -/
theorem into_insertValue_of_ne {e : Step} (h : e ≠ .key key) (v : Value) :
    e.into (.kvmap (insertValue store (key :: p) v).1) = e.into (.kvmap store) := by
  cases p with
  | nil => exact into_put_of_ne _ _ _ _ h
  | cons k p =>
    rw [insertValue_cons]
    exact into_put_of_ne _ _ _ _ h

theorem passesReplaced_of_find {w : Value} (hfind : Keyed.find key store = some w) (hw : w.getIfMap = none) :
    PassesReplaced store (key :: k :: p) (.key key :: path) := by
  refine ⟨[key], k, ?_, ?_, w, ?_, hw⟩
  · exact List.prefix_append [key, k] p
  · exact List.prefix_append [Step.key key] path
  · change (Keyed.find key store).bind _ = some w
    rw [hfind]
    rfl

/-- Where the map is not there yet, it starts empty, so that a path of more than
one step leads nowhere in both. -/
theorem subMap_cases (h : ¬ PassesReplaced store (key :: k :: p) (.key key :: path)) :
    Keyed.find key store = some (.kvmap (subMap store key)) ∨ Keyed.find key store = none ∧ subMap store key = [] := by
  unfold subMap
  cases hfind : Keyed.find key store with
  | none => exact .inr ⟨rfl, rfl⟩
  | some w =>
    cases hw : w.getIfMap with
    | none => exact absurd (passesReplaced_of_find hfind hw) h
    | some m =>
      rw [← w.eq_of_getIfMap m hw]
      exact .inl rfl

theorem not_passesReplaced_subMap (h : ¬ PassesReplaced store (key :: k :: p) (.key key :: path)) :
    ¬ PassesReplaced (subMap store key) (k :: p) path := by
  rintro ⟨c, j, hc, hcpath, v, hv, hmap⟩
  rcases subMap_cases h with hfind | ⟨-, hempty⟩
  · refine h ⟨key :: c, j, ?_, ?_, v, ?_, hmap⟩
    · exact List.cons_prefix_cons.mpr ⟨rfl, hc⟩
    · exact List.cons_prefix_cons.mpr ⟨rfl, hcpath⟩
    · change (Keyed.find key store).bind _ = some v
      rw [hfind]
      exact hv
  · rw [hempty] at hv
    cases c with
    | nil =>
      cases hv
      cases hmap
    | cons a c => cases hv

theorem follow_subMap (hpre : ¬ path <+: (k :: p).map Step.key)
    (h : ¬ PassesReplaced store (key :: k :: p) (.key key :: path)) :
    follow (.kvmap (subMap store key)) path = (Keyed.find key store).bind fun w => follow w path := by
  rcases subMap_cases h with hfind | ⟨hfind, hempty⟩
  · rw [hfind, Option.bind_some]
  · rw [hfind, hempty]
    cases path with
    | nil => exact absurd List.nil_prefix hpre
    | cons e path => cases e <;> rfl

theorem PassesMaps.subMap (h : PassesMaps store (key :: k :: p) (.key key :: path)) :
    Keyed.find key store = some (.kvmap (subMap store key)) ∧ PassesMaps (subMap store key) (k :: p) path := by
  have hfollow : ∀ c, follow (.kvmap store) ((key :: c).map .key) = (Keyed.find key store).bind fun w => follow w (c.map .key) :=
    fun _ => rfl
  obtain ⟨m, hm⟩ := h [key] k (List.prefix_append [key, k] p) (List.prefix_append [Step.key key] path)
  have hfind : Keyed.find key store = some (.kvmap m) := by
    rw [hfollow] at hm
    obtain ⟨w, hw, hwm⟩ := Option.bind_eq_some_iff.mp hm
    cases hwm
    exact hw
  have hsub : SettingsStore.subMap store key = m := by
    unfold SettingsStore.subMap
    rw [hfind]
  rw [hsub]
  refine ⟨hfind, fun c j hc hcpath => ?_⟩
  obtain ⟨m', hm'⟩ := h (key :: c) j (List.cons_prefix_cons.mpr ⟨rfl, hc⟩) (List.cons_prefix_cons.mpr ⟨rfl, hcpath⟩)
  rw [hfollow, hfind] at hm'
  exact ⟨m', hm'⟩

end

theorem follow_insertValue (p : List Bytes) (v : Value) (store : KeyValueMap) (path : List Step)
    (hext : ¬ p.map Step.key <+: path) (hpre : ¬ path <+: p.map Step.key) (hnot : ¬ PassesReplaced store p path) :
    follow (.kvmap (insertValue store p v).1) path = follow (.kvmap store) path := by
  induction p generalizing store path with
  | nil => exact absurd List.nil_prefix hext
  | cons key p ih =>
    cases path with
    | nil => exact absurd List.nil_prefix hpre
    | cons e path =>
      rw [follow_cons, follow_cons]
      by_cases he : e = .key key
      · subst he
        rw [List.map_cons, List.cons_prefix_cons] at hext hpre
        have hext' : ¬ p.map Step.key <+: path := fun h => hext ⟨rfl, h⟩
        have hpre' : ¬ path <+: p.map Step.key := fun h => hpre ⟨rfl, h⟩
        cases p with
        | nil => exact absurd List.nil_prefix hext'
        | cons k p =>
          rw [insertValue_cons]
          change (Keyed.find key _).bind _ = (Keyed.find key store).bind _
          rw [Keyed.find_put_self, Option.bind_some, ih _ _ hext' hpre' (not_passesReplaced_subMap hnot)]
          exact follow_subMap hpre' hnot
      · rw [into_insertValue_of_ne he]

theorem extractValue_insertValue_other (p : List Bytes) (v : Value) (store : KeyValueMap) (path : List Step)
    (hext : ¬ p.map Step.key <+: path) (hpre : ¬ path <+: p.map Step.key) (hmaps : PassesMaps store p path) (fallback : Value) :
    extractValue (insertValue store p v).1 (path.map Step.value) fallback =
      extractValue store (path.map Step.value) fallback := by
  induction p generalizing store path with
  | nil => exact absurd List.nil_prefix hext
  | cons key p ih =>
    cases path with
    | nil => exact absurd List.nil_prefix hpre
    | cons e path =>
      unfold extractValue at ih ⊢
      rw [List.map_cons, List.foldl_cons, List.foldl_cons, extractStep_map, extractStep_map]
      by_cases he : e = .key key
      · subst he
        rw [List.map_cons, List.cons_prefix_cons] at hext hpre
        have hext' : ¬ p.map Step.key <+: path := fun h => hext ⟨rfl, h⟩
        have hpre' : ¬ path <+: p.map Step.key := fun h => hpre ⟨rfl, h⟩
        cases p with
        | nil => exact absurd List.nil_prefix hext'
        | cons k p =>
          obtain ⟨hfind, hsub⟩ := hmaps.subMap
          rw [insertValue_cons]
          change List.foldl _ ((Keyed.find key _).getD .none) _ = List.foldl _ ((Keyed.find key store).getD .none) _
          rw [Keyed.find_put_self, hfind]
          exact ih _ _ hext' hpre' hsub
      · rw [into_insertValue_of_ne he]

/-- Insertions do what they shall. -/
theorem inserted (store : KeyValueMap) (p : List Bytes) (hp : p ≠ []) (v : Value) :
    Inserted store (insertValue store p v).1 p v where
  extracted fallback := extractValue_insertValue p hp v fallback store
  others path hext hpre hnot := follow_insertValue p v store path hext hpre hnot
  others_extracted path hext hpre hmaps := extractValue_insertValue_other p v store path hext hpre hmaps

/-! ## Paths that lead nowhere -/

/-- What a step of `extract_value` meets. -/
inductive Met
  | element (v : Value)
  | missing
  | wrongKind

def Met.of : Option Value → Met
  | some v => .element v
  | none => .missing

/-- An index is cut to 32 bits. -/
def Step.meets : Step → Value → Met
  | key k, .kvmap m => .of (Keyed.find k m)
  | uint n, .valuelist l => .of (ValueList.at? l n.toUInt32.toInt32.toInt)
  | sint n, .valuelist l => .of (ValueList.at? l n.toInt32.toInt)
  | _, _ => .wrongKind

def Met.value (fallback : Value) : Met → Value
  | element v => v
  | missing => .none
  | wrongKind => fallback

theorem extractStep_meets (fallback v : Value) (e : Step) : extractStep fallback v e.value = (e.meets v).value fallback := by
  have hof : ∀ o, o.getD .none = (Met.of o).value fallback := by
    intro o
    cases o <;> rfl
  cases e <;> cases v <;> first | rfl | exact hof _

def walk (fallback v : Value) (path : List Step) : Value := (path.map Step.value).foldl (extractStep fallback) v

theorem walk_cons (fallback v : Value) (e : Step) (path : List Step) :
    walk fallback v (e :: path) = walk fallback ((e.meets v).value fallback) path := by
  rw [← extractStep_meets]
  rfl

/-- An empty value is left by the next step. -/
theorem walk_none (fallback : Value) (e : Step) (path : List Step) :
    walk fallback .none (e :: path) = walk fallback fallback path := by
  rw [walk_cons]
  cases e <;> rfl

/-- The first step that fails meets a value of the wrong kind at the end of the
path, or lacks an element one step before the end. -/
def FailsLate : Value → List Step → Prop
  | _, [] => False
  | v, e :: path =>
    match e.meets v with
    | .element w => FailsLate w path
    | .missing => path.length = 1
    | .wrongKind => path = []

/-- The first step that fails lacks the last element. -/
def LacksLast : Value → List Step → Prop
  | _, [] => False
  | v, e :: path =>
    match e.meets v with
    | .element w => LacksLast w path
    | .missing => path = []
    | .wrongKind => False

/-- Every step meets an element, and this is the last one. -/
def MeetsLast : Value → List Step → Value → Prop
  | v, [], w => v = w
  | v, e :: path, w => ∃ u, e.meets v = .element u ∧ MeetsLast u path w

/-- A fallback in which the path leads to an empty value. -/
def nest : List Step → Value
  | [] => .none
  | .key k :: path => .kvmap [(k, nest path)]
  | .uint n :: path => .valuelist (List.replicate (n.toUInt32.toInt32.toInt.natAbs + 1) (nest path))
  | .sint n :: path => .valuelist (List.replicate (n.toInt32.toInt.natAbs + 1) (nest path))

theorem at?_replicate (i : Int) (v : Value) : ValueList.at? (List.replicate (i.natAbs + 1) v) i = some v := by
  unfold ValueList.at?
  rw [List.length_replicate]
  by_cases hi : 0 ≤ i
  · rw [if_pos hi]
    exact List.getElem?_replicate_of_lt (by omega)
  · rw [if_neg hi, if_pos (by omega)]
    exact List.getElem?_replicate_of_lt (by omega)

theorem meets_nest (e : Step) (path : List Step) : e.meets (nest (e :: path)) = .element (nest path) := by
  cases e with
  | key k =>
    change Met.of (Keyed.find k [(k, nest path)]) = _
    rw [Keyed.find, if_pos (Keyed.compare_self k)]
    rfl
  | uint n => exact congrArg Met.of (at?_replicate _ _)
  | sint n => exact congrArg Met.of (at?_replicate _ _)

theorem walk_nest (fallback : Value) (path : List Step) : walk fallback (nest path) path = .none := by
  induction path with
  | nil => rfl
  | cons e path ih =>
    rw [walk_cons, meets_nest]
    exact ih

/-- A path that goes on in the fallback may find something in it. -/
theorem exists_walk_ne (path : List Step) (hpath : path ≠ []) : ∃ fallback, walk fallback fallback path ≠ fallback := by
  refine ⟨nest path, ?_⟩
  rw [walk_nest]
  cases path with
  | nil => exact absurd rfl hpath
  | cons e path => cases e <;> nofun

theorem exists_ne (v : Value) : ∃ fallback, v ≠ fallback := by
  by_cases hv : v = .none
  · exact ⟨.bool true, by rw [hv]; nofun⟩
  · exact ⟨.none, hv⟩

theorem walk_eq_iff (v : Value) (path : List Step) : (∀ fallback, walk fallback v path = fallback) ↔ FailsLate v path := by
  induction path generalizing v with
  | nil =>
    obtain ⟨fallback, hne⟩ := exists_ne v
    exact ⟨fun h => hne (h fallback), False.elim⟩
  | cons e path ih =>
    simp only [walk_cons, FailsLate]
    cases hmeets : e.meets v with
    | element w => exact ih w
    | missing =>
      simp only [Met.value]
      cases path with
      | nil =>
        obtain ⟨fallback, hne⟩ := exists_ne .none
        exact ⟨fun h => absurd (h fallback) hne, nofun⟩
      | cons e' path =>
        simp only [walk_none, List.length_cons, Nat.add_eq_right, List.length_eq_zero_iff]
        by_cases hpath : path = []
        · subst hpath
          exact ⟨fun _ => rfl, fun _ _ => rfl⟩
        · obtain ⟨fallback, hne⟩ := exists_walk_ne path hpath
          exact ⟨fun h => absurd (h fallback) hne, fun h => absurd h hpath⟩
    | wrongKind =>
      simp only [Met.value]
      by_cases hpath : path = []
      · subst hpath
        exact ⟨fun _ => rfl, fun _ _ => rfl⟩
      · obtain ⟨fallback, hne⟩ := exists_walk_ne path hpath
        exact ⟨fun h => absurd (h fallback) hne, fun h => absurd h hpath⟩

/-- Nothing is found in the fallback. -/
def Plain (fallback : Value) : Prop := ∀ e : Step, e.meets fallback = .wrongKind

theorem walk_plain {fallback : Value} (h : Plain fallback) (path : List Step) : walk fallback fallback path = fallback := by
  induction path with
  | nil => rfl
  | cons e path ih =>
    rw [walk_cons, h e]
    exact ih

theorem walk_eq_iff_of_plain {fallback : Value} (h : Plain fallback) (v : Value) (path : List Step) :
    walk fallback v path = fallback ↔ (LacksLast v path → fallback = .none) ∧ ∀ w, MeetsLast v path w → w = fallback := by
  induction path generalizing v with
  | nil => exact ⟨fun hv => ⟨False.elim, fun w hw => hw ▸ hv⟩, fun hw => hw.2 v rfl⟩
  | cons e path ih =>
    simp only [walk_cons, LacksLast, MeetsLast]
    cases hmeets : e.meets v with
    | element u =>
      simp only [Met.value, ih, Met.element.injEq, exists_eq_left']
    | missing =>
      simp only [Met.value, reduceCtorEq, false_and, exists_false, false_implies, implies_true, and_true]
      cases path with
      | nil => exact ⟨fun h _ => h.symm, fun h => (h rfl).symm⟩
      | cons e' path =>
        rw [walk_none, walk_plain h]
        exact ⟨fun _ => nofun, fun _ => rfl⟩
    | wrongKind => simp [Met.value, walk_plain h]

/-- A path that does not lead to an existing element has the fallback. -/
def FallsBack (store : KeyValueMap) (path : List Step) (fallback : Value) : Prop :=
  ¬ Leads store path → extractValue store (path.map Step.value) fallback = fallback

/-- Insertions do what they shall, and the path falls back. -/
def PathsHold (store : KeyValueMap) (path : List Step) : Prop :=
  (∀ p v, p ≠ [] → Inserted store (insertValue store p v).1 p v) ∧ ∀ fallback, FallsBack store path fallback

/-- Any fallback is returned if the first step that fails is late enough, and a
plain one unless the last element is what is missing. -/
theorem extractValue_iff (store : KeyValueMap) (path : List Step) :
    (PathsHold store path ↔ Leads store path ∨ FailsLate (.kvmap store) path) ∧
      ∀ fallback, Plain fallback →
        (FallsBack store path fallback ↔
          Leads store path ∨
            (LacksLast (.kvmap store) path → fallback = .none) ∧ ∀ w, MeetsLast (.kvmap store) path w → w = fallback) := by
  constructor
  · rw [← walk_eq_iff, or_iff_not_imp_left]
    constructor
    · intro h hleads fallback
      exact h.2 fallback hleads
    · intro h
      exact ⟨fun p v hp => inserted store p hp v, fun fallback hleads => h hleads fallback⟩
  · intro fallback hplain
    rw [← walk_eq_iff_of_plain hplain, or_iff_not_imp_left]
    rfl

/-- A missing key at the end of the path. -/
theorem not_pathsHold : ¬ ∀ store path, PathsHold store path := by
  intro hall
  have hnone := (hall [] [.key (ascii "a")]).2 (.bool true) nofun
  cases hnone

end SettingsStore

end CommonCore
