import CommonCore.Variant
import CommonCore.NestedMaps

/-!
# Saving the settings delta

`save` writes what the settings have beyond the defaults, and `load` merges the
defaults into what was written. A null does not survive that: in C++ the delta
leaves it out, and in Python the merge takes it for a missing key.
-/

namespace CommonCore

open Nested Nested.Shape Keyed

/-! ## C++ -/

/-- `std::get_if<KeyValueMapPtr>`. -/
def Value.getIfMap : Value → Option KeyValueMap
  | .kvmap m => some m
  | _ => Option.none

theorem Value.eq_of_getIfMap (v : Value) (m : KeyValueMap) (h : v.getIfMap = some m) : Value.kvmap m = v := by
  cases v <;> cases h
  rfl

theorem Value.size_lt (v : Value) (m : KeyValueMap) (h : v.getIfMap = some m) : ∀ e ∈ m, sizeOf e.2 < sizeOf v := by
  rintro ⟨k, w⟩ he
  rw [← v.eq_of_getIfMap m h]
  have := List.sizeOf_lt_of_mem he
  simp only [Prod.mk.sizeOf_spec, Value.kvmap.sizeOf_spec] at *
  omega

def kvmaps : Shape Bytes Value :=
  ⟨Value.getIfMap, .kvmap, fun _ => rfl, Value.eq_of_getIfMap, sizeOf, Value.size_lt⟩

/-- `Value::operator bool`. -/
def Value.toBool : Value → Bool
  | .none => false
  | _ => true

theorem Value.toBool_iff (v : Value) : v.toBool = false ↔ v = .none := by
  cases v <;> simp [Value.toBool]

namespace KeyValueMap

/-- `KeyValueMap::recursive_merge`. -/
def recursiveMerge (this other : KeyValueMap) : KeyValueMap := kvmaps.merge (fun _ => false) this other

/-- `KeyValueMap::recursive_delta`, given when two variants count as equal: lists
are compared by their pointers. -/
def recursiveDelta (same : Value → Value → Bool) (this basemap : KeyValueMap) : KeyValueMap :=
  kvmaps.delta (fun value base => base.any (same value) || !value.toBool) this basemap

end KeyValueMap

/-- A null is only kept where the base has a null as well. -/
def NullKept (value : Value) (base : Option Value) : Prop := value = .none → base = some .none

/-! ## Python -/

/-- What `json` and `yaml` load. A dictionary is in key order here, as its order
does not count. -/
inductive PyValue
  | none
  | bool (b : Bool)
  | int (n : Int)
  | float (r : Double)
  | str (s : String)
  | list (l : List PyValue)
  | dict (d : List (String × PyValue))

abbrev PyDict := List (String × PyValue)

namespace PyValue

/-- The number that a value stands for when it is compared. -/
def number : PyValue → Option Double
  | bool b => some (.finite (if b then 1 else 0))
  | int n => some (.finite n)
  | float r => some r
  | _ => Option.none

mutual
/-- `==` -/
def eq : PyValue → PyValue → Bool
  | none, none => true
  | str a, str b => a == b
  | list a, list b => eqList a b
  | dict a, dict b => eqDict a b
  | a, b =>
    match a.number, b.number with
    | some x, some y => x.eqv y
    | _, _ => false
termination_by structural a => a
def eqList : List PyValue → List PyValue → Bool
  | [], [] => true
  | a :: l, b :: m => a.eq b && eqList l m
  | _, _ => false
termination_by structural a => a
def eqItem : String × PyValue → String × PyValue → Bool
  | (s, a), (t, b) => s == t && a.eq b
termination_by structural a => a
def eqDict : PyDict → PyDict → Bool
  | [], [] => true
  | p :: l, q :: m => eqItem p q && eqDict l m
  | _, _ => false
termination_by structural a => a
end

/-- `isinstance(value, dict)`. -/
def asDict : PyValue → Option PyDict
  | dict d => some d
  | _ => Option.none

theorem eq_of_asDict (v : PyValue) (d : PyDict) (h : v.asDict = some d) : dict d = v := by
  cases v <;> cases h
  rfl

theorem size_lt (v : PyValue) (d : PyDict) (h : v.asDict = some d) : ∀ e ∈ d, sizeOf e.2 < sizeOf v := by
  rintro ⟨k, w⟩ he
  rw [← v.eq_of_asDict d h]
  have := List.sizeOf_lt_of_mem he
  simp only [Prod.mk.sizeOf_spec, PyValue.dict.sizeOf_spec] at *
  omega

def dicts : Shape String PyValue := ⟨asDict, dict, fun _ => rfl, eq_of_asDict, sizeOf, size_lt⟩

def isNone : PyValue → Bool
  | none => true
  | _ => false

end PyValue

namespace SettingsStore

/-- `SettingsStore._recursive_merge`. -/
def recursiveMerge (base update : PyDict) : PyDict := PyValue.dicts.merge PyValue.isNone base update

/-- `SettingsStore._recursive_delta`. -/
def recursiveDelta (complete base : PyDict) : PyDict :=
  PyValue.dicts.delta (fun value basevalue => value.eq (basevalue.getD .none)) complete base

/-- `None` is only kept where the base has it as well, and a value that compares
equal to the base's only where it is the same. -/
def Kept (value : PyValue) (base : Option PyValue) : Prop :=
  (value = .none → base = some .none) ∧ ∀ b, base = some b → value.eq b = true → b = value

end SettingsStore

/-! ## When settings are restored -/

theorem KeyValueMap.restored_iff {same : Value → Value → Bool} (hsame : ∀ a b, same a b = true → a = b)
    {m base : KeyValueMap} (hm : kvmaps.Sorted m) (hb : kvmaps.Sorted base) (hc : kvmaps.Covers m base) :
    recursiveMerge (recursiveDelta same m base) base = m ↔ kvmaps.Keeps NullKept m base := by
  apply kvmaps.merge_delta_iff _ _ _ hm hb hc
  intro v b _
  unfold Shape.leafBack NullKept
  by_cases hv : v = .none
  · simp [hv, Value.toBool]
  · have hbool : v.toBool = true := by
      rw [← Bool.not_eq_false, v.toBool_iff]
      exact hv
    simp only [hbool]
    cases b with
    | none => simp [hv]
    | some b =>
      by_cases hs : same v b = true
      · simp [hsame v b hs]
      · simp [hv, hs]

theorem PyValue.none_eq (v : PyValue) : PyValue.none.eq v = v.isNone := by
  cases v <;> rfl

theorem PyValue.eq_none (v : PyValue) : v.eq .none = v.isNone := by
  cases v <;> rfl

theorem PyValue.isNone_iff (v : PyValue) : v.isNone = true ↔ v = .none := by
  cases v <;> simp [PyValue.isNone]

theorem SettingsStore.restored_iff {m base : PyDict} (hm : PyValue.dicts.Sorted m) (hb : PyValue.dicts.Sorted base)
    (hc : PyValue.dicts.Covers m base) :
    recursiveMerge (recursiveDelta m base) base = m ↔ PyValue.dicts.Keeps Kept m base := by
  apply PyValue.dicts.merge_delta_iff _ _ _ hm hb hc
  intro v b _
  unfold Shape.leafBack Kept
  by_cases hv : v = .none
  · subst hv
    simp only [PyValue.none_eq, true_implies]
    cases b with
    | none => simp [PyValue.isNone]
    | some b =>
      simp only [Option.getD_some, PyValue.isNone_iff, Option.some.injEq]
      by_cases hb : b = .none
      · simp [hb]
      · simp [hb, PyValue.isNone]
  · have hnone : ¬ v.isNone = true := mt v.isNone_iff.mp hv
    simp only [hv, false_implies, true_and]
    cases b with
    | none => simp [PyValue.eq_none, hnone]
    | some b =>
      by_cases he : v.eq b = true
      · simp [he]
      · simp [he, hnone]

/-- Saving the delta and reloading restores the settings exactly where no null,
and no value that only compares equal to the default, is lost. -/
theorem settings_restored {same : Value → Value → Bool} (hsame : ∀ a b, same a b = true → a = b)
    {m base : KeyValueMap} (hm : kvmaps.Sorted m) (hb : kvmaps.Sorted base) (hc : kvmaps.Covers m base)
    {settings defaults : PyDict} (hs : PyValue.dicts.Sorted settings) (hd : PyValue.dicts.Sorted defaults)
    (hcs : PyValue.dicts.Covers settings defaults) :
    (KeyValueMap.recursiveMerge (KeyValueMap.recursiveDelta same m base) base = m ↔ kvmaps.Keeps NullKept m base) ∧
      (SettingsStore.recursiveMerge (SettingsStore.recursiveDelta settings defaults) defaults = settings ↔
        PyValue.dicts.Keeps SettingsStore.Kept settings defaults) :=
  ⟨KeyValueMap.restored_iff hsame hm hb hc, SettingsStore.restored_iff hs hd hcs⟩

/-! ### Settings that are restored -/

section
variable {K V : Type} (N : Shape K V) (a b x y : K) (u v w : V)

/-- A map of two twoLevels, and a third setting. -/
def twoLevels : List (K × V) := [(a, N.wrap [(x, u), (y, v)]), (b, w)]

/-- Defaults for the two. -/
def twoDefaults : List (K × V) := [(a, N.wrap [(x, u), (y, v)])]

variable {N a b x y u v w} {v' : V} {P : V → Option V → Prop} [Ord K]

theorem sorted_twoLevels (hab : compare a b = .lt) (hxy : compare x y = .lt) (hu : N.entries u = none)
    (hv : N.entries v = none) (hw : N.entries w = none) : N.Sorted (twoLevels N a b x y u v w) := by
  refine .mk (by simpa [Ordered, twoLevels] using hab) fun e he l hl => ?_
  rcases List.mem_pair.mp he with rfl | rfl
  · rw [N.entries_wrap] at hl
    rw [← Option.some.inj hl]
    exact sorted_of_leaves (by simpa [Ordered] using hxy) (by simp [hu, hv])
  · rw [hw] at hl
    cases hl

theorem sorted_twoDefaults (hxy : compare x y = .lt) (hu : N.entries u = none) (hv : N.entries v = none) :
    N.Sorted (twoDefaults N a x y u v) := by
  refine .mk (List.pairwise_singleton ..) fun e he l hl => ?_
  rw [List.mem_singleton.mp he, N.entries_wrap] at hl
  rw [← Option.some.inj hl]
  exact sorted_of_leaves (by simpa [Ordered] using hxy) (by simp [hu, hv])

variable [Std.LawfulEqOrd K]

theorem covers_twoLevels (hxy : compare y x ≠ .eq) (hu : N.entries u = none) (hv : N.entries v = none) (hw : N.entries w = none) :
    N.Covers (twoLevels N a b x y u v w) (twoDefaults N a x y u v') := by
  refine covers_of (by simp [twoDefaults, twoLevels, find]) fun e he e' he' _ l l' hl hl' => ?_
  rw [List.mem_singleton.mp he', N.entries_wrap] at hl'
  rw [← Option.some.inj hl']
  rcases List.mem_pair.mp he with rfl | rfl
  · rw [N.entries_wrap] at hl
    rw [← Option.some.inj hl]
    refine covers_of (by simp [find, hxy]) fun e he _ _ _ l _ hl _ => ?_
    rcases List.mem_pair.mp he with rfl | rfl
    · rw [hu] at hl
      cases hl
    · rw [hv] at hl
      cases hl
  · rw [hw] at hl
    cases hl

/-- The first setting is the default, and the others are kept. -/
theorem keeps_twoLevels (hab : compare b a ≠ .eq) (hxy : compare y x ≠ .eq) (hu : N.entries u = none)
    (hv : N.entries v = none) (hw : N.entries w = none) (hpu : P u (some u)) (hpv : P v (some v')) (hpw : P w none) :
    N.Keeps P (twoLevels N a b x y u v w) (twoDefaults N a x y u v') := by
  refine keeps_of (fun e he hnot => ?_) fun e he e' he' _ l l' hl hl' => ?_
  · rcases List.mem_pair.mp he with rfl | rfl
    · exact absurd ⟨_, _, N.entries_wrap _, by simp [twoDefaults, find, N.entries_wrap]; rfl⟩ hnot
    · simpa [twoDefaults, find, hab] using hpw
  · rw [List.mem_singleton.mp he', N.entries_wrap] at hl'
    rw [← Option.some.inj hl']
    rcases List.mem_pair.mp he with rfl | rfl
    · rw [N.entries_wrap] at hl
      rw [← Option.some.inj hl]
      refine keeps_of (fun e he _ => ?_) fun e he _ _ _ l _ hl _ => ?_
      · rcases List.mem_pair.mp he with rfl | rfl
        · simpa [find] using hpu
        · simpa [find, hxy] using hpv
      · rcases List.mem_pair.mp he with rfl | rfl
        · rw [hu] at hl
          cases hl
        · rw [hv] at hl
          cases hl
    · rw [hw] at hl
      cases hl

end

/-- A default is overridden in a nested map, and another one is not. -/
theorem settings_restored_over_defaults :
    let m := twoLevels kvmaps (ascii "a") (ascii "b") (ascii "x") (ascii "y") (.sint 1) (.sint 2) (.bool true)
    let base := twoDefaults kvmaps (ascii "a") (ascii "x") (ascii "y") (.sint 1) (.sint 3)
    let settings := twoLevels PyValue.dicts "a" "b" "x" "y" (.int 1) (.int 2) (.bool true)
    let defaults := twoDefaults PyValue.dicts "a" "x" "y" (.int 1) (.int 3)
    KeyValueMap.recursiveMerge (KeyValueMap.recursiveDelta Value.eqv m base) base = m ∧
      SettingsStore.recursiveMerge (SettingsStore.recursiveDelta settings defaults) defaults = settings := by
  intro m base settings defaults
  have hsame : ∀ a b, Value.eqv a b = true → a = b := fun _ _ h => Value.eq_of_eqvBy Double.eq_of_eqv h
  have hm : kvmaps.Sorted m := sorted_twoLevels (by decide) (by decide) rfl rfl rfl
  have hb : kvmaps.Sorted base := sorted_twoDefaults (by decide) rfl rfl
  have hc : kvmaps.Covers m base := covers_twoLevels (by decide) rfl rfl rfl
  have hs : PyValue.dicts.Sorted settings := sorted_twoLevels (by decide) (by decide) rfl rfl rfl
  have hd : PyValue.dicts.Sorted defaults := sorted_twoDefaults (by decide) rfl rfl
  have hcs : PyValue.dicts.Covers settings defaults := covers_twoLevels (by decide) rfl rfl rfl
  obtain ⟨hcpp, hpython⟩ := settings_restored hsame hm hb hc hs hd hcs
  refine ⟨hcpp.mpr (keeps_twoLevels (by decide) (by decide) rfl rfl rfl nofun nofun nofun), hpython.mpr ?_⟩
  refine keeps_twoLevels (by decide) (by decide) rfl rfl rfl ⟨nofun, ?_⟩ ⟨nofun, ?_⟩ ⟨nofun, nofun⟩
  · rintro b hb -
    exact (Option.some.inj hb).symm
  · rintro b hb heq
    rw [← Option.some.inj hb] at heq
    exact absurd heq (by decide)

/-- A null over a default that is none. -/
theorem null_not_restored :
    ¬ (∀ m base : KeyValueMap, kvmaps.Sorted m → kvmaps.Sorted base → kvmaps.Covers m base →
        KeyValueMap.recursiveMerge (KeyValueMap.recursiveDelta Value.eqv m base) base = m) ∧
      ¬ (∀ m base : PyDict, PyValue.dicts.Sorted m → PyValue.dicts.Sorted base → PyValue.dicts.Covers m base →
        SettingsStore.recursiveMerge (SettingsStore.recursiveDelta m base) base = m) := by
  constructor
  · intro hall
    have hm : kvmaps.Sorted [(ascii "a", .none)] := kvmaps.sorted_leaf rfl
    have hb : kvmaps.Sorted [(ascii "a", .bool true)] := kvmaps.sorted_leaf rfl
    have hc := kvmaps.covers_leaf (k := ascii "a") (b := .bool true) (v := .none) rfl
    have hsame : ∀ a b, Value.eqv a b = true → a = b := fun _ _ h => Value.eq_of_eqvBy Double.eq_of_eqv h
    cases (KeyValueMap.restored_iff hsame hm hb hc).mp (hall _ _ hm hb hc) with
    | mk hleaf _ => cases hleaf (ascii "a") .none rfl nofun rfl
  · intro hall
    have hm : PyValue.dicts.Sorted [("a", .none)] := PyValue.dicts.sorted_leaf rfl
    have hb : PyValue.dicts.Sorted [("a", .bool true)] := PyValue.dicts.sorted_leaf rfl
    have hc := PyValue.dicts.covers_leaf (k := "a") (b := .bool true) (v := .none) rfl
    cases (SettingsStore.restored_iff hm hb hc).mp (hall _ _ hm hb hc) with
    | mk hleaf _ => cases (hleaf "a" .none rfl nofun).1 rfl

end CommonCore
