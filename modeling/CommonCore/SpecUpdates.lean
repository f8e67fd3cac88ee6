import CommonCore.Settling
import CommonCore.SwitchRemoval

/-!
# Updates of a specification

`update_spec` replaces the maps of a specification, or merges others into them
with `insert`, which leaves what is there alone. `add_dependency` overwrites.
-/

namespace CommonCore

open Coop Coop.Prog

/-! ## Maps by their keys -/

/-- What an update shall leave at each key. -/
structure Merged {κ α : Type} (replace : Bool) (old supplied new : κ → Option α) : Prop where
  replaced : replace = true → new = supplied
  written : replace = false → ∀ k v, supplied k = some v → new k = some v
  others : replace = false → ∀ k, supplied k = none → new k = old k

/-- No key has another value already. -/
def Agrees {κ α : Type} (replace : Bool) (old supplied : κ → Option α) : Prop :=
  replace = false → ∀ k v w, supplied k = some v → old k = some w → w = v

/-- `insert` supplies the keys that are missing. -/
theorem merged_insert_iff {κ α : Type} (replace : Bool) (old supplied new : κ → Option α)
    (hnew : new = if replace then supplied else fun k => (old k).or (supplied k)) :
    Merged replace old supplied new ↔ Agrees replace old supplied := by
  subst hnew
  cases replace with
  | true => exact ⟨fun _ h => absurd h (by decide), fun _ => ⟨fun _ => rfl, nofun, nofun⟩⟩
  | false =>
    constructor
    · intro h _ k v w hv hw
      have hk := h.written rfl k v hv
      simp only [Bool.false_eq_true, if_false, hw, Option.some_or] at hk
      exact Option.some.inj hk
    · intro h
      refine ⟨fun h => absurd h (by decide), fun _ k v hv => ?_, fun _ k hk => by simp [hk]⟩
      cases hw : old k with
      | none => simp [hw, hv]
      | some w => simp [hw, h rfl k v w hv hw]

/-- Insertions that leave alone what is there, for each key that `other` has. -/
theorem get_foldl_insert {M κ α β : Type} [DecidableEq κ] {insert : M → α → M} (get : M → κ → Option β) (key : α → κ)
    (value : α → β) (h : ∀ m a k, get (insert m a) k = (get m k).or (if key a = k then some (value a) else none))
    {l : List α} {other : κ → Option β} (hl : ∀ k v, other k = some v ↔ ∃ a ∈ l, key a = k ∧ value a = v) (m : M) (k : κ) :
    get (l.foldl insert m) k = (get m k).or (other k) := by
  have hfold : ∀ (l : List α) (m : M), get (l.foldl insert m) k = (get m k).or ((l.find? fun a => key a = k).map value) := by
    intro l
    induction l with
    | nil => simp
    | cons a l ih =>
      intro m
      rw [List.foldl_cons, ih, h, Option.or_assoc, List.find?_cons]
      by_cases hk : key a = k <;> simp [hk]
  rw [hfold]
  congr 1
  cases hfind : l.find? fun a => key a = k with
  | some a =>
    have hkey : key a = k := by simpa using List.find?_some hfind
    exact ((hl k (value a)).mpr ⟨a, List.mem_of_find?_eq_some hfind, hkey, rfl⟩).symm
  | none =>
    refine (Option.eq_none_iff_forall_ne_some.mpr fun v hv => ?_).symm
    obtain ⟨a, ha, hkey, -⟩ := (hl k v).mp hv
    exact List.find?_eq_none.mp hfind a ha (by simpa using hkey)

section
variable {κ α : Type} [Ord κ] [Std.TransOrd κ] [Std.LawfulEqOrd κ] [DecidableEq κ]

theorem getElem?_insertEach (m other : Std.ExtTreeMap κ α compare) (k : κ) :
    (other.toList.foldl (fun m e => m.insertIfNew e.1 e.2) m)[k]? = m[k]?.or other[k]? := by
  refine get_foldl_insert (fun (m : Std.ExtTreeMap κ α compare) (k : κ) => m[k]?) Prod.fst Prod.snd
    (fun m e k => ?_) (fun k v => ?_) m k
  · simp only [Std.ExtTreeMap.getElem?_insertIfNew, Std.LawfulEqCmp.compare_eq_iff_eq]
    by_cases hk : e.1 = k
    · subst hk
      by_cases hm : e.1 ∈ m
      · rw [if_neg (by simp [hm]), Std.ExtTreeMap.getElem?_eq_some_getElem hm, Option.some_or]
      · rw [if_pos ⟨rfl, hm⟩, Std.ExtTreeMap.getElem?_eq_none hm, if_pos rfl, Option.none_or]
    · simp [hk]
  · rw [← Std.ExtTreeMap.mem_toList_iff_getElem?_eq_some]
    constructor
    · intro h
      exact ⟨(k, v), h, rfl, rfl⟩
    · rintro ⟨⟨k', v'⟩, h, rfl, rfl⟩
      exact h

omit [DecidableEq κ] in
theorem mem_insertEach (s other : Std.ExtTreeSet κ compare) (k : κ) :
    k ∈ other.toList.foldl (fun s n => s.insert n) s ↔ k ∈ s ∨ k ∈ other := by
  have hfold : ∀ (l : List κ) (s : Std.ExtTreeSet κ compare), k ∈ l.foldl (fun s n => s.insert n) s ↔ k ∈ s ∨ k ∈ l := by
    intro l
    induction l with
    | nil => simp
    | cons a l ih =>
      intro s
      rw [List.foldl_cons, ih, Std.ExtTreeSet.mem_insert, Std.LawfulEqCmp.compare_eq_iff_eq, List.mem_cons, eq_comm (a := a)]
      tauto
  rw [hfold, Std.ExtTreeSet.mem_toList]

variable {name : α → κ}

theorem get?_insertAll (m other : Keyed.Filed κ α name) (k : κ) : (m.insertAll other).get? k = (m.get? k).or (other.get? k) := by
  refine get_foldl_insert Keyed.Filed.get? name id (fun m v k => ?_) (fun k v => ?_) m k
  · unfold Keyed.Filed.insertIfNew
    by_cases hk : name v = k
    · subst hk
      rw [if_pos rfl]
      split_ifs with hm
      · rw [Keyed.Filed.get?, Std.ExtTreeMap.getElem?_eq_some_getElem hm, Option.some_or]
      · rw [Keyed.Filed.get?_insertOrAssign_self, Keyed.Filed.get?, Std.ExtTreeMap.getElem?_eq_none hm, Option.none_or]
        rfl
    · rw [if_neg hk, Option.or_none]
      split_ifs
      · rfl
      · exact Keyed.Filed.get?_insertOrAssign_of_ne hk
  · constructor
    · intro h
      obtain rfl := Keyed.Filed.name_of_get? h
      exact ⟨v, Keyed.Filed.mem_values.mpr h, rfl, rfl⟩
    · rintro ⟨v', h, rfl, rfl⟩
      exact Keyed.Filed.mem_values.mp h

end

/-! ## Specifications -/

def aliasOf (s : Std.ExtTreeSet SwitchName compare) (name : SwitchName) : Option Unit := if name ∈ s then some () else none

def localizationOf (m : Std.ExtTreeMap String Localization compare) (language : String) : Option Localization := m[language]?

/-- Every map of the specification is as the update shall leave it. -/
structure SpecUpdate.MergedInto (u : SpecUpdate) (old new : Specification) : Prop where
  aliases : Merged u.replaceAliases (aliasOf old.aliases) (aliasOf u.aliases) (aliasOf new.aliases)
  localizations : Merged u.replaceLocalizations (localizationOf old.localizations)
    (localizationOf u.localizations) (localizationOf new.localizations)
  dependencies : Merged u.replaceDependencies old.dependencies.get? u.dependencies.get? new.dependencies.get?
  interceptors : Merged u.replaceInterceptors old.interceptors.get? u.interceptors.get? new.interceptors.get?

/-- What is supplied for a key is there already, or the key is new. -/
structure SpecUpdate.Agrees (u : SpecUpdate) (old : Specification) : Prop where
  localizations : CommonCore.Agrees u.replaceLocalizations (localizationOf old.localizations) (localizationOf u.localizations)
  dependencies : CommonCore.Agrees u.replaceDependencies old.dependencies.get? u.dependencies.get?
  interceptors : CommonCore.Agrees u.replaceInterceptors old.interceptors.get? u.interceptors.get?

theorem SpecUpdate.mergedInto_iff (u : SpecUpdate) (old : Specification) : u.MergedInto old (u.apply old) ↔ u.Agrees old := by
  have haliases : Merged u.replaceAliases (aliasOf old.aliases) (aliasOf u.aliases) (aliasOf (u.apply old).aliases) := by
    refine (merged_insert_iff _ _ _ _ ?_).mpr fun _ _ _ _ _ _ => rfl
    unfold SpecUpdate.apply
    cases u.replaceAliases with
    | true => rfl
    | false =>
      funext k
      simp only [Bool.false_eq_true, if_false, aliasOf, mem_insertEach]
      by_cases hk : k ∈ old.aliases <;> simp [hk]
  have hlocalizations := merged_insert_iff u.replaceLocalizations (localizationOf old.localizations) (localizationOf u.localizations)
    (localizationOf (u.apply old).localizations) (by
      funext k
      unfold SpecUpdate.apply
      cases u.replaceLocalizations with
      | true => rfl
      | false => exact getElem?_insertEach _ _ k)
  have hdependencies := merged_insert_iff u.replaceDependencies old.dependencies.get? u.dependencies.get?
    (u.apply old).dependencies.get? (by
      funext k
      unfold SpecUpdate.apply
      cases u.replaceDependencies with
      | true => rfl
      | false => exact get?_insertAll _ _ k)
  have hinterceptors := merged_insert_iff u.replaceInterceptors old.interceptors.get? u.interceptors.get?
    (u.apply old).interceptors.get? (by
      funext k
      unfold SpecUpdate.apply
      cases u.replaceInterceptors with
      | true => rfl
      | false => exact get?_insertAll _ _ k)
  constructor
  · intro h
    exact ⟨hlocalizations.mp h.localizations, hdependencies.mp h.dependencies, hinterceptors.mp h.interceptors⟩
  · intro h
    exact ⟨haliases, hlocalizations.mpr h.localizations, hdependencies.mpr h.dependencies, hinterceptors.mpr h.interceptors⟩

/-! ## The operations -/

section
variable {ω : ℕ → Launch → Failures} {b b' : Board} {n : SwitchName} {r : Bool}

/-- The state may be updated afterwards, but not the specification. -/
theorem spec_updateSpec {u : SpecUpdate} (h : Performs ω (.updateSpec n u) b r b') : b'.spec n = u.apply (b.spec n) := by
  have hset : (b.setSpec n (u.apply (b.spec n))).spec n = u.apply (b.spec n) := Function.update_self ..
  refine h.sound (Q := fun _ b' => b'.spec n = u.apply (b.spec n)) (declared_allows ω) declared_meets ?_
  simp only [Op.prog, updateSpec, wp_then, wp_modify, wp_ite, wp_pure, setAuto]
  split_ifs
  · refine wp_mono _ (fun _ b₁ hd => ?_) _ _ (wp_setTarget_declared n { targetState := .unset } _)
    rw [hd.spec, hset]
  · exact hset

theorem dependencies_addDependency {dep : Dependency} {reevaluate : Bool}
    (h : Performs ω (.addDependency n dep true reevaluate) b r b') :
    (b'.spec n).dependencies = (b.spec n).dependencies.insertOrAssign dep := by
  have hset : ((b.setSpec n { b.spec n with dependencies := (b.spec n).dependencies.insertOrAssign dep }).spec n).dependencies =
      (b.spec n).dependencies.insertOrAssign dep := by
    rw [show ∀ s, (b.setSpec n s).spec n = s from fun s => Function.update_self ..]
  refine h.sound (Q := fun _ b' => (b'.spec n).dependencies = (b.spec n).dependencies.insertOrAssign dep)
    (declared_allows ω) declared_meets ?_
  simp only [Op.prog, addDependency, wp_then, wp_get, wp_modify, wp_ite, wp_pure, setAuto, Bool.true_or, if_true]
  split_ifs
  · refine wp_mono _ (fun _ b₁ hd => ?_) _ _ (wp_setTarget_declared n { targetState := .unset } _)
    rw [hd.spec, hset]
  · exact hset

/-- Without failures an update ends. -/
theorem performs_updateSpec (b : Board) (n : SwitchName) (u : SpecUpdate) :
    ∃ r b', Performs noFailures (.updateSpec n u) b r b' := by
  have hw : wp (alone noFailures) (Op.updateSpec n u).prog b fun _ _ => True := by
    simp only [Op.prog, updateSpec, wp_then, wp_modify, wp_ite, wp_pure, setAuto]
    split_ifs
    · refine wp_setTarget.mpr (wp_mono _ (fun _ _ _ => trivial) _ _ (wp_applyTarget_alone fun _ _ phase k => ?_))
      exact .inl (by simp [collectErrors, noFailures, Failures.none])
  obtain ⟨r, b', k', he, -⟩ := exec_total (alone_allows noFailures) (run_alone noFailures 0) _ b 0 hw
  exact ⟨r, b', 1, 0, k', he⟩

end

/-- An update leaves each map as it shall, and merges a single dependency as
`add_dependency` does. -/
def SpecMerges (b : Board) (n : SwitchName) (u : SpecUpdate) : Prop :=
  ∀ ω r b', Performs ω (.updateSpec n u) b r b' → u.MergedInto (b.spec n) (b'.spec n) ∧
    ∀ dep, u.replaceDependencies = false → u.dependencies = .ofList [dep] →
      ∀ ω' reevaluate r' b'', Performs ω' (.addDependency n dep true reevaluate) b r' b'' →
        (b'.spec n).dependencies = (b''.spec n).dependencies

theorem SpecMerges.agrees {b : Board} {n : SwitchName} {u : SpecUpdate} (h : SpecMerges b n u) : u.Agrees (b.spec n) := by
  obtain ⟨r, b', hp⟩ := performs_updateSpec b n u
  have hmerged := (h _ _ _ hp).1
  rw [spec_updateSpec hp] at hmerged
  exact (u.mergedInto_iff _).mp hmerged

/-- An update merges if it does not supply anything else for a key that is there. -/
theorem spec_merges_iff (b : Board) (n : SwitchName) (u : SpecUpdate) : SpecMerges b n u ↔ u.Agrees (b.spec n) := by
  constructor
  · exact SpecMerges.agrees
  · intro h ω r b' hp
    have hmerged := (u.mergedInto_iff _).mpr h
    rw [spec_updateSpec hp]
    refine ⟨hmerged, fun dep hreplace hsingle ω' reevaluate r' b'' hp' => ?_⟩
    have hget : ∀ k, u.dependencies.get? k = if dep.predecessorName = k then some dep else none := by
      intro k
      rw [hsingle]
      by_cases hk : dep.predecessorName = k
      · subst hk
        rw [if_pos rfl]
        exact Keyed.Filed.get?_insertOrAssign_self dep
      · rw [if_neg hk]
        exact Keyed.Filed.get?_insertOrAssign_of_ne hk
    rw [dependencies_addDependency hp']
    refine Keyed.Filed.ext_get? fun k => ?_
    by_cases hk : dep.predecessorName = k
    · subst hk
      rw [Keyed.Filed.get?_insertOrAssign_self]
      exact hmerged.dependencies.written hreplace _ dep (by rw [hget, if_pos rfl])
    · rw [Keyed.Filed.get?_insertOrAssign_of_ne hk]
      exact hmerged.dependencies.others hreplace k (by rw [hget, if_neg hk])

/-- A switch `q` that depends on `p`. -/
def dependent : Board :=
  .new [] ["p", "q"] fun n => if n = "q" then { dependencies := .ofList [{ predecessorName := "p" }] } else {}

def hardened : SpecUpdate where
  primary := none
  aliases := ∅
  replaceAliases := false
  localizations := ∅
  replaceLocalizations := false
  dependencies := .ofList [{ predecessorName := "p", hard := true }]
  replaceDependencies := false
  interceptors := .empty
  replaceInterceptors := false
  updateState := false

/-- A dependency that is there already is not made a hard one. -/
theorem not_merged : ¬ ∀ b n u, SpecMerges b n u := by
  intro hall
  have h := (hall dependent "q" hardened).agrees.dependencies rfl "p"
    { predecessorName := "p", hard := true } { predecessorName := "p" } (by decide) (by decide)
  exact absurd h (by decide)

end CommonCore
