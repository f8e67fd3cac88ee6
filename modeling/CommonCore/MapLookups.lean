import CommonCore.FromChars

/-!
# Lookups in maps and in lists of their entries

A map looks for the key itself and only then, if asked, for one that differs in
case. The list takes the first tag that will do. The candidates of `get_any` are
always looked up in a map as they are.
-/

namespace CommonCore

/-- `str::tolower`. -/
def strToLower (s : Bytes) : Bytes := s.map toLower

namespace KeyValueMap

def getPtr (m : KeyValueMap) (key : Bytes) (ignoreCase : Bool) : Option Value :=
  match Keyed.find key m with
  | some value => some value
  | none =>
    if ignoreCase then (m.find? fun e => strToLower e.1 = strToLower key).map Prod.snd
    else none

/-- `get`, with what to return for a key that is not there. -/
def getOr (m : KeyValueMap) (key : Bytes) (fallback : Value) (ignoreCase : Bool) : Value :=
  match m.getPtr key ignoreCase with
  | some value => value
  | none => fallback

def tryGet (m : KeyValueMap) (key : Bytes) (ignoreCase : Bool) : Option Value := m.getPtr key ignoreCase

/-- `get_any`, which does not pass `ignoreCase` on. -/
def getAny (m : KeyValueMap) (candidates : List Bytes) (fallback : Value) (_ignoreCase : Bool) : Value :=
  match candidates with
  | [] => fallback
  | candidate :: candidates =>
    match m.getPtr candidate false with
    | some value => value
    | none => m.getAny candidates fallback _ignoreCase

def asTvlist (m : KeyValueMap) : TaggedValueList := m.map fun e => (some e.1, e.2)

end KeyValueMap

namespace TaggedValueList

def find (l : TaggedValueList) (tag : Option Bytes) (ignoreCase : Bool) : Option (Option Bytes × Value) :=
  match tag with
  | none => none
  | some tagname =>
    l.find? fun e => e.1.getD [] = tagname ∨ (ignoreCase = true ∧ strToLower (e.1.getD []) = strToLower tagname)

def get (l : TaggedValueList) (tag : Option Bytes) (fallback : Value) (ignoreCase : Bool) : Value :=
  match l.find tag ignoreCase with
  | some e => e.2
  | none => fallback

def tryGet (l : TaggedValueList) (tag : Option Bytes) (ignoreCase : Bool) : Option Value :=
  (l.find tag ignoreCase).map Prod.snd

def getAny (l : TaggedValueList) (candidates : List Bytes) (fallback : Value) (ignoreCase : Bool) : Value :=
  match candidates with
  | [] => fallback
  | candidate :: candidates =>
    match l.tryGet (some candidate) ignoreCase with
    | some value => value
    | none => l.getAny candidates fallback ignoreCase

end TaggedValueList

namespace KeyValueMap

variable (m : KeyValueMap) (key : Bytes) (candidates : List Bytes) (fallback : Value) (ignoreCase : Bool)

/-! ## What is to be found -/

/-- The value of the first key that is the same up to case. -/
def folded : Option Value := (m.find? fun e => strToLower e.1 = strToLower key).map Prod.snd

/-- The value of the key, or else of one that differs in case. -/
def sought : Option Value := (Keyed.find key m).or (if ignoreCase then m.folded key else none)

/-- A map and the list of its entries give the same, which is what is sought. -/
structure LookupsAgree : Prop where
  get : m.getOr key fallback ignoreCase = m.asTvlist.get (some key) fallback ignoreCase ∧
    m.getOr key fallback ignoreCase = (m.sought key ignoreCase).getD fallback
  tryGet : m.tryGet key ignoreCase = m.asTvlist.tryGet (some key) ignoreCase ∧
    m.tryGet key ignoreCase = m.sought key ignoreCase
  getAny : m.getAny candidates fallback ignoreCase = m.asTvlist.getAny candidates fallback ignoreCase ∧
    m.getAny candidates fallback ignoreCase = (candidates.findSome? (m.sought · ignoreCase)).getD fallback

/-- A key that is there has the value of the first one that differs in case. -/
def FirstOfCase : Prop := ∀ value, Keyed.find key m = some value → m.folded key = some value

/-- The first candidate that is there in some case is there as it is and the first
in its case; or else its value is that of the next candidate that is there as it
is, or the fallback. -/
def CandidatesOfCase : List Bytes → Prop
  | [] => True
  | candidate :: candidates =>
    match Keyed.find candidate m, m.folded candidate with
    | _, none => CandidatesOfCase candidates
    | some value, some first => first = value
    | none, some first => first = (candidates.findSome? (Keyed.find · m)).getD fallback

/-! ## Where they agree -/

theorem find?_eq : (m.find? fun e => e.1 = key).map Prod.snd = Keyed.find key m := by
  induction m with
  | nil => rfl
  | cons e m ih =>
    rw [Keyed.find, List.find?_cons]
    by_cases h : e.1 = key
    · simp [h]
    · have hne : compare key e.1 ≠ .eq := fun heq => h (Std.LawfulEqCmp.eq_of_compare heq).symm
      simpa [h, hne] using ih

theorem tryGet_asTvlist_exact : m.asTvlist.tryGet (some key) false = Keyed.find key m := by
  rw [← find?_eq, asTvlist, TaggedValueList.tryGet, TaggedValueList.find, List.find?_map, Option.map_map]
  simp [Function.comp_def]

theorem tryGet_asTvlist_folded : m.asTvlist.tryGet (some key) true = m.folded key := by
  have hor : ∀ tag, (tag = key ∨ strToLower tag = strToLower key) ↔ strToLower tag = strToLower key :=
    fun tag => or_iff_right_of_imp (congrArg strToLower)
  rw [asTvlist, TaggedValueList.tryGet, TaggedValueList.find, List.find?_map, Option.map_map, folded]
  simp [Function.comp_def, hor]

theorem getPtr_eq : m.getPtr key ignoreCase = m.sought key ignoreCase := by
  unfold getPtr sought folded
  cases Keyed.find key m <;> simp

theorem getOr_eq : m.getOr key fallback ignoreCase = (m.sought key ignoreCase).getD fallback := by
  rw [getOr, getPtr_eq]
  cases m.sought key ignoreCase <;> rfl

theorem getAny_eq : m.getAny candidates fallback ignoreCase = (candidates.findSome? (Keyed.find · m)).getD fallback := by
  induction candidates with
  | nil => rfl
  | cons candidate candidates ih =>
    rw [getAny, getPtr_eq, List.findSome?_cons, ih]
    cases h : Keyed.find candidate m <;> simp [sought, h]

theorem getAny_asTvlist : m.asTvlist.getAny candidates fallback ignoreCase =
    (candidates.findSome? fun c => m.asTvlist.tryGet (some c) ignoreCase).getD fallback := by
  induction candidates with
  | nil => rfl
  | cons candidate candidates ih =>
    rw [TaggedValueList.getAny, List.findSome?_cons, ih]
    cases m.asTvlist.tryGet (some candidate) ignoreCase <;> rfl

theorem get_asTvlist (tag : Option Bytes) : m.asTvlist.get tag fallback ignoreCase =
    (m.asTvlist.tryGet tag ignoreCase).getD fallback := by
  rw [TaggedValueList.get, TaggedValueList.tryGet]
  cases m.asTvlist.find tag ignoreCase <;> rfl

variable {m key}

theorem folded_of_find {value : Value} (h : Keyed.find key m = some value) : ∃ first, m.folded key = some first := by
  rw [← find?_eq, Option.map_eq_some_iff] at h
  obtain ⟨e, he, -⟩ := h
  have hkey : e.1 = key := by simpa using List.find?_some he
  have hsome : (m.find? fun e => strToLower e.1 = strToLower key).isSome :=
    List.find?_isSome.2 ⟨e, List.mem_of_find?_eq_some he, by simp [hkey]⟩
  obtain ⟨first, hfirst⟩ := Option.isSome_iff_exists.1 hsome
  exact ⟨first.2, by rw [folded, hfirst]; rfl⟩

theorem sought_eq_folded_iff : m.sought key true = m.folded key ↔ m.FirstOfCase key := by
  unfold sought FirstOfCase
  cases h : Keyed.find key m with
  | none => simp
  | some value =>
    obtain ⟨first, hfirst⟩ := folded_of_find h
    simp [hfirst, eq_comm]

/-- The lookups of the candidates agree. -/
theorem candidates_iff : (candidates.findSome? (Keyed.find · m)).getD fallback =
      (candidates.findSome? m.folded).getD fallback ∧
    (candidates.findSome? (Keyed.find · m)).getD fallback = (candidates.findSome? (m.sought · true)).getD fallback ↔
      m.CandidatesOfCase fallback candidates := by
  induction candidates with
  | nil => simp [CandidatesOfCase]
  | cons candidate candidates ih =>
    simp only [List.findSome?_cons, CandidatesOfCase]
    cases hfind : Keyed.find candidate m with
    | some value =>
      obtain ⟨first, hfirst⟩ := folded_of_find hfind
      simp [sought, hfind, hfirst, eq_comm]
    | none =>
      cases hfolded : m.folded candidate with
      | none => simpa [sought, hfind, hfolded] using ih
      | some first => simp [sought, hfind, hfolded, eq_comm]

variable (m key)

/-- A map and the list of its entries give the same where the case counts, and
otherwise as far as the keys looked up are the first in their case. -/
theorem lookupsAgree_iff : m.LookupsAgree key candidates fallback ignoreCase ↔
    (ignoreCase = true → m.FirstOfCase key ∧ m.CandidatesOfCase fallback candidates) := by
  cases ignoreCase with
  | false =>
    have hsought : ∀ key, m.sought key false = Keyed.find key m := fun key => by simp [sought]
    refine ⟨fun _ h => absurd h (by decide), fun _ => ⟨?_, ?_, ?_⟩⟩
    · simp [getOr_eq, get_asTvlist, tryGet_asTvlist_exact, hsought]
    · simp [tryGet, getPtr_eq, tryGet_asTvlist_exact, hsought]
    · simp [getAny_eq, getAny_asTvlist, tryGet_asTvlist_exact, hsought]
  | true =>
    rw [← sought_eq_folded_iff, ← candidates_iff]
    constructor
    · rintro ⟨-, hget, hany⟩ -
      rw [tryGet, getPtr_eq, tryGet_asTvlist_folded] at hget
      rw [getAny_eq, getAny_asTvlist] at hany
      simp only [tryGet_asTvlist_folded] at hany
      exact ⟨hget.1, hany⟩
    · intro h
      obtain ⟨hkey, hany⟩ := h rfl
      refine ⟨?_, ?_, ?_⟩
      · simp [getOr_eq, get_asTvlist, tryGet_asTvlist_folded, hkey]
      · simp [tryGet, getPtr_eq, tryGet_asTvlist_folded, hkey]
      · rw [getAny_eq, getAny_asTvlist]
        simp only [tryGet_asTvlist_folded]
        exact hany

/-- The list has the value of `A`, the map has none. -/
theorem getAny_ignores_flag : ¬ ∀ (m : KeyValueMap) (key : Bytes) (candidates : List Bytes) (fallback : Value)
    (ignoreCase : Bool), m.LookupsAgree key candidates fallback ignoreCase := by
  intro h
  have hany : Value.none = .bool true := (h [(ascii "A", .bool true)] [] [ascii "a"] .none true).getAny.1
  cases hany

end KeyValueMap

end CommonCore
