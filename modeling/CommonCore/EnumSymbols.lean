import CommonCore.CommonPrefixes
import CommonCore.Dicts

/-!
# Names of enumeration values in Python

The dissecter and the builder each find what the names of an enumeration begin
with. The dissecter goes on where two names have come to differ, and counts what
is left of shorter names; the builder takes the name as it is before it looks for
a longer one.
-/

namespace CommonCore

namespace EnumSymbols

abbrev Name := List Char

/-! ## Prefixes -/

def divided (name : Name) : List Name := name.splitOn '_'

/-- The parts that are the same at the same position. -/
def agreeing (prefixParts symbolParts : List Name) : List Name :=
  ((prefixParts.zip symbolParts).filter fun p => p.1 = p.2).map Prod.fst

def prefixParts : List (List Name) → List Name
  | [] => []
  | parts :: splitSymbols => splitSymbols.foldl agreeing parts

/-- The length of the parts, each with a delimiter. -/
def partsLength (parts : List Name) : ℕ := (parts.map fun part => part.length + 1).sum

def commonPrefix (symbols : List Name) : ℕ × Name :=
  let parts := prefixParts (symbols.map divided)
  (partsLength parts, ['_'].intercalate parts)

/-- The positions at which a name differs from the first. -/
def differing (commonBase dividedName : List Name) : List ℕ :=
  ((commonBase.zip dividedName).zipIdx.filter fun p => p.1.1 ≠ p.1.2).map Prod.snd

/-- Each part and a delimiter. -/
def followed (parts : List Name) : Name := parts.flatMap (· ++ ['_'])

def largestCommonBase (names : List Name) : Name :=
  match names.map divided with
  | [] => []
  | commonBase :: dividedNames =>
    let cutoffs := commonBase.length :: dividedNames.flatMap (differing commonBase)
    followed (commonBase.take (cutoffs.min?.getD 0))

/-! ## Enumerations -/

/-- `EnumDescriptor`, with the values by name. -/
structure EnumDescriptor where
  name : Name
  values : Dict Name Int
  nonempty : values.items ≠ []
  numbers : (values.items.map Prod.snd).Nodup

def names (D : EnumDescriptor) : List Name := D.values.items.map Prod.fst

/-- `_is_dunder`, of a name such as `__doc__`. -/
def isDunder (key : Name) : Bool :=
  4 < key.length && key.take 2 = ['_', '_'] && key.reverse.take 2 = ['_', '_'] &&
    key[2]? ≠ some '_' && key.reverse[2]? ≠ some '_'

/-- `_is_sunder`, of a name such as `_doc_`. -/
def isSunder (key : Name) : Bool :=
  2 < key.length && key.head? = some '_' && key.getLast? = some '_' && key[1]? ≠ some '_' && key.reverse[1]? ≠ some '_'

/-- `_is_private`, of a name that a class keeps to itself. -/
def isPrivate (cls key : Name) : Bool :=
  let mark := '_' :: cls ++ ['_', '_']
  mark.length < key.length && mark.isPrefixOf key && (key.getLast? ≠ some '_' || key.reverse[1]? ≠ some '_')

inductive EnumError
  | reserved (key : Name)
  | invalid
  | noSuchValue (n : Int)
  | noSuchSymbol (symbol : Name)
  deriving DecidableEq

/-- The members of an `IntEnum` with these names. Private names and those in double
underscores are attributes of the class. -/
def intEnum (cls : Name) (d : Dict Name Int) : Except EnumError (List (Name × Int)) :=
  let isReserved key := !isPrivate cls key && isSunder key
  let members := d.items.filter fun e => !isPrivate cls e.1 && !isDunder e.1
  match d.items.find? fun e => isReserved e.1 with
  | some e => .error (.reserved e.1)
  | none =>
    if members.any fun e => e.1 = [] || e.1 = "mro".toList then .error .invalid
    else .ok members

/-- The class called with a number. -/
def member (members : List (Name × Int)) (n : Int) : Except EnumError (Name × Int) :=
  match members.find? fun e => e.2 = n with
  | some e => .ok e
  | none => .error (.noSuchValue n)

/-- `enum_decoder`, where none is registered. -/
def enumDecoder (D : EnumDescriptor) : Except EnumError (List (Name × Int)) :=
  let pfxSize := (commonPrefix (names D)).1
  intEnum D.name (D.values.items.foldl (fun d v => d.set (v.1.drop pfxSize) v.2) .empty)

def encodeEnumName (D : EnumDescriptor) (symbol : Name) : Except EnumError Int :=
  match D.values.get symbol with
  | some n => .ok n
  | none =>
    match D.values.get (largestCommonBase (names D) ++ symbol) with
    | some n => .ok n
    | none => .error (.noSuchSymbol symbol)

/-! ## What the names shall be -/

/-- Empty or with a delimiter at its end, and the beginning of all names. -/
def Base (names : List Name) (p : Name) : Prop := (p = [] ∨ p.getLast? = some '_') ∧ ∀ name ∈ names, p <+: name

def LongestBase (names : List Name) (p : Name) : Prop := Base names p ∧ ∀ q, Base names q → q.length ≤ p.length

/-- Each number is decoded to a member of its own, whose name is encoded to the
number; and what is left out is the longest base. -/
def SymbolsAgree (D : EnumDescriptor) : Prop :=
  (∃ members, enumDecoder D = .ok members ∧ ∃ short : Int → Name,
    (∀ v ∈ D.values.items, member members v.2 = .ok (short v.2, v.2) ∧ encodeEnumName D (short v.2) = .ok v.2) ∧
    ∀ v ∈ D.values.items, ∀ w ∈ D.values.items, short v.2 = short w.2 → v = w) ∧
  ∃ p, LongestBase (names D) p ∧ (commonPrefix (names D)).1 = p.length ∧ largestCommonBase (names D) = p

/-- The parts that all names begin with. -/
def commonParts (names : List Name) : List Name := Str.commonStarts (names.map divided)

/-- What names begin with, less the last part of each. -/
def base (names : List Name) : Name := followed (Str.commonStarts (names.map fun name => (divided name).dropLast))

def shortName (D : EnumDescriptor) (name : Name) : Name := name.drop (base (names D)).length

def ValidMember (cls key : Name) : Prop :=
  key ≠ [] ∧ key ≠ "mro".toList ∧ isPrivate cls key = false ∧ isSunder key = false ∧ isDunder key = false

/-- All names go on after what they have in common, with parts of which none stays
the same; and what they go on with can be names in a class, and is no name of
another value. -/
structure Distinguished (D : EnumDescriptor) : Prop where
  goOn : ∀ name ∈ names D, divided name ≠ commonParts (names D)
  differ : prefixParts ((names D).map fun name => (divided name).drop (commonParts (names D)).length) = []
  valid : ∀ name ∈ names D, ValidMember D.name (shortName D name)
  other : ∀ name ∈ names D, shortName D name ∈ names D → shortName D name = name

/-! ## Names and their parts -/

theorem followed_append (ws ts : List Name) : followed (ws ++ ts) = followed ws ++ followed ts := List.flatMap_append

theorem length_followed (ws : List Name) : (followed ws).length = partsLength ws := by
  unfold followed partsLength
  rw [List.length_flatMap]
  simp

theorem intercalate_append (ws : List Name) {ts : List Name} (hts : ts ≠ []) :
    ['_'].intercalate (ws ++ ts) = followed ws ++ ['_'].intercalate ts := by
  induction ws with
  | nil => rfl
  | cons w ws ih =>
    obtain ⟨t, rest, hrest⟩ : ∃ t rest, ws ++ ts = t :: rest := List.exists_cons_of_ne_nil (by simp [hts])
    rw [List.cons_append, hrest, List.intercalate_cons_cons, ← hrest, ih]
    simp [followed]

theorem divided_ne_nil (name : Name) : divided name ≠ [] := List.splitOn_ne_nil _ _

theorem intercalate_divided (name : Name) : ['_'].intercalate (divided name) = name := List.intercalate_splitOn '_'

/-- Leading parts that are not all begin the name, with delimiters. -/
theorem prefix_followed {ws : List Name} {name : Name} (h : ws <+: (divided name).dropLast) : followed ws <+: name := by
  obtain ⟨ts, hts⟩ := h
  have hlast := List.dropLast_append_getLast (divided_ne_nil name)
  rw [← hts, List.append_assoc] at hlast
  rw [← intercalate_divided name, ← hlast, intercalate_append ws (by simp)]
  exact List.prefix_append _ _

theorem divided_append (q t : Name) : divided (q ++ '_' :: t) = divided q ++ divided t :=
  List.splitOn_append_cons_self q t

theorem followed_divided (q : Name) : followed (divided q) = q ++ ['_'] := by
  have h := intercalate_append (divided q) (divided_ne_nil [])
  rw [← divided_append, intercalate_divided, intercalate_divided, List.append_nil] at h
  exact h.symm

theorem prefix_divided {q name : Name} (h : q ++ ['_'] <+: name) : divided q <+: (divided name).dropLast := by
  obtain ⟨t, rfl⟩ := h
  rw [List.append_assoc, List.singleton_append, divided_append, List.dropLast_append_of_ne_nil (divided_ne_nil t)]
  exact List.prefix_append _ _

/-! ## The longest base -/

theorem prefix_commonStarts {ls : List (List Name)} {ws : List Name} (hls : ls ≠ []) :
    ws <+: Str.commonStarts ls ↔ ∀ l ∈ ls, ws <+: l := by
  obtain ⟨l, ls, rfl⟩ := List.exists_cons_of_ne_nil hls
  exact Str.prefix_commonStarts

section
variable {names : List Name} (hne : names ≠ [])
include hne

theorem commonStarts_le {name : Name} (hname : name ∈ names) (f : Name → List Name) :
    Str.commonStarts (names.map f) <+: f name :=
  (prefix_commonStarts (by simpa using hne)).1 List.prefix_rfl _ (List.mem_map_of_mem hname)

theorem base_longest : LongestBase names (base names) := by
  refine ⟨⟨?_, fun name hname => prefix_followed (commonStarts_le hne hname _)⟩, fun q hq => ?_⟩
  · unfold base
    rcases List.eq_nil_or_concat' (Str.commonStarts (names.map fun name => (divided name).dropLast)) with h | ⟨ws, w, h⟩
    · exact .inl (by rw [h]; rfl)
    · exact .inr (by simp [h, followed])
  · rcases hq with ⟨rfl | hlast, hstart⟩
    · exact Nat.zero_le _
    · obtain ⟨q, rfl⟩ := List.getLast?_eq_some_iff.1 hlast
      have hcommon : divided q <+: Str.commonStarts (names.map fun name => (divided name).dropLast) := by
        rw [prefix_commonStarts (by simpa using hne), List.forall_mem_map]
        exact fun name hname => prefix_divided (hstart name hname)
      obtain ⟨ts, hts⟩ := hcommon
      rw [base, ← hts, followed_append, followed_divided]
      exact (List.prefix_append _ _).length_le

theorem longestBase_unique {p q : Name} (hp : LongestBase names p) (hq : LongestBase names q) : p = q := by
  obtain ⟨name, hname⟩ := List.exists_mem_of_ne_nil names hne
  have hlength : p.length = q.length := le_antisymm (hq.2 p hp.1) (hp.2 q hq.1)
  have hpq : p <+: q := List.prefix_of_prefix_length_le (hp.1.2 name hname) (hq.1.2 name hname) hlength.le
  exact hpq.eq_of_length hlength

end

/-! ## What the dissecter leaves out -/

theorem partsLength_append (ws ts : List Name) : partsLength (ws ++ ts) = partsLength ws + partsLength ts := by
  simp [partsLength]

theorem partsLength_eq_zero {ws : List Name} : partsLength ws = 0 ↔ ws = [] := by
  cases ws <;> simp [partsLength]

theorem agreeing_append (c x y : List Name) : agreeing (c ++ x) (c ++ y) = c ++ agreeing x y := by
  induction c with
  | nil => rfl
  | cons w c ih =>
    unfold agreeing at ih ⊢
    simp only [List.cons_append, List.zip_cons_cons, decide_true, List.filter_cons_of_pos, List.map_cons, ih]

/-- The parts that all names begin with are kept. -/
theorem prefixParts_append (c : List Name) (ls : List (List Name)) (hls : ls ≠ []) :
    prefixParts (ls.map (c ++ ·)) = c ++ prefixParts ls := by
  obtain ⟨l, ls, rfl⟩ := List.exists_cons_of_ne_nil hls
  clear hls
  rw [List.map_cons, prefixParts, prefixParts]
  induction ls generalizing l with
  | nil => rfl
  | cons m ls ih => rw [List.map_cons, List.foldl_cons, List.foldl_cons, agreeing_append, ih]

theorem prefix_dropLast {l m : List Name} (h : l <+: m) (hne : l ≠ m) : l <+: m.dropLast := by
  obtain ⟨ts, rfl⟩ := h
  have hts : ts ≠ [] := by
    rintro rfl
    exact hne (List.append_nil l).symm
  rw [List.dropLast_append_of_ne_nil hts]
  exact List.prefix_append _ _

theorem not_prefix_dropLast (name : Name) : ¬ divided name <+: (divided name).dropLast := by
  intro h
  have hlength := h.length_le
  have hpos := List.length_pos_of_ne_nil (divided_ne_nil name)
  rw [List.length_dropLast] at hlength
  omega

section
variable {names : List Name} (hne : names ≠ [])
include hne

theorem prefixParts_names : prefixParts (names.map divided) =
    commonParts names ++ prefixParts (names.map fun name => (divided name).drop (commonParts names).length) := by
  rw [← prefixParts_append _ _ (by simpa using hne), List.map_map]
  congr 1
  apply List.map_congr_left
  intro name hname
  exact (List.prefix_iff_eq_append.1 (commonStarts_le hne hname divided)).symm

theorem prefix_baseParts : Str.commonStarts (names.map fun name => (divided name).dropLast) <+: commonParts names := by
  unfold commonParts
  rw [prefix_commonStarts (by simpa using hne), List.forall_mem_map]
  exact fun name hname => (commonStarts_le hne hname _).trans (List.dropLast_prefix _)

/-- Where no name is made of the parts in common only, they are the base. -/
theorem baseParts_eq (h : ∀ name ∈ names, divided name ≠ commonParts names) :
    Str.commonStarts (names.map fun name => (divided name).dropLast) = commonParts names := by
  have hstart : commonParts names <+: Str.commonStarts (names.map fun name => (divided name).dropLast) := by
    rw [prefix_commonStarts (by simpa using hne), List.forall_mem_map]
    exact fun name hname => prefix_dropLast (commonStarts_le hne hname divided) (h name hname).symm
  exact (prefix_baseParts hne).eq_of_length (le_antisymm (prefix_baseParts hne).length_le hstart.length_le)

theorem commonPrefix_length_iff : (commonPrefix names).1 = (base names).length ↔
    (∀ name ∈ names, divided name ≠ commonParts names) ∧
      prefixParts (names.map fun name => (divided name).drop (commonParts names).length) = [] := by
  rw [commonPrefix, prefixParts_names hne, base, length_followed]
  dsimp only
  rw [partsLength_append]
  constructor
  · intro h
    obtain ⟨ts, hts⟩ := prefix_baseParts hne
    have hsum := congrArg partsLength hts
    rw [partsLength_append] at hsum
    have hnil : ts = [] := partsLength_eq_zero.1 (by omega)
    rw [hnil, List.append_nil] at hts
    refine ⟨fun name hname heq => ?_, partsLength_eq_zero.1 (by omega)⟩
    have hdrop := commonStarts_le hne hname fun name => (divided name).dropLast
    rw [hts, ← heq] at hdrop
    exact not_prefix_dropLast name hdrop
  · rintro ⟨hrest, hnil⟩
    rw [hnil, baseParts_eq hne hrest]
    rfl

/-! ## What the builder puts in front -/

omit hne in
theorem mem_differing {commonBase parts : List Name} {i : ℕ} :
    i ∈ differing commonBase parts ↔ ∃ a b, commonBase[i]? = some a ∧ parts[i]? = some b ∧ a ≠ b := by
  unfold differing
  rw [List.mem_map]
  constructor
  · rintro ⟨⟨⟨a, b⟩, j⟩, hmem, rfl⟩
    rw [List.mem_filter, List.mk_mem_zipIdx_iff_getElem?, List.getElem?_zip_eq_some] at hmem
    exact ⟨a, b, hmem.1.1, hmem.1.2, of_decide_eq_true hmem.2⟩
  · rintro ⟨a, b, ha, hb, hab⟩
    refine ⟨((a, b), i), ?_, rfl⟩
    rw [List.mem_filter, List.mk_mem_zipIdx_iff_getElem?, List.getElem?_zip_eq_some]
    exact ⟨⟨ha, hb⟩, decide_eq_true hab⟩

omit hne in
theorem prefix_concat {l m : List Name} {part : Name} (h : l <+: m) (hpart : m[l.length]? = some part) : l ++ [part] <+: m := by
  obtain ⟨ts, rfl⟩ := h
  rw [List.getElem?_append_right le_rfl, Nat.sub_self] at hpart
  cases ts with
  | nil => cases hpart
  | cons t ts =>
    cases hpart
    exact ⟨ts, by simp⟩

omit hne in
theorem getElem?_prefix {l m : List Name} (h : l <+: m) {i : ℕ} (hi : i < l.length) : m[i]? = l[i]? := by
  obtain ⟨ts, rfl⟩ := h
  exact List.getElem?_append_left hi

/-- Where all names go on, the first one differs from another just there. -/
theorem largestCommonBase_eq (h : ∀ name ∈ names, divided name ≠ commonParts names) :
    largestCommonBase names = followed (commonParts names) := by
  have hcommon : ∀ name ∈ names, commonParts names <+: divided name := fun name hname => commonStarts_le hne hname _
  have hgoOn : ∀ name ∈ names, (commonParts names).length < (divided name).length := by
    intro name hname
    refine lt_of_le_of_ne (hcommon name hname).length_le fun hlength => ?_
    exact h name hname ((hcommon name hname).eq_of_length hlength).symm
  obtain ⟨first, rest, rfl⟩ := List.exists_cons_of_ne_nil hne
  have hmin : ((divided first).length :: (rest.map divided).flatMap (differing (divided first))).min? =
      some (commonParts (first :: rest)).length := by
    rw [List.min?_eq_some_iff]
    constructor
    · by_contra hnot
      obtain ⟨part, hpart⟩ : ∃ part, (divided first)[(commonParts (first :: rest)).length]? = some part :=
        ⟨_, List.getElem?_eq_getElem (hgoOn first List.mem_cons_self)⟩
      have hlonger : commonParts (first :: rest) ++ [part] <+: commonParts (first :: rest) := by
        conv_rhs => rw [commonParts]
        rw [prefix_commonStarts (by simp), List.forall_mem_map]
        intro name hname
        apply prefix_concat (hcommon name hname)
        rcases List.mem_cons.1 hname with rfl | hrest
        · exact hpart
        · by_contra hdiffer
          apply hnot (List.mem_cons_of_mem _ _)
          rw [List.mem_flatMap]
          refine ⟨divided name, List.mem_map_of_mem hrest, mem_differing.2 ?_⟩
          refine ⟨part, _, hpart, List.getElem?_eq_getElem (hgoOn name hname), fun heq => hdiffer ?_⟩
          rw [heq]
          exact List.getElem?_eq_getElem (hgoOn name hname)
      have hlength := hlonger.length_le
      rw [List.length_append] at hlength
      exact absurd hlength (by simp)
    · intro i hi
      rcases List.mem_cons.1 hi with rfl | hi
      · exact (hgoOn first List.mem_cons_self).le
      · obtain ⟨parts, hparts, hi⟩ := List.mem_flatMap.1 hi
        obtain ⟨name, hname, rfl⟩ := List.mem_map.1 hparts
        obtain ⟨a, b, ha, hb, hab⟩ := mem_differing.1 hi
        by_contra hlt
        have hfirst := getElem?_prefix (hcommon first List.mem_cons_self) (not_le.1 hlt)
        have hother := getElem?_prefix (hcommon name (List.mem_cons_of_mem _ hname)) (not_le.1 hlt)
        exact hab (Option.some.inj (ha.symm.trans ((hfirst.trans hother.symm).trans hb)))
  rw [largestCommonBase, List.map_cons]
  dsimp only
  rw [hmin, Option.getD_some, ← List.prefix_iff_eq_take.1 (hcommon first List.mem_cons_self)]

end

/-! ## Members -/

theorem find?_of_nodup {α β : Type} [DecidableEq β] {f : α → β} {l : List α} (hnodup : (l.map f).Nodup) {a : α} (ha : a ∈ l) :
    l.find? (fun b => f b = f a) = some a := by
  induction l with
  | nil => cases ha
  | cons b l ih =>
    rw [List.map_cons, List.nodup_cons] at hnodup
    rcases List.mem_cons.1 ha with rfl | ha
    · simp
    · have hne : f b ≠ f a := fun heq => hnodup.1 (heq ▸ List.mem_map_of_mem ha)
      rw [List.find?_cons_of_neg (by simpa using hne), ih hnodup.2 ha]

section
variable (D : EnumDescriptor)

theorem names_ne_nil : names D ≠ [] := by simpa [names] using D.nonempty

variable {D}

theorem eq_of_number {v w : Name × Int} (hv : v ∈ D.values.items) (hw : w ∈ D.values.items) (h : v.2 = w.2) : v = w :=
  List.inj_on_of_nodup_map D.numbers hv hw h

theorem eq_of_name {v w : Name × Int} (hv : v ∈ D.values.items) (hw : w ∈ D.values.items) (h : v.1 = w.1) : v = w :=
  List.inj_on_of_nodup_map D.values.nodup hv hw h

theorem base_append_shortName {name : Name} (h : name ∈ names D) : base (names D) ++ shortName D name = name :=
  List.prefix_iff_eq_append.1 ((base_longest (names_ne_nil D)).1.2 name h)

theorem shortName_inj {v w : Name × Int} (hv : v ∈ D.values.items) (hw : w ∈ D.values.items)
    (h : shortName D v.1 = shortName D w.1) : v = w := by
  apply eq_of_name hv hw
  rw [← base_append_shortName (List.mem_map_of_mem hv), h, base_append_shortName (List.mem_map_of_mem hw)]

theorem shortNames_nodup : ((D.values.items.map fun v => (shortName D v.1, v.2)).map Prod.fst).Nodup := by
  rw [List.map_map]
  exact List.Nodup.map_on (fun v hv w hw h => shortName_inj hv hw h) (List.Nodup.of_map _ D.numbers)

/-- The names of the members to be, with their numbers. -/
def shortNames (D : EnumDescriptor) : Dict Name Int := ⟨_, shortNames_nodup (D := D)⟩

theorem enumDecoder_eq (h : (commonPrefix (names D)).1 = (base (names D)).length) :
    enumDecoder D = intEnum D.name (shortNames D) := by
  have hset := Dict.foldl_set .empty (D.values.items.map fun v => (shortName D v.1, v.2)) shortNames_nodup
  rw [List.foldl_map] at hset
  unfold enumDecoder
  rw [h]
  exact congrArg (intEnum D.name) hset

theorem intEnum_valid {cls : Name} {d : Dict Name Int} {members : List (Name × Int)} (h : intEnum cls d = .ok members)
    {e : Name × Int} (he : e ∈ members) : e ∈ d.items ∧ ValidMember cls e.1 := by
  unfold intEnum at h
  dsimp only at h
  split at h
  · cases h
  next hreserved =>
    split_ifs at h with hinvalid
    cases h
    obtain ⟨hmem, hkey⟩ := List.mem_filter.1 he
    have hsunder := List.find?_eq_none.1 hreserved e hmem
    have hname : ¬ (decide (e.1 = []) || decide (e.1 = "mro".toList)) = true := fun heq => hinvalid (List.any_eq_true.2 ⟨e, he, heq⟩)
    simp only [Bool.and_eq_true, Bool.not_eq_true', Bool.or_eq_true, decide_eq_true_eq, not_or] at hkey hsunder hname
    refine ⟨hmem, hname.1, hname.2, hkey.1, ?_, hkey.2⟩
    simpa [hkey.1] using hsunder

theorem intEnum_of_valid {cls : Name} {d : Dict Name Int} (h : ∀ e ∈ d.items, ValidMember cls e.1) :
    intEnum cls d = .ok d.items := by
  have hmembers : (d.items.filter fun e => !isPrivate cls e.1 && !isDunder e.1) = d.items := by
    rw [List.filter_eq_self]
    intro e he
    obtain ⟨-, -, hprivate, -, hdunder⟩ := h e he
    simp [hprivate, hdunder]
  have hreserved : (d.items.find? fun e => !isPrivate cls e.1 && isSunder e.1) = none := by
    rw [List.find?_eq_none]
    intro e he
    simp [(h e he).2.2.2.1]
  unfold intEnum
  dsimp only
  rw [hmembers, hreserved]
  dsimp only
  rw [if_neg]
  rw [Bool.not_eq_true, List.any_eq_false]
  intro e he
  obtain ⟨hnil, hmro, -⟩ := h e he
  simp only [Bool.or_eq_true, decide_eq_true_eq, not_or]
  exact ⟨hnil, hmro⟩

theorem member_mem {members : List (Name × Int)} {n : Int} {e : Name × Int} (h : member members n = .ok e) : e ∈ members := by
  unfold member at h
  split at h
  next hfind =>
    cases h
    exact List.mem_of_find?_eq_some hfind
  · cases h

theorem member_shortNames {v : Name × Int} (hv : v ∈ D.values.items) :
    member (shortNames D).items v.2 = .ok (shortName D v.1, v.2) := by
  have hnumbers : ((shortNames D).items.map Prod.snd).Nodup := by
    rw [shortNames, List.map_map]
    exact D.numbers
  have hmem : (shortName D v.1, v.2) ∈ (shortNames D).items := List.mem_map_of_mem hv
  unfold member
  rw [find?_of_nodup hnumbers hmem]

def shortOf (D : EnumDescriptor) (n : Int) : Name :=
  ((D.values.items.find? fun v => v.2 = n).map fun v => shortName D v.1).getD []

theorem shortOf_eq {v : Name × Int} (hv : v ∈ D.values.items) : shortOf D v.2 = shortName D v.1 := by
  rw [shortOf, find?_of_nodup D.numbers hv]
  rfl

theorem encode_shortName (hbase : largestCommonBase (names D) = base (names D)) {v : Name × Int} (hv : v ∈ D.values.items) :
    encodeEnumName D (shortName D v.1) = .ok v.2 ↔ (shortName D v.1 ∈ names D → shortName D v.1 = v.1) := by
  unfold encodeEnumName
  cases hget : D.values.get (shortName D v.1) with
  | some n =>
    have hmem := Dict.get_eq_some.1 hget
    dsimp only
    rw [Except.ok.injEq]
    constructor
    · rintro rfl -
      exact congrArg Prod.fst (eq_of_number hmem hv rfl)
    · intro h
      have hname := h (List.mem_map_of_mem hmem)
      exact congrArg Prod.snd (eq_of_name hmem hv hname)
  | none =>
    have hlong : D.values.get (largestCommonBase (names D) ++ shortName D v.1) = some v.2 := by
      rw [hbase, base_append_shortName (List.mem_map_of_mem hv)]
      exact Dict.get_eq_some.2 hv
    rw [hlong]
    refine iff_of_true rfl fun hmem => ?_
    rw [names, ← Dict.get_isSome, hget] at hmem
    cases hmem

/-- The symbols agree just for the enumerations whose names are told apart. -/
theorem symbolsAgree_iff (D : EnumDescriptor) : SymbolsAgree D ↔ Distinguished D := by
  have hne := names_ne_nil D
  have hlongest := base_longest hne
  constructor
  · rintro ⟨⟨members, hmembers, short, hshort, -⟩, p, hp, hsize, hbase⟩
    rw [longestBase_unique hne hp hlongest] at hsize hbase
    obtain ⟨hgoOn, hdiffer⟩ := (commonPrefix_length_iff hne).1 hsize
    rw [enumDecoder_eq hsize] at hmembers
    have hname : ∀ v ∈ D.values.items, short v.2 = shortName D v.1 ∧ ValidMember D.name (shortName D v.1) := by
      intro v hv
      obtain ⟨hmem, hvalid⟩ := intEnum_valid hmembers (member_mem (hshort v hv).1)
      obtain ⟨w, hw, heq⟩ := List.mem_map.1 hmem
      have hvw : w = v := eq_of_number hw hv (Prod.mk.inj heq).2
      rw [hvw] at heq
      have hfst := congrArg Prod.fst heq
      dsimp only at hfst
      rw [hfst]
      exact ⟨rfl, hvalid⟩
    refine ⟨hgoOn, hdiffer, fun name hmem => ?_, fun name hmem => ?_⟩
    · obtain ⟨v, hv, rfl⟩ := List.mem_map.1 hmem
      exact (hname v hv).2
    · obtain ⟨v, hv, rfl⟩ := List.mem_map.1 hmem
      apply (encode_shortName hbase hv).1
      rw [← (hname v hv).1]
      exact (hshort v hv).2
  · rintro ⟨hgoOn, hdiffer, hvalid, hother⟩
    have hsize := (commonPrefix_length_iff hne).2 ⟨hgoOn, hdiffer⟩
    have hbase : largestCommonBase (names D) = base (names D) := by
      rw [largestCommonBase_eq hne hgoOn, base, baseParts_eq hne hgoOn]
    refine ⟨⟨(shortNames D).items, ?_, ?_⟩, base (names D), hlongest, hsize, hbase⟩
    · rw [enumDecoder_eq hsize]
      apply intEnum_of_valid
      intro e he
      obtain ⟨v, hv, rfl⟩ := List.mem_map.1 he
      exact hvalid v.1 (List.mem_map_of_mem hv)
    · refine ⟨shortOf D, ?_, ?_⟩
      · intro v hv
        rw [shortOf_eq hv]
        exact ⟨member_shortNames hv, (encode_shortName hbase hv).2 (hother v.1 (List.mem_map_of_mem hv))⟩
      · intro v hv w hw heq
        rw [shortOf_eq hv, shortOf_eq hw] at heq
        exact shortName_inj hv hw heq

end

/-- A color in two shades. -/
def shades : EnumDescriptor where
  name := "Shade".toList
  values := ⟨[("COLOR_DARK_BLUE".toList, 0), ("COLOR_PALE_BLUE".toList, 1)], by decide⟩
  nonempty := by simp
  numbers := by decide

/-- The last part is taken for a second one that the names begin with. -/
theorem shades_not_apart : ¬ ∀ D, SymbolsAgree D := by
  intro h
  obtain ⟨-, p, hp, hsize, -⟩ := h shades
  rw [longestBase_unique (names_ne_nil shades) hp (base_longest (names_ne_nil shades))] at hsize
  revert hsize
  decide

end EnumSymbols

end CommonCore
