import CommonCore.Splitting

/-!
# Common prefixes

For characters, the loop is not entered: the character that it starts with is the
one that ends it. For words, empty parts are left out and the last part counts as
well, although no delimiter follows it.
-/

namespace CommonCore

namespace Str

/-! ## The functions -/

/-- The character that all strings have at a position. A `char` has a sign, and
-1 stands for none. -/
def commonChar (strings : List Bytes) (pos : ℕ) : Option Int :=
  strings.foldlM (fun common s =>
    match s[pos]? with
    | some b => if common < 0 ∨ common = b.toInt8.toInt then some b.toInt8.toInt else none
    | none => none) (-1)

theorem lt_length_of_commonChar {front : Bytes} {rest : List Bytes} {pos : ℕ} {c : Int}
    (h : commonChar (front :: rest) pos = some c) : pos < front.length := by
  by_contra hlt
  have hnone : front[pos]? = none := List.getElem?_eq_none (Nat.not_lt.mp hlt)
  unfold commonChar at h
  rw [List.foldlM_cons, hnone] at h
  cases h

def charLoop (front : Bytes) (rest : List Bytes) (common : Int) (pos : ℕ) : ℕ :=
  if 0 ≤ common then
    match _h : commonChar (front :: rest) pos with
    | some c => charLoop front rest c (pos + 1)
    | none => pos
  else 0
termination_by front.length - pos
decreasing_by
  have := lt_length_of_commonChar _h
  omega

/-- `common_prefix_length` -/
def commonPrefixLength : List Bytes → ℕ
  | [] => 0
  | front :: rest => charLoop front rest (-1) 0

def commonPrefix (strings : List Bytes) : Bytes :=
  if commonPrefixLength strings = 0 then [] else (strings.headD []).take (commonPrefixLength strings)

/-- What two lists begin with. -/
def commonStart {α : Type} [DecidableEq α] : List α → List α → List α
  | a :: l, b :: m => if a = b then a :: commonStart l m else []
  | _, _ => []

def commonWords (d : Delimiter) : List Bytes → List Bytes
  | [] => []
  | front :: rest => rest.foldl (fun common s => commonStart common (split s d common.length false)) (split front d 0 false)

/-- `std::accumulate` from an `int`. -/
def wordsLength (d : Delimiter) (words : List Bytes) : ℕ :=
  let total : Int32 := words.foldl (fun total word => Int32.ofInt (total.toInt + word.length + d.1.length)) 0
  (total.toInt % 2 ^ 64).toNat

/-- `common_prefix` with a delimiter. -/
def commonPrefixWords (strings : List Bytes) (d : Delimiter) : Bytes :=
  let length := wordsLength d (commonWords d strings)
  if length = 0 then [] else (strings.headD []).take length

/-! ## What the functions shall find -/

/-- The longest that has a property. -/
def Longest (P : Bytes → Prop) (p : Bytes) : Prop := P p ∧ ∀ q, P q → q.length ≤ p.length

/-- A word that is not empty and that ends where the delimiter first occurs. -/
def Word (d : Delimiter) (w : Bytes) : Prop := w ≠ [] ∧ find d.1 (w ++ d.1) = some (w, [])

/-- Each word and a delimiter. -/
def followed (d : Delimiter) (words : List Bytes) : Bytes := words.flatMap (· ++ d.1)

def IsWords (d : Delimiter) (p : Bytes) : Prop := ∃ words, (∀ w ∈ words, Word d w) ∧ p = followed d words

/-- Both prefixes are the longest there are. -/
def CharsHold (strings : List Bytes) : Prop := Longest (fun p => ∀ s ∈ strings, p <+: s) (commonPrefix strings)

def WordsHold (strings : List Bytes) (d : Delimiter) : Prop :=
  Longest (fun p => IsWords d p ∧ ∀ s ∈ strings, p <+: s) (commonPrefixWords strings d)

/-! ## Characters -/

theorem commonPrefix_eq (strings : List Bytes) : commonPrefix strings = [] := by
  have hzero : commonPrefixLength strings = 0 := by
    cases strings with
    | nil => rfl
    | cons front rest =>
      rw [commonPrefixLength, charLoop]
      rfl
  unfold commonPrefix
  rw [if_pos hzero]

/-- Nothing is found, which is right where the strings begin with nothing in common. -/
theorem charsHold_iff (front : Bytes) (rest : List Bytes) :
    CharsHold (front :: rest) ↔ ¬ ∃ b, ∀ s ∈ front :: rest, [b] <+: s := by
  unfold CharsHold
  rw [commonPrefix_eq]
  constructor
  · rintro ⟨-, hlongest⟩ ⟨b, hb⟩
    exact absurd (hlongest [b] hb) (Nat.not_succ_le_zero _)
  · intro h
    refine ⟨fun _ _ => List.nil_prefix, fun q hq => ?_⟩
    cases q with
    | nil => exact le_rfl
    | cons b q => exact absurd ⟨b, fun s hs => (List.prefix_append [b] q).trans (hq s hs)⟩ h

/-! ## What lists begin with -/

section
variable {α : Type} [DecidableEq α]

theorem prefix_commonStart {l m ws : List α} : ws <+: commonStart l m ↔ ws <+: l ∧ ws <+: m := by
  induction l generalizing m ws with
  | nil =>
    rw [commonStart, List.prefix_nil]
    · exact ⟨fun h => ⟨h, h ▸ List.nil_prefix⟩, And.left⟩
    · simp
  | cons a l ih =>
    cases m with
    | nil =>
      rw [commonStart, List.prefix_nil]
      · exact ⟨fun h => ⟨h ▸ List.nil_prefix, h⟩, And.right⟩
      · simp
    | cons b m =>
      rw [commonStart]
      cases ws with
      | nil => simp
      | cons w ws =>
        by_cases hab : a = b
        · subst hab
          rw [if_pos rfl, List.cons_prefix_cons, List.cons_prefix_cons, List.cons_prefix_cons, ih]
          tauto
        · rw [if_neg hab, List.cons_prefix_cons, List.cons_prefix_cons]
          refine ⟨fun h => absurd h (by simp), ?_⟩
          rintro ⟨⟨rfl, -⟩, ⟨rfl, -⟩⟩
          exact absurd rfl hab

/-- What some lists begin with, of which there is at least one. -/
def commonStarts : List (List α) → List α
  | [] => []
  | l :: ls => ls.foldl commonStart l

theorem prefix_commonStarts {l ws : List α} {ls : List (List α)} :
    ws <+: commonStarts (l :: ls) ↔ ∀ m ∈ l :: ls, ws <+: m := by
  rw [commonStarts]
  induction ls generalizing l with
  | nil => simp
  | cons m ls ih =>
    rw [List.foldl_cons, ih]
    simp only [List.forall_mem_cons, prefix_commonStart, and_assoc]

/-- As many elements as one list has decide. -/
theorem commonStart_take (l m : List α) : commonStart l (m.take l.length) = commonStart l m := by
  induction l generalizing m with
  | nil => cases m <;> rfl
  | cons a l ih =>
    cases m with
    | nil => rfl
    | cons b m => rw [List.length_cons, List.take_succ_cons, commonStart, commonStart, ih]

end

/-! ## Words -/

section
variable {d : Delimiter} {s w rest t : Bytes}

theorem find_of_starts (h : d.1 <+: s) : find d.1 s = some ([], s.drop d.1.length) := by
  cases s with
  | nil => exact absurd (List.prefix_nil.mp h) d.2
  | cons b s => rw [find, if_pos (List.isPrefixOf_iff_prefix.mpr h)]

theorem find_cons_of_not {b : UInt8} (h : ¬ d.1 <+: b :: s) :
    find d.1 (b :: s) = (find d.1 s).map fun (part, rest) => (b :: part, rest) := by
  rw [find, if_neg (mt List.isPrefixOf_iff_prefix.mp h)]

/-- The first occurrence is where it is without what follows it. -/
theorem find_append_iff (w t : Bytes) : find d.1 (w ++ d.1 ++ t) = some (w, t) ↔ find d.1 (w ++ d.1) = some (w, []) := by
  induction w with
  | nil =>
    rw [List.nil_append, find_of_starts (List.prefix_append _ _), find_of_starts (List.prefix_refl _)]
    simp
  | cons b w ih =>
    have hlength : d.1.length ≤ (b :: w ++ d.1).length := by
      rw [List.length_append]
      exact Nat.le_add_left _ _
    have hpre : d.1 <+: b :: w ++ d.1 ++ t ↔ d.1 <+: b :: w ++ d.1 :=
      ⟨fun h => List.prefix_of_prefix_length_le h (List.prefix_append _ _) hlength, fun h => h.trans (List.prefix_append _ _)⟩
    by_cases h : d.1 <+: b :: w ++ d.1
    · rw [find_of_starts h, find_of_starts (hpre.mpr h)]
      simp
    · have hmap : ∀ (o : Option (Bytes × Bytes)) (u : Bytes),
          o.map (fun (part, rest) => (b :: part, rest)) = some (b :: w, u) ↔ o = some (w, u) := by
        intro o u
        cases o <;> simp [Prod.ext_iff]
      have ht : ¬ d.1 <+: b :: (w ++ d.1 ++ t) := mt hpre.mp h
      rw [List.cons_append] at h
      rw [List.cons_append, List.cons_append, find_cons_of_not h, find_cons_of_not ht, hmap, hmap]
      exact ih

/-- The parts that all strings begin with. Empty ones are left out. -/
def commonParts (d : Delimiter) (strings : List Bytes) : List Bytes := commonStarts (strings.map fun s => split s d 0 false)

/-- The words at the front of a text, each with the delimiter. -/
def leading (d : Delimiter) (s : Bytes) : List Bytes :=
  match _h : find d.1 s with
  | some (w, rest) => if w = [] then [] else w :: leading d rest
  | none => []
termination_by s.length
decreasing_by exact length_rest _h

/-- The words that all strings begin with, each with the delimiter. -/
def commonLeading (d : Delimiter) (strings : List Bytes) : List Bytes := commonStarts (strings.map (leading d))

theorem leading_word (h : find d.1 s = some (w, rest)) (hw : w ≠ []) : leading d s = w :: leading d rest := by
  rw [leading]
  split
  · rename_i h'
    rw [h] at h'
    cases h'
    rw [if_neg hw]
  · rename_i h'
    rw [h] at h'
    cases h'

theorem prefix_leading (words : List Bytes) (s : Bytes) :
    words <+: leading d s ↔ (∀ w ∈ words, Word d w) ∧ followed d words <+: s := by
  induction words generalizing s with
  | nil => exact ⟨fun _ => ⟨nofun, List.nil_prefix⟩, fun _ => List.nil_prefix⟩
  | cons w words ih =>
    have hfollowed : followed d (w :: words) = w ++ d.1 ++ followed d words := rfl
    constructor
    · intro h
      cases hfind : find d.1 s with
      | none =>
        rw [leading] at h
        split at h <;> simp_all
      | some p =>
        obtain ⟨v, rest⟩ := p
        have happend := find_append hfind
        by_cases hv : v = []
        · rw [leading] at h
          split at h <;> simp_all
        · rw [leading_word hfind hv, List.cons_prefix_cons] at h
          obtain ⟨rfl, hrest⟩ := h
          obtain ⟨hwords, hpre⟩ := (ih rest).mp hrest
          rw [happend] at hfind
          refine ⟨?_, ?_⟩
          · intro u hu
            rcases List.mem_cons.mp hu with rfl | hu
            · exact ⟨hv, (find_append_iff _ _).mp hfind⟩
            · exact hwords u hu
          · rw [hfollowed, happend]
            exact (List.prefix_append_right_inj _).mpr hpre
    · rintro ⟨hwords, ⟨t, ht⟩⟩
      obtain ⟨hne, hfind⟩ := hwords w (List.mem_cons_self ..)
      rw [hfollowed, List.append_assoc] at ht
      subst ht
      rw [leading_word ((find_append_iff w _).mpr hfind) hne, List.cons_prefix_cons]
      exact ⟨rfl, (ih _).mpr ⟨fun u hu => hwords u (List.mem_cons_of_mem _ hu), List.prefix_append _ _⟩⟩

/-! ## Words and parts -/

variable {n k : ℕ}

theorem parts_none (h : find d.1 s = none) (n k : ℕ) : splitFrom d n false k s = if s = [] then [] else [s] := by
  rw [splitFrom]
  split
  · simp_all
  · by_cases hs : s = [] <;> simp [hs]

theorem parts_word (h : find d.1 s = some (w, rest)) (hw : w ≠ []) (hgo : n = 0 ∨ k < n) :
    splitFrom d n false k s = w :: splitFrom d n false (k + 1) rest := by
  rw [splitFrom]
  split
  · simp_all
  · simp_all

theorem parts_empty (h : find d.1 s = some ([], rest)) (hgo : n = 0 ∨ k < n) :
    splitFrom d n false k s = splitFrom d n false k rest := by
  rw [splitFrom]
  split
  · simp_all
  · simp_all

theorem parts_unlimited (d : Delimiter) (k : ℕ) (s : Bytes) : splitFrom d 0 false k s = splitFrom d 0 false 0 s := by
  induction hs : s.length using Nat.strong_induction_on generalizing s k with
  | _ length ih =>
    cases hfind : find d.1 s with
    | none => rw [parts_none hfind, parts_none hfind]
    | some p =>
      obtain ⟨w, rest⟩ := p
      have hlt : rest.length < length := hs ▸ length_rest hfind
      by_cases hw : w = []
      · subst hw
        rw [parts_empty hfind (.inl rfl), parts_empty hfind (.inl rfl)]
        exact ih _ hlt k rest rfl
      · rw [parts_word hfind hw (.inl rfl), parts_word hfind hw (.inl rfl), ih _ hlt (k + 1) rest rfl, ih _ hlt (0 + 1) rest rfl]

/-- A limit only takes away from the end. -/
theorem parts_take (d : Delimiter) (hk : k ≤ n) (hn : 0 < n) (s : Bytes) :
    (splitFrom d n false k s).take (n - k) = (splitFrom d 0 false 0 s).take (n - k) := by
  induction hs : s.length using Nat.strong_induction_on generalizing s k with
  | _ length ih =>
    rcases Nat.eq_or_lt_of_le hk with rfl | hlt
    · rw [Nat.sub_self, List.take_zero, List.take_zero]
    · have hgo : n = 0 ∨ k < n := .inr hlt
      cases hfind : find d.1 s with
      | none => rw [parts_none hfind, parts_none hfind]
      | some p =>
        obtain ⟨w, rest⟩ := p
        have hrest : rest.length < length := hs ▸ length_rest hfind
        by_cases hw : w = []
        · subst hw
          rw [parts_empty hfind hgo, parts_empty hfind (.inl rfl)]
          exact ih _ hrest hk rest rfl
        · obtain ⟨j, hj⟩ : ∃ j, n - k = j + 1 := ⟨n - k - 1, by omega⟩
          have hj' : n - (k + 1) = j := by omega
          rw [parts_word hfind hw hgo, parts_word hfind hw (.inl rfl), hj, List.take_succ_cons, List.take_succ_cons,
            parts_unlimited d (0 + 1), ← hj', ih _ hrest hlt rest rfl]

/-- The words are parts, of which there may be more. -/
theorem leading_starts (d : Delimiter) (s : Bytes) : leading d s <+: split s d 0 false := by
  unfold split
  induction hs : s.length using Nat.strong_induction_on generalizing s with
  | _ length ih =>
    rw [leading]
    split
    · rename_i w rest hfind
      have hrest : rest.length < length := hs ▸ length_rest hfind
      by_cases hw : w = []
      · rw [if_pos hw]
        exact List.nil_prefix
      · rw [if_neg hw, parts_word hfind hw (.inl rfl), parts_unlimited, List.cons_prefix_cons]
        exact ⟨rfl, ih _ hrest rest rfl⟩
    · exact List.nil_prefix

theorem split_followed {words : List Bytes} (h : ∀ w ∈ words, Word d w) : split (followed d words) d 0 false = words := by
  unfold split
  induction words with
  | nil =>
    have hnone : find d.1 (followed d []) = none := by
      rw [followed, List.flatMap_nil, find, if_neg d.2]
    rw [parts_none hnone]
    rfl
  | cons w words ih =>
    obtain ⟨hw, hfind⟩ := h w (List.mem_cons_self ..)
    have hfollowed : followed d (w :: words) = w ++ d.1 ++ followed d words := rfl
    rw [hfollowed, parts_word ((find_append_iff w _).mpr hfind) hw (.inl rfl), parts_unlimited,
      ih fun u hu => h u (List.mem_cons_of_mem _ hu)]

theorem commonWords_eq (d : Delimiter) (front : Bytes) (rest : List Bytes) :
    commonWords d (front :: rest) = commonParts d (front :: rest) := by
  have hstep : ∀ (common : List Bytes) (s : Bytes),
      commonStart common (split s d common.length false) = commonStart common (split s d 0 false) := by
    intro common s
    rcases Nat.eq_zero_or_pos common.length with hzero | hpos
    · rw [hzero]
    · have htake := parts_take d (Nat.zero_le common.length) hpos s
      rw [Nat.sub_zero] at htake
      rw [← commonStart_take, ← commonStart_take common (split s d 0 false)]
      exact congrArg _ htake
  rw [commonParts, commonWords, List.map_cons, commonStarts, List.foldl_map]
  simp only [hstep]

end

/-! ## The length -/

theorem followed_cons (d : Delimiter) (w : Bytes) (words : List Bytes) : followed d (w :: words) = w ++ d.1 ++ followed d words := rfl

/-- A number of characters, after an `int` has counted it. -/
def throughInt (n : ℕ) : ℕ := ((Int32.ofInt n).toInt % 2 ^ 64).toNat

theorem wordsLength_eq (d : Delimiter) (words : List Bytes) : wordsLength d words = throughInt (followed d words).length := by
  have hfold : ∀ total : Int32, words.foldl (fun total word => Int32.ofInt (total.toInt + word.length + d.1.length)) total =
      Int32.ofInt (total.toInt + (followed d words).length) := by
    induction words with
    | nil => simp [followed]
    | cons w words ih =>
      intro total
      rw [List.foldl_cons, ih, followed_cons, List.length_append, List.length_append]
      rw [Int32.ofInt_add, Int32.ofInt_toInt, ← Int32.ofInt_add]
      congr 1
      push_cast
      ring
  unfold wordsLength throughInt
  rw [hfold]
  simp

theorem throughInt_eq (n : ℕ) : throughInt n = if n % 2 ^ 32 < 2 ^ 31 then n % 2 ^ 32 else n % 2 ^ 32 + (2 ^ 64 - 2 ^ 32) := by
  unfold throughInt
  rw [Int32.toInt_ofInt, Int.bmod_def, show Int32.size = 2 ^ 32 from rfl]
  split_ifs <;> omega

theorem throughInt_of_lt {n : ℕ} (h : n < 2 ^ 31) : throughInt n = n := by
  rw [throughInt_eq, Nat.mod_eq_of_lt (by omega), if_pos h]

/-! ## When the prefix of words is the longest -/

section
variable {front : Bytes} {rest : List Bytes} {d : Delimiter}

theorem prefix_commonParts {words : List Bytes} :
    words <+: commonParts d (front :: rest) ↔ ∀ s ∈ front :: rest, words <+: split s d 0 false := by
  rw [commonParts, List.map_cons, prefix_commonStarts, List.forall_mem_cons, List.forall_mem_cons, List.forall_mem_map]

theorem prefix_commonLeading {words : List Bytes} :
    words <+: commonLeading d (front :: rest) ↔ (∀ w ∈ words, Word d w) ∧ ∀ s ∈ front :: rest, followed d words <+: s := by
  rw [commonLeading, List.map_cons, prefix_commonStarts, List.forall_mem_cons, List.forall_mem_map]
  simp only [prefix_leading, List.forall_mem_cons]
  exact ⟨fun h => ⟨h.1.1, h.1.2, fun s hs => (h.2 s hs).2⟩, fun h => ⟨⟨h.1, h.2.1⟩, fun s hs => ⟨h.1, h.2.2 s hs⟩⟩⟩

theorem commonLeading_words (front : Bytes) (rest : List Bytes) (d : Delimiter) :
    (∀ w ∈ commonLeading d (front :: rest), Word d w) ∧
      ∀ s ∈ front :: rest, followed d (commonLeading d (front :: rest)) <+: s :=
  prefix_commonLeading.mp (List.prefix_refl _)

theorem followed_prefix {words words' : List Bytes} (h : words <+: words') : followed d words <+: followed d words' := by
  obtain ⟨l, rfl⟩ := h
  rw [followed, followed, List.flatMap_append]
  exact List.prefix_append _ _

/-- There is one longest prefix of words. -/
theorem longest_iff (p : Bytes) :
    Longest (fun p => IsWords d p ∧ ∀ s ∈ front :: rest, p <+: s) p ↔ p = followed d (commonLeading d (front :: rest)) := by
  have hself := commonLeading_words front rest d
  have hall : ∀ q, IsWords d q ∧ (∀ s ∈ front :: rest, q <+: s) → q <+: followed d (commonLeading d (front :: rest)) := by
    rintro q ⟨⟨words, hwords, rfl⟩, hq⟩
    exact followed_prefix (prefix_commonLeading.mpr ⟨hwords, hq⟩)
  constructor
  · rintro ⟨hp, hlongest⟩
    exact (hall p hp).eq_of_length_le (hlongest _ ⟨⟨_, hself.1, rfl⟩, hself.2⟩)
  · rintro rfl
    exact ⟨⟨⟨_, hself.1, rfl⟩, hself.2⟩, fun q hq => (hall q hq).length_le⟩

theorem commonPrefixWords_eq :
    commonPrefixWords (front :: rest) d = front.take (wordsLength d (commonParts d (front :: rest))) := by
  unfold commonPrefixWords
  rw [commonWords_eq]
  simp only [List.headD_cons]
  split_ifs with h
  · rw [h, List.take_zero]
  · rfl

theorem commonLeading_starts (front : Bytes) (rest : List Bytes) (d : Delimiter) :
    commonLeading d (front :: rest) <+: commonParts d (front :: rest) := by
  have hself := prefix_commonStarts.mp (List.prefix_refl (commonLeading d (front :: rest)))
  refine prefix_commonParts.mpr fun s hs => ?_
  exact (hself (leading d s) (List.mem_map_of_mem hs)).trans (leading_starts d s)

/-- Behind the last word of the first string there is no further part. -/
theorem parts_of_front (hall : front = followed d (commonLeading d (front :: rest))) :
    commonParts d (front :: rest) = commonLeading d (front :: rest) := by
  have hparts := prefix_commonParts.mp (List.prefix_refl (commonParts d (front :: rest))) front (List.mem_cons_self ..)
  have hsplit : split front d 0 false = commonLeading d (front :: rest) :=
    (congrArg (split · d 0 false) hall).trans (split_followed (commonLeading_words front rest d).1)
  rw [hsplit] at hparts
  exact hparts.eq_of_length_le (commonLeading_starts front rest d).length_le

/-- If more parts than words are in common, too much is taken. -/
theorem parts_eq_iff :
    min (followed d (commonParts d (front :: rest))).length front.length =
        (followed d (commonLeading d (front :: rest))).length ↔
      commonParts d (front :: rest) = commonLeading d (front :: rest) := by
  have hself := commonLeading_words front rest d
  have hfront := hself.2 front (List.mem_cons_self ..)
  constructor
  · intro h
    by_cases hlength : (followed d (commonParts d (front :: rest))).length ≤
        (followed d (commonLeading d (front :: rest))).length
    · obtain ⟨l, hl⟩ := commonLeading_starts front rest d
      rw [← hl, followed, List.flatMap_append, List.length_append] at hlength
      cases l with
      | nil => rw [← hl, List.append_nil]
      | cons w l =>
        have hpos : 0 < d.1.length := List.length_pos_iff.mpr d.2
        simp only [followed, List.flatMap_cons, List.length_append] at hlength
        omega
    · exact parts_of_front (hfront.eq_of_length_le (by omega)).symm
  · intro h
    rw [h]
    exact Nat.min_eq_left hfront.length_le

/-- If the `int` wraps to a smaller number, the words must have just that length,
which they have only if more than words is in common. -/
theorem wraps_iff (hwrap : 2 ^ 32 ≤ (followed d (commonParts d (front :: rest))).length) :
    min ((followed d (commonParts d (front :: rest))).length % 2 ^ 32) front.length =
        (followed d (commonLeading d (front :: rest))).length ↔
      (followed d (commonLeading d (front :: rest))).length = (followed d (commonParts d (front :: rest))).length % 2 ^ 32 := by
  have hfront := (commonLeading_words front rest d).2 front (List.mem_cons_self ..)
  have hmod := Nat.mod_lt (followed d (commonParts d (front :: rest))).length (show 0 < 2 ^ 32 by decide)
  constructor
  · intro h
    by_contra hne
    have hall : front = followed d (commonLeading d (front :: rest)) := (hfront.eq_of_length_le (by omega)).symm
    have hlength := congrArg List.length hall
    rw [parts_of_front hall] at hwrap h hmod
    omega
  · intro h
    have := hfront.length_le
    omega

/-- The prefix of words is the longest if nothing but words is in common. From
2^31 characters on, the `int` has another value: a smaller one, or as a `size_t`
a larger one than the length of any string, so that all of the first is taken. -/
theorem wordsHold_iff (front : Bytes) (rest : List Bytes) (d : Delimiter) :
    WordsHold (front :: rest) d ↔
      if (followed d (commonParts d (front :: rest))).length < 2 ^ 31 then
        commonParts d (front :: rest) = commonLeading d (front :: rest)
      else if (followed d (commonParts d (front :: rest))).length % 2 ^ 32 < 2 ^ 31 then
        (followed d (commonLeading d (front :: rest))).length = (followed d (commonParts d (front :: rest))).length % 2 ^ 32
      else
        (followed d (commonLeading d (front :: rest))).length =
          min front.length ((followed d (commonParts d (front :: rest))).length % 2 ^ 32 + (2 ^ 64 - 2 ^ 32)) := by
  have hself := commonLeading_words front rest d
  have hfront := hself.2 front (List.mem_cons_self ..)
  have htake : ∀ n, front.take n = followed d (commonLeading d (front :: rest)) ↔
      min n front.length = (followed d (commonLeading d (front :: rest))).length := by
    intro n
    rw [← List.length_take]
    refine ⟨congrArg List.length, fun h => ?_⟩
    exact (List.prefix_of_prefix_length_le (List.take_prefix n front) hfront h.le).eq_of_length h
  unfold WordsHold
  rw [longest_iff, commonPrefixWords_eq, wordsLength_eq, htake]
  split_ifs with hlt hsmall
  · rw [throughInt_of_lt hlt, parts_eq_iff]
  · rw [throughInt_eq, if_pos hsmall, wraps_iff (by omega)]
  · rw [throughInt_eq, if_neg hsmall, min_comm]
    exact eq_comm

end

/-- Each prefix is the longest under its own condition. -/
theorem commonPrefixes_iff (front : Bytes) (rest : List Bytes) :
    (CharsHold (front :: rest) ↔ ¬ ∃ b, ∀ s ∈ front :: rest, [b] <+: s) ∧
      ∀ d, WordsHold (front :: rest) d ↔
        if (followed d (commonParts d (front :: rest))).length < 2 ^ 31 then
          commonParts d (front :: rest) = commonLeading d (front :: rest)
        else if (followed d (commonParts d (front :: rest))).length % 2 ^ 32 < 2 ^ 31 then
          (followed d (commonLeading d (front :: rest))).length = (followed d (commonParts d (front :: rest))).length % 2 ^ 32
        else
          (followed d (commonLeading d (front :: rest))).length =
            min front.length ((followed d (commonParts d (front :: rest))).length % 2 ^ 32 + (2 ^ 64 - 2 ^ 32)) :=
  ⟨charsHold_iff front rest, wordsHold_iff front rest⟩

/-- A single text of one letter. -/
theorem not_charsHold : ¬ ∀ front rest, CharsHold (front :: rest) := by
  intro hall
  exact (charsHold_iff (ascii "a") []).mp (hall _ _) ⟨0x61, by decide⟩

end Str

end CommonCore
