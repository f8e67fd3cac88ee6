import CommonCore.Captures
import CommonCore.Escapes
import CommonCore.FromChars
import CommonCore.Keyed
import CommonCore.Splitting

/-!
# The table of time zones

The table is read through a buffer of fixed size, and its lines are matched with
a pattern in which a description has no `#`. Coordinates are cut after three
characters and then after every two, which fits degrees of two digits only, and
the sign is that of the degrees alone.
-/

namespace CommonCore.TimeZones

open Captures Keyed

/-! ## Reading lines -/

def readchunk : ℕ := 256

/-- The lines that `getline` gives with a buffer of `READCHUNK` characters, after
the part `line` of one. A line that does not fit ends the reading. -/
def getlines (line : Bytes) : Bytes → List Bytes
  | [] => if line = [] then [] else [line]
  | c :: s =>
    if c = Str.LF then line :: getlines [] s
    else if line.length + 1 < readchunk then getlines (line ++ [c]) s
    else []

/-- `std::string line(input)`. -/
def cString (input : Bytes) : Bytes := input.takeWhile (· ≠ 0)

/-! ## The pattern -/

def comma : UInt8 := 0x2c

def tab : UInt8 := 0x09

def hash : UInt8 := 0x23

/-- `\w` -/
def isWord (c : UInt8) : Bool := isAlnum c || c == 0x5f

/-- `p+` -/
def plusOf (p : UInt8 → Bool) : Pattern UInt8 := .seq (.one p) (.many p)

def isSign (c : UInt8) : Bool := c == plus || c == minus

/-- `[\+\-]\d+` -/
def coordinate : Pattern UInt8 := .seq (.one isSign) (plusOf isDigit)

/-- `(\w+)/?(\S*)` -/
def zonePattern : Pattern UInt8 :=
  seqs [.group 5 (plusOf isWord), .opt (.one (· == slash)), .group 6 (.many fun c => !isSpace c)]

/-- A character of the first column. -/
def isCode (c : UInt8) : Bool := isWord c || c == comma

def rx : Pattern UInt8 :=
  seqs [.group 1 (plusOf isCode), .one (· == tab), .group 2 coordinate, .group 3 coordinate,
    .one (· == tab), .group 4 zonePattern, .opt (.one (· == tab)), .opt (.group 7 (.many (· != hash)))]

/-! ## Zones -/

structure Country where
  code : Bytes
  name : Bytes
deriving DecidableEq

structure Location where
  country : Country
  region : Bytes
deriving DecidableEq

structure CanonicalSpec where
  name : Bytes
  area : Bytes
  locations : List Location
  latitude : ℤ
  longitude : ℤ
deriving DecidableEq

abbrev TimeZoneMap := Filed Bytes CanonicalSpec CanonicalSpec.name

/-- `to_scalar_coord`. -/
def toScalarCoord (coord : Bytes) : ℤ :=
  let deg := stol 10 (coord.take 3)
  let min := if 3 < coord.length then stoul 10 ((coord.drop 3).take 2) else 0
  let sec := if 5 < coord.length then stoul 10 ((coord.drop 5).take 2) else 0
  3600 * deg + 60 * min + sec

/-- How often each country occurs, by the loop of `prune_redundant_regions`. -/
def repeats (locations : List Location) : Bytes → ℕ :=
  locations.foldl (fun repeats l => Function.update repeats l.country.code (repeats l.country.code + 1)) fun _ => 0

/-- The region is cleared unless the country occurs more than once. -/
def prunedSpec (repeats : Bytes → ℕ) (spec : CanonicalSpec) : CanonicalSpec :=
  { spec with locations := spec.locations.map fun l => if repeats l.country.code < 2 then { l with region := [] } else l }

theorem name_prunedSpec (repeats : Bytes → ℕ) (spec : CanonicalSpec) : (prunedSpec repeats spec).name = spec.name := rfl

/-- `prune_redundant_regions`. -/
def pruneRedundantRegions (zonemap : TimeZoneMap) : TimeZoneMap :=
  zonemap.mapValues (prunedSpec (repeats (zonemap.values.flatMap CanonicalSpec.locations))) (name_prunedSpec _)

def commaDelimiter : Str.Delimiter := ⟨[comma], by simp⟩

section
-- the names of countries by their codes, and of areas by those in the table
variable (countryName areaName : Bytes → Bytes)

/-- `build_canonical_spec`. -/
def buildCanonicalSpec (zonename area : Bytes) (countryCodes : List Bytes) (description : Bytes) (latitude longitude : ℤ) :
    CanonicalSpec where
  name := zonename
  area := area
  latitude := latitude
  longitude := longitude
  locations := countryCodes.map fun cc => ⟨⟨cc, countryName cc⟩, description⟩

/-- What a line of the table adds to the map. -/
def zoneOfLine (line : Bytes) : Option CanonicalSpec :=
  (rx.whole List.isEmpty line).map fun g =>
    buildCanonicalSpec countryName (str g 4) (areaName (str g 5)) (Str.split (str g 1) commaDelimiter 0 false) (str g 7)
      (toScalarCoord (str g 2)) (toScalarCoord (str g 3))

/-- `load_zone_map`. -/
def loadZoneMap (zonetab : Bytes) : TimeZoneMap :=
  pruneRedundantRegions
    (Filed.ofList (((getlines [] zonetab).map cString).filterMap (zoneOfLine countryName areaName)))

end

/-! ## The format of the table -/

def digit (n : ℕ) : UInt8 := UInt8.ofNat (0x30 + n % 10)

def twoDigits (n : ℕ) : Bytes := [digit (n / 10), digit n]

/-- A latitude or a longitude, with degrees below `limit`. -/
structure Coordinate (limit : ℕ) where
  negative : Bool
  degrees : Fin limit
  minutes : Fin 100
  seconds : Option (Fin 100)

namespace Coordinate

variable {limit : ℕ}

/-- What follows the degrees. -/
def fraction (c : Coordinate limit) : Bytes := twoDigits c.minutes ++ (c.seconds.map fun s => twoDigits s).getD []

def sign (c : Coordinate limit) : UInt8 := if c.negative then minus else plus

/-- The number of seconds it denotes. -/
def denoted (c : Coordinate limit) : ℤ :=
  let n : ℤ := 3600 * c.degrees + 60 * c.minutes + (c.seconds.map Fin.val).getD 0
  if c.negative then -n else n

/-- `±DDMM` or `±DDMMSS` -/
def latitudeText (c : Coordinate 100) : Bytes := c.sign :: twoDigits c.degrees ++ c.fraction

/-- `±DDDMM` or `±DDDMMSS` -/
def longitudeText (c : Coordinate 1000) : Bytes :=
  c.sign :: digit (c.degrees / 100) :: twoDigits c.degrees ++ c.fraction

/-- No degrees are lost. -/
def Whole (c : Coordinate limit) : Prop := c.minutes.val = 0 ∧ (c.seconds.map Fin.val).getD 0 = 0

end Coordinate

structure Zone where
  codes : List Bytes
  latitude : Coordinate 100
  longitude : Coordinate 1000
  name : Bytes
  description : Option Bytes
  coded : codes ≠ [] ∧ ∀ cc ∈ codes, cc ≠ [] ∧ ∀ c ∈ cc, isWord c = true
  named : (∃ c ∈ name.head?, isWord c = true) ∧ ∀ c ∈ name, isSpace c = false ∧ c ≠ 0
  described : ∀ d ∈ description, Str.LF ∉ d ∧ 0 ∉ d

namespace Zone

def codesText (z : Zone) : Bytes := [comma].intercalate z.codes

/-- What follows the zone name. -/
def comment (z : Zone) : Bytes := (z.description.map (tab :: ·)).getD []

def text (z : Zone) : Bytes :=
  z.codesText ++ tab :: (z.latitude.latitudeText ++ z.longitude.longitudeText ++ tab :: (z.name ++ z.comment))

end Zone

inductive Line
  | comment (text : Bytes) (h : Str.LF ∉ text)
  | zone (z : Zone)

namespace Line

def text : Line → Bytes
  | comment text _ => hash :: text
  | zone z => z.text

def zone? : Line → Option Zone
  | comment .. => none
  | zone z => some z

end Line

/-- The text of a table; its last line may lack the line break. -/
def tableText (terminated : Bool) : List Line → Bytes
  | [] => []
  | [l] => l.text ++ if terminated then [Str.LF] else []
  | l :: table => l.text ++ Str.LF :: tableText terminated table

/-! ## The lines that are read -/

theorem getlines_break (line : Bytes) {l : Bytes} (s : Bytes) (hl : Str.LF ∉ l) (hline : line.length < readchunk) :
    getlines line (l ++ Str.LF :: s) = if line.length + l.length < readchunk then (line ++ l) :: getlines [] s else [] := by
  induction l generalizing line with
  | nil => simp [getlines, hline]
  | cons c l ih =>
    obtain ⟨hc, hl⟩ := not_or.1 (mt List.mem_cons.2 hl)
    rw [List.cons_append, getlines, if_neg (Ne.symm hc)]
    by_cases hfit : line.length + 1 < readchunk
    · rw [if_pos hfit, ih _ hl (by simpa using hfit)]
      simp only [List.length_append, List.length_cons, List.length_nil, List.append_assoc, List.cons_append, List.nil_append]
      congr 1
      simp only [eq_iff_iff]
      omega
    · rw [if_neg hfit, if_neg (by simp only [List.length_cons]; omega)]

theorem getlines_end (line : Bytes) {l : Bytes} (hl : Str.LF ∉ l) (hne : line ++ l ≠ []) (hline : line.length < readchunk) :
    getlines line l = if line.length + l.length < readchunk then [line ++ l] else [] := by
  induction l generalizing line with
  | nil =>
    rw [List.append_nil] at hne
    simp [getlines, hline, hne]
  | cons c l ih =>
    obtain ⟨hc, hl⟩ := not_or.1 (mt List.mem_cons.2 hl)
    rw [getlines, if_neg (Ne.symm hc)]
    by_cases hfit : line.length + 1 < readchunk
    · rw [if_pos hfit, ih _ hl (by simp) (by simpa using hfit)]
      simp only [List.length_append, List.length_cons, List.length_nil, List.append_assoc, List.cons_append, List.nil_append]
      congr 1
      simp only [eq_iff_iff]
      omega
    · rw [if_neg hfit, if_neg (by simp only [List.length_cons]; omega)]

/-- A line that fits into the buffer. -/
def Fits (l : Line) : Prop := l.text.length < readchunk

instance (l : Line) : Decidable (Fits l) := inferInstanceAs (Decidable (_ < _))

theorem isWord_spec : ∀ c : UInt8, isWord c = true →
    c ≠ Str.LF ∧ c ≠ 0 ∧ c ≠ tab ∧ c ≠ hash ∧ c ≠ comma ∧ c ≠ slash ∧ isSpace c = false := by
  apply forall_byte
  decide +kernel

theorem digit_spec (n : ℕ) : isDigit (digit n) = true ∧ charDigit (digit n) = n % 10 := by
  have h : ∀ d < 10, isDigit (UInt8.ofNat (0x30 + d)) = true ∧ charDigit (UInt8.ofNat (0x30 + d)) = d := by decide
  exact h _ (Nat.mod_lt _ (by decide))

theorem isDigit_spec : ∀ c : UInt8, isDigit c = true → c ≠ Str.LF ∧ c ≠ 0 ∧ c ≠ tab ∧ c ≠ hash ∧ isSign c = false := by
  apply forall_byte
  decide +kernel

theorem sign_spec {limit : ℕ} (c : Coordinate limit) : isSign c.sign = true ∧ c.sign ≠ Str.LF ∧
    c.sign ≠ 0 ∧ c.sign ≠ tab ∧ c.sign ≠ hash ∧ isDigit c.sign = false := by
  unfold Coordinate.sign
  cases c.negative <;> decide

theorem isDigit_twoDigits {n : ℕ} {c : UInt8} (h : c ∈ twoDigits n) : isDigit c = true := by
  simp only [twoDigits, List.mem_cons, List.not_mem_nil, or_false] at h
  rcases h with rfl | rfl <;> exact (digit_spec _).1

theorem isDigit_fraction {limit : ℕ} (x : Coordinate limit) {c : UInt8} (h : c ∈ x.fraction) : isDigit c = true := by
  unfold Coordinate.fraction at h
  rcases List.mem_append.1 h with h | h
  · exact isDigit_twoDigits h
  · cases hs : x.seconds with
    | none => simp [hs] at h
    | some s =>
      rw [hs] at h
      exact isDigit_twoDigits h

/-- A coordinate is a sign and digits. -/
def Signed (s : Bytes) : Prop := ∃ c ds, s = c :: ds ∧ isSign c = true ∧ ds ≠ [] ∧ ∀ d ∈ ds, isDigit d = true

theorem signed_latitude (c : Coordinate 100) : Signed c.latitudeText := by
  refine ⟨c.sign, twoDigits c.degrees ++ c.fraction, rfl, (sign_spec c).1, by simp [twoDigits], fun d hd => ?_⟩
  rcases List.mem_append.1 hd with hd | hd
  · exact isDigit_twoDigits hd
  · exact isDigit_fraction c hd

theorem signed_longitude (c : Coordinate 1000) : Signed c.longitudeText := by
  refine ⟨c.sign, digit (c.degrees / 100) :: (twoDigits c.degrees ++ c.fraction), rfl, (sign_spec c).1, by simp, fun d hd => ?_⟩
  rcases List.mem_cons.1 hd with rfl | hd
  · exact (digit_spec _).1
  rcases List.mem_append.1 hd with hd | hd
  · exact isDigit_twoDigits hd
  · exact isDigit_fraction c hd

/-- No coordinate has a character that ends a column, a line or the text. -/
theorem Signed.clean {s : Bytes} (h : Signed s) {c : UInt8} (hc : c ∈ s) : c ≠ Str.LF ∧ c ≠ 0 ∧ c ≠ tab ∧ c ≠ hash := by
  obtain ⟨sign, ds, rfl, hsign, -, hds⟩ := h
  rcases List.mem_cons.1 hc with rfl | hc
  · have hcases : c = plus ∨ c = minus := by simpa [isSign] using hsign
    rcases hcases with rfl | rfl <;> decide
  · obtain ⟨h1, h2, h3, h4, -⟩ := isDigit_spec c (hds c hc)
    exact ⟨h1, h2, h3, h4⟩

theorem mem_intercalate {sep : Bytes} {l : List Bytes} {c : UInt8} (h : c ∈ sep.intercalate l) :
    c ∈ sep ∨ ∃ s ∈ l, c ∈ s := by
  induction l with
  | nil => simp at h
  | cons s l ih =>
    cases l with
    | nil => exact .inr ⟨s, by simp, by simpa using h⟩
    | cons s' l =>
      simp only [List.intercalate_cons_cons, List.mem_append] at h
      rcases h with (h | h) | h
      · exact .inr ⟨s, by simp, h⟩
      · exact .inl h
      · rcases ih h with h | ⟨s'', hs, h⟩
        · exact .inl h
        · exact .inr ⟨s'', by simp [hs], h⟩

namespace Zone

variable (z : Zone)

theorem codesText_spec {c : UInt8} (h : c ∈ z.codesText) : isCode c = true ∧
    c ≠ Str.LF ∧ c ≠ 0 ∧ c ≠ tab ∧ c ≠ hash := by
  rcases mem_intercalate h with h | ⟨cc, hcc, h⟩
  · obtain rfl := List.mem_singleton.1 h
    decide
  · have hword := (z.coded.2 cc hcc).2 c h
    obtain ⟨h1, h2, h3, h4, -⟩ := isWord_spec c hword
    exact ⟨by simp [isCode, hword], h1, h2, h3, h4⟩

theorem codesText_ne_nil : z.codesText ≠ [] := by
  obtain ⟨hne, hcodes⟩ := z.coded
  unfold codesText
  cases hc : z.codes with
  | nil => exact absurd hc hne
  | cons cc codes =>
    obtain ⟨h, -⟩ := hcodes cc (by simp [hc])
    cases codes with
    | nil => simpa using h
    | cons cc' codes => simp [List.intercalate_cons_cons]

theorem name_clean {c : UInt8} (h : c ∈ z.name) : c ≠ Str.LF ∧ c ≠ 0 ∧ c ≠ tab := by
  obtain ⟨hspace, hzero⟩ := z.named.2 c h
  refine ⟨?_, hzero, ?_⟩ <;> rintro rfl <;> exact absurd hspace (by decide)

theorem text_clean {c : UInt8} (h : c ∈ z.text) : c ≠ Str.LF ∧ c ≠ 0 := by
  simp only [text, List.mem_append, List.mem_cons] at h
  rcases h with h | rfl | (h | h) | rfl | h | h
  · exact ⟨(z.codesText_spec h).2.1, (z.codesText_spec h).2.2.1⟩
  · decide
  · exact ⟨((signed_latitude _).clean h).1, ((signed_latitude _).clean h).2.1⟩
  · exact ⟨((signed_longitude _).clean h).1, ((signed_longitude _).clean h).2.1⟩
  · decide
  · exact ⟨(z.name_clean h).1, (z.name_clean h).2.1⟩
  · unfold comment at h
    cases hd : z.description with
    | none => simp [hd] at h
    | some d =>
      obtain ⟨hlf, hzero⟩ := z.described d hd
      rw [hd] at h
      rcases List.mem_cons.1 h with rfl | h
      · decide
      · exact ⟨fun heq => hlf (heq ▸ h), fun heq => hzero (heq ▸ h)⟩

end Zone

theorem Line.text_clean (l : Line) : Str.LF ∉ l.text ∧ l.text ≠ [] := by
  cases l with
  | comment text h => exact ⟨by simp [Line.text, h, show Str.LF ≠ hash by decide], by simp [Line.text]⟩
  | zone z => exact ⟨fun h => (z.text_clean h).1 rfl, by simp [Line.text, Zone.text]⟩

/-- What is read of a table: its lines up to the first that does not fit. -/
theorem getlines_tableText (terminated : Bool) (table : List Line) :
    getlines [] (tableText terminated table) = (table.takeWhile fun l => Fits l).map Line.text := by
  induction table with
  | nil => rfl
  | cons l table ih =>
    obtain ⟨hl, hne⟩ := l.text_clean
    have hiff : ([] : Bytes).length + l.text.length < readchunk ↔ Fits l := by simp [Fits]
    have hcons : ∀ s, getlines [] (l.text ++ Str.LF :: s) = if Fits l then l.text :: getlines [] s else [] := by
      intro s
      rw [getlines_break [] s hl (by decide)]
      by_cases hfit : Fits l <;> simp only [hiff, hfit, if_true, if_false, List.nil_append]
    have hend : getlines [] l.text = if Fits l then [l.text] else [] := by
      rw [getlines_end [] hl hne (by decide)]
      by_cases hfit : Fits l <;> simp only [hiff, hfit, if_true, if_false, List.nil_append]
    cases table with
    | nil =>
      cases terminated with
      | false => by_cases hfit : Fits l <;> simp [tableText, hend, hfit]
      | true => by_cases hfit : Fits l <;> simp [tableText, hcons, hfit, getlines]
    | cons l' table =>
      show getlines [] (l.text ++ Str.LF :: tableText terminated (l' :: table)) = _
      rw [hcons, ih]
      by_cases hfit : Fits l <;> simp [hfit]

theorem cString_zone (z : Zone) : cString z.text = z.text := by
  apply List.takeWhile_eq_self_iff.2
  intro c hc
  simpa using (z.text_clean hc).2

/-! ## Coordinates -/

theorem stoul_digits (a b : ℕ) : stoul 10 [digit a, digit b] = 10 * (a % 10) + b % 10 := by
  obtain ⟨-, ha⟩ := digit_spec a
  obtain ⟨-, hb⟩ := digit_spec b
  rw [stoul_pair (by rw [ha]; omega) (by rw [hb]; omega), ha, hb]

theorem stoul_digit (a : ℕ) : stoul 10 [digit a] = a % 10 := by
  obtain ⟨-, ha⟩ := digit_spec a
  rw [stoul_single (by rw [ha]; omega), ha]

theorem stol_sign {limit : ℕ} (c : Coordinate limit) (s : Bytes) :
    stol 10 (c.sign :: s) = if c.negative then -(stoul 10 s : ℤ) else stoul 10 s := by
  cases hn : c.negative <;> simp [stol, Coordinate.sign, hn, show plus ≠ minus by decide]

/-- What is read of a latitude. -/
theorem toScalarCoord_latitude (c : Coordinate 100) : toScalarCoord c.latitudeText =
    3600 * (if c.negative then -(c.degrees : ℤ) else c.degrees) + 60 * c.minutes + (c.seconds.map Fin.val).getD 0 := by
  have hdeg : 10 * (c.degrees.val / 10 % 10) + c.degrees % 10 = c.degrees := by omega
  have hmin : 10 * (c.minutes.val / 10 % 10) + c.minutes % 10 = c.minutes := by omega
  cases hs : c.seconds with
  | none => simp [toScalarCoord, Coordinate.latitudeText, Coordinate.fraction, twoDigits, hs, stol_sign, stoul_digits, hdeg, hmin]
  | some s =>
    have hsec : 10 * (s.val / 10 % 10) + s % 10 = s := by omega
    simp [toScalarCoord, Coordinate.latitudeText, Coordinate.fraction, twoDigits, hs, stol_sign, stoul_digits, hdeg, hmin,
      hsec]

/-- What is read of a longitude: all digits are taken for those after them. -/
theorem toScalarCoord_longitude (c : Coordinate 1000) : toScalarCoord c.longitudeText =
    3600 * (if c.negative then -((c.degrees.val / 10 : ℕ) : ℤ) else (c.degrees.val / 10 : ℕ)) +
      60 * (10 * (c.degrees.val % 10) + c.minutes.val / 10 : ℕ) +
        ((c.seconds.map fun s => 10 * (c.minutes.val % 10) + s.val / 10).getD (c.minutes.val % 10) : ℕ) := by
  have hdeg : 10 * (c.degrees.val / 100 % 10) + c.degrees / 10 % 10 = c.degrees / 10 := by omega
  have hmin : c.minutes.val / 10 % 10 = c.minutes / 10 := by omega
  cases hs : c.seconds with
  | none =>
    simp [toScalarCoord, Coordinate.longitudeText, Coordinate.fraction, twoDigits, hs, stol_sign, stoul_digits, stoul_digit,
      hdeg, hmin]
  | some s =>
    have hsec : s.val / 10 % 10 = s / 10 := by omega
    simp [toScalarCoord, Coordinate.longitudeText, Coordinate.fraction, twoDigits, hs, stol_sign, stoul_digits, hdeg, hmin,
      hsec]

theorem latitude_iff (c : Coordinate 100) : toScalarCoord c.latitudeText = c.denoted ↔ c.negative = false ∨ c.Whole := by
  rw [toScalarCoord_latitude]
  unfold Coordinate.denoted Coordinate.Whole
  cases hn : c.negative <;> cases hs : c.seconds <;> simp <;> omega

theorem longitude_iff (c : Coordinate 1000) : toScalarCoord c.longitudeText = c.denoted ↔ c.degrees.val = 0 ∧ c.Whole := by
  rw [toScalarCoord_longitude]
  unfold Coordinate.denoted Coordinate.Whole
  have hdeg := Nat.div_add_mod c.degrees.val 10
  have hmin := Nat.div_add_mod c.minutes.val 10
  generalize c.degrees.val / 10 = a, c.degrees.val % 10 = b at *
  generalize c.minutes.val / 10 = e, c.minutes.val % 10 = f at *
  rw [← hdeg, ← hmin]
  clear hdeg hmin
  -- the sides differ by a sum of multiples of the digits, so that an inequality is enough
  cases c.seconds with
  | none =>
    simp only [Option.map_none, Option.getD_none]
    cases c.negative <;> simp only [Bool.false_eq_true, if_false, if_true]
    · constructor
      · intro h
        replace h := h.ge
        refine ⟨?_, ?_, trivial⟩ <;> omega
      · rintro ⟨h, h', -⟩
        omega
    · constructor
      · intro h
        replace h := h.le
        refine ⟨?_, ?_, trivial⟩ <;> omega
      · rintro ⟨h, h', -⟩
        omega
  | some s =>
    have hsec := Nat.div_add_mod s.val 10
    simp only [Option.map_some, Option.getD_some]
    generalize s.val / 10 = g, s.val % 10 = i at *
    rw [← hsec]
    clear hsec
    cases c.negative <;> simp only [Bool.false_eq_true, if_false, if_true]
    · constructor
      · intro h
        replace h := h.ge
        refine ⟨?_, ?_, ?_⟩ <;> omega
      · rintro ⟨h, h', h''⟩
        omega
    · constructor
      · intro h
        replace h := h.le
        refine ⟨?_, ?_, ?_⟩ <;> omega
      · rintro ⟨h, h', h''⟩
        omega

/-! ## The columns of a line -/

theorem find_comma {cc : Bytes} (h : comma ∉ cc) (s : Bytes) : Str.find [comma] (cc ++ comma :: s) = some (cc, s) := by
  induction cc with
  | nil => simp [Str.find, List.isPrefixOf]
  | cons c cc ih =>
    obtain ⟨hc, hcc⟩ := not_or.1 (mt List.mem_cons.2 h)
    simp [Str.find, List.isPrefixOf, hc, ih hcc]

theorem find_comma_none {cc : Bytes} (h : comma ∉ cc) : Str.find [comma] cc = none := by
  induction cc with
  | nil => simp [Str.find]
  | cons c cc ih =>
    obtain ⟨hc, hcc⟩ := not_or.1 (mt List.mem_cons.2 h)
    simp [Str.find, List.isPrefixOf, hc, ih hcc]

theorem split_codes {codes : List Bytes} (hne : codes ≠ []) (h : ∀ cc ∈ codes, cc ≠ [] ∧ comma ∉ cc) (n : ℕ) :
    Str.splitFrom commaDelimiter 0 false n ([comma].intercalate codes) = codes := by
  induction codes generalizing n with
  | nil => exact absurd rfl hne
  | cons cc codes ih =>
    obtain ⟨hcc, hcomma⟩ := h cc (by simp)
    cases codes with
    | nil =>
      have hfind : Str.find commaDelimiter.1 ([comma].intercalate [cc]) = none := by
        rw [List.intercalate_singleton]
        exact find_comma_none hcomma
      rw [Str.splitFrom]
      split
      · simp_all
      · simp [hcc]
    | cons cc' codes =>
      have hfind : Str.find commaDelimiter.1 ([comma].intercalate (cc :: cc' :: codes)) =
          some (cc, [comma].intercalate (cc' :: codes)) := by
        rw [List.intercalate_cons_cons, List.append_assoc]
        exact find_comma hcomma _
      rw [Str.splitFrom]
      split
      · rename_i part rest hsome
        rw [hfind] at hsome
        cases hsome
        simp [hcc, ih (by simp) fun c hc => h c (by simp [hc])]
      · simp_all

/-! ## Lines that match -/

section
variable {β : Type} {k : Next UInt8 β} {g : Groups UInt8} {w t : Bytes} {r : β} {p : UInt8 → Bool}

theorem run_plusOf (hne : w ≠ []) (hw : ∀ c ∈ w, p c = true) (ht : ∀ c ∈ t.head?, p c = false) (hk : k g t = some r) :
    (plusOf p).run k g (w ++ t) = some r := by
  cases w with
  | nil => exact absurd rfl hne
  | cons c w =>
    rw [List.forall_mem_cons] at hw
    rw [plusOf, run_seq, List.cons_append, run_one_cons hw.1]
    exact run_many_append hw.2 ht hk

/-- A group holds the word that its pattern has taken. -/
theorem run_group_word {n : ℕ} {P : Pattern UInt8}
    (hP : ∀ k' : Next UInt8 β, k' g t = some r → P.run k' g (w ++ t) = some r)
    (hk : k (Function.update g n (some w)) t = some r) : (Pattern.group n P).run k g (w ++ t) = some r := by
  rw [run_group]
  apply hP
  rw [captured_append]
  exact hk

theorem run_tab {Q : Pattern UInt8} (h : Q.run k g t = some r) :
    (Pattern.seq (.one (· == tab)) Q).run k g (tab :: t) = some r := by
  rw [run_seq, run_one_cons (by simp), h]

theorem run_coordinate (hw : Signed w) (ht : ∀ c ∈ t.head?, isDigit c = false) (hk : k g t = some r) :
    coordinate.run k g (w ++ t) = some r := by
  obtain ⟨c, ds, rfl, hsign, hne, hds⟩ := hw
  rw [coordinate, run_seq, List.cons_append, run_one_cons hsign]
  exact run_plusOf hne hds ht hk

/-- A zone name is taken up to the end of its column, and its area up to the
first character that is not one of a word. -/
theorem run_zonePattern {area rest : Bytes} (hne : area ≠ []) (harea : ∀ c ∈ area, isWord c = true)
    (hhead : ∀ c ∈ rest.head?, isWord c = false) (hrest : ∀ c ∈ rest, isSpace c = false) (ht : ∀ c ∈ t.head?, c = tab) :
    ∃ location, ∀ (k : Next UInt8 β) (r : β),
      k (Function.update (Function.update g 5 (some area)) 6 (some location)) t = some r →
        zonePattern.run k g (area ++ (rest ++ t)) = some r := by
  have hstop : ∀ c ∈ (rest ++ t).head?, isWord c = false := by
    intro c hc
    cases rest with
    | nil =>
      rw [ht c hc]
      decide
    | cons d rest => exact hhead c hc
  have hend : ∀ c ∈ t.head?, (!isSpace c) = false := by
    intro c hc
    rw [ht c hc]
    decide
  have hlocation : ∀ (location : Bytes) (k : Next UInt8 β) (r : β), (∀ c ∈ location, isSpace c = false) →
      k (Function.update (Function.update g 5 (some area)) 6 (some location)) t = some r →
        (Pattern.group 6 (.many fun c => !isSpace c)).run k (Function.update g 5 (some area)) (location ++ t) = some r := by
    intro location k r hloc hk
    refine run_group_word (fun k' hk' => run_many_append ?_ hend hk') hk
    intro c hc
    simp [hloc c hc]
  by_cases hslash : ∃ location, rest = slash :: location
  · obtain ⟨location, rfl⟩ := hslash
    refine ⟨location, fun k r hk => ?_⟩
    refine run_group_word (fun k' hk' => run_plusOf hne harea hstop hk') (run_opt_some ?_)
    rw [List.cons_append, run_one_cons rfl]
    exact hlocation location k r (fun c hc => hrest c (by simp [hc])) hk
  · refine ⟨rest, fun k r hk => ?_⟩
    refine run_group_word (fun k' hk' => run_plusOf hne harea hstop hk') ?_
    refine (run_opt_none ?_).trans (hlocation rest k r hrest hk)
    rintro w t' heq ⟨c, hc, rfl⟩
    simp only [beq_iff_eq] at hc
    subst hc
    cases rest with
    | nil =>
      have := ht slash (by rw [List.nil_append] at heq; rw [heq]; rfl)
      exact absurd this (by decide)
    | cons d rest =>
      cases heq
      exact hslash ⟨rest, rfl⟩

end

/-- What is left after the zone name: nothing, or a tab and the description. -/
theorem run_comment {description : Option Bytes} (h : ∀ d ∈ description, hash ∉ d) (g : Groups UInt8) :
    ∃ g', (seqs [.opt (.one (· == tab)), .opt (.group 7 (.many (· != hash)))]).run
        (fun g t => if List.isEmpty t then some g else none) g ((description.map (tab :: ·)).getD []) = some g' ∧
      (∀ n, n ≠ 7 → g' n = g n) ∧ (g 7 = none → str g' 7 = description.getD []) := by
  have hmany : ∀ d : Bytes, hash ∉ d → (Pattern.opt (.group 7 (.many (· != hash)))).run
      (fun g t => if List.isEmpty t then some g else none) g d = some (Function.update g 7 (some d)) := by
    intro d hd
    refine run_opt_some ?_
    have hrun := run_group_word (n := 7) (P := .many (· != hash)) (w := d) (t := []) (g := g)
      (k := fun g t => if List.isEmpty t then some g else none) (r := Function.update g 7 (some d))
      (fun k' hk' => run_many_append (fun c hc => bne_iff_ne.2 fun heq => hd (heq ▸ hc)) (by simp) hk') rfl
    simpa using hrun
  cases description with
  | none =>
    refine ⟨Function.update g 7 (some []), ?_, fun n hn => Function.update_of_ne hn .., fun _ => by simp [str]⟩
    have hnone : ∀ w t : Bytes, [] = w ++ t → ¬ (Pattern.one (· == tab)).Matches w := by
      rintro w t heq ⟨c, -, rfl⟩
      cases heq
    exact (run_opt_none hnone).trans (hmany [] (by simp))
  | some d =>
    refine ⟨Function.update g 7 (some d), ?_, fun n hn => Function.update_of_ne hn .., fun _ => by simp [str]⟩
    refine run_opt_some ?_
    exact (run_one_cons (c := tab) rfl).trans (hmany d (h d rfl))

/-- What follows the first tab of a text. -/
theorem column_unique {a b s : Bytes} (ha : tab ∉ a) (hb : tab ∉ b) (h : a ++ tab :: s = b ++ tab :: t) : s = t := by
  rcases List.append_eq_append_iff.1 h with ⟨as, rfl, heq⟩ | ⟨as, rfl, heq⟩
  all_goals
    cases as with
    | nil =>
      cases heq
      rfl
    | cons c as =>
      cases heq
      simp at ha hb

theorem mem_plusOf (h : (plusOf p).Matches w) : ∀ c ∈ w, p c = true := by
  obtain ⟨u, v, ⟨c, hc, rfl⟩, hv, rfl⟩ := h
  intro d hd
  rcases List.mem_cons.1 hd with rfl | hd
  · exact hc
  · exact hv d hd

theorem notMem_coordinate (h : coordinate.Matches w) : tab ∉ w := by
  obtain ⟨u, v, ⟨c, hc, rfl⟩, hv, rfl⟩ := h
  intro htab
  rcases List.mem_cons.1 htab with rfl | htab
  · exact absurd hc (by decide)
  · exact absurd (mem_plusOf hv tab htab) (by decide)

theorem notMem_zonePattern (h : zonePattern.Matches w) : tab ∉ w := by
  obtain ⟨area, _, harea, ⟨gap, _, hgap, ⟨location, _, hlocation, rfl, rfl⟩, rfl⟩, rfl⟩ := h
  simp only [List.append_nil, List.mem_append, not_or]
  refine ⟨fun h => absurd (mem_plusOf harea tab h) (by decide), ?_, fun h => absurd (hlocation tab h) (by decide)⟩
  rcases hgap with rfl | ⟨c, hc, rfl⟩
  · simp
  · intro htab
    obtain rfl := List.mem_singleton.1 htab
    exact absurd hc (by decide)

namespace Zone

variable (z : Zone)

def NoHash : Prop := ∀ d ∈ z.description, hash ∉ d

instance : Decidable z.NoHash := inferInstanceAs (Decidable (∀ d ∈ z.description, hash ∉ d))

/-- The groups of a line without a `#` in its last column. -/
theorem whole_text (h : z.NoHash) : ∃ g, rx.whole List.isEmpty z.text = some g ∧
    str g 1 = z.codesText ∧ str g 2 = z.latitude.latitudeText ∧ str g 3 = z.longitude.longitudeText ∧ str g 4 = z.name ∧
      str g 5 = z.name.takeWhile isWord ∧ str g 7 = z.description.getD [] := by
  have hsplit : z.name.takeWhile isWord ++ z.name.dropWhile isWord = z.name := List.takeWhile_append_dropWhile
  have harea : z.name.takeWhile isWord ≠ [] := by
    obtain ⟨c, hc, hword⟩ := z.named.1
    cases hn : z.name with
    | nil => simp [hn] at hc
    | cons d name =>
      rw [hn] at hc
      cases hc
      simp [hword]
  have hcomment : ∀ c ∈ z.comment.head?, c = tab := by
    unfold comment
    cases z.description <;> simp
  have hstart : ∀ c ∈ z.longitude.longitudeText.head?, isDigit c = false := by
    intro c hc
    cases hc
    exact (sign_spec z.longitude).2.2.2.2.2
  have hname : ∀ c ∈ z.name.dropWhile isWord, isSpace c = false :=
    fun c hc => (z.named.2 c ((List.dropWhile_sublist _).subset hc)).1
  have hhead : ∀ c ∈ (z.name.dropWhile isWord).head?, isWord c = false := by
    intro c hc
    have := List.head?_dropWhile_not isWord z.name
    rw [Option.mem_def.1 hc] at this
    simpa using this
  -- the groups up to the longitude, those of the zone name, and the last one
  let g₃ := Function.update (Function.update (Function.update (fun _ => none) 1 (some z.codesText)) 2
    (some z.latitude.latitudeText)) 3 (some z.longitude.longitudeText)
  let g₄ := fun location => Function.update (Function.update (Function.update g₃ 5 (some (z.name.takeWhile isWord))) 6
    (some location)) 4 (some z.name)
  choose g₇ hrun hold hnew using fun location => run_comment h (g₄ location)
  obtain ⟨location, hzone⟩ := run_zonePattern (β := Groups UInt8) (g := g₃) harea
    (fun c hc => List.mem_takeWhile_imp hc) hhead hname hcomment
  refine ⟨g₇ location, ?_, ?_⟩
  · show rx.run (fun g t => if List.isEmpty t then some g else none) (fun _ => none) z.text = _
    simp only [rx, seqs, List.foldr_cons, List.foldr_nil]
    refine run_group_word (fun k' hk' => run_plusOf z.codesText_ne_nil (fun c hc => (z.codesText_spec hc).1) ?_ hk') ?_
    · simp
      decide
    refine run_tab ?_
    rw [List.append_assoc]
    refine run_group_word (fun k' hk' => run_coordinate (signed_latitude _) hstart hk') ?_
    refine run_group_word (fun k' hk' => run_coordinate (signed_longitude _) (by simp; decide) hk') ?_
    refine run_tab ?_
    rw [run_seq, run_group, ← hsplit, List.append_assoc]
    apply hzone
    rw [← List.append_assoc, hsplit, captured_append]
    exact hrun location
  · simp [str, hold location, g₄, g₃]
    exact hnew location rfl

/-- A line whose description has a `#` does not match: all but the last part of
the pattern ends with the zone name. -/
theorem whole_hash {d : Bytes} (hd : z.description = some d) (hhash : hash ∈ d) : rx.whole List.isEmpty z.text = none := by
  by_contra hne
  obtain ⟨g, hg⟩ := Option.ne_none_iff_exists'.1 hne
  obtain ⟨w, t, g', htext, hw, hstop⟩ := Pattern.exists_of_run hg
  obtain ⟨rfl, -⟩ : t = [] ∧ g' = g := by simpa using hstop
  rw [List.append_nil] at htext
  simp only [rx, seqs, List.foldr_cons, List.foldr_nil, Pattern.Matches] at hw
  obtain ⟨codes, -, hcodes, ⟨_, -, ⟨c, hc, rfl⟩, ⟨lat, -, hlat, ⟨lon, -, hlon, ⟨_, -, ⟨c', hc', rfl⟩,
    ⟨name, tail, hname, ⟨gap, last, hgap, ⟨rest, _, hrest, rfl, rfl⟩, rfl⟩, rfl⟩, rfl⟩, rfl⟩, rfl⟩, rfl⟩, rfl⟩ := hw
  obtain rfl : c = tab := by simpa using hc
  obtain rfl : c' = tab := by simpa using hc'
  have hcodes : tab ∉ codes := fun h => absurd (mem_plusOf hcodes tab h) (by decide)
  have hcoords : tab ∉ lat ++ lon := by simp [notMem_coordinate hlat, notMem_coordinate hlon]
  have hlast : hash ∉ gap ++ rest := by
    have hgap' : hash ∉ gap := by
      rcases hgap with rfl | ⟨c, hc, rfl⟩
      · simp
      · obtain rfl : c = tab := by simpa using hc
        simp [show hash ≠ tab by decide]
    have hrest' : hash ∉ rest := by
      rcases hrest with rfl | hrest
      · simp
      · exact fun h => absurd (hrest hash h) (by decide)
    simp [hgap', hrest']
  have hnames := notMem_zonePattern hname
  -- the columns of the text and those of the match are the same
  simp only [text, comment, hd, Option.map_some, Option.getD_some, List.append_assoc, List.append_nil, List.cons_append,
    List.nil_append] at htext
  have htext := column_unique (fun h => (z.codesText_spec h).2.2.2.1 rfl) hcodes htext
  rw [← List.append_assoc, ← List.append_assoc lat] at htext
  have hsigned : tab ∉ z.latitude.latitudeText ++ z.longitude.longitudeText := by
    simp only [List.mem_append, not_or]
    exact ⟨fun h => ((signed_latitude _).clean h).2.2.1 rfl, fun h => ((signed_longitude _).clean h).2.2.1 rfl⟩
  rcases List.append_eq_append_iff.1 (column_unique hsigned hcoords htext) with ⟨as, rfl, h⟩ | ⟨as, -, h⟩
  · cases as with
    | nil => exact hlast (by rw [← List.nil_append (gap ++ rest), ← h]; simp [hhash])
    | cons a as =>
      cases h
      exact hnames (by simp)
  · exact hlast (by rw [h]; simp [hhash])

end Zone

theorem whole_comment (text : Bytes) : rx.whole List.isEmpty (hash :: text) = none := by
  by_contra hne
  obtain ⟨g, hg⟩ := Option.ne_none_iff_exists'.1 hne
  obtain ⟨w, t, g', htext, ⟨_, _, ⟨_, _, ⟨c, hc, rfl⟩, -, rfl⟩, -, rfl⟩, -⟩ := Pattern.exists_of_run hg
  cases htext
  exact absurd hc (by decide)

/-! ## What the table states -/

def zones (table : List Line) : List Zone := table.filterMap Line.zone?

/-- How many locations have the country code. -/
def occurrences (zonemap : TimeZoneMap) (cc : Bytes) : ℕ :=
  (zonemap.values.flatMap CanonicalSpec.locations).countP fun l => l.country.code = cc

theorem repeats_eq (locations : List Location) (cc : Bytes) :
    repeats locations cc = locations.countP fun l => l.country.code = cc := by
  have hfold : ∀ (f : Bytes → ℕ), locations.foldl (fun repeats l =>
      Function.update repeats l.country.code (repeats l.country.code + 1)) f cc =
        f cc + locations.countP fun l => l.country.code = cc := by
    induction locations with
    | nil => simp
    | cons l locations ih =>
      intro f
      rw [List.foldl_cons, ih, List.countP_cons]
      by_cases hcc : l.country.code = cc
      · simp [hcc]
        omega
      · simp [hcc, Function.update_of_ne (Ne.symm hcc)]
  rw [repeats, hfold, zero_add]

section
variable (countryName areaName : Bytes → Bytes)

/-- A zone with the given coordinates in seconds. -/
def specOf (latitude : Coordinate 100 → ℤ) (longitude : Coordinate 1000 → ℤ) (z : Zone) : CanonicalSpec :=
  buildCanonicalSpec countryName z.name (areaName (z.name.takeWhile isWord)) z.codes (z.description.getD [])
    (latitude z.latitude) (longitude z.longitude)

/-- The zone that a data line states. -/
def stated : Zone → CanonicalSpec := specOf countryName areaName Coordinate.denoted Coordinate.denoted

/-- The zone that the code makes of it. -/
def found : Zone → CanonicalSpec :=
  specOf countryName areaName (fun c => toScalarCoord c.latitudeText) fun c => toScalarCoord c.longitudeText

/-- The zones of a table by their names. -/
def statedMap (table : List Line) : TimeZoneMap := Filed.ofList ((zones table).map (stated countryName areaName))

/-- A zone whose regions are left out where the country has no other location. -/
def withRegions (zonemap : TimeZoneMap) (spec : CanonicalSpec) : CanonicalSpec :=
  { spec with
    locations := spec.locations.map fun l => if occurrences zonemap l.country.code = 1 then { l with region := [] } else l }

/-- The map has the zones that the table states, and no others. -/
def Right (terminated : Bool) (table : List Line) : Prop :=
  ∀ name, (loadZoneMap countryName areaName (tableText terminated table)).get? name =
    ((statedMap countryName areaName table).get? name).map (withRegions (statedMap countryName areaName table))

/-- A zone that is read as it is stated. -/
structure Readable (z : Zone) : Prop where
  description : z.NoHash
  latitude : z.latitude.negative = false ∨ z.latitude.Whole
  longitude : z.longitude.degrees.val = 0 ∧ z.longitude.Whole

/-- No zone comes at or after a line that does not fit into the buffer, and all
of them are readable. -/
structure Good (table : List Line) : Prop where
  fits : zones (table.dropWhile fun l => Fits l) = []
  readable : ∀ z ∈ zones table, Readable z

theorem zoneOfLine_text (l : Line) : zoneOfLine countryName areaName (cString l.text) =
    l.zone?.bind fun z => if z.NoHash then some (found countryName areaName z) else none := by
  cases l with
  | comment text h =>
    have hstring : cString (hash :: text) = hash :: cString text := rfl
    rw [Line.text, hstring, zoneOfLine, whole_comment]
    rfl
  | zone z =>
    rw [Line.text, cString_zone, zoneOfLine]
    by_cases hhash : z.NoHash
    · obtain ⟨g, hg, h1, h2, h3, h4, h5, h7⟩ := z.whole_text hhash
      have hsplit : Str.split z.codesText commaDelimiter 0 false = z.codes :=
        split_codes z.coded.1 (fun cc hcc => ⟨(z.coded.2 cc hcc).1, fun h =>
          absurd ((isWord_spec comma ((z.coded.2 cc hcc).2 comma h)).2.2.2.2.1) (by simp)⟩) 0
      simp [hg, h1, h2, h3, h4, h5, h7, hsplit, Line.zone?, hhash, found, specOf]
    · obtain ⟨d, hd, hmem⟩ : ∃ d, z.description = some d ∧ hash ∈ d := by
        simpa [Zone.NoHash] using hhash
      simp [z.whole_hash hd hmem, Line.zone?, hhash]

theorem loadZoneMap_tableText (terminated : Bool) (table : List Line) :
    loadZoneMap countryName areaName (tableText terminated table) = pruneRedundantRegions (Filed.ofList
      (((zones (table.takeWhile fun l => Fits l)).filter fun z => z.NoHash).map
        (found countryName areaName))) := by
  rw [loadZoneMap, getlines_tableText]
  congr 2
  induction table.takeWhile fun l => Fits l with
  | nil => rfl
  | cons l table ih =>
    simp only [List.map_cons, List.filterMap_cons, zoneOfLine_text, zones] at ih ⊢
    cases l with
    | comment text h => simpa [Line.zone?] using ih
    | zone z =>
      by_cases hhash : z.NoHash
      · simp [Line.zone?, hhash] at ih ⊢
        exact ih
      · simp [Line.zone?, hhash] at ih ⊢
        exact ih

theorem get?_pruneRedundantRegions (zonemap : TimeZoneMap) (name : Bytes) :
    (pruneRedundantRegions zonemap).get? name = (zonemap.get? name).map (withRegions zonemap) := by
  rw [pruneRedundantRegions, Filed.get?_mapValues]
  cases hget : zonemap.get? name with
  | none => rfl
  | some spec =>
    have hname := Filed.name_of_get? hget
    have hspec : spec ∈ zonemap.values := Filed.mem_values.2 (by rw [hname, hget])
    -- every location of the zone is one of those that are counted
    have hcount : ∀ l ∈ spec.locations, repeats (zonemap.values.flatMap CanonicalSpec.locations) l.country.code < 2 ↔
        occurrences zonemap l.country.code = 1 := by
      intro l hl
      rw [repeats_eq, occurrences]
      have hpos : 0 < (zonemap.values.flatMap CanonicalSpec.locations).countP fun m => m.country.code = l.country.code :=
        List.countP_pos_iff.2 ⟨l, List.mem_flatMap.2 ⟨spec, hspec, hl⟩, by simp⟩
      omega
    simp only [Option.map_some, prunedSpec, withRegions]
    congr 2
    refine List.map_congr_left fun l hl => ?_
    simp only [hcount l hl]

theorem right_of_good {terminated : Bool} {table : List Line} (h : Good table) :
    Right countryName areaName terminated table := by
  have hzones : zones (table.takeWhile fun l => Fits l) = zones table := by
    have hsplit : zones (table.takeWhile fun l => Fits l) ++ zones (table.dropWhile fun l => Fits l) = zones table := by
      rw [zones, zones, ← List.filterMap_append, List.takeWhile_append_dropWhile, zones]
    rw [← hsplit, h.fits, List.append_nil]
  have hfound : ((zones table).filter fun z => z.NoHash).map (found countryName areaName) =
      (zones table).map (stated countryName areaName) := by
    rw [List.filter_eq_self.2 fun z hz => by simpa using (h.readable z hz).description]
    refine List.map_congr_left fun z hz => ?_
    have hread := h.readable z hz
    simp only [found, stated, specOf, (latitude_iff _).2 hread.latitude, (longitude_iff _).2 hread.longitude]
  intro name
  rw [loadZoneMap_tableText, hzones, hfound, get?_pruneRedundantRegions]
  rfl

theorem get?_ofList_map {l : List Zone} (h : (l.map Zone.name).Nodup) (f : Coordinate 100 → ℤ) (g : Coordinate 1000 → ℤ)
    {z : Zone} (hz : z ∈ l) :
    (Filed.ofList (l.map (specOf countryName areaName f g)) : TimeZoneMap).get? z.name =
      some (specOf countryName areaName f g z) := by
  refine Filed.get?_foldl_of_mem ?_ (List.mem_map_of_mem hz)
  rw [List.pairwise_map]
  exact List.pairwise_map.1 h

theorem good_of_right {terminated : Bool} {table : List Line} (hnames : ((zones table).map Zone.name).Nodup)
    (h : Right countryName areaName terminated table) : Good table := by
  have hsplit : zones (table.takeWhile fun l => Fits l) ++ zones (table.dropWhile fun l => Fits l) = zones table := by
    rw [zones, zones, ← List.filterMap_append, List.takeWhile_append_dropWhile, zones]
  have hread : ∀ z ∈ zones table, z ∈ zones (table.takeWhile fun l => Fits l) ∧ z.NoHash ∧
      found countryName areaName z = stated countryName areaName z := by
    intro z hz
    have hstated := get?_ofList_map countryName areaName hnames Coordinate.denoted Coordinate.denoted hz
    have hname := h z.name
    rw [loadZoneMap_tableText, get?_pruneRedundantRegions, statedMap, stated, hstated, Option.map_some,
      Option.map_eq_some_iff] at hname
    obtain ⟨spec, hspec, hregions⟩ := hname
    have hsub : ((zones (table.takeWhile fun l => Fits l)).filter fun z => z.NoHash).Sublist (zones table) := by
      refine List.filter_sublist.trans ?_
      rw [← hsplit]
      exact List.sublist_append_left _ _
    -- some line has given this zone, and by its name it is this one
    have hmem : ∃ z' ∈ (zones (table.takeWhile fun l => Fits l)).filter fun z => z.NoHash, z'.name = z.name := by
      by_contra hnone
      push Not at hnone
      rw [Filed.ofList, Filed.get?_foldl_of_ne] at hspec
      · simp [Filed.get?, Filed.empty] at hspec
      · intro v hv
        obtain ⟨z', hz', rfl⟩ := List.mem_map.1 hv
        exact hnone z' hz'
    obtain ⟨z', hz', hsame⟩ := hmem
    obtain rfl := List.inj_on_of_nodup_map hnames (hsub.subset hz') hz hsame
    have hfound := get?_ofList_map countryName areaName (hnames.sublist (hsub.map _))
      (fun c => toScalarCoord c.latitudeText) (fun c => toScalarCoord c.longitudeText) hz'
    rw [found, hfound] at hspec
    cases hspec
    obtain ⟨hfits, hhash⟩ := List.mem_filter.1 hz'
    refine ⟨hfits, of_decide_eq_true hhash, ?_⟩
    have hlat := congrArg CanonicalSpec.latitude hregions
    have hlon := congrArg CanonicalSpec.longitude hregions
    simp only [withRegions, specOf, buildCanonicalSpec] at hlat hlon
    simp only [found, stated, specOf, hlat, hlon]
  constructor
  · by_contra hne
    obtain ⟨z, hz⟩ := List.exists_mem_of_ne_nil _ hne
    have hmem : z ∈ zones table := by
      rw [← hsplit]
      exact List.mem_append_right _ hz
    rw [← hsplit, List.map_append] at hnames
    exact (List.nodup_append.1 hnames).2.2 _ (List.mem_map_of_mem (hread z hmem).1) _ (List.mem_map_of_mem hz) rfl
  · intro z hz
    obtain ⟨-, hhash, heq⟩ := hread z hz
    exact ⟨hhash, (latitude_iff _).1 (congrArg CanonicalSpec.latitude heq),
      (longitude_iff _).1 (congrArg CanonicalSpec.longitude heq)⟩

/-- The table is loaded as it is stated if it is good; where no zone is stated
twice, only then. -/
theorem loadZoneMap_right_iff (terminated : Bool) (table : List Line) :
    (Good table → Right countryName areaName terminated table) ∧
      (((zones table).map Zone.name).Nodup → (Right countryName areaName terminated table ↔ Good table)) :=
  ⟨right_of_good countryName areaName, fun h => ⟨good_of_right countryName areaName h, right_of_good countryName areaName⟩⟩

end

/-! ## Two tables -/

set_option maxRecDepth 4000 in
def oslo : Zone where
  codes := [ascii "NO"]
  latitude := ⟨false, 59, 55, none⟩
  longitude := ⟨false, 10, 45, none⟩
  name := ascii "Europe/Oslo"
  description := none
  coded := by decide
  named := by decide
  described := by simp

/-- Oslo, at 10 degrees and 45 minutes East, is found at 1 degree, 4 minutes and 5
seconds. -/
theorem oslo_moved : ¬ Right id id true [.zone oslo] := by
  intro h
  have hgood := (good_of_right id id (by simp [zones, Line.zone?]) h).readable oslo (by simp [zones, Line.zone?])
  exact absurd hgood.longitude.1 (by decide)


set_option maxRecDepth 4000 in
/-- A place on the meridian. -/
def greenwich : Zone where
  codes := [ascii "GB", ascii "GG"]
  latitude := ⟨false, 51, 30, some 28⟩
  longitude := ⟨true, 0, 0, some 0⟩
  name := ascii "Europe/London"
  description := some (ascii "main town")
  coded := by decide
  named := by decide
  described := by decide

set_option maxRecDepth 4000 in
/-- Another place in the country, also on the meridian. -/
def louth : Zone where
  codes := [ascii "GB"]
  latitude := ⟨false, 53, 22, none⟩
  longitude := ⟨true, 0, 0, none⟩
  name := ascii "Europe/Louth"
  description := none
  coded := by decide
  named := by decide
  described := by simp

/-- One country has both of the zones, another one only the first. -/
def meridian : List Line := [.comment (ascii " zones") (by decide), .zone greenwich, .zone louth]

theorem greenwich_right : Right id id false meridian ∧ (Right id id false meridian ↔ Good meridian) := by
  have hgood : Good meridian := by
    refine ⟨by decide, ?_⟩
    simp only [meridian, zones, List.filterMap_cons, Line.zone?, List.filterMap_nil, List.forall_mem_cons]
    exact ⟨⟨by decide, .inl rfl, rfl, rfl, rfl⟩, ⟨by decide, .inl rfl, rfl, rfl, rfl⟩, List.forall_mem_nil _⟩
  exact ⟨(loadZoneMap_right_iff id id false _).1 hgood, (loadZoneMap_right_iff id id false _).2 (by decide)⟩

end CommonCore.TimeZones
