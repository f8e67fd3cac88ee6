import CommonCore.Captures
import CommonCore.IntegerTexts
import CommonCore.Splitting
import CommonCore.UpgradeProvider
import Mathlib.Data.Prod.Lex

/-!
# Versions of packages

How a version is read, written and compared, and which package an upgrade takes.
A version without a printable text is written without its build number, by which
versions are compared as well.
-/

namespace CommonCore

namespace Versions

open Captures
open IntegerTexts (IntType Numeral valueOf)
open Upgrade (PackageSource)

/-! ## Versions -/

/-- `uint`, which has 32 bits. -/
def uint : IntType := ⟨false, 32, by decide⟩

abbrev Uint := uint.Val

structure Version where
  major : Uint := ⟨0, by decide⟩
  minor : Uint := ⟨0, by decide⟩
  patch : Uint := ⟨0, by decide⟩
  buildNumber : Uint := ⟨0, by decide⟩
  printableVersion : Bytes := []

/-- `core::str::convert_to<uint>` with a fallback. -/
def convertTo (s : Bytes) (fallback : Uint) : Uint :=
  match IntegerTexts.fromString uint s with
  | .ok v => v
  | .error _ => fallback

/-- `\d+` -/
def number : Pattern UInt8 := .seq (.one isDigit) (.many isDigit)

/-- `(?:c(\d+))?` -/
def part (c : UInt8) (n : ℕ) : Pattern UInt8 := .opt (.seq (.one (· == c)) (.group n number))

/-- What `.` matches. -/
def inLine (c : UInt8) : Bool := c != Str.LF && c != Str.CR

/-- `(\d+)(?:\.(\d+))?(?:\.(\d+))?(?:-(\d+))?.*` -/
def rx : Pattern UInt8 := seqs [.group 1 number, part dot 2, part dot 3, part minus 4, .many inLine]

/-- `Version::from_string` -/
def fromString (s : Bytes) : Version :=
  match rx.whole (· = []) s with
  | some g =>
    { major := convertTo (str g 1) ⟨0, by decide⟩
      minor := convertTo (str g 2) ⟨0, by decide⟩
      patch := convertTo (str g 3) ⟨0, by decide⟩
      buildNumber := convertTo (str g 4) ⟨0, by decide⟩
      printableVersion := s }
  | none => { printableVersion := s }

/-- `operator<` -/
def Version.less (v w : Version) : Bool :=
  if v.major ≠ w.major then decide (v.major.1 < w.major.1)
  else if v.minor ≠ w.minor then decide (v.minor.1 < w.minor.1)
  else if v.patch ≠ w.patch then decide (v.patch.1 < w.patch.1)
  else decide (v.buildNumber.1 < w.buildNumber.1)

/-- `operator>` -/
def Version.greater (v w : Version) : Bool := w.less v

/-- What `to_stream` writes. -/
def Version.toStream (v : Version) : Bytes :=
  if v.printableVersion ≠ [] then v.printableVersion
  else IntegerTexts.toString uint v.major ++ dot :: (IntegerTexts.toString uint v.minor ++ dot :: IntegerTexts.toString uint v.patch)

/-! ## Packages -/

structure ProductInfo where
  productName : Bytes
  releaseVersion : Version

structure NativePackageInfo where
  product : Bytes
  version : Version
  /-- The settings with these names, where they are given. -/
  productMatch : Option Bytes := none
  versionMatch : Option Bytes := none

/-- The packages that pointers refer to, and what is outside of the provider. -/
structure Host (Ptr : Type) where
  info : Ptr → NativePackageInfo
  /-- What the product service says when a package is looked at, unless it throws. -/
  getProductInfo : Ptr → Option ProductInfo
  /-- `std::regex_match` of a text with a pattern, unless the pattern is wrong. -/
  regexMatch : Bytes → Bytes → Option Bool

section
variable {Ptr : Type} (host : Host Ptr)

/-- `is_applicable_product`, unless it throws. -/
def isApplicableProduct (package : NativePackageInfo) (currentProduct : Bytes) : Option Bool :=
  match package.productMatch with
  | some productMatch => host.regexMatch currentProduct productMatch
  | none => some (package.product ≠ [] && package.product == currentProduct)

/-- `is_applicable_version`, unless it throws. -/
def isApplicableVersion (package : NativePackageInfo) (currentVersion : Version) : Option Bool :=
  match package.versionMatch with
  | some versionMatch => host.regexMatch currentVersion.toStream versionMatch
  | none => some (package.version.greater currentVersion)

/-- Whether `check_applicable` returns. -/
def checkApplicable (p : Ptr) : Bool :=
  match host.getProductInfo p with
  | none => false
  | some pi =>
    isApplicableProduct host (host.info p) pi.productName == some true &&
      isApplicableVersion host (host.info p) pi.releaseVersion == some true

/-- `is_applicable_` of each package. -/
abbrev Memo (Ptr : Type) := Ptr → Option Bool

variable [DecidableEq Ptr]

/-- `is_applicable`, which remembers its result. -/
def isApplicable (p : Ptr) (memo : Memo Ptr) : Bool × Memo Ptr :=
  match memo p with
  | some b => (b, memo)
  | none => (checkApplicable host p, Function.update memo p (some (checkApplicable host p)))

/-- One turn of the loop in `best_available`. -/
def consider (best : Option Ptr × Memo Ptr) (candidate : Ptr) : Option Ptr × Memo Ptr :=
  let (applicable, memo) := isApplicable host candidate best.2
  match best.1 with
  | none => (if applicable then some candidate else none, memo)
  | some b =>
    (if applicable && (host.info candidate).version.greater (host.info b).version then some candidate else some b, memo)

structure NativeProvider (Ptr : Type) where
  vfsIndices : List (String × List Ptr)
  urlIndices : List (String × List Ptr)
  defaultVfsPath : String
  defaultUrl : String

/-- `get_index`, and the packages available there. -/
def NativeProvider.getIndex (provider : NativeProvider Ptr) : PackageSource → Option (List Ptr)
  | .vfs path => provider.vfsIndices.lookup (if path ≠ "" then path else provider.defaultVfsPath)
  | .url url => provider.urlIndices.lookup (if url ≠ "" then url else provider.defaultUrl)
  | .none => none

/-- Nothing where the source has not been scanned. -/
def NativeProvider.listAvailable (provider : NativeProvider Ptr) (source : PackageSource) : Option (List Ptr) :=
  match source with
  | .none => some ((provider.vfsIndices ++ provider.urlIndices).flatMap Prod.snd)
  | source => provider.getIndex source

def NativeProvider.bestAvailable (provider : NativeProvider Ptr) (source : PackageSource) (memo : Memo Ptr) :
    Option (Option Ptr × Memo Ptr) :=
  (provider.listAvailable source).map fun catalogue => catalogue.foldl (consider host) (none, memo)

/-- What `is_applicable` gives. -/
def Applicable (memo : Memo Ptr) (p : Ptr) : Prop := (isApplicable host p memo).1 = true

end

/-! ## The order -/

/-- The numbers that versions are compared by. -/
def Version.key (v : Version) : ℤ ×ₗ ℤ ×ₗ ℤ ×ₗ ℤ :=
  toLex (v.major.1, toLex (v.minor.1, toLex (v.patch.1, v.buildNumber.1)))

theorem Version.less_iff {v w : Version} : v.less w = true ↔ v.key < w.key := by
  unfold less key
  simp only [Prod.Lex.toLex_lt_toLex, ne_eq, Subtype.ext_iff, ite_not]
  by_cases h1 : v.major.1 = w.major.1
  · by_cases h2 : v.minor.1 = w.minor.1
    · by_cases h3 : v.patch.1 = w.patch.1
      · simp only [h1, h2, h3, if_true, decide_eq_true_eq, lt_irrefl, false_or, true_and]
      · simp only [h1, h2, h3, if_true, if_false, decide_eq_true_eq, lt_irrefl, false_or, true_and, false_and, or_false]
    · simp only [h1, h2, if_true, if_false, decide_eq_true_eq, lt_irrefl, false_or, true_and, false_and, or_false]
  · simp only [h1, if_false, decide_eq_true_eq, false_and, or_false]

theorem Version.greater_iff {v w : Version} : v.greater w = true ↔ w.key < v.key := less_iff

/-! ## Reading -/

theorem digit_iff {b : UInt8} : charDigit b < 10 ↔ isDigit b = true := by
  revert b
  apply forall_byte
  decide +kernel

/-- A component of a version, as digits. -/
structure Component where
  digits : Bytes
  numeral : Numeral 10 digits
  small : valueOf 10 digits < 2 ^ 32

namespace Component

def value (x : Component) : Uint :=
  ⟨valueOf 10 x.digits, by
    have h : ((valueOf 10 x.digits : ℕ) : ℤ) < ((2 ^ 32 : ℕ) : ℤ) := Nat.cast_lt.mpr x.small
    refine ⟨?_, ?_⟩
    · show (0 : ℤ) ≤ _
      exact Nat.cast_nonneg _
    · show _ ≤ (2 ^ 32 - 1 : ℤ)
      push_cast at h
      omega⟩

theorem isDigit (x : Component) : ∀ b ∈ x.digits, isDigit b = true := fun b hb => digit_iff.mp (x.numeral.2 b hb)

theorem convertTo (x : Component) (fallback : Uint) : convertTo x.digits fallback = x.value := by
  have h : IntegerTexts.fromString uint x.digits = .ok x.value :=
    IntegerTexts.fromString_ok_iff.mpr (.decimal (.inl rfl) x.numeral)
  unfold Versions.convertTo
  rw [h]

/-- The digits that are written for a number. -/
def ofUint (v : Uint) : Component where
  digits := decimal v.1.toNat
  numeral := (IntegerTexts.numeral_decimal _).1
  small := by
    rw [← (IntegerTexts.numeral_decimal _).2]
    have h : v.1 ≤ (2 ^ 32 - 1 : ℤ) := v.2.2
    omega

theorem value_ofUint (v : Uint) : (ofUint v).value = v := by
  have h : (0 : ℤ) ≤ v.1 := v.2.1
  apply Subtype.ext
  show ((valueOf 10 (decimal v.1.toNat) : ℕ) : ℤ) = v.1
  rw [← (IntegerTexts.numeral_decimal _).2]
  omega

theorem toString_eq (v : Uint) : IntegerTexts.toString uint v = (ofUint v).digits := by
  have h : (0 : ℤ) ≤ v.1 := v.2.1
  show decimalInt v.1 = decimal v.1.toNat
  unfold decimalInt
  rw [if_neg (by omega), show v.1.natAbs = v.1.toNat by omega]

end Component

/-- `a.b.c`, or `a.b.c-d`. -/
structure VersionText where
  a : Component
  b : Component
  c : Component
  d : Option Component

namespace VersionText

/-- What follows `a.b.c`. -/
def build (t : VersionText) : Bytes :=
  match t.d with
  | some d => minus :: d.digits
  | none => []

def text (t : VersionText) : Bytes := t.a.digits ++ dot :: (t.b.digits ++ dot :: (t.c.digits ++ t.build))

def version (t : VersionText) : Version where
  major := t.a.value
  minor := t.b.value
  patch := t.c.value
  buildNumber := (t.d.map Component.value).getD ⟨0, by decide⟩
  printableVersion := t.text

end VersionText

section
variable {β : Type} {k : Next UInt8 β} {g : Groups UInt8} {t : Bytes} {r : β}

theorem run_number (x : Component) (n : ℕ) (ht : ∀ c ∈ t.head?, isDigit c = false)
    (hk : k (Function.update g n (some x.digits)) t = some r) :
    (Pattern.group n number).run k g (x.digits ++ t) = some r := by
  have hcaptured := captured_append (w := x.digits) (s := t)
  rw [run_group]
  obtain ⟨c, w, hx⟩ := List.exists_cons_of_ne_nil x.numeral.1
  have hall := x.isDigit
  rw [hx] at hall hcaptured hk ⊢
  rw [List.forall_mem_cons] at hall
  rw [number, List.cons_append, run_seq, run_one_cons hall.1]
  rw [List.cons_append] at hcaptured
  exact run_many_append hall.2 ht (by rw [hcaptured]; exact hk)

theorem run_part (x : Component) (c : UInt8) (n : ℕ) (ht : ∀ c ∈ t.head?, isDigit c = false)
    (hk : k (Function.update g n (some x.digits)) t = some r) :
    (part c n).run k g (c :: (x.digits ++ t)) = some r := by
  apply run_opt_some
  rw [run_seq, run_one_cons (by simp)]
  exact run_number x n ht hk

theorem run_part_none (c : UInt8) (n : ℕ) : (part c n).run k g [] = k g [] := by
  apply run_opt_none
  rintro w t h ⟨u, v, ⟨c', -, rfl⟩, -, rfl⟩
  simp at h

end

/-- What the groups hold when a text has been matched. -/
def groups (t : VersionText) : Groups UInt8 :=
  let g := Function.update (Function.update (Function.update (fun _ => none) 1 (some t.a.digits)) 2 (some t.b.digits)) 3 (some t.c.digits)
  match t.d with
  | some d => Function.update g 4 (some d.digits)
  | none => g

theorem whole_text (t : VersionText) : rx.whole (· = []) t.text = some (groups t) := by
  have hdot : ∀ (s : Bytes), ∀ c ∈ (dot :: s).head?, isDigit c = false := by
    intro s c hc
    cases hc
    rfl
  have hminus : ∀ (s : Bytes), ∀ c ∈ (minus :: s).head?, isDigit c = false := by
    intro s c hc
    cases hc
    rfl
  unfold Pattern.whole rx VersionText.text groups VersionText.build
  simp only [seqs, List.foldr_cons, List.foldr_nil, run_seq]
  refine run_number t.a 1 (hdot _) ?_
  refine run_part t.b dot 2 (hdot _) ?_
  cases hd : t.d with
  | none =>
    refine run_part t.c dot 3 (by simp) ?_
    rw [run_seq]
    exact (run_part_none minus 4).trans rfl
  | some d =>
    refine run_part t.c dot 3 (hminus _) ?_
    have h := run_part (k := (Pattern.many inLine).run (Pattern.empty.run fun g t => if decide (t = []) = true then some g else none))
      (g := Function.update (Function.update (Function.update (fun _ => none) 1 (some t.a.digits)) 2 (some t.b.digits)) 3 (some t.c.digits))
      (t := []) d minus 4 (by simp) rfl
    rwa [List.append_nil] at h

theorem fromString_text (t : VersionText) : fromString t.text = t.version := by
  unfold fromString VersionText.version
  rw [whole_text]
  have h1 : str (groups t) 1 = t.a.digits := by
    unfold groups str
    cases t.d <;> rfl
  have h2 : str (groups t) 2 = t.b.digits := by
    unfold groups str
    cases t.d <;> rfl
  have h3 : str (groups t) 3 = t.c.digits := by
    unfold groups str
    cases t.d <;> rfl
  have h4 : convertTo (str (groups t) 4) ⟨0, by decide⟩ = (t.d.map Component.value).getD ⟨0, by decide⟩ := by
    unfold groups str
    cases t.d with
    | none => rfl
    | some d => exact d.convertTo _
  simp only [h1, h2, h3, h4, Component.convertTo]

/-! ## Written versions -/

/-- Versions that were parsed from such a text, or have no printable text of their own. -/
structure Written where
  version : Version
  origin : version.printableVersion = [] ∨ ∃ t : VersionText, version = fromString t.text

/-- The text that is written where there is no printable one. -/
def canonical (v : Version) : VersionText where
  a := .ofUint v.major
  b := .ofUint v.minor
  c := .ofUint v.patch
  d := none

theorem toStream_canonical {v : Version} (h : v.printableVersion = []) : v.toStream = (canonical v).text := by
  unfold Version.toStream
  rw [if_neg (not_not.mpr h)]
  simp only [Component.toString_eq]
  simp [VersionText.text, VersionText.build, canonical]

theorem key_reparsed {v : Version} (h : v.printableVersion = []) :
    (fromString v.toStream).key = toLex (v.major.1, toLex (v.minor.1, toLex (v.patch.1, 0))) := by
  rw [toStream_canonical h, fromString_text]
  unfold VersionText.version canonical Version.key
  simp only [Component.value_ofUint]
  rfl

/-- What is parsed from the text of a version is neither less nor greater than it. -/
def Reparsed (v : Version) : Prop := (fromString v.toStream).less v = false ∧ (fromString v.toStream).greater v = false

theorem reparsed_iff_key {v : Version} : Reparsed v ↔ (fromString v.toStream).key = v.key := by
  unfold Reparsed
  rw [← Bool.not_eq_true, ← Bool.not_eq_true, Version.less_iff, Version.greater_iff]
  constructor
  · rintro ⟨hless, hgreater⟩
    exact le_antisymm (not_lt.mp hgreater) (not_lt.mp hless)
  · intro h
    rw [h]
    exact ⟨lt_irrefl _, lt_irrefl _⟩

theorem reparsed_iff (v : Written) : Reparsed v.version ↔ v.version.printableVersion ≠ [] ∨ v.version.buildNumber.1 = 0 := by
  rw [reparsed_iff_key]
  by_cases h : v.version.printableVersion = []
  · rw [key_reparsed h, Version.key]
    simp only [EmbeddingLike.apply_eq_iff_eq, Prod.mk.injEq, true_and, h, ne_eq, not_true_eq_false, false_or]
    exact eq_comm
  · obtain ⟨t, ht⟩ := v.origin.resolve_left h
    have hprintable : v.version.printableVersion = t.text := by rw [ht, fromString_text, VersionText.version]
    apply iff_of_true _ (.inl h)
    rw [Version.toStream, if_pos h, hprintable, ← ht]

/-! ## The best package -/

section
variable {Ptr : Type} [DecidableEq Ptr] (host : Host Ptr)

/-- What a loop has found among the packages it has seen. -/
structure Best (memo : Memo Ptr) (catalogue : List Ptr) (best : Option Ptr) : Prop where
  found : ∀ c ∈ catalogue, Applicable host memo c → best.isSome
  applicable : ∀ b ∈ best, b ∈ catalogue ∧ Applicable host memo b
  greatest : ∀ b ∈ best, ∀ c ∈ catalogue, Applicable host memo c → (host.info c).version.greater (host.info b).version = false

theorem isApplicable_fst (memo : Memo Ptr) (p : Ptr) : (isApplicable host p memo).1 = (memo p).getD (checkApplicable host p) := by
  unfold isApplicable
  cases memo p <;> rfl

/-- What is remembered is what would be found. -/
theorem isApplicable_snd (memo : Memo Ptr) (p q : Ptr) :
    (isApplicable host q (isApplicable host p memo).2).1 = (isApplicable host q memo).1 := by
  rw [isApplicable_fst, isApplicable_fst]
  cases hp : memo p with
  | some b =>
    unfold isApplicable
    rw [hp]
  | none =>
    unfold isApplicable
    rw [hp]
    dsimp only
    by_cases hq : q = p
    · rw [hq, Function.update_self, hp]
      rfl
    · rw [Function.update_of_ne hq]

theorem applicable_isApplicable {memo : Memo Ptr} {p q : Ptr} :
    Applicable host (isApplicable host p memo).2 q ↔ Applicable host memo q := by
  unfold Applicable
  rw [isApplicable_snd]

section
variable {host} {memo : Memo Ptr} {seen : List Ptr} {best : Option Ptr} {candidate : Ptr}

theorem Best.nil : Best host memo [] none := ⟨by simp, by simp, by simp⟩

theorem Best.congr {memo' : Memo Ptr} (hmemo : ∀ q, Applicable host memo' q ↔ Applicable host memo q) (h : Best host memo seen best) :
    Best host memo' seen best where
  found c hmem hc := h.found c hmem ((hmemo c).mp hc)
  applicable b hb := ⟨(h.applicable b hb).1, (hmemo b).mpr (h.applicable b hb).2⟩
  greatest b hb c hmem hc := h.greatest b hb c hmem ((hmemo c).mp hc)

theorem Best.take (h : Best host memo seen best) (hc : Applicable host memo candidate)
    (hgreater : ∀ b ∈ best, (host.info candidate).version.greater (host.info b).version = true) :
    Best host memo (seen ++ [candidate]) (some candidate) where
  found _ _ _ := rfl
  applicable := by
    rintro _ ⟨⟩
    exact ⟨by simp, hc⟩
  greatest := by
    rintro _ ⟨⟩ c hmem hc'
    rw [← Bool.not_eq_true, Version.greater_iff]
    rcases List.mem_append.mp hmem with hmem | hmem
    · obtain ⟨b, hb⟩ := Option.isSome_iff_exists.mp (h.found c hmem hc')
      have hless := h.greatest b hb c hmem hc'
      rw [← Bool.not_eq_true, Version.greater_iff] at hless
      have hup := Version.greater_iff.mp (hgreater b hb)
      exact not_lt.mpr ((not_lt.mp hless).trans hup.le)
    · rw [List.mem_singleton.mp hmem]
      exact lt_irrefl _

theorem Best.skip (h : Best host memo seen best)
    (hskip : Applicable host memo candidate → ∃ b ∈ best, (host.info candidate).version.greater (host.info b).version = false) :
    Best host memo (seen ++ [candidate]) best where
  found c hmem hc := by
    rcases List.mem_append.mp hmem with hmem | hmem
    · exact h.found c hmem hc
    · rw [List.mem_singleton.mp hmem] at hc
      obtain ⟨b, hb, -⟩ := hskip hc
      exact Option.isSome_iff_exists.mpr ⟨b, hb⟩
  applicable b hb := ⟨List.mem_append_left _ (h.applicable b hb).1, (h.applicable b hb).2⟩
  greatest b hb c hmem hc := by
    rcases List.mem_append.mp hmem with hmem | hmem
    · exact h.greatest b hb c hmem hc
    · rw [List.mem_singleton.mp hmem] at hc ⊢
      obtain ⟨b', hb', hnot⟩ := hskip hc
      rw [Option.mem_def] at hb hb'
      rw [hb] at hb'
      cases hb'
      exact hnot

end

theorem best_consider {memo : Memo Ptr} {seen : List Ptr} {best : Option Ptr × Memo Ptr} (candidate : Ptr)
    (hmemo : ∀ q, Applicable host best.2 q ↔ Applicable host memo q) (h : Best host memo seen best.1) :
    (∀ q, Applicable host (consider host best candidate).2 q ↔ Applicable host memo q) ∧
      Best host memo (seen ++ [candidate]) (consider host best candidate).1 := by
  obtain ⟨best, now⟩ := best
  dsimp only at hmemo h
  have hsnd : (consider host (best, now) candidate).2 = (isApplicable host candidate now).2 := by
    unfold consider
    cases best <;> rfl
  refine ⟨fun q => ?_, ?_⟩
  · rw [hsnd, applicable_isApplicable, hmemo]
  · unfold consider
    by_cases hc : Applicable host now candidate
    · have htrue : (isApplicable host candidate now).1 = true := hc
      cases best with
      | none =>
        simp only [htrue, if_true]
        exact h.take ((hmemo candidate).mp hc) (by simp)
      | some b =>
        simp only [htrue, Bool.true_and]
        by_cases hgreater : (host.info candidate).version.greater (host.info b).version = true
        · rw [if_pos hgreater]
          apply h.take ((hmemo candidate).mp hc)
          rintro _ ⟨⟩
          exact hgreater
        · rw [if_neg hgreater]
          exact h.skip fun _ => ⟨b, rfl, Bool.eq_false_iff.mpr hgreater⟩
    · have hfalse : (isApplicable host candidate now).1 = false := Bool.eq_false_iff.mpr hc
      have hskip : Best host memo (seen ++ [candidate]) best := h.skip fun happlicable => absurd ((hmemo candidate).mpr happlicable) hc
      cases best with
      | none =>
        simp only [hfalse, Bool.false_eq_true, if_false]
        exact hskip
      | some b =>
        simp only [hfalse, Bool.false_and, Bool.false_eq_true, if_false]
        exact hskip

theorem best_foldl {memo : Memo Ptr} (catalogue : List Ptr) {seen : List Ptr} {best : Option Ptr × Memo Ptr}
    (hmemo : ∀ q, Applicable host best.2 q ↔ Applicable host memo q) (h : Best host memo seen best.1) :
    (∀ q, Applicable host (catalogue.foldl (consider host) best).2 q ↔ Applicable host memo q) ∧
      Best host memo (seen ++ catalogue) (catalogue.foldl (consider host) best).1 := by
  induction catalogue generalizing seen best with
  | nil =>
    rw [List.append_nil]
    exact ⟨hmemo, h⟩
  | cons candidate catalogue ih =>
    obtain ⟨hmemo', h'⟩ := best_consider host candidate hmemo h
    have hrest := ih hmemo' h'
    rwa [List.append_assoc] at hrest

/-- What `best_available` does for a source that has been scanned. -/
def Upgrades (provider : NativeProvider Ptr) (source : PackageSource) (memo : Memo Ptr) : Prop :=
  ∀ catalogue ∈ provider.listAvailable source, ∃ best memo', provider.bestAvailable host source memo = some (best, memo') ∧
    (∀ p, Applicable host memo' p ↔ Applicable host memo p) ∧ Best host memo' catalogue best

theorem upgrades (provider : NativeProvider Ptr) (source : PackageSource) (memo : Memo Ptr) : Upgrades host provider source memo := by
  intro catalogue hcatalogue
  have hrun : (∀ q, Applicable host (catalogue.foldl (consider host) (none, memo)).2 q ↔ Applicable host memo q) ∧
      Best host memo ([] ++ catalogue) (catalogue.foldl (consider host) (none, memo)).1 :=
    best_foldl host catalogue (fun _ => Iff.rfl) Best.nil
  obtain ⟨hmemo, hbest⟩ := hrun
  refine ⟨(catalogue.foldl (consider host) (none, memo)).1, (catalogue.foldl (consider host) (none, memo)).2, ?_, hmemo, hbest.congr hmemo⟩
  rw [NativeProvider.bestAvailable, Option.mem_def.mp hcatalogue]
  rfl

end

/-! ## The order of texts -/

/-- The numbers of a text, a missing one as 0. -/
def VersionText.numbers (t : VersionText) : ℕ ×ₗ ℕ ×ₗ ℕ ×ₗ ℕ :=
  toLex (valueOf 10 t.a.digits, toLex (valueOf 10 t.b.digits, toLex (valueOf 10 t.c.digits, (t.d.map fun d => valueOf 10 d.digits).getD 0)))

/-- Versions compare as the numbers of their texts do. -/
def Compares (t u : VersionText) : Prop :=
  ((fromString t.text).less (fromString u.text) = true ↔ t.numbers < u.numbers) ∧
    ((fromString t.text).greater (fromString u.text) = true ↔ u.numbers < t.numbers)

theorem less_text (t u : VersionText) : (fromString t.text).less (fromString u.text) = true ↔ t.numbers < u.numbers := by
  have hbuild : ∀ d : Option Component, ((d.map Component.value).getD ⟨0, by decide⟩ : Uint).1 =
      (((d.map fun d => valueOf 10 d.digits).getD 0 : ℕ) : ℤ) := by
    intro d
    cases d <;> rfl
  have hvalue : ∀ x : Component, x.value.1 = ((valueOf 10 x.digits : ℕ) : ℤ) := fun _ => rfl
  rw [fromString_text, fromString_text, Version.less_iff]
  unfold VersionText.version Version.key VersionText.numbers
  simp only [hbuild, hvalue, Prod.Lex.toLex_lt_toLex, Nat.cast_lt, Nat.cast_inj]

/-- Order, texts and choice agree exactly for a version that has a printable text or no
build number. -/
theorem version_order_iff (t u : VersionText) (v : Written) {Ptr : Type} [DecidableEq Ptr] (host : Host Ptr)
    (provider : NativeProvider Ptr) (source : PackageSource) (memo : Memo Ptr) :
    Compares t u ∧ Reparsed v.version ∧ Upgrades host provider source memo ↔
      v.version.printableVersion ≠ [] ∨ v.version.buildNumber.1 = 0 := by
  rw [reparsed_iff]
  constructor
  · rintro ⟨-, h, -⟩
    exact h
  · intro h
    exact ⟨⟨less_text t u, less_text u t⟩, h, upgrades host provider source memo⟩

/-- The version 1.2.3 with the build number 4, as a list of numbers gives it. -/
def fourthBuild : Version := { major := ⟨1, by decide⟩, minor := ⟨2, by decide⟩, patch := ⟨3, by decide⟩, buildNumber := ⟨4, by decide⟩ }

theorem fourth_build_greater : ¬ ∀ v : Written, Reparsed v.version := by
  intro h
  have hkey := reparsed_iff_key.mp (h ⟨fourthBuild, .inl rfl⟩)
  rw [key_reparsed rfl] at hkey
  exact absurd hkey (by decide)

end Versions

end CommonCore
