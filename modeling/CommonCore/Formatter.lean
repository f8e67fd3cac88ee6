import CommonCore.Captures
import CommonCore.FromChars
import CommonCore.UrlDecoding

/-!
# Formatted text

How `Formatter` takes a format string apart, fills in strings, and ends when
there are fewer of them than conversions. A part is recorded when the next
conversion has been found, with the position of that one, and the last part with
the position of the last specification of any kind.
-/

namespace CommonCore

namespace Formatter

open Captures

/-! ## Specifications -/

/-- `[#0\- +'^,]` -/
def isFlag (c : UInt8) : Bool := [0x23, 0x30, 0x2d, 0x20, 0x2b, 0x27, 0x5e, 0x2c].contains c

/-- `[abcdefghinoprsuxzAEFGOXTZ]` -/
def isConversion (c : UInt8) : Bool := (ascii "abcdefghinoprsuxzAEFGOXTZ").contains c

/-- `[m%]` -/
def isNonArgument (c : UInt8) : Bool := (ascii "m%").contains c

/-- `hh|h|ll|l|q|L|j|t` -/
def lengthModifiers : List Bytes := ["hh", "h", "ll", "l", "q", "L", "j", "t"].map ascii

def word (w : Bytes) : Pattern UInt8 := seqs (w.map fun c => .one (· == c))

section
variable {β : Type}

/-- A choice, of which the first is preferred. -/
def either (M N : Next UInt8 β → Next UInt8 β) (k : Next UInt8 β) : Next UInt8 β := fun g s => (M k g s).or (N k g s)

/-- `(hh|h|ll|l|q|L|j|t)?` -/
def lengthModifier (k : Next UInt8 β) : Next UInt8 β :=
  lengthModifiers.foldr (fun w => either (Pattern.group 6 (word w)).run) id k

/-- The pattern of a specification, of which group 1 is the whole. -/
def rxSplit (k : Next UInt8 β) : Next UInt8 β :=
  (Pattern.one (· == percent)).run <|
  (Pattern.group 2 (.many isFlag)).run <|
  either (Pattern.group 3 (.many isDigit)).run (Pattern.group 4 (.one (· == star))).run <|
  (Pattern.opt (.seq (.one (· == dot)) (.group 5 (.many isDigit)))).run <|
  lengthModifier <|
  either (Pattern.group 7 (.one isConversion)).run (Pattern.group 8 (.one isNonArgument)).run k

end

structure Match where
  position : ℕ
  length : ℕ
  groups : Groups UInt8

namespace Match

/-- `match.str` -/
def str (m : Match) (n : ℕ) : Bytes := (m.groups n).getD []

/-- Where the text goes on. -/
def stop (m : Match) : ℕ := m.position + m.length

/-- Whether it takes an argument. -/
def Converts (m : Match) : Prop := m.str 8 = []

instance (m : Match) : Decidable m.Converts := inferInstanceAs (Decidable (_ = _))

end Match

/-- The length of a match at the front of a text, and its groups. -/
def matchAt (s : Bytes) : Option (ℕ × Groups UInt8) :=
  rxSplit (fun g t => some (s.length - t.length, g)) (fun _ => none) s

/-- The matches of `std::sregex_iterator`, of which the first `skip` characters are no part. -/
def matchesFrom (skip position : ℕ) : Bytes → List Match
  | [] => []
  | c :: s =>
    match skip with
    | skip + 1 => matchesFrom skip (position + 1) s
    | 0 =>
      match matchAt (c :: s) with
      | some (length, groups) => ⟨position, length, groups⟩ :: matchesFrom (length - 1) (position + 1) s
      | none => matchesFrom 0 (position + 1) s

def allMatches (fmt : Bytes) : List Match := matchesFrom 0 0 fmt

/-! ## Parts -/

structure Part where
  conversion : UInt8 := 0
  pos : ℕ := 0
  flags : Bytes := []
  width : Option ℕ := none
  precision : Option ℕ := none
  tail : Bytes := []

/-- A conversion to `uint`, which has 32 bits. -/
def uint (n : ℕ) : ℕ := n % 2 ^ 32

/-- A difference of two `uint`. -/
def uintSub (m n : ℕ) : ℕ := uint (m + 2 ^ 32 - n)

def sizeOf (size : Bytes) : Option ℕ := if size = [] then none else some (uint (stoul 10 size))

/-- `optional_size`, unless `std::stoul` throws. -/
def optionalSize (size : Bytes) : Option (Option ℕ) := if stoul 10 size < 2 ^ 64 then some (sizeOf size) else none

/-- `nonarg_conversion`; `error` is the text of `errno`. -/
def nonargConversion (error : Bytes) (conversion : UInt8) : Bytes :=
  if conversion = 0x6d then error else if conversion = percent then [percent] else []

section
variable (error fmt : Bytes)

/-- The loop of `split_parts`, where `part` has what has been seen of the next part. -/
def splitFrom (part : Part) (next : ℕ) : List Match → Option (List Part)
  | [] => some [{ part with tail := part.tail ++ fmt.drop next }]
  | m :: ms =>
    let pos := uint m.position
    let tail := part.tail ++ (fmt.drop next).take (uintSub pos next)
    let next := uint (uint m.position + uint m.length)
    if m.Converts then do
      let width ← optionalSize (m.str 3)
      let precision ← optionalSize (m.str 5)
      let parts ← splitFrom
        { conversion := (m.str 7).headD 0, pos := pos, flags := m.str 2, width := width, precision := precision } next ms
      some ({ part with pos := pos, tail := tail } ::
        ((if m.str 4 = [] then [] else [{ conversion := star, pos := pos }]) ++ parts))
    else splitFrom { part with pos := pos, tail := tail ++ nonargConversion error ((m.str 8).headD 0) } next ms

/-- `split_parts`, unless it throws. -/
def splitParts : Option (List Part) := splitFrom error fmt {} 0 (allMatches fmt)

end

/-! ## Strings -/

def toUpper (b : UInt8) : UInt8 := if isLower b then b - 0x20 else b

/-- What the flags of a part set that matters for a string. -/
structure Modifiers where
  fill : UInt8 := 0x20
  left : Bool := false
  lower : Bool := false
  upper : Bool := false

def Modifiers.apply (modifiers : Modifiers) (flag : UInt8) : Modifiers :=
  if flag = 0x30 then { modifiers with fill := 0x30, left := false }
  else if flag = minus then { modifiers with left := true }
  else if flag = 0x5e then { modifiers with upper := true }
  else if flag = 0x2c then { modifiers with lower := true }
  else modifiers

/-- `std::setw` takes an `int`. -/
def setw (width : ℕ) : ℕ := if width < 2 ^ 31 then width else 0

/-- What `append` writes for a string under the conversion `s`. -/
def appendString (part : Part) (value : Bytes) : Bytes :=
  let modifiers := part.flags.foldl Modifiers.apply {}
  let value := if modifiers.lower then value.map toLower else if modifiers.upper then value.map toUpper else value
  let padding := List.replicate ((part.width.elim 0 setw) - value.length) modifiers.fill
  if modifiers.left then value ++ padding else padding ++ value

/-- The formatter, with what it has written and the parts from `parts_it` on. -/
structure State where
  stream : Bytes
  formatstring : Bytes
  rest : List Part

def State.append (f : State) (value : Bytes) : State :=
  match f.rest with
  | [] => f
  | part :: rest => { f with stream := f.stream ++ (appendString part value ++ part.tail), rest := rest }

def State.addTail (f : State) : Bytes :=
  match f.rest with
  | [] => f.stream
  | part :: _ => f.stream ++ f.formatstring.drop part.pos

/-- `Formatter::Formatter` -/
def start (fmt : Bytes) (parts : List Part) : State := ⟨(parts.head?.map Part.tail).getD [], fmt, parts.tail⟩

/-- `str::format`, unless it ends the program. -/
def format (error fmt : Bytes) (args : List Bytes) : Option Bytes :=
  (splitParts error fmt).map fun parts => (args.foldl State.append (start fmt parts)).addTail

/-! ## What is expected -/

/-- A format string with strings to be filled in only. -/
structure StringFormat where
  text : Bytes
  strings : ∀ m ∈ allMatches text, (m.Converts ∧ m.str 7 = [0x73] ∧ m.str 4 = []) ∨ m.str 8 = [percent]

/-- A conversion by itself. -/
def Match.part (m : Match) : Part :=
  { conversion := (m.str 7).headD 0, pos := m.position, flags := m.str 2, width := sizeOf (m.str 3), precision := sizeOf (m.str 5) }

theorem Match.part_pos (m : Match) : m.part.pos = m.position := rfl

theorem Match.part_tail (m : Match) : m.part.tail = [] := rfl

/-- What a conversion makes of its argument. -/
def Match.shown (m : Match) (value : Bytes) : Bytes := appendString m.part value

/-- The text from `next` on, with the arguments filled in. -/
def filled (fmt : Bytes) (next : ℕ) : List Match → List Bytes → Bytes
  | [], _ => fmt.drop next
  | m :: ms, args =>
    let literal := (fmt.drop next).take (m.position - next)
    if m.Converts then
      match args with
      | [] => literal ++ fmt.drop m.position
      | value :: args => literal ++ (m.shown value ++ filled fmt m.stop ms args)
    else literal ++ percent :: filled fmt m.stop ms args

/-- Every conversion that has an argument is replaced by it, and nothing is lost. -/
def Complete (error : Bytes) (fmt : StringFormat) (args : List Bytes) : Prop :=
  format error fmt.text args = some (filled fmt.text 0 (allMatches fmt.text) args)

/-! ## Positions -/

/-- Matches in order, none of which begins before the one before it has ended. -/
def Spaced (size : ℕ) : ℕ → List Match → Prop
  | _, [] => True
  | low, m :: ms => low ≤ m.position ∧ m.position < size ∧ (∀ m' ∈ ms, m.position < m'.position) ∧ Spaced size m.stop ms

theorem Spaced.mono {size low low' : ℕ} {ms : List Match} (h : Spaced size low ms) (hle : low' ≤ low) : Spaced size low' ms := by
  cases ms with
  | nil => trivial
  | cons m ms => exact ⟨hle.trans h.1, h.2⟩

theorem le_of_mem_matchesFrom {skip position : ℕ} {s : Bytes} {m : Match} (h : m ∈ matchesFrom skip position s) :
    position ≤ m.position := by
  induction s generalizing skip position with
  | nil => cases h
  | cons c s ih =>
    cases skip with
    | succ skip => exact (Nat.le_succ _).trans (ih h)
    | zero =>
      cases hmatch : matchAt (c :: s) with
      | none =>
        simp only [matchesFrom, hmatch] at h
        exact (Nat.le_succ _).trans (ih h)
      | some r =>
        simp only [matchesFrom, hmatch] at h
        rcases List.mem_cons.mp h with rfl | h
        · exact le_rfl
        · exact (Nat.le_succ _).trans (ih h)

theorem spaced_matchesFrom (skip position : ℕ) (s : Bytes) :
    Spaced (position + s.length) (position + skip) (matchesFrom skip position s) := by
  induction s generalizing skip position with
  | nil => trivial
  | cons c s ih =>
    have hsize : position + (c :: s).length = position + 1 + s.length := by
      rw [List.length_cons]
      omega
    rw [hsize]
    cases skip with
    | succ skip => exact (ih skip (position + 1)).mono (by omega)
    | zero =>
      cases hmatch : matchAt (c :: s) with
      | none =>
        simp only [matchesFrom, hmatch]
        exact (ih 0 (position + 1)).mono (by omega)
      | some r =>
        simp only [matchesFrom, hmatch]
        refine ⟨le_rfl, ?_, fun m' hm' => le_of_mem_matchesFrom hm', ?_⟩
        · show position < position + 1 + s.length
          omega
        · apply (ih (r.1 - 1) (position + 1)).mono
          show position + r.1 ≤ position + 1 + (r.1 - 1)
          omega

theorem spaced_allMatches (fmt : Bytes) : Spaced fmt.length 0 (allMatches fmt) := by
  have h := spaced_matchesFrom 0 0 fmt
  rwa [Nat.zero_add] at h

/-! ## What is written -/

/-- The position that the next part is recorded with. -/
def recorded (pos : ℕ) : List Match → ℕ
  | [] => pos
  | m :: ms => if m.Converts then m.position else recorded m.position ms

/-- The text from `next` on, as the formatter writes it. -/
def written (fmt : Bytes) (next : ℕ) : List Match → List Bytes → Bytes
  | [], _ => fmt.drop next
  | m :: ms, args =>
    let literal := (fmt.drop next).take (m.position - next)
    if m.Converts then
      match args with
      | [] => literal ++ fmt.drop (recorded m.position ms)
      | value :: args => literal ++ (m.shown value ++ written fmt m.stop ms args)
    else literal ++ percent :: written fmt m.stop ms args

/-- Specifications that end before positions need more than 32 bits. -/
def Fits (ms : List Match) : Prop := ∀ m ∈ ms, m.stop < 2 ^ 32

/-- Widths and precisions that `std::stoul` takes. -/
def Sized (ms : List Match) : Prop :=
  ∀ m ∈ ms, m.Converts → stoul 10 (m.str 3) < 2 ^ 64 ∧ stoul 10 (m.str 5) < 2 ^ 64

/-- What is written from some parts on, for some arguments. -/
def render (fmt : Bytes) : List Part → List Bytes → Bytes
  | [], _ => []
  | part :: _, [] => fmt.drop part.pos
  | part :: parts, value :: args => appendString part value ++ (part.tail ++ render fmt parts args)

theorem foldl_append (f : State) (args : List Bytes) :
    (args.foldl State.append f).addTail = f.stream ++ render f.formatstring f.rest args := by
  induction args generalizing f with
  | nil =>
    unfold State.addTail render
    cases hrest : f.rest <;> simp [hrest]
  | cons value args ih =>
    rw [List.foldl_cons, ih]
    unfold State.append
    cases hrest : f.rest with
    | nil => simp [hrest, render]
    | cons part rest => simp [render, List.append_assoc]

section
variable {fmt error : Bytes} {part : Part} {next : ℕ} {m : Match} {ms : List Match}

theorem uint_of_lt {n : ℕ} (h : n < 2 ^ 32) : uint n = n := Nat.mod_eq_of_lt h

theorem uintSub_of_le {a b : ℕ} (h : b ≤ a) (ha : a < 2 ^ 32) : uintSub a b = a - b := by
  unfold uintSub uint
  rw [show a + 2 ^ 32 - b = a - b + 2 ^ 32 by omega, Nat.add_mod_right]
  exact Nat.mod_eq_of_lt (by omega)

/-- The numbers of a part, where they are small enough. -/
theorem positions (hstop : m.stop < 2 ^ 32) (hnext : next ≤ m.position) :
    uint m.position = m.position ∧ uintSub (uint m.position) next = m.position - next ∧
      uint (uint m.position + uint m.length) = m.stop := by
  unfold Match.stop at hstop ⊢
  have hposition : uint m.position = m.position := uint_of_lt (by omega)
  have hlength : uint m.length = m.length := uint_of_lt (by omega)
  rw [hposition, hlength]
  exact ⟨rfl, uintSub_of_le hnext (by omega), uint_of_lt hstop⟩

theorem sized_cons (hm : m.Converts) : Sized (m :: ms) ↔
    (stoul 10 (m.str 3) < 2 ^ 64 ∧ stoul 10 (m.str 5) < 2 ^ 64) ∧ Sized ms := by
  unfold Sized
  simp [hm]

theorem sized_cons_of_not (hm : ¬ m.Converts) : Sized (m :: ms) ↔ Sized ms := by
  unfold Sized
  simp [hm]

theorem sized_of_splitFrom {parts : List Part} (h : splitFrom error fmt part next ms = some parts) : Sized ms := by
  induction ms generalizing part next parts with
  | nil => simp [Sized]
  | cons m ms ih =>
    unfold splitFrom at h
    dsimp only at h
    by_cases hm : m.Converts
    · rw [if_pos hm] at h
      simp only [Option.bind_eq_bind, Option.bind_eq_some_iff, optionalSize] at h
      obtain ⟨width, hwidth, precision, hprecision, parts', hparts, -⟩ := h
      split_ifs at hwidth hprecision with h3 h5
      exact (sized_cons hm).mpr ⟨⟨h3, h5⟩, ih hparts⟩
    · rw [if_neg hm] at h
      exact (sized_cons_of_not hm).mpr (ih h)

/-- A string to be filled in, or `%%`. -/
def Plain (m : Match) : Prop := (m.Converts ∧ m.str 7 = [0x73] ∧ m.str 4 = []) ∨ m.str 8 = [percent]

theorem Plain.nonarg (h : Plain m) (hm : ¬ m.Converts) : nonargConversion error ((m.str 8).headD 0) = [percent] := by
  rw [h.resolve_left fun h => hm h.1]
  rfl

theorem exists_splitFrom (error : Bytes) (part : Part) (hplain : ∀ m ∈ ms, Plain m) (hfits : Fits ms) (hspaced : Spaced fmt.length next ms) (hsized : Sized ms) :
    ∃ head parts, splitFrom error fmt part next ms = some (head :: parts) ∧ head.pos = recorded part.pos ms ∧
      (∀ value, appendString head value = appendString part value) ∧
      ∀ args, head.tail ++ render fmt parts args = part.tail ++ written fmt next ms args := by
  induction ms generalizing part next with
  | nil =>
    refine ⟨{ part with tail := part.tail ++ fmt.drop next }, [], rfl, rfl, fun _ => rfl, fun args => ?_⟩
    simp [render, written]
  | cons m ms ih =>
    obtain ⟨hm, hplain⟩ := List.forall_mem_cons.mp hplain
    obtain ⟨hstop, hfits⟩ := List.forall_mem_cons.mp hfits
    obtain ⟨hnext, -, -, hspaced⟩ := hspaced
    obtain ⟨hpos, hliteral, hgoes⟩ := positions hstop hnext
    unfold splitFrom
    dsimp only
    rw [hpos] at hliteral hgoes ⊢
    rw [hliteral, hgoes]
    by_cases hconverts : m.Converts
    · obtain ⟨⟨hwidth, hprecision⟩, hsized⟩ := (sized_cons hconverts).mp hsized
      have hstar : m.str 4 = [] := by
        rcases hm with hm | hm
        · exact hm.2.2
        · exact absurd (hconverts.symm.trans hm) (by simp)
      obtain ⟨head, parts, hsplit, hheadpos, hshown, hrender⟩ := ih m.part hplain hfits hspaced hsized
      unfold Match.part at hsplit
      rw [if_pos hconverts]
      simp only [optionalSize, if_pos hwidth, if_pos hprecision, Option.bind_eq_bind, Option.bind_some, hsplit, if_pos hstar,
        List.nil_append]
      refine ⟨_, _, rfl, ?_, fun _ => rfl, fun args => ?_⟩
      · rw [recorded, if_pos hconverts]
      · cases args with
        | nil => simp [render, written, hconverts, hheadpos, Match.part_pos]
        | cons value args =>
          rw [render, hrender, hshown]
          simp [written, hconverts, Match.shown, Match.part_tail]
    · rw [if_neg hconverts, hm.nonarg hconverts]
      obtain ⟨head, parts, hsplit, hheadpos, hshown, hrender⟩ :=
        ih { part with pos := m.position, tail := part.tail ++ (fmt.drop next).take (m.position - next) ++ [percent] }
          hplain hfits hspaced ((sized_cons_of_not hconverts).mp hsized)
      refine ⟨head, parts, hsplit, ?_, hshown, fun args => ?_⟩
      · rw [hheadpos, recorded, if_neg hconverts]
      · rw [hrender]
        simp [written, hconverts]

theorem lt_recorded {p q : ℕ} (h : ∀ m ∈ ms, p < m.position) (hne : ms ≠ []) : p < recorded q ms := by
  induction ms generalizing q with
  | nil => exact absurd rfl hne
  | cons m ms ih =>
    obtain ⟨hm, h⟩ := List.forall_mem_cons.mp h
    unfold recorded
    split_ifs
    · exact hm
    · by_cases hms : ms = []
      · rw [hms]
        exact hm
      · exact ih h hms

/-- No remainder of the text is another one. -/
theorem drop_recorded_iff {p : ℕ} (hp : p < fmt.length) (h : ∀ m ∈ ms, p < m.position) :
    fmt.drop (recorded p ms) = fmt.drop p ↔ ms = [] := by
  constructor
  · intro heq
    by_contra hne
    have hlt := lt_recorded (q := p) h hne
    rw [List.drop_eq_drop_iff] at heq
    omega
  · rintro rfl
    rfl

/-- How many arguments a format takes. -/
def conversions (ms : List Match) : ℕ := ms.countP fun m => decide m.Converts

theorem conversions_cons (hm : m.Converts) : conversions (m :: ms) = conversions ms + 1 := by simp [conversions, hm]

theorem conversions_cons_of_not (hm : ¬ m.Converts) : conversions (m :: ms) = conversions ms := by simp [conversions, hm]

/-- An argument for every conversion, or for all but one with which the specifications end. -/
def Enough (ms : List Match) (args : List Bytes) : Prop :=
  conversions ms ≤ args.length ∨ conversions ms = args.length + 1 ∧ ∀ m ∈ ms.getLast?, m.Converts

theorem enough_of_none (hm : m.Converts) : Enough (m :: ms) [] ↔ ms = [] := by
  unfold Enough
  rw [conversions_cons hm, List.length_nil]
  constructor
  · rintro (h | ⟨h, hlast⟩)
    · omega
    · by_contra hne
      have hmem := List.getLast_mem hne
      have hconverts : (ms.getLast hne).Converts := hlast _ (by simp [List.getLast?_cons, List.getLast?_eq_some_getLast hne])
      have hcount : 0 < conversions ms := List.countP_pos_iff.mpr ⟨_, hmem, by simpa using hconverts⟩
      omega
  · rintro rfl
    exact .inr ⟨rfl, by simpa using hm⟩

theorem enough_cons {value : Bytes} {args : List Bytes} (hm : m.Converts) : Enough (m :: ms) (value :: args) ↔ Enough ms args := by
  unfold Enough
  rw [conversions_cons hm, List.length_cons]
  cases ms with
  | nil => simp [conversions]
  | cons m' ms => simp [List.getLast?_cons_cons]

theorem enough_cons_of_not {args : List Bytes} (hm : ¬ m.Converts) : Enough (m :: ms) args ↔ Enough ms args := by
  unfold Enough
  rw [conversions_cons_of_not hm]
  cases ms with
  | nil => simp [conversions]
  | cons m' ms => simp [List.getLast?_cons_cons]

theorem written_eq_filled_iff {args : List Bytes} (hspaced : Spaced fmt.length next ms) :
    written fmt next ms args = filled fmt next ms args ↔ Enough ms args := by
  induction ms generalizing next args with
  | nil => simp [written, filled, Enough, conversions]
  | cons m ms ih =>
    obtain ⟨-, hsize, hbefore, hspaced⟩ := hspaced
    by_cases hm : m.Converts
    · cases args with
      | nil =>
        rw [enough_of_none hm, ← drop_recorded_iff hsize hbefore]
        simp only [written, filled, if_pos hm, List.append_cancel_left_eq]
      | cons value args =>
        rw [enough_cons hm, ← ih hspaced]
        simp only [written, filled, if_pos hm, List.append_cancel_left_eq]
    · rw [enough_cons_of_not hm, ← ih hspaced]
      simp only [written, filled, if_neg hm, List.append_cancel_left_eq, List.cons.injEq, true_and]

end

/-- When a format is filled in as it should be. -/
def Met (fmt : StringFormat) (args : List Bytes) : Prop :=
  Fits (allMatches fmt.text) ∧ Sized (allMatches fmt.text) ∧ Enough (allMatches fmt.text) args

theorem complete_iff {error : Bytes} {fmt : StringFormat} {args : List Bytes} (hfits : Fits (allMatches fmt.text))
    (hsized : Sized (allMatches fmt.text)) : Complete error fmt args ↔ Enough (allMatches fmt.text) args := by
  obtain ⟨head, parts, hsplit, -, -, hrender⟩ :=
    exists_splitFrom error {} fmt.strings hfits (spaced_allMatches fmt.text) hsized
  have hformat : format error fmt.text args = some (written fmt.text 0 (allMatches fmt.text) args) := by
    unfold format splitParts
    rw [hsplit, Option.map_some, foldl_append]
    exact congrArg some (hrender args)
  unfold Complete
  rw [hformat, Option.some.injEq]
  exact written_eq_filled_iff (spaced_allMatches fmt.text)

/-- A format is completed when its positions and sizes are small enough and no more than
a last conversion is missing an argument; with small positions, only then. -/
theorem format_complete_iff (error : Bytes) (fmt : StringFormat) (args : List Bytes) :
    (Met fmt args → Complete error fmt args) ∧ (Fits (allMatches fmt.text) → (Complete error fmt args ↔ Met fmt args)) := by
  have henough : Met fmt args → Complete error fmt args := fun ⟨hfits, hsized, h⟩ => (complete_iff hfits hsized).mpr h
  refine ⟨henough, fun hfits => ⟨fun h => ?_, henough⟩⟩
  obtain ⟨parts, hparts, -⟩ := Option.map_eq_some_iff.mp h
  have hsized := sized_of_splitFrom hparts
  exact ⟨hfits, hsized, (complete_iff hfits hsized).mp h⟩

def twoStrings : StringFormat := ⟨ascii "%s %s", by decide +kernel⟩

theorem two_strings_complete : Complete [] twoStrings [ascii "a"] :=
  (format_complete_iff [] twoStrings [ascii "a"]).1
    ⟨by unfold Fits; decide +kernel, by unfold Sized; decide +kernel, .inr ⟨by decide +kernel, by decide +kernel⟩⟩

/-- Only the second conversion is left of the text. -/
theorem two_strings_lost : ¬ Complete [] twoStrings [] := by
  unfold Complete
  decide +kernel

end Formatter

end CommonCore
