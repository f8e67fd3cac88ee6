import Mathlib.Algebra.Order.Ring.Nat

/-!
# String expansion

The expander of the Python library finds its tokens by regular expressions and
expands what stands in brackets by a call of its own. A closing bracket ends a
level whatever bracket opened it.
-/

namespace CommonCore

/-- A character of a Python string, which may be a surrogate. -/
abbrev PyChar := Fin 0x110000

abbrev PyText := List PyChar

def py (c : Char) : PyChar := Fin.ofNat 0x110000 c.toNat

def pyText (s : String) : PyText := s.toList.map py

namespace Expander

/-! ## Tokens -/

inductive Token
  | backslash
  | subexpression
  | subNested
  | subEnd
deriving DecidableEq

/-- `_end_tokens`. -/
def endTokens : List (PyText × PyChar) :=
  [([py '$', py '{'], py '}'), (pyText "$[", py ']'), (pyText "$(", py ')'),
    ([py '{'], py '}'), (pyText "[", py ']'), (pyText "(", py ')')]

def Opens (c : PyChar) : Prop := [c] ∈ endTokens.map Prod.fst

def Closes (c : PyChar) : Prop := c ∈ endTokens.map Prod.snd

instance (c : PyChar) : Decidable (Opens c) := inferInstanceAs (Decidable (_ ∈ _))

instance (c : PyChar) : Decidable (Closes c) := inferInstanceAs (Decidable (_ ∈ _))

/-- The token that a text begins with. Closing brackets are tokens only within
brackets, as the two regular expressions have it. -/
def tokenAt (nested : Bool) : PyText → Option (Token × PyText)
  | [] => none
  | c :: s =>
    if c = py '\\' then some (.backslash, [c])
    else if c = py '$' then
      match s with
      | [] => none
      | d :: _ => if Opens d then some (.subexpression, [c, d]) else none
    else if Opens c then some (.subNested, [c])
    else if nested = true ∧ Closes c then some (.subEnd, [c])
    else none

/-- `regexp.search`: what comes before the first token, and the token. -/
def search (nested : Bool) : PyText → Option (PyText × Token × PyText)
  | [] => none
  | c :: s =>
    match tokenAt nested (c :: s) with
    | some (group, token) => some ([], group, token)
    | none => (search nested s).map fun m => (c :: m.1, m.2)

/-! ## The state of the scan -/

/-- The text, parted at `pos`, and the lines that `instream` has left. -/
structure Scan where
  read : PyText
  rest : PyText
  instream : Option (List PyText)

inductive Raised
  | parseError (expression : PyText) (pos : Option ℕ) (reason : PyText)
  | eofError
  | nameError (name : String)
  | indexError
  | keyError
  | exhausted
deriving DecidableEq

/-- What an evaluation raises: a `ParseError`, or another exception by its text. -/
inductive EvalError
  | parseError (expression : PyText) (pos : Option ℕ) (reason : PyText)
  | other (reason : PyText)

namespace Scan

def text (s : Scan) : PyText := s.read ++ s.rest

def pos (s : Scan) : ℕ := s.read.length

def advance (s : Scan) (n : ℕ) : Scan := { s with read := s.read ++ s.rest.take n, rest := s.rest.drop n }

/-- All that may still be read. -/
def size (s : Scan) : ℕ := s.rest.length + ((s.instream.getD []).map List.length).sum

end Scan

def readLine : Option (List PyText) → Option (PyText × List PyText)
  | none | some [] => none
  | some (line :: lines) => if line = [] then none else some (line, lines)

/-! ## Escapes -/

/-- `\s` in a pattern for strings. -/
def isSpace (c : PyChar) : Bool :=
  (0x09 ≤ c.val && c.val ≤ 0x0d) || (0x1c ≤ c.val && c.val ≤ 0x20) || (0x2000 ≤ c.val && c.val ≤ 0x200a) ||
    c.val ∈ [0x85, 0xa0, 0x1680, 0x2028, 0x2029, 0x202f, 0x205f, 0x3000]

/-- How far `\s*(?:\n|$)` matches. -/
def eolMatch (s : PyText) : Option ℕ :=
  let space := s.takeWhile isSpace
  if space = s then some s.length
  else
    let line := space.reverse.dropWhile (· ≠ py '\n')
    if line = [] then none else some line.length

/-- The value of a hexadecimal digit, or 16. -/
def hexValue (c : PyChar) : ℕ :=
  if 0x30 ≤ c.val ∧ c.val ≤ 0x39 then c.val - 0x30
  else if 0x41 ≤ c.val ∧ c.val ≤ 0x46 then c.val - 0x37
  else if 0x61 ≤ c.val ∧ c.val ≤ 0x66 then c.val - 0x57
  else 16

/-- A number of so many digits at the front of a text. -/
def fixedNumber (base count : ℕ) (s : PyText) : Option ℕ :=
  let digits := s.take count
  if digits.length = count ∧ ∀ c ∈ digits, hexValue c < base then
    some (digits.foldl (fun n c => base * n + hexValue c) 0)
  else none

def escapeLetters : List (PyChar × ℕ) :=
  [(py '0', 0), (py 'a', 7), (py 'b', 8), (py 'n', 10), (py 'f', 12), (py 'r', 13), (py 't', 9), (py 'v', 11)]

/-- `_unescapeX`: the character and how many were read for it. -/
def unescapeX (s : PyText) : Option (PyChar × ℕ) :=
  match fixedNumber 8 3 s, s with
  | some n, _ => some (Fin.ofNat 0x110000 n, 3)
  | none, [] => none
  | none, c :: s =>
    match (if c = py 'x' then fixedNumber 16 2 s else none), escapeLetters.lookup c with
    | some n, _ => some (Fin.ofNat 0x110000 n, 3)
    | none, some n => some (Fin.ofNat 0x110000 n, 1)
    | none, none => none

/-- `_unescapeU`. -/
def unescapeU : PyText → Option ℕ
  | [] => none
  | c :: s => if c = py 'u' then fixedNumber 16 4 s else if c = py 'U' then fixedNumber 16 8 s else none

/-- `_unescape`. There is no `unichr` in Python 3. -/
def unescape (s : Scan) : Except Raised (PyText × Scan) :=
  match unescapeX s.rest, unescapeU s.rest, s.rest with
  | some (c, n), _, _ => .ok ([c], s.advance n)
  | none, some _, _ => .error (.nameError "unichr")
  | none, none, [] => .error .indexError
  | none, none, c :: _ => .ok ([c], s.advance 1)

/-- `_process_backslash`. -/
def processBackslash (s : Scan) : Except Raised (PyText × Scan) :=
  match eolMatch s.rest with
  | none => unescape s
  | some n =>
    let s := s.advance n
    if s.rest = [] then
      match readLine s.instream with
      | none => .error (.parseError s.text none (pyText "End of input while reading extended line"))
      | some (line, lines) => .ok ([], { s with rest := line, instream := some lines })
    else .ok ([], s)

/-! ## Expansion -/

/-- `_check_end`. -/
def checkEnd (s : Scan) (start : PyText) (endToken : Option PyChar) : Except Raised Unit :=
  match endTokens.lookup start, endToken with
  | none, _ => .error .keyError
  | some wanted, none =>
    .error (.parseError s.text (some s.pos) (pyText "Missing '" ++ [wanted] ++ pyText "' at end of line"))
  | some wanted, some c =>
    if c ≠ wanted then
      .error (.parseError s.text (some s.pos) (pyText "Expected '" ++ [wanted] ++ pyText "', not '" ++ [c] ++ pyText "'"))
    else .ok ()

section
-- the methods by their start token, with the substitutions
variable (evalMethods : PyText → PyText → Except EvalError (Option PyText))

/-- What `_process_subexpression` makes of its argument. -/
def evaluated (s : Scan) (start arg : PyText) : Except Raised PyText :=
  match evalMethods start arg with
  | .error (.parseError expression pos reason) => .error (.parseError expression pos reason)
  | .error (.other reason) => .error (.parseError s.text (some s.pos) reason)
  | .ok raw => .ok (raw.getD [])

/-- `_expandText`, with the parts found so far: the text, where the scan is and
the token that ended it. -/
def expandText : ℕ → Bool → PyText → Scan → Except Raised (PyText × Scan × Option PyChar)
  | 0, _, _, _ => .error .exhausted
  | fuel + 1, nested, parts, s =>
    match search nested s.rest with
    | none => .ok (parts ++ s.rest, s.advance s.rest.length, none)
    | some (intro, group, token) => do
      let parts := parts ++ intro
      let s := s.advance (intro.length + token.length)
      match group with
      | .subEnd => .ok (parts, s, token.getLast?)
      | .backslash =>
        let (arg, s) ← processBackslash s
        expandText fuel nested (parts ++ arg) s
      | .subNested =>
        let (arg, s, endToken) ← expandText fuel true [] s
        expandText fuel nested (parts ++ (token ++ arg ++ endToken.toList)) s
      | .subexpression =>
        let (arg, s, endToken) ← expandText fuel true [] s
        checkEnd s token endToken
        let arg ← evaluated evalMethods s token arg
        expandText fuel nested (parts ++ arg) s

/-- What is given to the expander: a string, a stream by its lines, or nothing. -/
inductive Input
  | text (template : PyText)
  | stream (lines : List PyText)
  | nothing

/-- `Expander.substitute`. -/
def substitute (input : Input) : Except Raised PyText := do
  let s : Scan ←
    match input with
    | .text template => .ok ⟨[], template, none⟩
    | .nothing => .ok ⟨[], [], none⟩
    | .stream lines =>
      match readLine (some lines) with
      | none => .error .eofError
      | some (line, lines) => .ok ⟨[], line, some lines⟩
  let (arg, _, _) ← expandText evalMethods (s.size + 1) false [] s
  .ok arg

end

/-! ## The end of every scan -/

section
variable {ε α β : Type}

@[simp]
theorem ok_bind (x : α) (f : α → Except ε β) : ((Except.ok x : Except ε α) >>= f) = f x := rfl

@[simp]
theorem error_bind (e : ε) (f : α → Except ε β) : ((Except.error e : Except ε α) >>= f) = .error e := rfl

end

theorem tokenAt_prefix {nested : Bool} {s : PyText} {group : Token} {token : PyText}
    (h : tokenAt nested s = some (group, token)) : token ≠ [] ∧ token <+: s := by
  cases s with
  | nil => simp [tokenAt] at h
  | cons c s =>
    cases s with
    | nil =>
      simp only [tokenAt] at h
      split_ifs at h <;> simp at h <;> obtain ⟨-, rfl⟩ := h <;> simp
    | cons d s =>
      simp only [tokenAt] at h
      split_ifs at h <;> simp at h <;> obtain ⟨-, rfl⟩ := h <;> simp

theorem search_prefix {nested : Bool} {s intro token : PyText} {group : Token}
    (h : search nested s = some (intro, group, token)) : token ≠ [] ∧ intro ++ token <+: s := by
  induction s generalizing intro with
  | nil => simp [search] at h
  | cons c s ih =>
    rw [search] at h
    cases hc : tokenAt nested (c :: s) with
    | some m =>
      simp only [hc, Option.some.injEq, Prod.mk.injEq] at h
      obtain ⟨rfl, rfl, rfl⟩ := h
      simpa using tokenAt_prefix hc
    | none =>
      simp only [hc, Option.map_eq_some_iff] at h
      obtain ⟨⟨intro', m⟩, hm, heq⟩ := h
      simp only [Prod.mk.injEq] at heq
      obtain ⟨rfl, rfl⟩ := heq
      have := ih hm
      simpa using this

theorem size_advance (s : Scan) (n : ℕ) : (s.advance n).size = s.size - min n s.rest.length := by
  simp only [Scan.size, Scan.advance, List.length_drop]
  omega

theorem size_advance_le (s : Scan) (n : ℕ) : (s.advance n).size ≤ s.size := by
  rw [size_advance]
  omega

theorem size_advance_lt {nested : Bool} {s : Scan} {intro token : PyText} {group : Token}
    (h : search nested s.rest = some (intro, group, token)) :
    (s.advance (intro.length + token.length)).size < s.size := by
  obtain ⟨hne, hp⟩ := search_prefix h
  have hlen := hp.length_le
  have hpos := List.length_pos_iff.2 hne
  have hsize : s.rest.length ≤ s.size := Nat.le_add_right _ _
  rw [List.length_append] at hlen
  rw [size_advance]
  omega

/-- A result that did not want for fuel and has read on. -/
def ReadsOn {α : Type} (s : Scan) (scan : α → Scan) (r : Except Raised α) : Prop :=
  r ≠ .error .exhausted ∧ ∀ x, r = .ok x → (scan x).size ≤ s.size

theorem unescape_readsOn (s : Scan) : ReadsOn s Prod.snd (unescape s) := by
  unfold unescape
  split <;> simp [ReadsOn, size_advance_le]

theorem processBackslash_readsOn (s : Scan) : ReadsOn s Prod.snd (processBackslash s) := by
  unfold processBackslash
  split
  · exact unescape_readsOn s
  rename_i n _
  by_cases hrest : (s.advance n).rest = []
  · simp only [hrest, if_true]
    cases hline : readLine (s.advance n).instream with
    | none => simp [ReadsOn]
    | some r =>
      obtain ⟨line, lines⟩ := r
      have hsame : (s.advance n).instream = some (line :: lines) := by
        unfold readLine at hline
        split at hline <;> simp at hline
        obtain ⟨-, rfl, rfl⟩ := hline
        assumption
      have := size_advance_le s n
      simp only [Scan.size, hrest, hsame, Option.getD_some, List.map_cons, List.sum_cons, List.length_nil] at this
      simp [ReadsOn, Scan.size] at this ⊢
      omega
  · simp [hrest, ReadsOn, size_advance_le]

section
variable (evalMethods : PyText → PyText → Except EvalError (Option PyText))

/-- With fuel for all that may be read, every text is scanned to an end. -/
theorem expandText_readsOn {fuel : ℕ} (nested : Bool) (parts : PyText) {s : Scan} (hf : s.size < fuel) :
    ReadsOn s (fun r => r.2.1) (expandText evalMethods fuel nested parts s) := by
  induction fuel generalizing nested parts s with
  | zero => omega
  | succ fuel ih =>
    unfold expandText
    cases hm : search nested s.rest with
    | none => simp [ReadsOn, size_advance_le]
    | some m =>
      obtain ⟨intro, group, token⟩ := m
      have hlt := size_advance_lt hm
      simp only
      generalize s.advance (intro.length + token.length) = s₁ at hlt
      -- the rest of the loop, from where a method has left the scan
      have hloop : ∀ (parts : PyText) (s₂ : Scan), s₂.size ≤ s₁.size →
          ReadsOn s (fun r => r.2.1) (expandText evalMethods fuel nested parts s₂) := by
        intro parts s₂ hs₂
        have h := ih nested parts (s := s₂) (by omega)
        exact ⟨h.1, fun r hr => Nat.le_trans (h.2 r hr) (by omega)⟩
      have hinner := ih true [] (s := s₁) (by omega)
      cases group with
      | subEnd => simp [ReadsOn, Nat.le_of_lt hlt]
      | backslash =>
        have hb := processBackslash_readsOn s₁
        cases hr : processBackslash s₁ with
        | error e => simpa [ReadsOn, hr] using hb.1
        | ok r => exact hloop _ _ (hb.2 r hr)
      | subNested =>
        cases hr : expandText evalMethods fuel true [] s₁ with
        | error e => simpa [ReadsOn, hr] using hinner.1
        | ok r => exact hloop _ _ (hinner.2 r hr)
      | subexpression =>
        cases hr : expandText evalMethods fuel true [] s₁ with
        | error e => simpa [ReadsOn, hr] using hinner.1
        | ok r =>
          obtain ⟨arg, s₂, endToken⟩ := r
          have hs₂ := hinner.2 _ hr
          cases hcheck : checkEnd s₂ token endToken with
          | error e =>
            have hne : e ≠ .exhausted := by
              unfold checkEnd at hcheck
              split at hcheck <;> try split_ifs at hcheck
              all_goals simp at hcheck
              all_goals simp [← hcheck]
            simpa [ReadsOn, hcheck] using hne
          | ok _ =>
            cases harg : evaluated evalMethods s₂ token arg with
            | error e =>
              have hne : e ≠ .exhausted := by
                unfold evaluated at harg
                split at harg <;> simp at harg <;> simp [← harg]
              simpa [ReadsOn, hcheck, harg] using hne
            | ok arg' => simpa [hcheck, harg] using hloop _ _ hs₂

theorem substitute_ne_exhausted (input : Input) : substitute evalMethods input ≠ .error .exhausted := by
  have hrun : ∀ s : Scan, (do
      let (arg, _, _) ← expandText evalMethods (s.size + 1) false [] s
      Except.ok arg) ≠ Except.error Raised.exhausted := by
    intro s
    have h := (expandText_readsOn evalMethods false [] (Nat.lt_succ_self s.size)).1
    cases hr : expandText evalMethods (s.size + 1) false [] s with
    | error e => simpa [hr] using h
    | ok r => simp
  cases input with
  | text template => exact hrun ⟨[], template, none⟩
  | nothing => exact hrun ⟨[], [], none⟩
  | stream lines =>
    unfold substitute
    cases hl : readLine (some lines) with
    | none => simp [hl]
    | some r => simpa [hl] using hrun ⟨[], r.1, some r.2⟩

end

/-! ## Plain and escaped text -/

/-- What a backslash takes from its meaning. -/
def Special (c : PyChar) : Prop := c = py '$' ∨ c = py '\\'

instance (c : PyChar) : Decidable (Special c) := inferInstanceAs (Decidable (_ ∨ _))

def escape : PyText → PyText
  | [] => []
  | c :: t => if Special c then py '\\' :: c :: escape t else c :: escape t

theorem escape_plain {s : PyText} (hs : ∀ c ∈ s, ¬ Special c) : escape s = s := by
  induction s with
  | nil => rfl
  | cons c s ih =>
    rw [escape, if_neg (hs c (by simp)), ih fun d hd => hs d (by simp [hd])]

/-- The first token of an escaped text: an escape, an opening bracket or, within
brackets, a closing one. -/
theorem search_escape (nested : Bool) (t : PyText) :
    search nested (escape t) = none ∧ escape t = t ∨
    ∃ u c t', t = u ++ c :: t' ∧
      (Special c ∧ search nested (escape t) = some (u, .backslash, [py '\\']) ∧
          escape t = u ++ py '\\' :: c :: escape t' ∨
        search nested (escape t) = some (u, .subNested, [c]) ∧ escape t = u ++ c :: escape t' ∨
        nested = true ∧ search nested (escape t) = some (u, .subEnd, [c]) ∧ escape t = u ++ c :: escape t') := by
  induction t with
  | nil => exact .inl ⟨rfl, rfl⟩
  | cons c t ih =>
    by_cases hc : Special c
    · refine .inr ⟨[], c, t, rfl, .inl ⟨hc, ?_, ?_⟩⟩ <;> simp [escape, hc, search, tokenAt]
    have hslash : c ≠ py '\\' := fun h => hc (.inr h)
    have hdollar : c ≠ py '$' := fun h => hc (.inl h)
    have hcons : escape (c :: t) = c :: escape t := by simp [escape, hc]
    by_cases hopen : Opens c
    · exact .inr ⟨[], c, t, rfl, .inr (.inl ⟨by simp [hcons, search, tokenAt, hslash, hdollar, hopen], by simp [hcons]⟩)⟩
    by_cases hclose : nested = true ∧ Closes c
    · refine .inr ⟨[], c, t, rfl, .inr (.inr ⟨hclose.1, ?_, by simp [hcons]⟩)⟩
      simp [hcons, search, tokenAt, hslash, hdollar, hopen, hclose]
    have hnone : tokenAt nested (c :: escape t) = none := by
      simp only [tokenAt, hslash, hdollar, hopen, hclose, if_false]
    rcases ih with ⟨hs, he⟩ | ⟨u, d, t', rfl, h⟩
    · exact .inl ⟨by simp [hcons, search, hnone, hs], by rw [hcons, he]⟩
    · refine .inr ⟨c :: u, d, t', rfl, ?_⟩
      rcases h with ⟨hd, hs, he⟩ | ⟨hs, he⟩ | ⟨hn, hs, he⟩
      · exact .inl ⟨hd, by simp [hcons, search, hnone, hs], by simp [hcons, he]⟩
      · exact .inr (.inl ⟨by simp [hcons, search, hnone, hs], by simp [hcons, he]⟩)
      · exact .inr (.inr ⟨hn, by simp [hcons, search, hnone, hs], by simp [hcons, he]⟩)

theorem advance_rest {s : Scan} {u v : PyText} (h : s.rest = u ++ v) {n : ℕ} (hn : n = u.length) :
    (s.advance n).rest = v := by
  simp [Scan.advance, h, hn]

theorem processBackslash_special {s : Scan} {c : PyChar} {t : PyText} (hc : Special c) (hs : s.rest = c :: t) :
    processBackslash s = .ok ([c], s.advance 1) := by
  have hplain : isSpace c = false ∧ ¬ hexValue c < 8 ∧ c ≠ py 'x' ∧ c ≠ py 'u' ∧ c ≠ py 'U' ∧
      escapeLetters.lookup c = none := by
    rcases hc with rfl | rfl <;> decide
  obtain ⟨hspace, hoctal, hx, hu, hU, hletter⟩ := hplain
  have heol : eolMatch (c :: t) = none := by
    simp [eolMatch, hspace]
  have hnumber : fixedNumber 8 3 (c :: t) = none := by
    simp [fixedNumber, hoctal]
  simp [processBackslash, heol, unescape, hs, unescapeX, unescapeU, hnumber, hx, hu, hU, hletter]

section
variable (evalMethods : PyText → PyText → Except EvalError (Option PyText))

/-- A level reads up to a closing bracket, where it is one within brackets, or to
the end of the text, and finds the text that was escaped. -/
theorem expandText_escape {fuel : ℕ} (nested : Bool) (parts : PyText) {t : PyText} {s : Scan} (hs : s.rest = escape t)
    (hf : t.length < fuel) : ∃ u e t' s', expandText evalMethods fuel nested parts s = .ok (parts ++ u, s', e) ∧
      s'.rest = escape t' ∧ t = u ++ e.toList ++ t' ∧ (e = none → t' = []) ∧ (nested = false → e = none) := by
  induction fuel generalizing nested parts t s with
  | zero => omega
  | succ fuel ih =>
    rcases search_escape nested t with ⟨hm, he⟩ | ⟨u, c, t', rfl, ⟨hc, hm, he⟩ | ⟨hm, he⟩ | ⟨hn, hm, he⟩⟩
    · refine ⟨t, none, [], s.advance t.length, ?_, ?_, by simp, by simp, by simp⟩
      · rw [expandText, hs, hm, he]
      · simp [Scan.advance, hs, he, escape]
    · have hrest := advance_rest (s := s) (n := u.length + 1) (u := u ++ [py '\\']) (v := c :: escape t')
        (by simp [hs, he]) (by simp)
      have hrest' := advance_rest (u := [c]) (v := escape t') hrest rfl
      obtain ⟨u', e, t'', s', hrun, hs', rfl, hnone, htop⟩ :=
        ih nested (parts ++ u ++ [c]) hrest' (by simp at hf; omega)
      refine ⟨u ++ [c] ++ u', e, t'', s', ?_, hs', by simp, hnone, htop⟩
      rw [expandText, hs, hm]
      simpa [processBackslash_special hc hrest] using hrun
    · have hrest := advance_rest (s := s) (n := u.length + 1) (u := u ++ [c]) (v := escape t')
        (by simp [hs, he]) (by simp)
      obtain ⟨u₁, e₁, t₁, s₁, hrun₁, hs₁, rfl, -, -⟩ :=
        ih true [] hrest (by simp at hf; omega)
      obtain ⟨u₂, e₂, t₂, s₂, hrun₂, hs₂, rfl, hnone, htop⟩ :=
        ih nested (parts ++ u ++ ([c] ++ u₁ ++ e₁.toList)) hs₁ (by simp at hf; omega)
      refine ⟨u ++ [c] ++ u₁ ++ e₁.toList ++ u₂, e₂, t₂, s₂, ?_, hs₂, by simp, hnone, htop⟩
      rw [expandText, hs, hm]
      simp only [List.append_assoc, List.cons_append, List.nil_append] at hrun₁ hrun₂
      simp [hrun₁, hrun₂]
    · have hrest := advance_rest (s := s) (n := u.length + 1) (u := u ++ [c]) (v := escape t')
        (by simp [hs, he]) (by simp)
      refine ⟨u, some c, t', _, ?_, hrest, by simp, by simp, by simp [hn]⟩
      rw [expandText, hs, hm]
      rfl

theorem substitute_text {s t : PyText} (hs : s = escape t) : substitute evalMethods (.text s) = .ok t := by
  have hlen : ∀ t : PyText, t.length ≤ (escape t).length := by
    intro t
    induction t with
    | nil => simp
    | cons c t ih =>
      rw [escape]
      split_ifs <;> simp <;> omega
  have hsize : t.length < (Scan.mk [] s none).size + 1 := by
    simp [Scan.size, hs]
    have := hlen t
    omega
  obtain ⟨u, e, t', s', hrun, -, rfl, hnone, htop⟩ :=
    expandText_escape evalMethods false [] (s := ⟨[], s, none⟩) hs hsize
  obtain rfl := htop rfl
  obtain rfl := hnone rfl
  simp at hrun
  simp [substitute, hrun]

/-- Text without `$` and backslash stays as it is, and escaped text becomes what
it stands for. -/
theorem substitute_plain_and_escaped :
    (∀ s, py '$' ∉ s → py '\\' ∉ s → substitute evalMethods (.text s) = .ok s) ∧
      ∀ t, substitute evalMethods (.text (escape t)) = .ok t := by
  refine ⟨fun s hdollar hslash => substitute_text evalMethods (escape_plain ?_).symm, fun t => substitute_text evalMethods rfl⟩
  rintro c hc (rfl | rfl)
  · exact hdollar hc
  · exact hslash hc

end

/-- A level that ends early, and another that does not end. -/
theorem substitute_plain_and_escaped_at :
    substitute (fun _ _ => .ok none) (.text (pyText "a) (b] [c")) = .ok (pyText "a) (b] [c") :=
  (substitute_plain_and_escaped _).1 _ (by decide) (by decide)

end Expander

end CommonCore
