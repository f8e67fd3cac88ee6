import CommonCore.JsonReader
import CommonCore.TokenGrammar

/-!
# The tokens of a text

What the tokenizer does over an input that shows a text, as functions of the
text. In a text a byte is missing where the input takes it for the end.
-/

namespace CommonCore

namespace Json

open Parsers

abbrev Codes := List (Option UInt8)

/-! ## Tokens -/

/-- A run of characters of a class. A missing byte ends it and goes with it. -/
def takeRun (p : UInt8 → Bool) : Codes → Bytes × Codes
  | [] => ([], [])
  | none :: l => ([0xff], l)
  | some b :: l => if p b then (b :: (takeRun p l).1, (takeRun p l).2) else ([], some b :: l)

def isReal (b : UInt8) : Bool := b == dot || isExponent b

def isNumeral (last b : UInt8) : Bool :=
  isDigit b || isReal b || isHexMark b || (isSign b && isExponent last)

def takeNumeral (last : UInt8) : Codes → Bytes × Codes
  | [] => ([], [])
  | none :: l => ([0xff], l)
  | some b :: l =>
    if isNumeral last b then (b :: (takeNumeral b l).1, (takeNumeral b l).2) else ([], some b :: l)

/-- The characters up to the closing quote, if there is one, and what follows. -/
def takeBody (quote : UInt8) : Bool → Codes → Bool × Bytes × Codes
  | _, [] => (false, [], [])
  | _, none :: l => (false, [], l)
  | true, some b :: l =>
    let (closed, string, rest) := takeBody quote false l
    (closed, unescape b :: string, rest)
  | false, some b :: l =>
    if b = backslash then takeBody quote true l
    else if b = quote then (true, [], l)
    else
      let (closed, string, rest) := takeBody quote false l
      (closed, b :: string, rest)

/-- A string that is not closed ends the input. -/
def stringIndex (closed : Bool) : TokenIndex := if closed then .quotedString else .finish

def dropComment : Codes → Codes
  | [] => []
  | none :: l => l
  | some b :: l => if isVertical b then l else dropComment l

def numeral (nearest : Bytes → Option Double) (token : Bytes) : TokenPair :=
  numberOf nearest (token.any isReal) (token.head? == some minus) (token.any isHexMark) token

theorem length_takeRun (p : UInt8 → Bool) (l : Codes) : (takeRun p l).2.length ≤ l.length := by
  fun_induction takeRun p l with
  | case1 => exact Nat.le_refl _
  | case2 l => exact Nat.le_succ _
  | case3 b l h ih => exact ih.trans (Nat.le_succ _)
  | case4 b l h => exact Nat.le_refl _

theorem length_dropComment (l : Codes) : (dropComment l).length ≤ l.length := by
  fun_induction dropComment l with
  | case1 => exact Nat.le_refl _
  | case2 l => exact Nat.le_succ _
  | case3 b l h => exact Nat.le_succ _
  | case4 b l h ih => exact ih.trans (Nat.le_succ _)

/-- The first token, and what follows it. -/
def lex (nearest : Bytes → Option Double) : Codes → TokenPair × Codes
  | [] => ((.finish, .none), [])
  | none :: l => ((.finish, .none), l)
  | some b :: l =>
    match tokenIndexOf b with
    | .space => lex nearest (takeRun isSpace l).2
    | .lineComment => lex nearest (dropComment l)
    | .quotedString =>
      let (closed, string, rest) := takeBody b false l
      ((stringIndex closed, .string string), rest)
    | .numeric => (numeral nearest (b :: (takeNumeral 0 l).1), (takeNumeral 0 l).2)
    | .symbol =>
      ((symbolMap.lookup (b :: (takeRun isIdentifier l).1)).getD (.invalid, .none), (takeRun isIdentifier l).2)
    | ti => ((ti, .string [b]), l)
termination_by l => l.length
decreasing_by
  · exact Nat.lt_succ_of_le (length_takeRun isSpace l)
  · exact Nat.lt_succ_of_le (length_dropComment l)

/-! ## Inputs that show a text -/

/-- What an input may return for a byte. -/
structure Code (b : UInt8) (c : Int) : Prop where
  toChar : toChar c = b
  ascii : b < 0x80 → c = b.toNat
  upper : 0x80 ≤ b → c < -1 ∨ 128 ≤ c

/-- `R s t l`: the state `s` has the token `t`, if that is known, and then the
text `l`. -/
structure Shows {σ : Type} (I : Input σ) (R : σ → Option Bytes → Codes → Prop) : Prop where
  unread : ∀ {s t l}, R s t l → l.length ≤ I.unread s
  forget : ∀ {s t l}, R s t l → R s none l
  token : ∀ {s t l}, R s (some t) l → I.token s = t
  finished : ∀ {s t}, R s t [] → (I.getc s).1 = eof ∧ R (I.getc s).2 t []
  finished_ungetc : ∀ {s t}, R s t [] → R (I.ungetc eof (I.getc s).2) t []
  missing : ∀ {s t l}, R s t (none :: l) → (I.getc s).1 = eof ∧ R (I.getc s).2 (t.map (· ++ [0xff])) l
  missing_ungetc : ∀ {s t l}, R s t (none :: l) → R (I.ungetc eof (I.getc s).2) (t.map (· ++ [0xff])) l
  code : ∀ {s t l b}, R s t (some b :: l) → Code b (I.getc s).1
  ungetc : ∀ {s t l b}, R s t (some b :: l) → R (I.ungetc (I.getc s).1 (I.getc s).2) t (some b :: l)
  appendToToken : ∀ {s t l b}, R s t (some b :: l) → R (I.appendToToken b (I.getc s).2) (t.map (· ++ [b])) l
  initToken : ∀ {s t l b}, R s t (some b :: l) → R (I.initToken b (I.getc s).2) (some [b]) l
  dropped : ∀ {s t l b}, R s t (some b :: l) → R (I.getc s).2 none l
  initToken_finished : ∀ {s b l}, R s none l → R (I.initToken b s) none l

/-- Classes of ASCII characters. -/
def Ascii (p : UInt8 → Bool) : Prop := ∀ b, p b = true → b < 0x80

theorem Code.isA {b : UInt8} {c : Int} (h : Code b c) {p : UInt8 → Bool} (hp : Ascii p) : isA p c = p b := by
  unfold Json.isA
  rw [h.toChar]
  by_cases hb : b < 0x80
  · have hlt : b.toNat < 128 := hb
    rw [h.ascii hb]
    simp
    omega
  · have hpb : p b = false := by
      rw [← Bool.not_eq_true]
      exact fun h => hb (hp b h)
    simp [hpb]

theorem Code.ne_eof {b : UInt8} {c : Int} (h : Code b c) : c ≠ eof := by
  by_cases hb : b < 0x80
  · rw [h.ascii hb]
    unfold eof
    omega
  · rcases h.upper (by simpa using hb) with h | h <;> (unfold eof; omega)

/-- The classes that the tokenizer looks for. -/
def classes : List (UInt8 → Bool) :=
  [isSpace, isVertical, isIdentifier, isDigit, isReal, isHexMark, isSign, (· == backslash)]

theorem upper_classes : ∀ b, 0x80 ≤ b → (classes.all fun p => !p b) = true ∧ tokenIndexOf b = .none :=
  forall_byte (by decide +kernel)

theorem ascii_class (i : Fin 8) : Ascii (classes.get i) := by
  intro b hb
  by_contra hge
  have hall := List.all_eq_true.mp (upper_classes b (UInt8.not_lt.mp hge)).1 _ (List.get_mem classes i)
  rw [hb] at hall
  cases hall

theorem ascii_isSpace : Ascii isSpace := ascii_class 0

theorem ascii_isVertical : Ascii isVertical := ascii_class 1

theorem ascii_isIdentifier : Ascii isIdentifier := ascii_class 2

theorem ascii_isDigit : Ascii isDigit := ascii_class 3

theorem ascii_isReal : Ascii fun b => b == dot || isExponent b := ascii_class 4

theorem ascii_isHexMark : Ascii isHexMark := ascii_class 5

theorem ascii_isSign : Ascii isSign := ascii_class 6

theorem ascii_backslash : Ascii (· == backslash) := ascii_class 7

/-- Each character of a numeral says one thing about it. -/
theorem numeral_classes : ∀ b,
    (isDigit b → isReal b = false ∧ isHexMark b = false) ∧ (isReal b → isHexMark b = false) ∧
      (isHexMark b → isReal b = false) ∧ (isSign b → isReal b = false ∧ isHexMark b = false) ∧
      (tokenIndexOf b = .numeric → isReal b = false ∧ isHexMark b = false ∧ (b == dot) = false) :=
  forall_byte (by decide +kernel)

theorem ascii_quote {q : UInt8} (hq : q < 0x80) : Ascii (· == q) := by
  intro b hb
  rwa [eq_of_beq hb]

theorem Code.tokenIndex {b : UInt8} {c : Int} (h : Code b c) : tokenIndex c = tokenIndexOf b := by
  have hupper : ∀ b, 0x80 ≤ b → tokenIndexOf b = .none := fun b hb => (upper_classes b hb).2
  unfold Json.tokenIndex
  rw [if_neg h.ne_eof, h.toChar]
  by_cases hb : b < 0x80
  · have hlt : b.toNat < 128 := hb
    rw [if_pos]
    rw [h.ascii hb]
    omega
  · have hge : 0x80 ≤ b := by simpa using hb
    rw [if_neg, hupper b hge]
    rcases h.upper hge with h | h <;> omega

/-! ## The loops -/

section
variable {σ : Type} {I : Input σ} {R : σ → Option Bytes → Codes → Prop} (hR : Shows I R)
include hR

theorem takeWhile_shows {p : UInt8 → Bool} (hp : Ascii p) {l : Codes} {s : σ} {t : Bytes} (h : R s (some t) l) :
    R (takeWhile I p s) (some (t ++ (takeRun p l).1)) (takeRun p l).2 := by
  induction l generalizing s t with
  | nil =>
    rw [takeWhile, (hR.finished h).1, dif_neg (by simp [isA, eof])]
    simpa [takeRun] using hR.finished_ungetc h
  | cons o l ih =>
    cases o with
    | none =>
      rw [takeWhile, (hR.missing h).1, dif_neg (by simp [isA, eof])]
      exact hR.missing_ungetc h
    | some b =>
      have hc := hR.code h
      rw [takeWhile, hc.isA hp]
      by_cases hb : p b = true
      · rw [dif_pos hb, hc.toChar]
        have := ih (hR.appendToToken h)
        simpa [takeRun, hb] using this
      · rw [dif_neg hb]
        simpa [takeRun, hb] using hR.ungetc h

theorem takeNumber_shows (last : UInt8) (gotReal gotHex : Bool) {l : Codes} {s : σ} {t : Bytes} (h : R s (some t) l) :
    (takeNumber I last gotReal gotHex s).1 = (gotReal || (takeNumeral last l).1.any isReal) ∧
      (takeNumber I last gotReal gotHex s).2.1 = (gotHex || (takeNumeral last l).1.any isHexMark) ∧
      R (takeNumber I last gotReal gotHex s).2.2 (some (t ++ (takeNumeral last l).1)) (takeNumeral last l).2 := by
  induction l generalizing s t last gotReal gotHex with
  | nil =>
    rw [takeNumber]
    simp only [(hR.finished h).1]
    simpa [takeNumeral] using hR.finished_ungetc h
  | cons o l ih =>
    cases o with
    | none =>
      have hreal : ([0xff] : Bytes).any isReal = false := by decide
      have hmark : ([0xff] : Bytes).any isHexMark = false := by decide
      rw [takeNumber]
      simp only [(hR.missing h).1, takeNumeral, hreal, hmark, Bool.or_false]
      exact ⟨rfl, rfl, hR.missing_ungetc h⟩
    | some b =>
      have hc := hR.code h
      have happ := hR.appendToToken h
      obtain ⟨hdigit, hreal, hhex, hsign, -⟩ := numeral_classes b
      have hclass : isA (fun b => b == dot || isExponent b) (I.getc s).1 = isReal b := hc.isA ascii_isReal
      rw [takeNumber]
      simp only [hc.toChar, hc.ne_eof, hc.isA ascii_isDigit, hclass, hc.isA ascii_isHexMark, hc.isA ascii_isSign,
        dif_neg, not_false_eq_true]
      have htake : isNumeral last b = (isDigit b || isReal b || isHexMark b || (isSign b && isExponent last)) := rfl
      by_cases hd : isDigit b = true
      · have := ih b gotReal gotHex happ
        simpa [takeNumeral, htake, hd, hdigit hd] using this
      · by_cases hr : isReal b = true
        · have := ih b true gotHex happ
          simpa [takeNumeral, htake, hd, hr, hreal hr] using this
        · by_cases hx : isHexMark b = true
          · have := ih b gotReal true happ
            simpa [takeNumeral, htake, hd, hr, hx] using this
          · by_cases hs : isSign b = true ∧ isExponent last = true
            · have := ih b gotReal gotHex happ
              simpa [takeNumeral, htake, hd, hr, hx, hs.1, hs.2] using this
            · have hstop : isNumeral last b = false := by
                rw [htake]
                simpa [hd, hr, hx] using hs
              simpa [takeNumeral, hstop, hd, hr, hx, hs] using hR.ungetc h

theorem takeString_shows {q : UInt8} (hq : q < 0x80) (escape : Bool) (string : Bytes) {l : Codes} {s : σ}
    (h : R s none l) :
    (takeString I q escape string s).1 =
        (stringIndex (takeBody q escape l).1, .string (string ++ (takeBody q escape l).2.1)) ∧
      R (takeString I q escape string s).2 none (takeBody q escape l).2.2 := by
  induction l generalizing s escape string with
  | nil =>
    rw [takeString]
    simpa [(hR.finished h).1, takeBody, stringIndex] using (hR.finished h).2
  | cons o l ih =>
    cases o with
    | none =>
      rw [takeString]
      simpa [(hR.missing h).1, takeBody, stringIndex] using (hR.missing h).2
    | some b =>
      have hc := hR.code h
      have happ : R (I.appendToToken b (I.getc s).2) none l := hR.appendToToken h
      rw [takeString]
      simp only [hc.toChar, hc.ne_eof, hc.isA ascii_backslash, hc.isA (ascii_quote hq), dif_neg, not_false_eq_true]
      cases escape with
      | true =>
        have := ih false (string ++ [unescape b]) happ
        simpa [takeBody] using this
      | false =>
        by_cases hb : b = backslash
        · have := ih true string happ
          simpa [takeBody, hb] using this
        · by_cases hbq : b = q
          · simpa [takeBody, hb, hbq, hbq ▸ hb, stringIndex] using happ
          · have := ih false (string ++ [b]) happ
            simpa [takeBody, hb, hbq] using this

theorem takeComment_shows {l : Codes} {s : σ} (h : R s none l) : R (takeComment I s) none (dropComment l) := by
  induction l generalizing s with
  | nil =>
    rw [takeComment, dif_pos (.inl (hR.finished h).1)]
    exact (hR.finished h).2
  | cons o l ih =>
    cases o with
    | none =>
      rw [takeComment, dif_pos (.inl (hR.missing h).1)]
      exact (hR.missing h).2
    | some b =>
      have hc := hR.code h
      rw [takeComment]
      simp only [hc.toChar, hc.ne_eof, hc.isA ascii_isVertical, false_or]
      by_cases hb : isVertical b = true
      · simpa [dropComment, hb] using hR.dropped h
      · simpa [dropComment, hb] using ih (hR.appendToToken h)

/-- Tokens with one index, and one value where it counts. -/
def Agree (a b : TokenPair) : Prop := a.1 = b.1 ∧ (a.1 ∈ valueMask → a.2 = b.2)

omit hR in
theorem nextToken_eq (nearest : Bytes → Option Double) (s : σ) :
    nextToken I nearest s =
      if (I.getc s).1 = 0 then ((.none, .none), (I.getc s).2)
      else
        let t := I.initToken (toChar (I.getc s).1) (I.getc s).2
        match tokenIndex (I.getc s).1 with
        | .space => nextToken I nearest (parseSpaces I t).2
        | .lineComment => nextToken I nearest (parseLineComment I t).2
        | .quotedString => parseString I (toChar (I.getc s).1) t
        | .numeric => parseNumber I nearest t
        | .symbol => parseSymbol I t
        | ti => ((ti, .string (I.token t)), t) := by
  rw [nextToken]
  split_ifs
  · rfl
  · generalize tokenIndex (I.getc s).1 = ti
    cases ti <;> rfl

theorem nextToken_of_byte (nearest : Bytes → Option Double) {l : Codes} {s : σ} {b : UInt8}
    (h : R s none (some b :: l)) (hb : b ≠ 0) :
    nextToken I nearest s =
      let t := I.initToken b (I.getc s).2
      match tokenIndexOf b with
      | .space => nextToken I nearest (parseSpaces I t).2
      | .lineComment => nextToken I nearest (parseLineComment I t).2
      | .quotedString => parseString I b t
      | .numeric => parseNumber I nearest t
      | .symbol => parseSymbol I t
      | ti => ((ti, .string [b]), t) := by
  have hc := hR.code h
  have hne : (I.getc s).1 ≠ 0 := by
    intro hzero
    rw [← hc.toChar, hzero] at hb
    exact hb rfl
  rw [nextToken_eq, if_neg hne, hc.tokenIndex, hc.toChar]
  simp only [hR.token (hR.initToken h)]

omit hR in
theorem quote_of_index {b : UInt8} (hb : tokenIndexOf b = .quotedString) : b < 0x80 := by
  by_contra hge
  rw [(upper_classes b (UInt8.not_lt.mp hge)).2] at hb
  cases hb

/-- The tokenizer finds the tokens of the text that its input shows. -/
theorem nextToken_shows (nearest : Bytes → Option Double) {l : Codes} {s : σ} (h : R s none l) :
    Agree (nextToken I nearest s).1 (lex nearest l).1 ∧ R (nextToken I nearest s).2 none (lex nearest l).2 := by
  fun_induction lex nearest l generalizing s with
  | case1 =>
    obtain ⟨heof, hrest⟩ := hR.finished h
    rw [nextToken_eq, heof, if_neg (by decide)]
    exact ⟨⟨rfl, nofun⟩, hR.initToken_finished hrest⟩
  | case2 l =>
    obtain ⟨heof, hrest⟩ := hR.missing h
    rw [nextToken_eq, heof, if_neg (by decide)]
    exact ⟨⟨rfl, nofun⟩, hR.initToken_finished hrest⟩
  | case3 b l hb ih =>
    rw [nextToken_of_byte hR nearest h (by rintro rfl; cases hb), hb]
    have hskip := takeWhile_shows hR ascii_isSpace (hR.initToken h)
    exact ih (hR.forget hskip)
  | case4 b l hb ih =>
    rw [nextToken_of_byte hR nearest h (by rintro rfl; cases hb), hb]
    exact ih (takeComment_shows hR (hR.forget (hR.initToken h)))
  | case5 b l hb closed string rest hbody =>
    rw [nextToken_of_byte hR nearest h (by rintro rfl; cases hb), hb]
    have hstring := takeString_shows hR (quote_of_index hb) false [] (hR.forget (hR.initToken h))
    rw [hbody] at hstring
    exact ⟨⟨congrArg Prod.fst hstring.1, fun _ => congrArg Prod.snd hstring.1⟩, hstring.2⟩
  | case6 b l hb =>
    rw [nextToken_of_byte hR nearest h (by rintro rfl; cases hb), hb]
    have hinit := hR.initToken h
    obtain ⟨hreal, hhex, hdot⟩ := (numeral_classes b).2.2.2.2 hb
    obtain ⟨hgotReal, hgotHex, hrest⟩ := takeNumber_shows hR 0 false false hinit
    have hfirst : (some b == some dot) = false := hdot
    have hparse : parseNumber I nearest (I.initToken b (I.getc s).2) =
        (numeral nearest (b :: (takeNumeral 0 l).1), (takeNumber I 0 false false (I.initToken b (I.getc s).2)).2.2) := by
      unfold parseNumber numeral
      simp only [hR.token hinit, List.head?_cons, hfirst, hR.token hrest, hgotReal, hgotHex]
      simp only [List.singleton_append, List.any_cons, hhex, hreal, Bool.false_or]
    simp only [hparse]
    exact ⟨⟨rfl, fun _ => rfl⟩, hR.forget hrest⟩
  | case7 b l hb =>
    rw [nextToken_of_byte hR nearest h (by rintro rfl; cases hb), hb]
    have hrest := takeWhile_shows hR ascii_isIdentifier (hR.initToken h)
    refine ⟨⟨?_, fun _ => ?_⟩, hR.forget hrest⟩ <;> (simp only [parseSymbol, hR.token hrest]; rfl)
  | case8 b l h₁ h₂ h₃ h₄ h₅ =>
    by_cases hb : b = 0
    · have hzero : (I.getc s).1 = 0 := by
        rw [(hR.code h).ascii (by rw [hb]; decide), hb]
        rfl
      rw [nextToken_eq, if_pos hzero, hb]
      have hnone : TokenIndex.none ∉ valueMask := by decide
      exact ⟨⟨rfl, fun hmem => absurd hmem hnone⟩, hR.dropped h⟩
    · rw [nextToken_of_byte hR nearest h hb]
      split
      · exact absurd ‹_› h₁
      · exact absurd ‹_› h₂
      · exact absurd ‹_› h₃
      · exact absurd ‹_› h₄
      · exact absurd ‹_› h₅
      · exact ⟨⟨rfl, fun _ => rfl⟩, hR.forget (hR.initToken h)⟩

end

end Json

end CommonCore
