import CommonCore.JsonInputs

/-!
# Bytes that a string does not show

What the reader makes of a byte 0xff in a string depends on where it stands. A
text without such bytes says the same: this is what the string reads as, and
the inputs agree if and only if that text has the value of the string
(`inputs_agree_iff`).
-/

namespace CommonCore

namespace Json

open Parsers Grammar

/-- Where the tokenizer is in a text. -/
inductive Mode
  | start
  | spaces
  | comment
  | string (quote : UInt8) (escape : Bool)
  | number (last : UInt8)
  | symbol

def begin (b : UInt8) : Mode :=
  match tokenIndexOf b with
  | .space => .spaces
  | .lineComment => .comment
  | .quotedString => .string b false
  | .numeric => .number 0
  | .symbol => .symbol
  | _ => .start

def Mode.next : Mode → UInt8 → Mode
  | .start, b => begin b
  | .spaces, b => if isSpace b then .spaces else begin b
  | .comment, b => if isVertical b then .start else .comment
  | .string quote true, _ => .string quote false
  | .string quote false, b =>
    if b = backslash then .string quote true else if b = quote then .start else .string quote false
  | .number last, b => if isNumeral last b then .number b else begin b
  | .symbol, b => if isIdentifier b then .symbol else begin b

def emptyComment : Bytes := [0x23, 0x0a]

/-- The text as a string shows it. A byte 0xff ends it before a token and in a
string, spoils a symbol, and is skipped elsewhere. -/
def plain : Mode → Bytes → Bytes
  | _, [] => []
  | m, b :: s =>
    if b = 0xff then
      match m with
      | .start | .string _ _ => []
      | .symbol => 0x5f :: plain .symbol s
      | .spaces | .number _ | .comment => emptyComment ++ plain .start s
    else b :: plain (m.next b) s

theorem plain_of_ne {b : UInt8} (hb : b ≠ 0xff) (m : Mode) (s : Bytes) : plain m (b :: s) = b :: plain (m.next b) s :=
  if_neg hb

theorem plain_eq_self {s : Bytes} (hs : 0xff ∉ s) (m : Mode) : plain m s = s := by
  induction s generalizing m with
  | nil => rfl
  | cons b s ih =>
    have hb : b ≠ 0xff := fun hb => hs (hb ▸ List.mem_cons_self)
    rw [plain_of_ne hb, ih fun h => hs (List.mem_cons_of_mem b h)]

theorem code_of_ne {b : UInt8} (hb : b ≠ 0xff) : stringCode b = some b := if_neg hb

theorem code_missing : stringCode 0xff = none := rfl

variable {nearest : Bytes → Option Double}

theorem lex_emptyComment (l : Codes) : lex nearest (emptyComment.map some ++ l) = lex nearest l := by
  have hindex : tokenIndexOf 0x23 = .lineComment := by decide
  have hend : isVertical 0x0a = true := by decide
  show lex nearest (some 0x23 :: some 0x0a :: l) = _
  rw [lex, hindex]
  simp only [dropComment, hend, if_true]

/-! ## One token -/

/-- What a string shows, and a text that reads as its plain text. -/
def Plain (nearest : Bytes → Option Double) (l l' : Codes) : Prop :=
  ∃ s : Bytes, l = s.map stringCode ∧ lex nearest l' = lex nearest ((plain .start s).map some)

variable (nearest) in
theorem spaces_plain (s : Bytes) :
    ∃ s₂ : Bytes, s₂.length ≤ s.length ∧ (takeRun isSpace (s.map stringCode)).2 = s₂.map stringCode ∧
      lex nearest (takeRun isSpace ((plain .spaces s).map some)).2 = lex nearest ((plain .start s₂).map some) := by
  induction s with
  | nil => exact ⟨[], Nat.le_refl _, rfl, rfl⟩
  | cons b s ih =>
    by_cases hb : b = 0xff
    · subst hb
      exact ⟨s, Nat.le_succ _, rfl, lex_emptyComment _⟩
    · rw [List.map_cons, code_of_ne hb, plain_of_ne hb, List.map_cons, takeRun, takeRun]
      by_cases hspace : isSpace b = true
      · obtain ⟨s₂, hle, hrest, hlex⟩ := ih
        refine ⟨s₂, Nat.le_succ_of_le hle, ?_, ?_⟩
        · rwa [if_pos hspace]
        · rwa [if_pos hspace, Mode.next, if_pos hspace]
      · refine ⟨b :: s, Nat.le_refl _, ?_, ?_⟩
        · rw [if_neg hspace, List.map_cons, code_of_ne hb]
        · rw [if_neg hspace, Mode.next, if_neg hspace, plain_of_ne hb]
          rfl

theorem comment_plain (s : Bytes) :
    ∃ s₂ : Bytes, s₂.length ≤ s.length ∧ dropComment (s.map stringCode) = s₂.map stringCode ∧
      dropComment ((plain .comment s).map some) = (plain .start s₂).map some := by
  induction s with
  | nil => exact ⟨[], Nat.le_refl _, rfl, rfl⟩
  | cons b s ih =>
    by_cases hb : b = 0xff
    · subst hb
      exact ⟨s, Nat.le_succ _, rfl, rfl⟩
    · rw [List.map_cons, code_of_ne hb, plain_of_ne hb, List.map_cons, dropComment, dropComment]
      by_cases hend : isVertical b = true
      · refine ⟨s, Nat.le_succ _, ?_, ?_⟩
        · rw [if_pos hend]
        · rw [if_pos hend, Mode.next, if_pos hend]
      · obtain ⟨s₂, hle, hrest, hplain⟩ := ih
        refine ⟨s₂, Nat.le_succ_of_le hle, ?_, ?_⟩
        · rwa [if_neg hend]
        · rwa [if_neg hend, Mode.next, if_neg hend]

theorem body_plain (q : UInt8) (escape : Bool) (s : Bytes) :
    (takeBody q escape (s.map stringCode)).1 = (takeBody q escape ((plain (.string q escape) s).map some)).1 ∧
      (takeBody q escape (s.map stringCode)).2.1 = (takeBody q escape ((plain (.string q escape) s).map some)).2.1 ∧
      ((takeBody q escape (s.map stringCode)).1 = true → ∃ s₂ : Bytes,
        (takeBody q escape (s.map stringCode)).2.2 = s₂.map stringCode ∧
          (takeBody q escape ((plain (.string q escape) s).map some)).2.2 = (plain .start s₂).map some) := by
  induction s generalizing escape with
  | nil => exact ⟨rfl, rfl, nofun⟩
  | cons b s ih =>
    by_cases hb : b = 0xff
    · subst hb
      cases escape <;> exact ⟨rfl, rfl, nofun⟩
    · rw [List.map_cons, code_of_ne hb, plain_of_ne hb, List.map_cons]
      cases escape with
      | true =>
        obtain ⟨hclosed, hstring, hrest⟩ := ih false
        exact ⟨hclosed, congrArg (unescape b :: ·) hstring, hrest⟩
      | false =>
        rw [takeBody, takeBody, Mode.next]
        by_cases hback : b = backslash
        · simp only [if_pos hback]
          exact ih true
        · by_cases hq : b = q
          · simp only [if_neg hback, if_pos hq]
            exact ⟨trivial, trivial, fun _ => ⟨s, rfl, rfl⟩⟩
          · simp only [if_neg hback, if_neg hq]
            obtain ⟨hclosed, hstring, hrest⟩ := ih false
            exact ⟨hclosed, congrArg (b :: ·) hstring, hrest⟩

theorem symbol_plain (s : Bytes) :
    ((takeRun isIdentifier (s.map stringCode)).1 = (takeRun isIdentifier ((plain .symbol s).map some)).1 ∧
        ∃ s₂ : Bytes, (takeRun isIdentifier (s.map stringCode)).2 = s₂.map stringCode ∧
          (takeRun isIdentifier ((plain .symbol s).map some)).2 = (plain .start s₂).map some) ∨
      (0xff ∈ (takeRun isIdentifier (s.map stringCode)).1 ∧
        0x5f ∈ (takeRun isIdentifier ((plain .symbol s).map some)).1) := by
  induction s with
  | nil => exact .inl ⟨rfl, [], rfl, rfl⟩
  | cons b s ih =>
    by_cases hb : b = 0xff
    · subst hb
      have hletter : isIdentifier 0x5f = true := by decide
      refine .inr ⟨List.mem_cons_self, ?_⟩
      show _ ∈ (takeRun isIdentifier (some 0x5f :: _)).1
      rw [takeRun, if_pos hletter]
      exact List.mem_cons_self
    · rw [List.map_cons, code_of_ne hb, plain_of_ne hb, List.map_cons, takeRun, takeRun, Mode.next]
      by_cases hletter : isIdentifier b = true
      · simp only [if_pos hletter]
        rcases ih with ⟨htoken, s₂, hrest, hplain⟩ | ⟨hmissing, hspoilt⟩
        · exact .inl ⟨congrArg (b :: ·) htoken, s₂, hrest, hplain⟩
        · exact .inr ⟨List.mem_cons_of_mem _ hmissing, List.mem_cons_of_mem _ hspoilt⟩
      · simp only [if_neg hletter]
        refine .inl ⟨trivial, b :: s, ?_, ?_⟩
        · rw [List.map_cons, code_of_ne hb]
        · rw [plain_of_ne hb]
          rfl

variable (nearest) in
theorem numeral_plain (last : UInt8) (s : Bytes) :
    ((takeNumeral last (s.map stringCode)).1 = (takeNumeral last ((plain (.number last) s).map some)).1 ∨
        (takeNumeral last (s.map stringCode)).1 = (takeNumeral last ((plain (.number last) s).map some)).1 ++ [0xff]) ∧
      Plain nearest (takeNumeral last (s.map stringCode)).2 (takeNumeral last ((plain (.number last) s).map some)).2 := by
  induction s generalizing last with
  | nil => exact ⟨.inl rfl, [], rfl, rfl⟩
  | cons b s ih =>
    by_cases hb : b = 0xff
    · subst hb
      have hstop : isNumeral last 0x23 = false := by
        unfold isNumeral
        rfl
      have hplain : takeNumeral last ((plain (.number last) (0xff :: s)).map some) =
          ([], emptyComment.map some ++ (plain .start s).map some) := by
        show takeNumeral last (some 0x23 :: some 0x0a :: _) = _
        rw [takeNumeral, hstop]
        rfl
      rw [hplain]
      exact ⟨.inr rfl, s, rfl, lex_emptyComment _⟩
    · rw [List.map_cons, code_of_ne hb, plain_of_ne hb, List.map_cons, takeNumeral, takeNumeral, Mode.next]
      by_cases hnum : isNumeral last b = true
      · simp only [if_pos hnum]
        obtain ⟨htoken, hrest⟩ := ih b
        refine ⟨?_, hrest⟩
        rcases htoken with htoken | htoken
        · exact .inl (congrArg (b :: ·) htoken)
        · exact .inr (congrArg (b :: ·) htoken)
      · simp only [if_neg hnum]
        refine ⟨.inl trivial, b :: s, ?_, ?_⟩
        · rw [List.map_cons, code_of_ne hb]
        · rw [plain_of_ne hb]
          rfl

/-! ## Numbers -/

theorem takeWhile_missing {p : UInt8 → Bool} (hp : p 0xff = false) (t : Bytes) :
    (t ++ [0xff]).takeWhile p = t.takeWhile p := by
  induction t with
  | nil => simp [hp]
  | cons b t ih =>
    rw [List.cons_append, List.takeWhile_cons, List.takeWhile_cons, ih]

theorem dropWhile_missing {p : UInt8 → Bool} (hp : p 0xff = false) (t : Bytes) :
    (t ++ [0xff]).dropWhile p = t.dropWhile p ++ [0xff] := by
  induction t with
  | nil => simp [hp]
  | cons b t ih =>
    rw [List.cons_append, List.dropWhile_cons, List.dropWhile_cons, ih]
    split_ifs <;> rfl

theorem fromDigits_missing {base : ℕ} (hbase : base ≤ 36) (t : Bytes) :
    fromDigits base (t ++ [0xff]) = (fromDigits base t).map fun (n, rest) => (n, rest ++ [0xff]) := by
  have hp : isDigitIn base 0xff = false := by
    have hdigit : charDigit 0xff = 36 := by decide
    unfold isDigitIn
    rw [hdigit]
    exact decide_eq_false (Nat.not_lt.mpr hbase)
  have htake := takeWhile_missing hp t
  have hdrop := dropWhile_missing hp t
  unfold fromDigits
  simp only [htake, hdrop]
  split_ifs <;> rfl

theorem fromCharsUint_missing {base : ℕ} (hbase : base ≤ 36) (t : Bytes) :
    (fromCharsUint base (t ++ [0xff])).map Prod.fst = (fromCharsUint base t).map Prod.fst := by
  unfold fromCharsUint
  rw [fromDigits_missing hbase]
  cases fromDigits base t with
  | none => rfl
  | some r =>
    simp only [Option.map_some, Option.bind_some]
    split_ifs <;> rfl

theorem fromCharsSint_missing (t : Bytes) :
    (fromCharsSint 10 (minus :: t ++ [0xff])).map Prod.fst = (fromCharsSint 10 (minus :: t)).map Prod.fst := by
  unfold fromCharsSint
  rw [List.cons_append, List.head?_cons, List.head?_cons, if_pos rfl, if_pos rfl, List.tail_cons, List.tail_cons,
    fromDigits_missing (by decide)]
  cases fromDigits 10 t with
  | none => rfl
  | some r =>
    simp only [Option.map_some, Option.bind_some]
    split_ifs <;> rfl

theorem takeSign_missing {p : UInt8 → Bool} (hp : p 0xff = false) (t : Bytes) :
    takeSign p (t ++ [0xff]) = ((takeSign p t).1, (takeSign p t).2 ++ [0xff]) := by
  cases t with
  | nil => simp [takeSign, hp]
  | cons b t =>
    simp only [List.cons_append, takeSign]
    split_ifs <;> rfl

theorem takeFraction_missing (t : Bytes) :
    takeFraction (t ++ [0xff]) = ((takeFraction t).1, (takeFraction t).2 ++ [0xff]) := by
  have hdigit : isDigit 0xff = false := by decide
  cases t with
  | nil => rfl
  | cons b t =>
    simp only [List.cons_append, takeFraction, takeWhile_missing hdigit, dropWhile_missing hdigit]
    split_ifs <;> rfl

theorem takeExponent_missing (t : Bytes) :
    takeExponent (t ++ [0xff]) = ((takeExponent t).1, (takeExponent t).2 ++ [0xff]) := by
  have hdigit : isDigit 0xff = false := by decide
  cases t with
  | nil => rfl
  | cons b t =>
    simp only [List.cons_append, takeExponent, takeSign_missing (p := fun b => b == plus || b == minus) rfl,
      takeWhile_missing hdigit, dropWhile_missing hdigit]
    split_ifs <;> rfl

theorem takeReal_missing (t : Bytes) :
    takeReal (t ++ [0xff]) = (takeReal t).map fun (numeral, rest) => (numeral, rest ++ [0xff]) := by
  have hdigit : isDigit 0xff = false := by decide
  unfold takeReal
  simp only [takeSign_missing (p := (· == minus)) rfl, takeWhile_missing hdigit, dropWhile_missing hdigit,
    takeFraction_missing, takeExponent_missing]
  split_ifs <;> rfl

theorem takeWord_missing {w : Bytes} (hw : 0xff ∉ w) (t : Bytes) :
    takeWord w (t ++ [0xff]) = (takeWord w t).map (· ++ [0xff]) := by
  unfold takeWord
  rcases Nat.lt_or_ge t.length w.length with hlt | hle
  · have hlong : ((t ++ [0xff]).take w.length).map toLower ≠ w := by
      intro heq
      apply hw
      rw [List.take_of_length_le (by simpa using hlt)] at heq
      rw [← heq]
      simp [toLower, isUpper]
    have hshort : (t.take w.length).map toLower ≠ w := by
      intro heq
      have := congrArg List.length heq
      simp at this
      omega
    rw [if_neg hlong, if_neg hshort]
    rfl
  · rw [List.take_append_of_le_length hle, List.drop_append_of_le_length hle]
    split_ifs <;> rfl

theorem takeSpecial_missing (t : Bytes) : (takeSpecial (t ++ [0xff])).map Prod.fst = (takeSpecial t).map Prod.fst := by
  unfold takeSpecial
  simp only [takeSign_missing (p := (· == minus)) rfl, takeWord_missing (w := ascii "infinity") (by decide),
    takeWord_missing (w := ascii "inf") (by decide), takeWord_missing (w := ascii "nan") (by decide)]
  generalize takeWord (ascii "infinity") _ = x
  generalize takeWord (ascii "inf") _ = y
  generalize takeWord (ascii "nan") _ = z
  cases x <;> cases y <;> cases z <;> rfl

theorem fromCharsReal_missing (t : Bytes) :
    (fromCharsReal nearest (t ++ [0xff])).map Prod.fst = (fromCharsReal nearest t).map Prod.fst := by
  unfold fromCharsReal
  rw [takeReal_missing]
  cases takeReal t with
  | none => exact takeSpecial_missing t
  | some r =>
    obtain ⟨numeral, rest⟩ := r
    simp only [Option.map_some]
    cases nearest numeral <;> rfl

theorem parseNumeric_congr {T : Type} (value : T → Value) {a b : Option (T × Bytes)}
    (h : a.map Prod.fst = b.map Prod.fst) : parseNumeric value a = parseNumeric value b := by
  cases a with
  | none =>
    cases b with
    | none => rfl
    | some b => cases h
  | some a =>
    cases b with
    | none => cases h
    | some b => exact congrArg (fun n => (TokenIndex.numeric, value n)) (Option.some.inj h)

/-- What is missing after a number does not count. -/
theorem numeral_missing (b : UInt8) (t : Bytes) :
    numeral nearest (b :: t ++ [0xff]) = numeral nearest (b :: t) := by
  have hreal : isReal 0xff = false := by decide
  have hmark : isHexMark 0xff = false := by decide
  have hany : (b :: t ++ [0xff]).any isReal = (b :: t).any isReal := by simp [hreal]
  have hhex : (b :: t ++ [0xff]).any isHexMark = (b :: t).any isHexMark := by simp [hmark]
  unfold numeral numberOf
  rw [hany, hhex, List.cons_append, List.head?_cons, List.head?_cons, ← List.cons_append]
  split_ifs with hr hs hx
  · exact parseNumeric_congr _ (fromCharsReal_missing _)
  · obtain rfl : b = minus := by simpa using hs
    exact parseNumeric_congr _ (fromCharsSint_missing t)
  · exact parseNumeric_congr _ (fromCharsUint_missing (by decide) _)
  · exact parseNumeric_congr _ (fromCharsUint_missing (by decide) _)

/-! ## Texts -/

theorem lookup_spoilt {t : Bytes} (ht : 0xff ∈ t ∨ 0x5f ∈ t) : symbolMap.lookup t = none := by
  have hall : ∀ e ∈ symbolMap, 0xff ∉ e.1 ∧ 0x5f ∉ e.1 := by decide
  rw [List.lookup_eq_none_iff]
  intro e he
  obtain ⟨hmissing, hspoilt⟩ := hall e he
  rw [bne_iff_ne]
  rintro rfl
  exact ht.elim hmissing hspoilt

/-- A string and its plain text begin with one token. -/
structure SameToken (nearest : Bytes → Option Double) (x y : TokenPair × Codes) : Prop where
  token : tokenOf x.1 = tokenOf y.1
  finish : x.1.1 = .finish ↔ y.1.1 = .finish
  rest : tokenOf x.1 ≠ none → Plain nearest x.2 y.2

theorem plain_start (nearest : Bytes → Option Double) (s : Bytes) :
    Plain nearest (s.map stringCode) ((plain .start s).map some) := ⟨s, rfl, rfl⟩

theorem lex_plain (nearest : Bytes → Option Double) (s : Bytes) :
    SameToken nearest (lex nearest (s.map stringCode)) (lex nearest ((plain .start s).map some)) := by
  induction hn : s.length using Nat.strong_induction_on generalizing s with
  | _ n ih =>
    subst hn
    cases s with
    | nil => exact ⟨rfl, Iff.rfl, fun h => absurd (show tokenOf (lex nearest []).1 = none by rw [lex]; rfl) h⟩
    | cons b s =>
      by_cases hb : b = 0xff
      · subst hb
        rw [List.map_cons, code_missing, lex]
        show SameToken nearest _ (lex nearest [])
        rw [lex]
        exact ⟨rfl, Iff.rfl, fun h => absurd rfl h⟩
      · rw [List.map_cons, code_of_ne hb, plain_of_ne hb, List.map_cons, lex, lex, Mode.next, begin]
        cases hindex : tokenIndexOf b with
        | space =>
          obtain ⟨s₂, hle, hrest, hlex⟩ := spaces_plain nearest s
          simp only [hrest, hlex]
          exact ih s₂.length (Nat.lt_succ_of_le hle) s₂ rfl
        | lineComment =>
          obtain ⟨s₂, hle, hrest, hplain⟩ := comment_plain s
          simp only [hrest, hplain]
          exact ih s₂.length (Nat.lt_succ_of_le hle) s₂ rfl
        | quotedString =>
          obtain ⟨hclosed, hstring, hrest⟩ := body_plain b false s
          simp only [hclosed, hstring]
          refine ⟨rfl, Iff.rfl, fun htoken => ?_⟩
          have hend : (takeBody b false (s.map stringCode)).1 = true := by
            rw [hclosed]
            by_contra hopen
            simp [Bool.not_eq_true _ ▸ hopen, stringIndex, tokenOf] at htoken
          obtain ⟨s₂, hrest, hplain⟩ := hrest hend
          simp only [hrest, hplain]
          exact plain_start nearest s₂
        | numeric =>
          obtain ⟨htoken, hrest⟩ := numeral_plain nearest 0 s
          have hnumeral : numeral nearest (b :: (takeNumeral 0 (s.map stringCode)).1) =
              numeral nearest (b :: (takeNumeral 0 ((plain (.number 0) s).map some)).1) := by
            rcases htoken with htoken | htoken
            · rw [htoken]
            · rw [htoken]
              exact numeral_missing b _
          simp only [hnumeral]
          exact ⟨rfl, Iff.rfl, fun _ => hrest⟩
        | symbol =>
          rcases symbol_plain s with ⟨htoken, s₂, hrest, hplain⟩ | ⟨hmissing, hspoilt⟩
          · simp only [htoken, hrest, hplain]
            exact ⟨rfl, Iff.rfl, fun _ => plain_start nearest s₂⟩
          · simp only [lookup_spoilt (.inl (List.mem_cons_of_mem b hmissing)),
              lookup_spoilt (.inr (List.mem_cons_of_mem b hspoilt))]
            exact ⟨rfl, Iff.rfl, fun h => absurd rfl h⟩
        | _ => exact ⟨rfl, Iff.rfl, fun _ => plain_start nearest s⟩

theorem finish_plain {l l' : Codes} (h : Plain nearest l l') : (json nearest).finish l ↔ (json nearest).finish l' := by
  obtain ⟨s, rfl, hlex⟩ := h
  have hsame := lex_plain nearest s
  rw [← hlex] at hsame
  exact hsame.finish

theorem plain_simulates (nearest : Bytes → Option Double) :
    Simulates (json nearest) (json nearest) (Plain nearest) where
  lex := by
    rintro _ t' k _ ⟨s, rfl, hlex⟩ ⟨htoken, rfl⟩
    have hsame := lex_plain nearest s
    rw [← hlex] at hsame
    refine ⟨(lex nearest t').2, ⟨hsame.token.symm.trans htoken, rfl⟩, hsame.rest ?_⟩
    rw [htoken]
    nofun
  ofText := rfl
  ofList := rfl
  ofMap := rfl

theorem simulates_plain (nearest : Bytes → Option Double) :
    Simulates (json nearest) (json nearest) fun l' l => Plain nearest l l' where
  lex := by
    rintro t' _ k _ ⟨s, rfl, hlex⟩ ⟨htoken, rfl⟩
    have hsame := lex_plain nearest s
    rw [← hlex] at hsame
    have htoken' := hsame.token.trans htoken
    refine ⟨_, ⟨htoken', rfl⟩, hsame.rest ?_⟩
    rw [htoken']
    nofun
  ofText := rfl
  ofList := rfl
  ofMap := rfl

/-- The value of a text, each of its bytes read as it is. -/
def Denotes (nearest : Bytes → Option Double) (text : Bytes) (v : Value) : Prop :=
  (json nearest).Text (text.map some) v

theorem decoded_plain (text : Bytes) (v : Value) :
    decoded nearest text = .ok v ↔ Denotes nearest (plain .start text) v := by
  rw [decoded_iff]
  exact ⟨text_simulated (plain_simulates nearest) (fun h => (finish_plain h).mp) (plain_start nearest text),
    text_simulated (simulates_plain nearest) (fun h => (finish_plain h).mpr) (plain_start nearest text)⟩

/-- A string and a stream are read alike as long as the bytes that the string
does not show make no difference. -/
theorem inputs_agree_iff (nearest : Bytes → Option Double) (text : Bytes) :
    SameResult (decoded nearest text) (readStream nearest text) ↔
      ∀ v, Denotes nearest (plain .start text) v ↔ Denotes nearest text v := by
  unfold SameResult
  simp only [decoded_plain, readStream_iff]
  rfl

theorem inputs_agree_of_shown {text : Bytes} (h : 0xff ∉ text) (nearest : Bytes → Option Double) :
    SameResult (decoded nearest text) (readStream nearest text) := by
  apply (inputs_agree_iff nearest text).mpr
  intro v
  rw [plain_eq_self h]

end Json

end CommonCore
