import CommonCore.JsonPlain

/-!
# Where a missing byte makes no difference

A byte 0xff that no tokenizer gets to is seen by neither input, and in a symbol
or in a string that is never closed both make an error, or the end, of it. Where
it is seen elsewhere but in a comment, no text is read by both inputs.
-/

namespace CommonCore

namespace Json

open Parsers Grammar

def scan (m : Mode) (p : Bytes) : Mode := p.foldl Mode.next m

@[simp] theorem scan_nil (m : Mode) : scan m [] = m := rfl

@[simp] theorem scan_cons (m : Mode) (b : UInt8) (p : Bytes) : scan m (b :: p) = scan (m.next b) p := rfl

/-- The tokenizer goes on with a character that does not belong to the token. -/
theorem scan_of_begin {m : Mode} {b : UInt8} (h : m.next b = begin b) (p : Bytes) :
    scan .start (b :: p) = scan m (b :: p) := by
  rw [scan_cons, scan_cons, h]
  rfl

/-! ## Tokens at the front of a text -/

theorem run_front {c : UInt8 → Bool} {m : Mode} (hm : ∀ b, m.next b = if c b then m else begin b) (p : Bytes) :
    (∃ token p', p'.length ≤ p.length ∧ scan .start p' = scan m p ∧
        ∀ t, takeRun c (p.map some ++ t) = (token, p'.map some ++ t)) ∨
      scan m p = m ∧ ∃ token, ∀ t, takeRun c (p.map some ++ t) = (token ++ (takeRun c t).1, (takeRun c t).2) := by
  induction p with
  | nil => exact .inr ⟨rfl, [], fun _ => rfl⟩
  | cons b p ih =>
    by_cases hb : c b = true
    · have hnext : m.next b = m := by rw [hm, if_pos hb]
      rw [scan_cons, hnext]
      rcases ih with ⟨token, p', hle, hscan, htake⟩ | ⟨hscan, token, htake⟩
      · refine .inl ⟨b :: token, p', Nat.le_succ_of_le hle, hscan, fun t => ?_⟩
        rw [List.map_cons, List.cons_append, takeRun, if_pos hb, htake]
      · refine .inr ⟨hscan, b :: token, fun t => ?_⟩
        rw [List.map_cons, List.cons_append, takeRun, if_pos hb, htake]
        rfl
    · have hnext : m.next b = begin b := by rw [hm, if_neg hb]
      refine .inl ⟨[], b :: p, Nat.le_refl _, scan_of_begin hnext p, fun t => ?_⟩
      rw [List.map_cons, List.cons_append, takeRun, if_neg hb]

theorem numeral_front (last : UInt8) (p : Bytes) :
    (∃ token p', p'.length ≤ p.length ∧ scan .start p' = scan (.number last) p ∧
        ∀ t, takeNumeral last (p.map some ++ t) = (token, p'.map some ++ t)) ∨
      ∃ last' token, scan (.number last) p = .number last' ∧
        ∀ t, takeNumeral last (p.map some ++ t) = (token ++ (takeNumeral last' t).1, (takeNumeral last' t).2) := by
  induction p generalizing last with
  | nil => exact .inr ⟨last, [], rfl, fun _ => rfl⟩
  | cons b p ih =>
    by_cases hb : isNumeral last b = true
    · have hnext : (Mode.number last).next b = .number b := if_pos hb
      rw [scan_cons, hnext]
      rcases ih b with ⟨token, p', hle, hscan, htake⟩ | ⟨last', token, hscan, htake⟩
      · refine .inl ⟨b :: token, p', Nat.le_succ_of_le hle, hscan, fun t => ?_⟩
        rw [List.map_cons, List.cons_append, takeNumeral, if_pos hb, htake]
      · refine .inr ⟨last', b :: token, hscan, fun t => ?_⟩
        rw [List.map_cons, List.cons_append, takeNumeral, if_pos hb, htake]
        rfl
    · have hnext : (Mode.number last).next b = begin b := if_neg hb
      refine .inl ⟨[], b :: p, Nat.le_refl _, scan_of_begin hnext p, fun t => ?_⟩
      rw [List.map_cons, List.cons_append, takeNumeral, if_neg hb]

theorem comment_front (p : Bytes) :
    (∃ p' : Bytes, p'.length ≤ p.length ∧ scan .start p' = scan .comment p ∧
        ∀ t, dropComment (p.map some ++ t) = p'.map some ++ t) ∨
      scan .comment p = .comment ∧ ∀ t, dropComment (p.map some ++ t) = dropComment t := by
  induction p with
  | nil => exact .inr ⟨rfl, fun _ => rfl⟩
  | cons b p ih =>
    by_cases hb : isVertical b = true
    · have hnext : Mode.comment.next b = .start := if_pos hb
      refine .inl ⟨p, Nat.le_succ _, by rw [scan_cons, hnext], fun t => ?_⟩
      rw [List.map_cons, List.cons_append, dropComment, if_pos hb]
    · have hnext : Mode.comment.next b = .comment := if_neg hb
      rw [scan_cons, hnext]
      rcases ih with ⟨p', hle, hscan, hdrop⟩ | ⟨hscan, hdrop⟩
      · refine .inl ⟨p', Nat.le_succ_of_le hle, hscan, fun t => ?_⟩
        rw [List.map_cons, List.cons_append, dropComment, if_neg hb, hdrop]
      · refine .inr ⟨hscan, fun t => ?_⟩
        rw [List.map_cons, List.cons_append, dropComment, if_neg hb, hdrop]

theorem body_front (q : UInt8) (escape : Bool) (p : Bytes) :
    (∃ string p', p'.length ≤ p.length ∧ scan .start p' = scan (.string q escape) p ∧
        ∀ t, takeBody q escape (p.map some ++ t) = (true, string, p'.map some ++ t)) ∨
      ∃ escape' string, scan (.string q escape) p = .string q escape' ∧ ∀ t, takeBody q escape (p.map some ++ t) =
        ((takeBody q escape' t).1, string ++ (takeBody q escape' t).2.1, (takeBody q escape' t).2.2) := by
  induction p generalizing escape with
  | nil => exact .inr ⟨escape, [], rfl, fun _ => rfl⟩
  | cons b p ih =>
    cases escape with
    | true =>
      rcases ih false with ⟨string, p', hle, hscan, hbody⟩ | ⟨escape', string, hscan, hbody⟩
      · refine .inl ⟨unescape b :: string, p', Nat.le_succ_of_le hle, hscan, fun t => ?_⟩
        rw [List.map_cons, List.cons_append, takeBody, hbody]
      · refine .inr ⟨escape', unescape b :: string, hscan, fun t => ?_⟩
        rw [List.map_cons, List.cons_append, takeBody, hbody]
        rfl
    | false =>
      by_cases hback : b = backslash
      · have hnext : (Mode.string q false).next b = .string q true := if_pos hback
        rw [scan_cons, hnext]
        rcases ih true with ⟨string, p', hle, hscan, hbody⟩ | ⟨escape', string, hscan, hbody⟩
        · refine .inl ⟨string, p', Nat.le_succ_of_le hle, hscan, fun t => ?_⟩
          rw [List.map_cons, List.cons_append, takeBody, if_pos hback, hbody]
        · refine .inr ⟨escape', string, hscan, fun t => ?_⟩
          rw [List.map_cons, List.cons_append, takeBody, if_pos hback, hbody]
      · by_cases hq : b = q
        · have hnext : (Mode.string q false).next b = .start := by
            rw [Mode.next, if_neg hback, if_pos hq]
          refine .inl ⟨[], p, Nat.le_succ _, by rw [scan_cons, hnext], fun t => ?_⟩
          rw [List.map_cons, List.cons_append, takeBody, if_neg hback, if_pos hq]
        · have hnext : (Mode.string q false).next b = .string q false := by
            rw [Mode.next, if_neg hback, if_neg hq]
          rw [scan_cons, hnext]
          rcases ih false with ⟨string, p', hle, hscan, hbody⟩ | ⟨escape', string, hscan, hbody⟩
          · refine .inl ⟨b :: string, p', Nat.le_succ_of_le hle, hscan, fun t => ?_⟩
            rw [List.map_cons, List.cons_append, takeBody, if_neg hback, if_neg hq, hbody]
          · refine .inr ⟨escape', b :: string, hscan, fun t => ?_⟩
            rw [List.map_cons, List.cons_append, takeBody, if_neg hback, if_neg hq, hbody]
            rfl

/-- What the first token takes of a text that goes on after its front: the front
ends in a token, and the mode is the one that it ends in. -/
def TakesAll (nearest : Bytes → Option Double) (m : Mode) (r : Codes → TokenPair × Codes) : Prop :=
  match m with
  | .start => ∀ t, r t = lex nearest t
  | .spaces => ∀ t, r t = lex nearest (takeRun isSpace t).2
  | .comment => ∀ t, r t = lex nearest (dropComment t)
  | .string q escape => ∃ string, ∀ t,
      r t = ((stringIndex (takeBody q escape t).1, .string (string ++ (takeBody q escape t).2.1)), (takeBody q escape t).2.2)
  | .number last => ∃ token, ∀ t, r t = (numeral nearest (token ++ (takeNumeral last t).1), (takeNumeral last t).2)
  | .symbol => ∃ token, ∀ t, r t =
      ((symbolMap.lookup (token ++ (takeRun isIdentifier t).1)).getD (.invalid, .none), (takeRun isIdentifier t).2)

theorem tokenIndexOf_ne_finish : ∀ b, tokenIndexOf b ≠ .finish := forall_byte (by decide +kernel)

/-- The first token ends in the front of a text, or takes all of it. -/
theorem lex_front (nearest : Bytes → Option Double) (p : Bytes) :
    (∃ tp p', tp.1 ≠ .finish ∧ scan .start p' = scan .start p ∧ ∀ t, lex nearest (p.map some ++ t) = (tp, p'.map some ++ t)) ∨
      TakesAll nearest (scan .start p) fun t => lex nearest (p.map some ++ t) := by
  induction hn : p.length using Nat.strong_induction_on generalizing p with
  | _ n ih =>
    subst hn
    cases p with
    | nil => exact .inr fun _ => rfl
    | cons b p =>
      have hlex (t : Codes) : lex nearest ((b :: p).map some ++ t) = lex nearest (some b :: (p.map some ++ t)) := rfl
      simp only [hlex, scan_cons, Mode.next, begin]
      cases hindex : tokenIndexOf b with
      | space =>
        have hskip (t : Codes) : lex nearest (some b :: t) = lex nearest (takeRun isSpace t).2 := by
          rw [lex, hindex]
        simp only [hskip]
        rcases run_front (c := isSpace) (m := .spaces) (fun _ => rfl) p with ⟨token, p', hle, hscan, htake⟩ | ⟨hscan, token, htake⟩
        · simp only [htake, ← hscan]
          exact ih p'.length (Nat.lt_succ_of_le hle) p' rfl
        · simp only [htake, hscan]
          exact .inr fun _ => rfl
      | lineComment =>
        have hskip (t : Codes) : lex nearest (some b :: t) = lex nearest (dropComment t) := by
          rw [lex, hindex]
        simp only [hskip]
        rcases comment_front p with ⟨p', hle, hscan, hdrop⟩ | ⟨hscan, hdrop⟩
        · simp only [hdrop, ← hscan]
          exact ih p'.length (Nat.lt_succ_of_le hle) p' rfl
        · simp only [hdrop, hscan]
          exact .inr fun _ => rfl
      | quotedString =>
        have hstring (t : Codes) : lex nearest (some b :: t) =
            ((stringIndex (takeBody b false t).1, .string (takeBody b false t).2.1), (takeBody b false t).2.2) := by
          rw [lex, hindex]
        simp only [hstring]
        rcases body_front b false p with ⟨string, p', -, hscan, hbody⟩ | ⟨escape, string, hscan, hbody⟩
        · exact .inl ⟨(.quotedString, .string string), p', by simp, hscan, fun t => by simp only [hbody]; rfl⟩
        · simp only [hscan]
          exact .inr ⟨string, fun t => by simp only [hbody]⟩
      | numeric =>
        have hnumeral (t : Codes) : lex nearest (some b :: t) =
            (numeral nearest (b :: (takeNumeral 0 t).1), (takeNumeral 0 t).2) := by
          rw [lex, hindex]
        simp only [hnumeral]
        rcases numeral_front 0 p with ⟨token, p', -, hscan, htake⟩ | ⟨last, token, hscan, htake⟩
        · refine .inl ⟨numeral nearest (b :: token), p', ?_, hscan, fun t => by simp only [htake]⟩
          rcases numeral_index nearest (b :: token) with h | h <;> simp [h]
        · simp only [hscan]
          exact .inr ⟨b :: token, fun t => by simp only [htake, List.cons_append]⟩
      | symbol =>
        have hsymbol (t : Codes) : lex nearest (some b :: t) =
            ((symbolMap.lookup (b :: (takeRun isIdentifier t).1)).getD (.invalid, .none), (takeRun isIdentifier t).2) := by
          rw [lex, hindex]
        simp only [hsymbol]
        rcases run_front (c := isIdentifier) (m := .symbol) (fun _ => rfl) p with
          ⟨token, p', -, hscan, htake⟩ | ⟨hscan, token, htake⟩
        · refine .inl ⟨(symbolMap.lookup (b :: token)).getD (.invalid, .none), p', ?_, hscan, fun t => by simp only [htake]⟩
          intro h
          exact absurd (h ▸ symbol_index (b :: token)) (by decide)
        · simp only [hscan]
          exact .inr ⟨b :: token, fun t => by simp only [htake, List.cons_append]⟩
      | finish => exact absurd hindex (tokenIndexOf_ne_finish b)
      | none | invalid | comma | colon | mapOpen | mapClose | listOpen | listClose | nullValue | bool =>
        refine .inl ⟨(_, .string [b]), p, ?_, rfl, fun t => by rw [lex, hindex]⟩
        simp

/-! ## A missing byte that fails -/

variable {nearest : Bytes → Option Double}

/-- A stream has a character here that no token begins with. -/
def Mode.breaks : Mode → Bool
  | .start | .spaces | .number _ | .symbol => true
  | .comment | .string .. => false

theorem lex_broken (t : Codes) : lex nearest (some 0xff :: t) = ((.none, .string [0xff]), t) := by
  have hindex : tokenIndexOf 0xff = .none := by decide
  rw [lex, hindex]

/-- The first token ends in the front of a text, where the rest has such a front
again, or it is none. -/
def Fails (nearest : Bytes → Option Double) (front : Bytes → Prop) (t : Codes) : Prop :=
  ∀ p, front p → (∃ tp p', tp.1 ≠ .finish ∧ front p' ∧ lex nearest (p.map some ++ t) = (tp, p'.map some ++ t)) ∨
    (lex nearest (p.map some ++ t)).1.1 = .none ∨ (lex nearest (p.map some ++ t)).1.1 = .invalid

theorem not_text_of_fails {front : Bytes → Prop} {t : Codes} (h : Fails nearest front t) {p : Bytes} (hp : front p)
    (v : Value) : ¬ (json nearest).Text (p.map some ++ t) v := by
  refine not_text_of_endless (D := fun l => ∃ p : Bytes, front p ∧ l = p.map some ++ t) ?_ ?_ ⟨p, hp, rfl⟩ v
  · rintro _ k _ ⟨p, hp, rfl⟩ ⟨htoken, rfl⟩
    rcases h p hp with ⟨tp, p', -, hp', hlex⟩ | hnone | hinvalid
    · exact ⟨p', hp', by rw [hlex]⟩
    · simp [tokenOf, hnone] at htoken
    · simp [tokenOf, hinvalid] at htoken
  · rintro _ ⟨p, hp, rfl⟩ hfinish
    have hfinish : (lex nearest (p.map some ++ t)).1.1 = .finish := hfinish
    rcases h p hp with ⟨tp, p', hne, -, hlex⟩ | hnone | hinvalid
    · exact hne (by rwa [hlex] at hfinish)
    · rw [hnone] at hfinish
      cases hfinish
    · rw [hinvalid] at hfinish
      cases hfinish

/-- A stream with a byte 0xff outside of strings and comments is not read. -/
theorem stream_fails (nearest : Bytes → Option Double) (t : Codes) :
    Fails nearest (fun p => (scan .start p).breaks = true) (some 0xff :: t) := by
  intro p hp
  rcases lex_front nearest p with ⟨tp, p', hne, hscan, hlex⟩ | hall
  · exact .inl ⟨tp, p', hne, (congrArg Mode.breaks hscan).trans hp, hlex _⟩
  · cases hmode : scan .start p with
    | comment | string => cases hmode ▸ hp
    | start =>
      rw [hmode] at hall
      have hbroken := (hall _).trans (lex_broken t)
      exact .inr (.inl (congrArg (·.1.1) hbroken))
    | spaces =>
      rw [hmode] at hall
      have hbroken := (hall (some 0xff :: t)).trans (lex_broken t)
      exact .inr (.inl (congrArg (·.1.1) hbroken))
    | number last =>
      rw [hmode] at hall
      obtain ⟨token, hall⟩ := hall
      have hstop : isNumeral last 0xff = false := by
        unfold isNumeral
        rfl
      have hrest : takeNumeral last (some 0xff :: t) = ([], some 0xff :: t) := by
        rw [takeNumeral, hstop]
        rfl
      refine .inl ⟨numeral nearest token, [], ?_, rfl, ?_⟩
      · rcases numeral_index nearest token with h | h <;> simp [h]
      · simpa [hrest] using hall (some 0xff :: t)
    | symbol =>
      rw [hmode] at hall
      obtain ⟨token, hall⟩ := hall
      have hrest : takeRun isIdentifier (some 0xff :: t) = ([], some 0xff :: t) := rfl
      refine .inl ⟨(symbolMap.lookup token).getD (.invalid, .none), [], ?_, rfl, ?_⟩
      · intro h
        exact absurd (h ▸ symbol_index token) (by decide)
      · simpa [hrest] using hall (some 0xff :: t)

/-- A string whose byte 0xff spoils a symbol is not read. -/
theorem string_fails (nearest : Bytes → Option Double) (t : Codes) :
    Fails nearest (fun p => scan .start p = .symbol) (none :: t) := by
  intro p hp
  rcases lex_front nearest p with ⟨tp, p', hne, hscan, hlex⟩ | hall
  · exact .inl ⟨tp, p', hne, hscan.trans hp, hlex _⟩
  · rw [hp] at hall
    obtain ⟨token, hall⟩ := hall
    have hspoilt : symbolMap.lookup (token ++ (takeRun isIdentifier (none :: t)).1) = none :=
      lookup_spoilt (.inl (by simp [takeRun]))
    refine .inr (.inr ?_)
    rw [show lex nearest (p.map some ++ none :: t) = _ from hall (none :: t), hspoilt]
    rfl

/-! ## A missing byte in a string -/

section
variable {q : UInt8} {escape : Bool} {t t' : Codes}

/-- Two texts that have a front in common, which ends in this mode. -/
def SameFront (m : Mode) (t t' l l' : Codes) : Prop :=
  ∃ p : Bytes, scan .start p = m ∧ l = p.map some ++ t ∧ l' = p.map some ++ t'

/-- The one ends in a string, up to which the other has the same tokens. -/
theorem sameFront_simulates (nearest : Bytes → Option Double) (hopen : (takeBody q escape t).1 = false) (t' : Codes) :
    Simulates (json nearest) (json nearest) (SameFront (.string q escape) t t') where
  lex := by
    rintro _ _ k _ ⟨p, hscan, rfl, rfl⟩ ⟨htoken, rfl⟩
    rcases lex_front nearest p with ⟨tp, p', -, hsame, hlex⟩ | hall
    · rw [hlex] at htoken
      exact ⟨p'.map some ++ t', ⟨by rw [hlex]; exact htoken, by rw [hlex]⟩, p', hsame.trans hscan, by rw [hlex], rfl⟩
    · rw [hscan] at hall
      obtain ⟨string, hall⟩ := hall
      rw [show lex nearest (p.map some ++ t) = _ from hall t, hopen] at htoken
      cases htoken
  ofText := rfl
  ofList := rfl
  ofMap := rfl

/-- At the end of the one, the other has what it makes of the string. -/
theorem lex_of_sameFront {l l' : Codes} (h : SameFront (.string q escape) t t' l l') (hfinish : (json nearest).finish l) :
    (lex nearest l').1.1 = stringIndex (takeBody q escape t').1 := by
  obtain ⟨p, hscan, rfl, rfl⟩ := h
  have hfinish : (lex nearest (p.map some ++ t)).1.1 = .finish := hfinish
  rcases lex_front nearest p with ⟨tp, p', hne, -, hlex⟩ | hall
  · exact absurd (by rwa [hlex] at hfinish) hne
  · rw [hscan] at hall
    obtain ⟨string, hall⟩ := hall
    exact congrArg (·.1.1) (hall t')

theorem text_of_unclosed {p : Bytes} (hscan : scan .start p = .string q escape) (hopen : (takeBody q escape t).1 = false)
    (hopen' : (takeBody q escape t').1 = false) {v : Value} (h : (json nearest).Text (p.map some ++ t) v) :
    (json nearest).Text (p.map some ++ t') v := by
  refine text_simulated (sameFront_simulates nearest hopen t') ?_ ⟨p, hscan, rfl, rfl⟩ h
  intro l l' hsame hfinish
  exact (lex_of_sameFront hsame hfinish).trans (by rw [hopen']; rfl)

theorem json_deterministic (nearest : Bytes → Option Double) : Deterministic (json nearest) := by
  rintro t k _ k' _ ⟨htoken, rfl⟩ ⟨htoken', rfl⟩
  exact ⟨Option.some.inj (htoken.symm.trans htoken'), rfl⟩

/-- A string after the value is too much. -/
theorem not_text_of_closed {p : Bytes} (hscan : scan .start p = .string q escape) (hopen : (takeBody q escape t).1 = false)
    (hclosed : (takeBody q escape t').1 = true) {v : Value} (h : (json nearest).Text (p.map some ++ t) v) (w : Value) :
    ¬ (json nearest).Text (p.map some ++ t') w := by
  rintro ⟨u, hw, hfinish⟩
  obtain ⟨u₁, hv, hend⟩ := h
  obtain ⟨u₂, hv', hsame⟩ := value_simulated (sameFront_simulates nearest hopen t') ⟨p, hscan, rfl, rfl⟩ hv
  obtain ⟨-, rfl⟩ := value_unique (json_deterministic nearest) hv' hw
  have hstring := lex_of_sameFront hsame hend
  rw [show (lex nearest u₂).1.1 = .finish from hfinish, hclosed] at hstring
  cases hstring

end

/-! ## The inputs -/

/-- The text before its first byte 0xff. -/
def shown (text : Bytes) : Bytes := text.takeWhile (· ≠ 0xff)

/-- A string ends in the text, after some of its characters. -/
def closes (quote : UInt8) (escape : Bool) (text : Bytes) : Bool := (takeBody quote escape (text.map some)).1

/-- No text that begins so has a value. -/
def Stuck (nearest : Bytes → Option Double) (p : Bytes) : Prop := ∀ rest v, ¬ Denotes nearest (p ++ rest) v

/-- There is no byte 0xff, or the reader fails before it gets there, or the first
is in a symbol or in a string that is not closed. -/
def Unseen (nearest : Bytes → Option Double) (text : Bytes) : Prop :=
  0xff ∉ text ∨ Stuck nearest (shown text) ∨
    match scan .start (shown text) with
    | .symbol => True
    | .string quote escape => closes quote escape (text.drop (shown text).length) = false
    | _ => False

theorem split_shown {text : Bytes} (h : 0xff ∈ text) :
    0xff ∉ shown text ∧ ∃ rest, text.drop (shown text).length = 0xff :: rest ∧ text = shown text ++ 0xff :: rest := by
  induction text with
  | nil => cases h
  | cons b s ih =>
    by_cases hb : b = 0xff
    · subst hb
      exact ⟨List.not_mem_nil, s, rfl, rfl⟩
    · have hshown : shown (b :: s) = b :: shown s := List.takeWhile_cons_of_pos (by simpa using hb)
      obtain ⟨hnot, rest, hdrop, hsplit⟩ := ih (List.mem_of_ne_of_mem (Ne.symm hb) h)
      rw [hshown]
      refine ⟨?_, rest, hdrop, congrArg (b :: ·) hsplit⟩
      rintro (_ | ⟨_, hmem⟩)
      · exact hb rfl
      · exact hnot hmem

theorem plain_append {p : Bytes} (hp : 0xff ∉ p) (m : Mode) (t : Bytes) : plain m (p ++ t) = p ++ plain (scan m p) t := by
  induction p generalizing m with
  | nil => rfl
  | cons b p ih =>
    have hb : b ≠ 0xff := fun hb => hp (hb ▸ List.mem_cons_self)
    rw [List.cons_append, plain_of_ne hb, ih fun h => hp (List.mem_cons_of_mem b h)]
    rfl

theorem codes_append {p : Bytes} (hp : 0xff ∉ p) (t : Bytes) :
    (p ++ t).map stringCode = p.map some ++ t.map stringCode := by
  rw [List.map_append]
  congr 1
  refine List.map_congr_left fun b hb => code_of_ne ?_
  rintro rfl
  exact hp hb

section
variable {p rest : Bytes} (hp : 0xff ∉ p)
include hp

theorem decoded_split (v : Value) : decoded nearest (p ++ 0xff :: rest) = .ok v ↔
    (json nearest).Text (p.map some ++ none :: rest.map stringCode) v := by
  rw [decoded_iff, codes_append hp]
  rfl

omit hp in
theorem readStream_split (v : Value) : readStream nearest (p ++ 0xff :: rest) = .ok v ↔
    (json nearest).Text (p.map some ++ some 0xff :: rest.map some) v := by
  rw [readStream_iff, List.map_append]
  rfl

/-- Neither input gets past the text that is shown. -/
theorem agree_of_stuck (h : Stuck nearest p) :
    SameResult (decoded nearest (p ++ 0xff :: rest)) (readStream nearest (p ++ 0xff :: rest)) := by
  intro v
  rw [decoded_plain, readStream_iff, plain_append hp]
  exact iff_of_false (h _ v) (h _ v)

theorem agree_of_symbol (h : scan .start p = .symbol) :
    SameResult (decoded nearest (p ++ 0xff :: rest)) (readStream nearest (p ++ 0xff :: rest)) := by
  intro v
  rw [decoded_split hp, readStream_split]
  exact iff_of_false (not_text_of_fails (string_fails nearest _) h v)
    (not_text_of_fails (stream_fails nearest _) (by rw [h]; rfl) v)

theorem agree_of_unclosed {q : UInt8} {escape : Bool} (h : scan .start p = .string q escape)
    (hopen : closes q escape (0xff :: rest) = false) :
    SameResult (decoded nearest (p ++ 0xff :: rest)) (readStream nearest (p ++ 0xff :: rest)) := by
  intro v
  have hbroken : (takeBody q escape (none :: rest.map stringCode)).1 = false := by cases escape <;> rfl
  rw [decoded_split hp, readStream_split]
  exact ⟨text_of_unclosed h hbroken hopen, text_of_unclosed h hopen hbroken⟩

/-- Seen by both inputs, but not in a comment, the byte is an error to one of them. -/
theorem not_both {m : Mode} (hm : scan .start p = m) (hcomment : m ≠ .comment)
    (hclosed : ∀ q escape, m = .string q escape → closes q escape (0xff :: rest) = true) (v w : Value) :
    ¬ (decoded nearest (p ++ 0xff :: rest) = .ok v ∧ readStream nearest (p ++ 0xff :: rest) = .ok w) := by
  rw [decoded_split hp, readStream_split]
  rintro ⟨hv, hw⟩
  by_cases hbreaks : m.breaks = true
  · exact not_text_of_fails (stream_fails nearest _) (show (scan .start p).breaks = true by rw [hm, hbreaks]) w hw
  · cases m with
    | start | spaces | number | symbol => exact hbreaks rfl
    | comment => exact hcomment rfl
    | string q escape =>
      have hbroken : (takeBody q escape (none :: rest.map stringCode)).1 = false := by cases escape <;> rfl
      exact not_text_of_closed hm hbroken (hclosed q escape rfl) hv w hw

end

/-- A string, and then one that a byte 0xff is in and that is not closed. -/
def unclosed : Bytes := [quote, 0xc3, 0xa9, quote, 0x20, quote, 0xff]

end Json

end CommonCore
