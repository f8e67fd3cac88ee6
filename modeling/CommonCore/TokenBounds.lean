import CommonCore.TokenParser

/-!
# Where a token lies

The positions of `StringInput` have 64 bits and wrap around. They are followed
to each place where `TokenParser` reads the token.
-/

namespace CommonCore

namespace Parsers

/-- `std::string_view`, with a size of 64 bits. -/
structure StringView where
  data : Bytes
  size_lt : data.length < 2 ^ 64

/-- `StringInput` -/
structure Cursor where
  string : Bytes
  size_lt : string.length < 2 ^ 64
  pos : UInt64
  tokenPos : UInt64

namespace Cursor

def ofString (string : StringView) : Cursor := ⟨string.data, string.size_lt, 0, UInt64.ofNat string.data.length⟩

/-- What of the slice is in the text. -/
def token (s : Cursor) : Bytes := (s.string.drop s.tokenPos.toNat).take (s.pos - s.tokenPos).toNat

def getc (s : Cursor) : Int × Cursor :=
  match s.string[s.pos.toNat]? with
  | some b => (b.toInt8.toInt, { s with pos := s.pos + 1 })
  | none => (eof, s)

def ungetc (c : Int) (s : Cursor) : Cursor := if c ≠ eof then { s with pos := s.pos - 1 } else s

def initToken (s : Cursor) : Cursor := { s with tokenPos := s.pos - 1 }

def unread (s : Cursor) : ℕ := s.string.length - s.pos.toNat

/-- At the end nothing changes, and before it the position goes up by one. -/
theorem getc_cases (s : Cursor) :
    (s.getc = (eof, s) ∧ s.string.length ≤ s.pos.toNat) ∨
      ∃ b, s.string[s.pos.toNat]? = some b ∧ s.getc = (b.toInt8.toInt, { s with pos := s.pos + 1 }) ∧
        s.pos.toNat < s.string.length ∧ (s.pos + 1).toNat = s.pos.toNat + 1 := by
  unfold getc
  cases h : s.string[s.pos.toNat]? with
  | none => exact .inl ⟨rfl, List.getElem?_eq_none_iff.mp h⟩
  | some b =>
    have hlt := (List.getElem?_eq_some_iff.mp h).1
    have hsize := s.size_lt
    refine .inr ⟨b, rfl, rfl, hlt, ?_⟩
    rw [UInt64.toNat_add]
    exact Nat.mod_eq_of_lt (show s.pos.toNat + 1 < 2 ^ 64 by omega)

end Cursor

def cursorInput : Input Cursor where
  tokenPosition s := s.tokenPos.toNat
  token := Cursor.token
  getc := Cursor.getc
  ungetc := Cursor.ungetc
  initToken _ := Cursor.initToken
  appendToToken _ s := s
  unread := Cursor.unread
  unread_getc s hc := by
    rcases s.getc_cases with ⟨h, -⟩ | ⟨b, -, h, hlt, hpos⟩
    · rw [h] at hc
      exact absurd rfl hc
    · rw [h]
      show s.string.length - (s.pos + 1).toNat < s.string.length - s.pos.toNat
      omega
  unread_getc_le s := by
    rcases s.getc_cases with ⟨h, -⟩ | ⟨b, -, h, hlt, hpos⟩
    · rw [h]
    · rw [h]
      show s.string.length - (s.pos + 1).toNat ≤ s.string.length - s.pos.toNat
      omega
  unread_ungetc s := by
    rcases s.getc_cases with ⟨h, -⟩ | ⟨b, -, h, hlt, hpos⟩
    · rw [h]
      exact Nat.le_refl _
    · rw [h]
      unfold Cursor.ungetc
      split_ifs
      · show s.string.length - (s.pos + 1 - 1).toNat ≤ s.string.length - s.pos.toNat
        rw [UInt64.add_sub_cancel]
      · show s.string.length - (s.pos + 1).toNat ≤ s.string.length - s.pos.toNat
        omega
  unread_initToken _ _ := rfl
  unread_appendToToken _ _ := rfl

/-- The token is a slice of the text. -/
def Cursor.Inside (s : Cursor) : Prop := s.tokenPos.toNat ≤ s.pos.toNat ∧ s.pos.toNat ≤ s.string.length

end Parsers

namespace Json

open Parsers

/-! ## Reads of the token -/

section
variable {σ : Type} (I : Input σ)

/-- The states in which `next_token` reads the token: `parse_number` does at both
its ends, and `parse_string` does not. -/
def nextTokenReads (s : σ) : List σ :=
  let c := (I.getc s).1
  if c = 0 then []
  else
    let t := I.initToken (toChar c) (I.getc s).2
    match _h : tokenIndex c with
    | .space => (parseSpaces I t).2 :: nextTokenReads (parseSpaces I t).2
    | .lineComment => (parseLineComment I t).2 :: nextTokenReads (parseLineComment I t).2
    | .quotedString => []
    | .numeric => [t, (takeNumber I 0 ((I.token t).head? == some dot) false t).2.2]
    | .symbol => [(parseSymbol I t).2]
    | _ => [t]
termination_by I.unread s
decreasing_by
  all_goals
    have hlt := I.unread_getc s (ne_eof_of_tokenIndex (by rw [_h]; nofun))
    rw [← I.unread_initToken (toChar (I.getc s).1) (I.getc s).2] at hlt
  · exact Nat.lt_of_le_of_lt (unread_takeWhile I isSpace _) hlt
  · exact Nat.lt_of_le_of_lt (unread_parseLineComment I _) hlt

variable (nearest : Bytes → Option Double)

/-- The token is read once more for the report of an invalid one. -/
def nextOfReads (expected endTokens : TokenMask) (s : σ) : List σ :=
  nextTokenReads I s ++
    match nextOf I nearest expected endTokens s with
    | .error (.invalidArgument ..) => [(nextToken I nearest s).2]
    | _ => []

/-- Calls of `next_of` in turn, until one throws. -/
def callReads : List (TokenMask × TokenMask) → σ → List σ
  | [], _ => []
  | (expected, endTokens) :: calls, s =>
    nextOfReads I nearest expected endTokens s ++
      match nextOf I nearest expected endTokens s with
      | .ok (_, s) => callReads calls s
      | .error _ => []

end

/-- A parser calls `next_of` at least once. No mask has a bit for `TI_NONE`. -/
structure Calls where
  masks : List (TokenMask × TokenMask)
  nonempty : masks ≠ []
  bits : ∀ m ∈ masks, TokenIndex.none ∉ m.1 ∧ TokenIndex.none ∉ m.2

/-! ## Loops -/

/-- The position has gone on within the text, after the same start of a token. -/
structure Ahead (s t : Cursor) : Prop where
  string : t.string = s.string
  tokenPos : t.tokenPos = s.tokenPos
  le : s.pos.toNat ≤ t.pos.toNat
  le_length : t.pos.toNat ≤ s.string.length

section
variable {s t u : Cursor}

theorem Ahead.trans (h : Ahead s t) (h' : Ahead t u) : Ahead s u :=
  ⟨h'.string.trans h.string, h'.tokenPos.trans h.tokenPos, h.le.trans h'.le, h.string ▸ h'.le_length⟩

theorem Ahead.inside (h : Ahead s t) (hs : s.Inside) : t.Inside := by
  refine ⟨?_, ?_⟩
  · rw [h.tokenPos]
    exact hs.1.trans h.le
  · rw [h.string]
    exact h.le_length

variable (hs : s.pos.toNat ≤ s.string.length)
include hs

theorem ahead_getc : Ahead s s.getc.2 := by
  rcases s.getc_cases with ⟨h, -⟩ | ⟨b, -, h, hlt, hpos⟩
  · rw [h]
    exact ⟨rfl, rfl, Nat.le_refl _, hs⟩
  · rw [h]
    exact ⟨rfl, rfl, by rw [hpos]; omega, by rw [hpos]; omega⟩

theorem ahead_ungetc : Ahead s (Cursor.ungetc s.getc.1 s.getc.2) := by
  rcases s.getc_cases with ⟨h, -⟩ | ⟨b, -, h, hlt, hpos⟩
  · rw [h]
    exact ⟨rfl, rfl, Nat.le_refl _, hs⟩
  · unfold Cursor.ungetc
    split_ifs
    · rw [h]
      have hback : s.pos + 1 - 1 = s.pos := UInt64.add_sub_cancel _ _
      exact ⟨rfl, rfl, by rw [hback], by rw [hback]; exact hs⟩
    · exact ahead_getc hs

omit hs in
theorem Ahead.of_getc (hs : s.pos.toNat ≤ s.string.length) (h : s.getc.2.pos.toNat ≤ s.getc.2.string.length → Ahead s.getc.2 t) :
    Ahead s t := by
  have hgetc := ahead_getc hs
  exact hgetc.trans (h (hgetc.string ▸ hgetc.le_length))

theorem ahead_takeWhile (p : UInt8 → Bool) : Ahead s (takeWhile cursorInput p s) := by
  fun_induction takeWhile cursorInput p s with
  | case1 s h ih => exact Ahead.of_getc hs ih
  | case2 s h => exact ahead_ungetc hs

theorem ahead_takeNumber (last : UInt8) (gotReal gotHex : Bool) : Ahead s (takeNumber cursorInput last gotReal gotHex s).2.2 := by
  fun_induction takeNumber cursorInput last gotReal gotHex s with
  | case1 last gotReal gotHex s c h => exact ahead_ungetc hs
  | case2 last gotReal gotHex s c h t hdigit ih => exact Ahead.of_getc hs ih
  | case3 last gotReal gotHex s c h t hdigit hreal ih => exact Ahead.of_getc hs ih
  | case4 last gotReal gotHex s c h t hdigit hreal hhex ih => exact Ahead.of_getc hs ih
  | case5 last gotReal gotHex s c h t hdigit hreal hhex hsign ih => exact Ahead.of_getc hs ih
  | case6 last gotReal gotHex s c h hdigit hreal hhex hsign => exact ahead_ungetc hs

theorem ahead_takeComment : Ahead s (takeComment cursorInput s) := by
  fun_induction takeComment cursorInput s with
  | case1 s c h => exact ahead_getc hs
  | case2 s c h ih => exact Ahead.of_getc hs ih

theorem ahead_takeString (quote : UInt8) (escape : Bool) (string : Bytes) :
    Ahead s (takeString cursorInput quote escape string s).2 := by
  fun_induction takeString cursorInput quote escape string s with
  | case1 escape string s c h => exact ahead_getc hs
  | case2 string s c h t ih => exact Ahead.of_getc hs ih
  | case3 escape string s c h t hescape hbackslash ih => exact Ahead.of_getc hs ih
  | case4 escape string s c h t hescape hbackslash hquote => exact ahead_getc hs
  | case5 escape string s c h t hescape hbackslash hquote ih => exact Ahead.of_getc hs ih

end

/-! ## Tokens -/

section
variable {s : Cursor} (nearest : Bytes → Option Double)

/-- A token starts at the last character that was read, or that there is. -/
theorem inside_initToken (hs : s.pos.toNat ≤ s.string.length) (hne : s.string ≠ []) :
    s.getc.2.initToken.Inside ∧ s.getc.2.initToken.string = s.string := by
  have hpos : 1 ≤ s.getc.2.pos.toNat := by
    rcases s.getc_cases with ⟨h, hle⟩ | ⟨b, -, h, hlt, hpos⟩
    · rw [h]
      exact (List.length_pos_iff.mpr hne).trans_le hle
    · rw [h]
      show 1 ≤ (s.pos + 1).toNat
      omega
  have hgetc := ahead_getc hs
  refine ⟨⟨?_, ?_⟩, hgetc.string⟩
  · show (s.getc.2.pos - 1).toNat ≤ s.getc.2.pos.toNat
    rw [UInt64.toNat_sub_of_le _ _ hpos]
    exact Nat.sub_le _ _
  · show s.getc.2.pos.toNat ≤ s.getc.2.string.length
    rw [hgetc.string]
    exact hgetc.le_length

theorem nextTokenReads_inside (hs : s.pos.toNat ≤ s.string.length) (hne : s.string ≠ []) :
    ∀ t ∈ nextTokenReads cursorInput s, t.Inside := by
  fun_induction nextTokenReads cursorInput s with
  | case1 s c h => exact List.forall_mem_nil _
  | case2 s c h t hti ih =>
    obtain ⟨hinside, hstring⟩ := inside_initToken hs hne
    have hahead := ahead_takeWhile hinside.2 isSpace
    have hend := hahead.inside hinside
    rw [List.forall_mem_cons]
    exact ⟨hend, ih hend.2 (by rw [← hstring] at hne; exact hahead.string ▸ hne)⟩
  | case3 s c h t hti ih =>
    obtain ⟨hinside, hstring⟩ := inside_initToken hs hne
    have hahead := ahead_takeComment hinside.2
    have hend := hahead.inside hinside
    rw [List.forall_mem_cons]
    exact ⟨hend, ih hend.2 (by rw [← hstring] at hne; exact hahead.string ▸ hne)⟩
  | case4 s c h hti => exact List.forall_mem_nil _
  | case5 s c h t hti =>
    obtain ⟨hinside, -⟩ := inside_initToken hs hne
    rw [List.forall_mem_cons, List.forall_mem_singleton]
    exact ⟨hinside, (ahead_takeNumber hinside.2 _ _ _).inside hinside⟩
  | case6 s c h t hti =>
    obtain ⟨hinside, -⟩ := inside_initToken hs hne
    rw [List.forall_mem_singleton]
    exact (ahead_takeWhile hinside.2 _).inside hinside
  | case7 s c h t =>
    rw [List.forall_mem_singleton]
    exact (inside_initToken hs hne).1

/-- Only a null character before the first token leaves a token that is not the last one. -/
theorem nextToken_inside (hs : s.pos.toNat ≤ s.string.length) (hne : s.string ≠ []) (hzero : s.getc.1 = 0 → s.getc.2.Inside) :
    (nextToken cursorInput nearest s).2.Inside ∧ (nextToken cursorInput nearest s).2.string = s.string := by
  fun_induction nextToken cursorInput nearest s with
  | case1 s c h => exact ⟨hzero h, (ahead_getc hs).string⟩
  | case2 s c h t hti ih =>
    obtain ⟨hinside, hstring⟩ := inside_initToken hs hne
    have hahead := ahead_takeWhile hinside.2 isSpace
    have hend := hahead.inside hinside
    obtain ⟨h, h'⟩ := ih hend.2 (by rw [← hstring] at hne; exact hahead.string ▸ hne) fun _ => (ahead_getc hend.2).inside hend
    exact ⟨h, h'.trans (hahead.string.trans hstring)⟩
  | case3 s c h t hti ih =>
    obtain ⟨hinside, hstring⟩ := inside_initToken hs hne
    have hahead := ahead_takeComment hinside.2
    have hend := hahead.inside hinside
    obtain ⟨h, h'⟩ := ih hend.2 (by rw [← hstring] at hne; exact hahead.string ▸ hne) fun _ => (ahead_getc hend.2).inside hend
    exact ⟨h, h'.trans (hahead.string.trans hstring)⟩
  | case4 s c h t hti =>
    obtain ⟨hinside, hstring⟩ := inside_initToken hs hne
    have hahead := ahead_takeString hinside.2 (toChar c) false []
    exact ⟨hahead.inside hinside, hahead.string.trans hstring⟩
  | case5 s c h t hti =>
    obtain ⟨hinside, hstring⟩ := inside_initToken hs hne
    have hahead := ahead_takeNumber hinside.2 0 ((cursorInput.token t).head? == some dot) false
    exact ⟨hahead.inside hinside, hahead.string.trans hstring⟩
  | case6 s c h t hti =>
    obtain ⟨hinside, hstring⟩ := inside_initToken hs hne
    have hahead := ahead_takeWhile hinside.2 isIdentifier
    exact ⟨hahead.inside hinside, hahead.string.trans hstring⟩
  | case7 s c h t => exact inside_initToken hs hne

theorem step_of_nextOf {expected endTokens : TokenMask} {tp : TokenPair} {t : Cursor}
    (h : nextOf cursorInput nearest expected endTokens s = .ok (tp, t)) : t = (nextToken cursorInput nearest s).2 := by
  unfold nextOf at h
  dsimp only at h
  split_ifs at h <;> cases h <;> rfl

theorem nextOfReads_inside (hs : s.pos.toNat ≤ s.string.length) (hne : s.string ≠ []) (hzero : s.getc.1 = 0 → s.getc.2.Inside)
    (expected endTokens : TokenMask) : ∀ t ∈ nextOfReads cursorInput nearest expected endTokens s, t.Inside := by
  intro t ht
  rcases List.mem_append.mp ht with h | h
  · exact nextTokenReads_inside hs hne t h
  · split at h
    · rw [List.mem_singleton.mp h]
      exact (nextToken_inside nearest hs hne hzero).1
    · exact absurd h List.not_mem_nil

theorem callReads_inside (masks : List (TokenMask × TokenMask)) (hs : s.pos.toNat ≤ s.string.length) (hne : s.string ≠ [])
    (hzero : s.getc.1 = 0 → s.getc.2.Inside) : ∀ t ∈ callReads cursorInput nearest masks s, t.Inside := by
  induction masks generalizing s with
  | nil => exact List.forall_mem_nil _
  | cons m masks ih =>
    obtain ⟨hinside, hstring⟩ := nextToken_inside nearest hs hne hzero
    intro t ht
    rcases List.mem_append.mp ht with h | h
    · exact nextOfReads_inside nearest hs hne hzero _ _ t h
    · split at h
      · rename_i hok
        rw [step_of_nextOf nearest hok] at h
        exact ih hinside.2 (hstring ▸ hne) (fun _ => (ahead_getc hinside.2).inside hinside) t h
      · exact absurd h List.not_mem_nil

end

/-! ## Parses -/

/-- There is something in the text, and it does not begin with a null character
unless that is all. -/
def Fit (text : Bytes) : Prop := text ≠ [] ∧ (text.head? = some 0 → text.length = 1)

section
variable (text : StringView)

theorem start_tokenPos : (Cursor.ofString text).tokenPos.toNat = text.data.length := UInt64.toNat_ofNat_of_lt' text.size_lt

theorem start_zero (h : text.data.head? = some 0) :
    (Cursor.ofString text).getc = (0, { Cursor.ofString text with pos := 1 }) := by
  have hfirst : text.data[0]? = some 0 := by
    rw [← List.head?_eq_getElem?]
    exact h
  simp [Cursor.getc, Cursor.ofString, hfirst]

theorem start_inside (hfit : Fit text.data) (h : (Cursor.ofString text).getc.1 = 0) : (Cursor.ofString text).getc.2.Inside := by
  have hhead : text.data.head? = some 0 := by
    rcases (Cursor.ofString text).getc_cases with ⟨hend, -⟩ | ⟨b, hb, hget, -⟩
    · rw [hend] at h
      cases h
    · rw [hget] at h
      have hzero : ∀ b : UInt8, b.toInt8.toInt = 0 → b = 0 := by
        apply forall_byte
        decide +kernel
      rw [hzero b h] at hb
      rw [List.head?_eq_getElem?]
      exact hb
  have hlength := hfit.2 hhead
  rw [start_zero text hhead]
  refine ⟨?_, ?_⟩
  · show (Cursor.ofString text).tokenPos.toNat ≤ 1
    rw [start_tokenPos, hlength]
  · show 1 ≤ text.data.length
    rw [hlength]

/-- Before an empty text. -/
theorem not_inside_empty (h : text.data = []) : (Cursor.ofString text).initToken ∈ nextTokenReads cursorInput (Cursor.ofString text) := by
  have hgetc : cursorInput.getc (Cursor.ofString text) = (eof, Cursor.ofString text) := by
    show (Cursor.ofString text).getc = _
    simp [Cursor.getc, Cursor.ofString, h]
  rw [nextTokenReads, hgetc]
  exact List.mem_singleton_self _

/-- In every parse of a text. -/
theorem token_inside_iff (nearest : Bytes → Option Double) (c : Calls) :
    (∀ t ∈ callReads cursorInput nearest c.masks (Cursor.ofString text), t.Inside) ↔ Fit text.data := by
  constructor
  · intro h
    obtain ⟨m, masks, hmasks⟩ := List.exists_cons_of_ne_nil c.nonempty
    obtain ⟨hexpected, hend⟩ := c.bits m (hmasks ▸ List.mem_cons_self)
    rw [hmasks] at h
    have hfirst : ∀ t ∈ nextOfReads cursorInput nearest m.1 m.2 (Cursor.ofString text), t.Inside := fun t ht =>
      h t (List.mem_append_left _ ht)
    refine ⟨?_, ?_⟩
    · intro hempty
      have hinside := hfirst _ (List.mem_append_left _ (not_inside_empty text hempty))
      exact absurd hinside.1 (by show ¬ ((0 : UInt64) - 1).toNat ≤ (0 : UInt64).toNat; decide)
    · intro hhead
      have hgetc : cursorInput.getc (Cursor.ofString text) = (0, { Cursor.ofString text with pos := 1 }) := start_zero text hhead
      have hnext : nextToken cursorInput nearest (Cursor.ofString text) = ((.none, .none), { Cursor.ofString text with pos := 1 }) := by
        rw [nextToken, hgetc]
        rfl
      have hinside := hfirst { Cursor.ofString text with pos := 1 } (by
        apply List.mem_append_right
        simp [nextOf, hnext, hexpected, hend])
      have hle : text.data.length ≤ 1 := by
        rw [← start_tokenPos text]
        exact hinside.1
      have hpos : 0 < text.data.length := List.length_pos_iff.mpr fun hempty => by
        rw [hempty] at hhead
        cases hhead
      omega
  · intro hfit
    exact callReads_inside nearest c.masks (Nat.zero_le _) hfit.1 (start_inside text hfit)

end

/-- One call that looks for the end. -/
def oneCall : Calls where
  masks := [([.finish], [])]
  nonempty := List.cons_ne_nil _ _
  bits := by decide

/-- The start of the token in an empty text is before it. -/
theorem token_outside_empty : ¬ ∀ (text : StringView) (nearest : Bytes → Option Double) (c : Calls),
    ∀ t ∈ callReads cursorInput nearest c.masks (Cursor.ofString text), t.Inside := by
  intro h
  have hread := not_inside_empty ⟨[], by decide⟩ rfl
  have hinside := h ⟨[], by decide⟩ (fun _ => none) oneCall _ (List.mem_append_left _ (List.mem_append_left _ hread))
  exact absurd hinside.1 (by decide)

end Json

end CommonCore
