import CommonCore.JsonLexing

/-!
# What the reader accepts

Over an input that shows a text, the reader accepts the text if and only if it
is one value of the grammar, over the tokens that the tokenizer finds, and it
returns that value (`parseInput_iff`).
-/

namespace CommonCore

namespace Json

open Parsers Grammar

/-- The token of the grammar, if it is one. -/
def tokenOf (tp : TokenPair) : Option (Token Bytes Value) :=
  match tp.1 with
  | .nullValue | .bool | .numeric => some (.scalar tp.2)
  | .quotedString => some (.text (asString tp.2))
  | .mapOpen => some .mapOpen
  | .mapClose => some .mapClose
  | .listOpen => some .listOpen
  | .listClose => some .listClose
  | .comma => some .comma
  | .colon => some .colon
  | _ => none

/-- JSON as the tokenizer reads it. -/
def json (nearest : Bytes → Option Double) : Notation Codes Bytes Value where
  lex l k u := tokenOf (lex nearest l).1 = some k ∧ (lex nearest l).2 = u
  finish l := (lex nearest l).1.1 = .finish
  ofText := .string
  ofList := .valuelist
  ofMap m := .kvmap (Keyed.putAll [] m)

variable {nearest : Bytes → Option Double}

/-! ## Progress -/

theorem length_takeNumeral (last : UInt8) (l : Codes) : (takeNumeral last l).2.length ≤ l.length := by
  fun_induction takeNumeral last l with
  | case1 => exact Nat.le_refl _
  | case2 => exact Nat.le_succ _
  | case3 last b l h ih => exact ih.trans (Nat.le_succ _)
  | case4 last b l h => exact Nat.le_refl _

theorem length_takeBody (q : UInt8) (escape : Bool) (l : Codes) : (takeBody q escape l).2.2.length ≤ l.length := by
  induction l generalizing escape with
  | nil => simp [takeBody]
  | cons o l ih =>
    cases o with
    | none => simp [takeBody]
    | some b =>
      cases escape with
      | true => exact Nat.le_succ_of_le (ih false)
      | false =>
        rw [takeBody]
        split_ifs
        · exact Nat.le_succ_of_le (ih true)
        · exact Nat.le_succ _
        · exact Nat.le_succ_of_le (ih false)

theorem length_lex (nearest : Bytes → Option Double) {l : Codes} (hl : l ≠ []) :
    (lex nearest l).2.length < l.length := by
  fun_induction lex nearest l with
  | case1 => exact absurd rfl hl
  | case2 l => exact Nat.lt_succ_self _
  | case3 b l h ih =>
    by_cases hrest : (takeRun isSpace l).2 = []
    · rw [hrest]
      simp [lex]
    · have := ih hrest
      have := length_takeRun isSpace l
      rw [List.length_cons]
      omega
  | case4 b l h ih =>
    by_cases hrest : dropComment l = []
    · rw [hrest]
      simp [lex]
    · have := ih hrest
      have := length_dropComment l
      rw [List.length_cons]
      omega
  | case5 b l h closed string rest hbody =>
    have := length_takeBody b false l
    rw [hbody] at this
    exact Nat.lt_succ_of_le this
  | case6 b l h => exact Nat.lt_succ_of_le (length_takeNumeral 0 l)
  | case7 b l h => exact Nat.lt_succ_of_le (length_takeRun isIdentifier l)
  | case8 b l => exact Nat.lt_succ_self _

theorem json_progress {l u : Codes} {k : Token Bytes Value} (h : (json nearest).lex l k u) : u.length < l.length := by
  obtain ⟨htoken, rfl⟩ := h
  apply length_lex
  rintro rfl
  simp [lex, tokenOf] at htoken

mutual
theorem value_progress {t u : Codes} {v : Value} : (json nearest).Value t v u → u.length < t.length
  | .scalar h => json_progress h
  | .text h => json_progress h
  | .list h hi => Nat.lt_trans (items_progress hi) (json_progress h)
  | .map h hm => Nat.lt_trans (members_progress hm) (json_progress h)
theorem items_progress {t u : Codes} {l : List Value} : (json nearest).Items t l u → u.length < t.length
  | .empty h => json_progress h
  | .some h => elements_progress h
theorem elements_progress {t u : Codes} {l : List Value} : (json nearest).Elements t l u → u.length < t.length
  | .last hv h => Nat.lt_trans (json_progress h) (value_progress hv)
  | .cons hv h he => Nat.lt_trans (elements_progress he) (Nat.lt_trans (json_progress h) (value_progress hv))
theorem members_progress {t u : Codes} {m : List (Bytes × Value)} :
    (json nearest).Members t m u → u.length < t.length
  | .empty h => json_progress h
  | .some h => entries_progress h
theorem entries_progress {t u : Codes} {m : List (Bytes × Value)} :
    (json nearest).Entries t m u → u.length < t.length
  | .last hk hc hv h =>
    Nat.lt_trans (json_progress h) (Nat.lt_trans (value_progress hv) (Nat.lt_trans (json_progress hc) (json_progress hk)))
  | .cons hk hc hv h he =>
    Nat.lt_trans (entries_progress he) (Nat.lt_trans (json_progress h) (Nat.lt_trans (value_progress hv)
      (Nat.lt_trans (json_progress hc) (json_progress hk))))
end

/-! ## What is accepted is a value -/

section
variable {σ : Type} {I : Input σ} {R : σ → Option Bytes → Codes → Prop} (hR : Shows I R)
include hR

/-- What `next_of` does, by the first token of the text. -/
theorem nextOf_shows (nearest : Bytes → Option Double) {s : σ} {l : Codes} (h : R s none l) (expected endTokens : TokenMask) :
    (∃ tp s', nextOf I nearest expected endTokens s = .ok (tp, s') ∧ tp.1 ∈ expected ∧ Agree tp (lex nearest l).1 ∧
        R s' none (lex nearest l).2) ∨
      (∃ s', nextOf I nearest expected endTokens s = .ok ((.none, .none), s') ∧ (lex nearest l).1.1 ∉ expected ∧
        (lex nearest l).1.1 ∈ endTokens ∧ R s' none (lex nearest l).2) ∨
      (∃ e, nextOf I nearest expected endTokens s = .error e ∧ e ≠ .outOfFuel ∧ (lex nearest l).1.1 ∉ expected ∧
        (lex nearest l).1.1 ∉ endTokens) := by
  obtain ⟨hagree, hrest⟩ := nextToken_shows hR nearest h
  unfold nextOf
  simp only [← hagree.1]
  by_cases hexp : (nextToken I nearest s).1.1 ∈ expected
  · rw [if_pos hexp]
    exact .inl ⟨_, _, rfl, hexp, hagree, hrest⟩
  · by_cases hend : (nextToken I nearest s).1.1 ∈ endTokens
    · rw [if_neg hexp, if_pos hend]
      exact .inr (.inl ⟨_, rfl, hexp, hend, hrest⟩)
    · rw [if_neg hexp, if_neg hend]
      refine .inr (.inr ?_)
      split_ifs
      · exact ⟨_, rfl, nofun, hexp, hend⟩
      · exact ⟨_, rfl, nofun, hexp, hend⟩

omit hR in
theorem bind_eq_ok {α β : Type} {x : Except JsonError α} {f : α → Except JsonError β} {b : β} :
    x >>= f = .ok b ↔ ∃ a, x = .ok a ∧ f a = .ok b := by
  cases x with
  | error e => exact ⟨nofun, nofun⟩
  | ok a => exact ⟨fun h => ⟨a, rfl, h⟩, fun ⟨_, rfl, h⟩ => h⟩

omit hR in
theorem numeral_index (nearest : Bytes → Option Double) (token : Bytes) :
    (numeral nearest token).1 = .numeric ∨ (numeral nearest token).1 = .invalid := by
  have hparse : ∀ {T : Type} (value : T → Value) (o : Option (T × Bytes)),
      (parseNumeric value o).1 = .numeric ∨ (parseNumeric value o).1 = .invalid := by
    intro T value o
    cases o with
    | none => exact .inr rfl
    | some r => exact .inl rfl
  unfold numeral numberOf
  split_ifs <;> apply hparse

omit hR in
theorem symbol_index (token : Bytes) :
    ((symbolMap.lookup token).getD (.invalid, .none)).1 ∈ [TokenIndex.nullValue, .bool, .invalid] := by
  cases h : symbolMap.lookup token with
  | none => decide
  | some tp =>
    have hmem : (token, tp) ∈ symbolMap := mem_of_lookup h
    simp only [symbolMap, List.mem_cons, Prod.mk.injEq, List.not_mem_nil, or_false] at hmem
    rcases hmem with ⟨-, rfl⟩ | ⟨-, rfl⟩ | ⟨-, rfl⟩ <;> decide

omit hR in
theorem lex_quoted {l : Codes} (h : (lex nearest l).1.1 = .quotedString) :
    (lex nearest l).1.2 = .string (asString (lex nearest l).1.2) := by
  fun_induction lex nearest l with
  | case1 => cases h
  | case2 => cases h
  | case3 b l hb ih => exact ih h
  | case4 b l hb ih => exact ih h
  | case5 b l hb closed string rest hbody => rfl
  | case6 b l hb =>
    rcases numeral_index nearest (b :: (takeNumeral 0 l).1) with hn | hn <;> (rw [hn] at h; cases h)
  | case7 b l hb =>
    have := symbol_index (b :: (takeRun isIdentifier l).1)
    rw [h] at this
    exact absurd this (by decide)
  | case8 b l h₁ h₂ h₃ => exact absurd h h₃

omit hR in
/-- A token that a value may begin with. -/
theorem json_of_valueMask {l : Codes} {tp : TokenPair} (hmem : tp.1 ∈ valueMask) (hagree : Agree tp (lex nearest l).1) :
    (tp.1 = .mapOpen ∧ (json nearest).lex l .mapOpen (lex nearest l).2) ∨
      (tp.1 = .listOpen ∧ (json nearest).lex l .listOpen (lex nearest l).2) ∨
      (tp.1 ≠ .mapOpen ∧ tp.1 ≠ .listOpen ∧ (json nearest).Value l tp.2 (lex nearest l).2) := by
  obtain ⟨hindex, hvalue⟩ := hagree
  have hval := hvalue hmem
  have hscalar : tp.1 = .nullValue ∨ tp.1 = .bool ∨ tp.1 = .numeric → (json nearest).Value l tp.2 (lex nearest l).2 := by
    intro h
    refine .scalar ⟨?_, rfl⟩
    unfold tokenOf
    rw [← hindex, ← hval]
    rcases h with h | h | h <;> rw [h]
  simp only [valueMask, List.mem_cons, List.not_mem_nil, or_false] at hmem
  rcases hmem with h | h | h | h | h | h
  · refine .inl ⟨h, ?_, rfl⟩
    unfold tokenOf
    rw [← hindex, h]
  · refine .inr (.inl ⟨h, ?_, rfl⟩)
    unfold tokenOf
    rw [← hindex, h]
  · exact .inr (.inr ⟨by rw [h]; decide, by rw [h]; decide, hscalar (.inl h)⟩)
  · exact .inr (.inr ⟨by rw [h]; decide, by rw [h]; decide, hscalar (.inr (.inl h))⟩)
  · exact .inr (.inr ⟨by rw [h]; decide, by rw [h]; decide, hscalar (.inr (.inr h))⟩)
  · refine .inr (.inr ⟨by rw [h]; decide, by rw [h]; decide, ?_⟩)
    rw [hval, lex_quoted (by rw [← hindex, h])]
    refine .text ⟨?_, rfl⟩
    unfold tokenOf
    rw [← hindex, h]

theorem nextOf_ok {s s' : σ} {l : Codes} {expected endTokens : TokenMask} {tp : TokenPair} (h : R s none l)
    (hok : nextOf I nearest expected endTokens s = .ok (tp, s')) :
    R s' none (lex nearest l).2 ∧ ((tp.1 ∈ expected ∧ Agree tp (lex nearest l).1) ∨
      tp.1 = .none ∧ (lex nearest l).1.1 ∈ endTokens) := by
  rcases nextOf_shows hR nearest h expected endTokens with
    ⟨tp₁, s₁, heq, hmem, hagree, hrest⟩ | ⟨s₁, heq, -, hmem, hrest⟩ | ⟨e, heq, -⟩
  · rw [heq] at hok
    cases hok
    exact ⟨hrest, .inl ⟨hmem, hagree⟩⟩
  · rw [heq] at hok
    cases hok
    exact ⟨hrest, .inr ⟨rfl, hmem⟩⟩
  · rw [heq] at hok
    cases hok

omit hR in
theorem json_of_index {l : Codes} {ti : TokenIndex} {k : Token Bytes Value} (h : (lex nearest l).1.1 = ti)
    (hk : ∀ v, tokenOf (ti, v) = some k) : (json nearest).lex l k (lex nearest l).2 := by
  refine ⟨?_, rfl⟩
  rw [← hk (lex nearest l).1.2, ← h]

/-- The token after a value or an entry: a separator, or the end `close`. -/
theorem separator_ok {s s' : σ} {l : Codes} {close : TokenIndex} {k : Token Bytes Value} {tp : TokenPair}
    (h : R s none l) (hk : ∀ v, tokenOf (close, v) = some k)
    (hok : nextOf I nearest [.comma] [close] s = .ok (tp, s')) :
    R s' none (lex nearest l).2 ∧
      (tp.1 ≠ .none ∧ (json nearest).lex l .comma (lex nearest l).2 ∨
        tp.1 = .none ∧ (json nearest).lex l k (lex nearest l).2) := by
  obtain ⟨hrest, ⟨hmem, hagree⟩ | ⟨hnone, hmem⟩⟩ := nextOf_ok hR h hok
  · have hcomma := List.mem_singleton.mp hmem
    have hindex : (lex nearest l).1.1 = .comma := by rw [← hagree.1, hcomma]
    exact ⟨hrest, .inl ⟨by rw [hcomma]; nofun, json_of_index hindex fun _ => rfl⟩⟩
  · exact ⟨hrest, .inr ⟨hnone, json_of_index (List.mem_singleton.mp hmem) hk⟩⟩

/-- A token that has to come. -/
theorem required_ok {s s' : σ} {l : Codes} {ti : TokenIndex} {tp : TokenPair} (h : R s none l)
    (hok : nextOf I nearest [ti] [] s = .ok (tp, s')) :
    R s' none (lex nearest l).2 ∧ tp.1 = ti ∧ Agree tp (lex nearest l).1 := by
  obtain ⟨hrest, ⟨hmem, hagree⟩ | ⟨-, hmem⟩⟩ := nextOf_ok hR h hok
  · exact ⟨hrest, List.mem_singleton.mp hmem, hagree⟩
  · exact absurd hmem List.not_mem_nil

omit hR in
/-- The key of an entry. -/
theorem json_of_key {l : Codes} {tp : TokenPair} (htp : tp.1 = .quotedString) (hagree : Agree tp (lex nearest l).1) :
    (json nearest).lex l (.text (asString tp.2)) (lex nearest l).2 := by
  have hval := hagree.2 (by rw [htp]; decide)
  refine ⟨?_, rfl⟩
  unfold tokenOf
  rw [← hagree.1, htp, hval]

variable (I nearest R) in
omit hR in
/-- What the reader's functions accept with at most `n` nested calls. -/
structure Sound (n : ℕ) : Prop where
  value : ∀ {s l endTokens tp s'}, R s none l → nextValue I nearest n endTokens s = .ok (tp, s') →
    (tp.1 = .none ∧ (lex nearest l).1.1 ∈ endTokens ∧ R s' none (lex nearest l).2) ∨
      (tp.1 ≠ .none ∧ ∃ u, (json nearest).Value l tp.2 u ∧ R s' none u)
  object : ∀ {s l m s'}, R s none l → parseObject I nearest n s = .ok (m, s') →
    ∃ es u, (json nearest).Members l es u ∧ m = Keyed.putAll [] es ∧ R s' none u
  entries : ∀ {s t l tp map m s'}, R s none l → tp.1 = .quotedString → (json nearest).lex t (.text (asString tp.2)) l →
    parseEntries I nearest n tp map s = .ok (m, s') →
    ∃ es u, (json nearest).Entries t es u ∧ m = Keyed.putAll map es ∧ R s' none u
  array : ∀ {s l vs s'}, R s none l → parseArray I nearest n s = .ok (vs, s') →
    ∃ u, (json nearest).Items l vs u ∧ R s' none u
  elements : ∀ {s t l tp list vs s'}, R s none l → tp.1 ≠ .none → (json nearest).Value t tp.2 l →
    parseElements I nearest n tp list s = .ok (vs, s') →
    ∃ ws u, (json nearest).Elements t ws u ∧ vs = list ++ ws ∧ R s' none u

theorem sound (n : ℕ) : Sound nearest I R n := by
  induction n with
  | zero => constructor <;> (intros; simp_all [nextValue, parseObject, parseEntries, parseArray, parseElements])
  | succ n ih =>
    constructor
    case value =>
      intro s l endTokens tp s' h hok
      rw [nextValue] at hok
      obtain ⟨⟨tp₁, s₁⟩, hnext, hok⟩ := bind_eq_ok.mp hok
      obtain ⟨hrest, ⟨hmem, hagree⟩ | ⟨hnone, hmem⟩⟩ := nextOf_ok hR h hnext
      · right
        rcases json_of_valueMask hmem hagree with ⟨hmap, hlex⟩ | ⟨hlist, hlex⟩ | ⟨hmap, hlist, hvalue⟩
        · simp only [hmap] at hok
          obtain ⟨⟨m, s₂⟩, hobject, hok⟩ := bind_eq_ok.mp hok
          obtain ⟨es, u, hmembers, rfl, hu⟩ := ih.object hrest hobject
          cases hok
          exact ⟨nofun, u, .map hlex hmembers, hu⟩
        · simp only [hlist] at hok
          obtain ⟨⟨vs, s₂⟩, harray, hok⟩ := bind_eq_ok.mp hok
          obtain ⟨u, hitems, hu⟩ := ih.array hrest harray
          cases hok
          exact ⟨nofun, u, .list hlex hitems, hu⟩
        · have hne : tp₁.1 ≠ .none := fun h => absurd (h ▸ hmem) (by decide)
          dsimp only at hok
          split at hok
          · exact absurd ‹_› hmap
          · exact absurd ‹_› hlist
          · cases hok
            exact ⟨hne, _, hvalue, hrest⟩
      · simp only [hnone] at hok
        cases hok
        exact .inl ⟨hnone, hmem, hrest⟩
    case object =>
      intro s l m s' h hok
      rw [parseObject] at hok
      obtain ⟨⟨tp, s₁⟩, hnext, hok⟩ := bind_eq_ok.mp hok
      obtain ⟨hrest, ⟨hmem, hagree⟩ | ⟨hnone, hmem⟩⟩ := nextOf_ok hR h hnext
      · have hkey := List.mem_singleton.mp hmem
        obtain ⟨es, u, hentries, rfl, hu⟩ := ih.entries hrest hkey (json_of_key hkey hagree) hok
        exact ⟨es, u, .some hentries, rfl, hu⟩
      · cases n with
        | zero => cases hok
        | succ n =>
          simp only [parseEntries, hnone, if_true] at hok
          cases hok
          exact ⟨[], _, .empty (json_of_index (List.mem_singleton.mp hmem) fun _ => rfl), rfl, hrest⟩
    case entries =>
      intro s t l tp map m s' h hkey hlex hok
      rw [parseEntries, if_neg (by rw [hkey]; nofun)] at hok
      obtain ⟨⟨tp₁, s₁⟩, hcolon, hok⟩ := bind_eq_ok.mp hok
      obtain ⟨h₁, htp₁, hagree₁⟩ := required_ok hR h hcolon
      have hlex₁ : (json nearest).lex l .colon _ := json_of_index (by rw [← hagree₁.1, htp₁]) fun _ => rfl
      obtain ⟨⟨value, s₂⟩, hvalue, hok⟩ := bind_eq_ok.mp hok
      obtain ⟨-, hmem, -⟩ | ⟨-, u, hval, h₂⟩ := ih.value h₁ hvalue
      · exact absurd hmem List.not_mem_nil
      obtain ⟨⟨separator, s₃⟩, hsep, hok⟩ := bind_eq_ok.mp hok
      obtain ⟨h₃, ⟨hmore, hcomma⟩ | ⟨hend, hclose⟩⟩ := separator_ok hR h₂ (k := .mapClose) (fun _ => rfl) hsep
      · simp only [if_neg hmore] at hok
        obtain ⟨⟨tp₄, s₄⟩, hnext, hok⟩ := bind_eq_ok.mp hok
        obtain ⟨h₄, htp₄, hagree₄⟩ := required_ok hR h₃ hnext
        obtain ⟨es, w, hentries, rfl, hw⟩ := ih.entries h₄ htp₄ (json_of_key htp₄ hagree₄) hok
        exact ⟨_ :: es, w, .cons hlex hlex₁ hval hcomma hentries, rfl, hw⟩
      · simp only [if_pos hend] at hok
        cases hok
        exact ⟨_, _, .last hlex hlex₁ hval hclose, rfl, h₃⟩
    case array =>
      intro s l vs s' h hok
      rw [parseArray] at hok
      obtain ⟨⟨tp, s₁⟩, hnext, hok⟩ := bind_eq_ok.mp hok
      obtain ⟨hnone, hmem, h₁⟩ | ⟨hne, u, hval, h₁⟩ := ih.value h hnext
      · cases n with
        | zero => cases hok
        | succ n =>
          simp only [parseElements, hnone, if_true] at hok
          cases hok
          exact ⟨_, .empty (json_of_index (List.mem_singleton.mp hmem) fun _ => rfl), h₁⟩
      · obtain ⟨ws, w, helements, rfl, hw⟩ := ih.elements h₁ hne hval hok
        exact ⟨w, .some helements, hw⟩
    case elements =>
      intro s t l tp list vs s' h hne hval hok
      rw [parseElements, if_neg hne] at hok
      obtain ⟨⟨separator, s₁⟩, hsep, hok⟩ := bind_eq_ok.mp hok
      obtain ⟨h₁, ⟨hmore, hcomma⟩ | ⟨hend, hclose⟩⟩ := separator_ok hR h (k := .listClose) (fun _ => rfl) hsep
      · simp only [if_neg hmore] at hok
        obtain ⟨⟨tp₂, s₂⟩, hnext, hok⟩ := bind_eq_ok.mp hok
        obtain ⟨-, hmem, -⟩ | ⟨hne₂, u, hval₂, h₂⟩ := ih.value h₁ hnext
        · exact absurd hmem List.not_mem_nil
        obtain ⟨ws, w, helements, rfl, hw⟩ := ih.elements h₂ hne₂ hval₂ hok
        exact ⟨_ :: ws, w, .cons hval hcomma helements, by simp, hw⟩
      · simp only [if_pos hend] at hok
        cases hok
        exact ⟨_, _, .last hval hclose, rfl, h₁⟩

/-! ## A value is accepted -/

theorem nextOf_of_index {s : σ} {l : Codes} {expected : TokenMask} (h : R s none l)
    (hmem : (lex nearest l).1.1 ∈ expected) (endTokens : TokenMask) :
    ∃ tp s', nextOf I nearest expected endTokens s = .ok (tp, s') ∧ Agree tp (lex nearest l).1 ∧
      R s' none (lex nearest l).2 := by
  rcases nextOf_shows hR nearest h expected endTokens with
    ⟨tp, s', heq, -, hagree, hrest⟩ | ⟨-, -, hnot, -⟩ | ⟨-, -, -, hnot, -⟩
  · exact ⟨tp, s', heq, hagree, hrest⟩
  · exact absurd hmem hnot
  · exact absurd hmem hnot

theorem nextOf_of_end {s : σ} {l : Codes} (h : R s none l) {expected endTokens : TokenMask}
    (hnot : (lex nearest l).1.1 ∉ expected) (hmem : (lex nearest l).1.1 ∈ endTokens) :
    ∃ s', nextOf I nearest expected endTokens s = .ok ((.none, .none), s') ∧ R s' none (lex nearest l).2 := by
  rcases nextOf_shows hR nearest h expected endTokens with
    ⟨tp, s', -, hexp, hagree, -⟩ | ⟨s', heq, -, -, hrest⟩ | ⟨-, -, -, -, hend⟩
  · rw [← hagree.1] at hnot
    exact absurd hexp hnot
  · exact ⟨s', heq, hrest⟩
  · exact absurd hmem hend

omit hR in
/-- The index of a token, and its value. -/
theorem index_of_token {tp : TokenPair} {k : Token Bytes Value} (h : tokenOf tp = some k) :
    match k with
    | .scalar v => tp.1 ∈ [TokenIndex.nullValue, .bool, .numeric] ∧ tp.2 = v
    | .text s => tp.1 = .quotedString ∧ asString tp.2 = s
    | .mapOpen => tp.1 = .mapOpen
    | .mapClose => tp.1 = .mapClose
    | .listOpen => tp.1 = .listOpen
    | .listClose => tp.1 = .listClose
    | .comma => tp.1 = .comma
    | .colon => tp.1 = .colon := by
  obtain ⟨ti, v⟩ := tp
  cases ti <;> cases h <;> simp

omit hR in
theorem nextValue_scalar {n : ℕ} {s s' : σ} {endTokens : TokenMask} {tp : TokenPair}
    (hnext : nextOf I nearest valueMask endTokens s = .ok (tp, s')) (hmap : tp.1 ≠ .mapOpen) (hlist : tp.1 ≠ .listOpen) :
    nextValue I nearest (n + 1) endTokens s = .ok (tp, s') := by
  rw [nextValue]
  refine bind_eq_ok.mpr ⟨(tp, s'), hnext, ?_⟩
  dsimp only
  split
  · exact absurd ‹_› hmap
  · exact absurd ‹_› hlist
  · rfl

/-- The key, the colon and the value of an entry. -/
theorem parseEntries_entry {n : ℕ} {s : σ} {t u w x : Codes} {k : Bytes} {v : Value} (hs : R s none t)
    (hk : (json nearest).lex t (.text k) u) (hc : (json nearest).lex u .colon w)
    (hv : ∀ {s : σ}, R s none w → ∃ tp s', nextValue I nearest n [] s = .ok (tp, s') ∧ tp.2 = v ∧ tp.1 ≠ .none ∧ R s' none x)
    (endTokens : TokenMask) (map : KeyValueMap) :
    ∃ tp s₁ s₂, nextOf I nearest [.quotedString] endTokens s = .ok (tp, s₁) ∧ R s₂ none x ∧
      parseEntries I nearest (n + 1) tp map s₁ =
        (nextOf I nearest [.comma] [.mapClose] s₂ >>= fun r =>
          if r.1.1 = .none then .ok (Keyed.put k v map, r.2)
          else nextOf I nearest [.quotedString] [] r.2 >>= fun r =>
            parseEntries I nearest n r.1 (Keyed.put k v map) r.2) := by
  obtain ⟨hktoken, rfl⟩ := hk
  obtain ⟨hctoken, rfl⟩ := hc
  obtain ⟨hkindex, hkval⟩ := index_of_token hktoken
  have hcindex := index_of_token hctoken
  obtain ⟨tp, s₁, hnext, hagree, h₁⟩ :=
    nextOf_of_index hR hs (show _ ∈ [TokenIndex.quotedString] by rw [hkindex]; decide) endTokens
  obtain ⟨tp₁, s₂, hcolon, -, h₂⟩ := nextOf_of_index hR h₁ (show _ ∈ [TokenIndex.colon] by rw [hcindex]; decide) []
  obtain ⟨tp₂, s₃, hvalue, rfl, -, h₃⟩ := hv h₂
  have hquoted := hagree.1.trans hkindex
  have hkey : asString tp.2 = k := by rw [hagree.2 (by rw [hquoted]; decide), hkval]
  refine ⟨tp, s₁, s₃, hnext, h₃, ?_⟩
  rw [parseEntries, if_neg (by rw [hquoted]; decide), hcolon]
  show (nextValue I nearest n [] s₂ >>= _) = _
  rw [hvalue, hkey]
  rfl

mutual
theorem complete_value {t u : Codes} {v : Value} : (json nearest).Value t v u → ∀ {s : σ}, R s none t →
    ∀ {n : ℕ}, 3 * t.length + 1 ≤ n → ∀ endTokens : TokenMask,
      ∃ tp s', nextValue I nearest n endTokens s = .ok (tp, s') ∧ tp.2 = v ∧ tp.1 ≠ .none ∧ R s' none u
  | .scalar ⟨htoken, hu⟩, s, hs, n + 1, _, endTokens => by
    obtain ⟨hindex, hval⟩ := index_of_token htoken
    have hmem : (lex nearest t).1.1 ∈ valueMask := by
      simp only [List.mem_cons, List.not_mem_nil, or_false] at hindex
      rcases hindex with h | h | h <;> (rw [h]; decide)
    obtain ⟨tp, s', hnext, hagree, hrest⟩ := nextOf_of_index hR hs hmem endTokens
    rw [← hagree.1] at hindex hmem
    have hmap : tp.1 ≠ .mapOpen := fun h => absurd (h ▸ hindex) (by decide)
    have hlist : tp.1 ≠ .listOpen := fun h => absurd (h ▸ hindex) (by decide)
    have hne : tp.1 ≠ .none := fun h => absurd (h ▸ hindex) (by decide)
    exact ⟨tp, s', nextValue_scalar hnext hmap hlist, (hagree.2 hmem).trans hval, hne, hu ▸ hrest⟩
  | .text ⟨htoken, hu⟩, s, hs, n + 1, _, endTokens => by
    obtain ⟨hindex, hval⟩ := index_of_token htoken
    have hmem : (lex nearest t).1.1 ∈ valueMask := by
      rw [hindex]
      decide
    obtain ⟨tp, s', hnext, hagree, hrest⟩ := nextOf_of_index hR hs hmem endTokens
    have hquoted : tp.1 = .quotedString := hagree.1.trans hindex
    have hmap : tp.1 ≠ .mapOpen := by rw [hquoted]; nofun
    have hlist : tp.1 ≠ .listOpen := by rw [hquoted]; nofun
    refine ⟨tp, s', nextValue_scalar hnext hmap hlist, ?_, by rw [hquoted]; nofun, hu ▸ hrest⟩
    rw [hagree.2 (by rw [hquoted]; decide), lex_quoted hindex, hval]
    rfl
  | .list ⟨htoken, hu⟩ hitems, s, hs, n + 1, hn, endTokens => by
    have hindex := index_of_token htoken
    obtain ⟨tp, s₁, hnext, hagree, h₁⟩ := nextOf_of_index hR hs (show _ ∈ valueMask by rw [hindex]; decide) endTokens
    have hlt := json_progress ⟨htoken, hu⟩
    rw [hu] at h₁
    obtain ⟨s₂, harray, h₂⟩ := complete_items hitems h₁ (show _ ≤ n by omega)
    refine ⟨(.listOpen, .valuelist _), s₂, ?_, rfl, nofun, h₂⟩
    rw [nextValue]
    refine bind_eq_ok.mpr ⟨(tp, s₁), hnext, ?_⟩
    simp only [hagree.1.trans hindex]
    exact bind_eq_ok.mpr ⟨_, harray, rfl⟩
  | .map ⟨htoken, hu⟩ hmembers, s, hs, n + 1, hn, endTokens => by
    have hindex := index_of_token htoken
    obtain ⟨tp, s₁, hnext, hagree, h₁⟩ := nextOf_of_index hR hs (show _ ∈ valueMask by rw [hindex]; decide) endTokens
    have hlt := json_progress ⟨htoken, hu⟩
    rw [hu] at h₁
    obtain ⟨s₂, hobject, h₂⟩ := complete_members hmembers h₁ (show _ ≤ n by omega)
    refine ⟨(.mapOpen, .kvmap _), s₂, ?_, rfl, nofun, h₂⟩
    rw [nextValue]
    refine bind_eq_ok.mpr ⟨(tp, s₁), hnext, ?_⟩
    simp only [hagree.1.trans hindex]
    exact bind_eq_ok.mpr ⟨_, hobject, rfl⟩
theorem complete_items {t u : Codes} {l : List Value} : (json nearest).Items t l u → ∀ {s : σ}, R s none t →
    ∀ {n : ℕ}, 3 * t.length + 2 ≤ n → ∃ s', parseArray I nearest n s = .ok (l, s') ∧ R s' none u
  | .empty ⟨htoken, hu⟩, s, hs, n + 2, _ => by
    have hindex := index_of_token htoken
    obtain ⟨s', hnext, hrest⟩ := nextOf_of_end hR hs (show _ ∉ valueMask by rw [hindex]; decide)
      (show _ ∈ [TokenIndex.listClose] by rw [hindex]; decide)
    refine ⟨s', ?_, hu ▸ hrest⟩
    rw [parseArray]
    refine bind_eq_ok.mpr ⟨((.none, .none), s'), nextValue_scalar hnext nofun nofun, ?_⟩
    simp only [parseElements, if_true]
  | .some helements, s, hs, n + 1, hn => by
    obtain ⟨tp, s₁, s', hvalue, -, hparse, hrest⟩ :=
      complete_elements helements hs (show _ ≤ n by omega) [.listClose] []
    refine ⟨s', ?_, hrest⟩
    rw [parseArray]
    exact bind_eq_ok.mpr ⟨(tp, s₁), hvalue, hparse⟩
theorem complete_elements {t u : Codes} {l : List Value} : (json nearest).Elements t l u → ∀ {s : σ}, R s none t →
    ∀ {n : ℕ}, 3 * t.length + 1 ≤ n → ∀ (endTokens : TokenMask) (list : List Value),
      ∃ tp s₁ s', nextValue I nearest n endTokens s = .ok (tp, s₁) ∧ tp.1 ≠ .none ∧
        parseElements I nearest n tp list s₁ = .ok (list ++ l, s') ∧ R s' none u
  | .last hv ⟨htoken, hu⟩, s, hs, n + 1, hn, endTokens, list => by
    obtain ⟨tp, s₁, hvalue, rfl, hne, h₁⟩ := complete_value hv hs hn endTokens
    have hindex := index_of_token htoken
    obtain ⟨s₂, hsep, h₂⟩ := nextOf_of_end hR h₁ (show _ ∉ [TokenIndex.comma] by rw [hindex]; decide)
      (show _ ∈ [TokenIndex.listClose] by rw [hindex]; decide)
    refine ⟨tp, s₁, s₂, hvalue, hne, ?_, hu ▸ h₂⟩
    rw [parseElements, if_neg hne]
    exact bind_eq_ok.mpr ⟨_, hsep, rfl⟩
  | .cons hv ⟨htoken, hu⟩ he, s, hs, n + 1, hn, endTokens, list => by
    obtain ⟨tp, s₁, hvalue, rfl, hne, h₁⟩ := complete_value hv hs hn endTokens
    have hindex := index_of_token htoken
    have hlt := value_progress hv
    have hlt' := json_progress ⟨htoken, hu⟩
    obtain ⟨sep, s₂, hsep, hagree, h₂⟩ := nextOf_of_index hR h₁ (show _ ∈ [TokenIndex.comma] by rw [hindex]; decide) [.listClose]
    have hmore : sep.1 ≠ .none := by
      rw [hagree.1, hindex]
      nofun
    rw [hu] at h₂
    obtain ⟨tp', s₃, s', hvalue', hne', hparse, hrest⟩ :=
      complete_elements he h₂ (show _ ≤ n by omega) [] (list ++ [tp.2])
    refine ⟨tp, s₁, s', hvalue, hne, ?_, hrest⟩
    rw [parseElements, if_neg hne]
    refine bind_eq_ok.mpr ⟨(sep, s₂), hsep, ?_⟩
    simp only [if_neg hmore]
    refine bind_eq_ok.mpr ⟨(tp', s₃), hvalue', ?_⟩
    rw [hparse, List.append_assoc]
    rfl
theorem complete_members {t u : Codes} {m : List (Bytes × Value)} : (json nearest).Members t m u →
    ∀ {s : σ}, R s none t → ∀ {n : ℕ}, 3 * t.length + 2 ≤ n →
      ∃ s', parseObject I nearest n s = .ok (Keyed.putAll [] m, s') ∧ R s' none u
  | .empty ⟨htoken, hu⟩, s, hs, n + 2, _ => by
    have hindex := index_of_token htoken
    obtain ⟨s', hnext, hrest⟩ := nextOf_of_end hR hs (show _ ∉ [TokenIndex.quotedString] by rw [hindex]; decide)
      (show _ ∈ [TokenIndex.mapClose] by rw [hindex]; decide)
    refine ⟨s', ?_, hu ▸ hrest⟩
    rw [parseObject]
    refine bind_eq_ok.mpr ⟨_, hnext, ?_⟩
    simp only [parseEntries, if_true]
    rfl
  | .some hentries, s, hs, n + 1, hn => by
    obtain ⟨tp, s₁, s', hnext, hparse, hrest⟩ :=
      complete_entries hentries hs (show _ ≤ n by omega) [.mapClose] []
    refine ⟨s', ?_, hrest⟩
    rw [parseObject]
    exact bind_eq_ok.mpr ⟨(tp, s₁), hnext, hparse⟩
theorem complete_entries {t u : Codes} {m : List (Bytes × Value)} : (json nearest).Entries t m u →
    ∀ {s : σ}, R s none t → ∀ {n : ℕ}, 3 * t.length + 1 ≤ n → ∀ (endTokens : TokenMask) (map : KeyValueMap),
      ∃ tp s₁ s', nextOf I nearest [.quotedString] endTokens s = .ok (tp, s₁) ∧
        parseEntries I nearest n tp map s₁ = .ok (Keyed.putAll map m, s') ∧ R s' none u
  | .last hk hc hv ⟨htoken, hu⟩, s, hs, n + 1, hn, endTokens, map => by
    have hlt := json_progress hk
    have hlt' := json_progress hc
    obtain ⟨tp, s₁, s₂, hnext, h₂, hparse⟩ :=
      parseEntries_entry hR hs hk hc (fun h => complete_value hv h (show _ ≤ n by omega) []) endTokens map
    have hindex := index_of_token htoken
    obtain ⟨s₃, hsep, h₃⟩ := nextOf_of_end hR h₂ (show _ ∉ [TokenIndex.comma] by rw [hindex]; decide)
      (show _ ∈ [TokenIndex.mapClose] by rw [hindex]; decide)
    refine ⟨tp, s₁, s₃, hnext, ?_, hu ▸ h₃⟩
    rw [hparse, hsep]
    rfl
  | .cons (k := k) (v := v) hk hc hv ⟨htoken, hu⟩ he, s, hs, n + 1, hn, endTokens, map => by
    have hlt := json_progress hk
    have hlt' := json_progress hc
    have hval := value_progress hv
    have hsep := json_progress ⟨htoken, hu⟩
    obtain ⟨tp, s₁, s₂, hnext, h₂, hparse⟩ :=
      parseEntries_entry hR hs hk hc (fun h => complete_value hv h (show _ ≤ n by omega) []) endTokens map
    have hindex := index_of_token htoken
    obtain ⟨sep, s₃, hnextSep, hagree, h₃⟩ :=
      nextOf_of_index hR h₂ (show _ ∈ [TokenIndex.comma] by rw [hindex]; decide) [.mapClose]
    have hmore : sep.1 ≠ .none := by
      rw [hagree.1, hindex]
      nofun
    rw [hu] at h₃
    obtain ⟨tp', s₄, s', hnext', hparse', hrest⟩ := complete_entries he h₃ (show _ ≤ n by omega) [] (Keyed.put k v map)
    refine ⟨tp, s₁, s', hnext, ?_, hrest⟩
    rw [hparse]
    refine bind_eq_ok.mpr ⟨(sep, s₃), hnextSep, ?_⟩
    simp only [if_neg hmore]
    exact bind_eq_ok.mpr ⟨(tp', s₄), hnext', hparse'⟩
end

/-! ## The calls are enough -/

omit hR in
theorem bind_eq_error {α β : Type} {x : Except JsonError α} {f : α → Except JsonError β} {e : JsonError} :
    x >>= f = .error e ↔ x = .error e ∨ ∃ a, x = .ok a ∧ f a = .error e := by
  cases x with
  | error e' =>
    constructor
    · exact fun h => .inl (congrArg _ (Except.error.inj h))
    · rintro (h | ⟨_, h, -⟩)
      · exact congrArg _ (Except.error.inj h)
      · cases h
  | ok a =>
    constructor
    · exact fun h => .inr ⟨a, rfl, h⟩
    · rintro (h | ⟨_, h, hf⟩)
      · cases h
      · cases h
        exact hf

theorem nextOf_fuel {s : σ} {l : Codes} (h : R s none l) (expected endTokens : TokenMask) :
    nextOf I nearest expected endTokens s ≠ .error .outOfFuel := by
  rcases nextOf_shows hR nearest h expected endTokens with ⟨tp, s', heq, -⟩ | ⟨s', heq, -⟩ | ⟨e, heq, hne, -⟩
  · rw [heq]
    nofun
  · rw [heq]
    nofun
  · rw [heq]
    intro he
    cases he
    exact hne rfl

variable (I nearest R) in
omit hR in
/-- How many nested calls a text can take. -/
structure Fueled (n : ℕ) : Prop where
  value : ∀ {s l} endTokens, R s none l → 3 * l.length + 1 ≤ n → nextValue I nearest n endTokens s ≠ .error .outOfFuel
  object : ∀ {s l}, R s none l → 3 * l.length + 2 ≤ n → parseObject I nearest n s ≠ .error .outOfFuel
  entries : ∀ {s l} tp map, R s none l → 3 * l.length + 1 ≤ n → parseEntries I nearest n tp map s ≠ .error .outOfFuel
  array : ∀ {s l}, R s none l → 3 * l.length + 2 ≤ n → parseArray I nearest n s ≠ .error .outOfFuel
  elements : ∀ {s l} tp list, R s none l → 3 * l.length + 1 ≤ n →
    parseElements I nearest n tp list s ≠ .error .outOfFuel

omit hR in
/-- Each token takes characters, if there are any. -/
theorem length_lex_le (nearest : Bytes → Option Double) (l : Codes) : (lex nearest l).2.length ≤ l.length := by
  by_cases hl : l = []
  · rw [hl]
    simp [lex]
  · exact Nat.le_of_lt (length_lex nearest hl)

omit hR in
theorem length_lex_of_mem {l : Codes} {tp : TokenPair} {mask : TokenMask} (hmem : tp.1 ∈ mask)
    (hagree : Agree tp (lex nearest l).1) (hmask : TokenIndex.finish ∉ mask) : (lex nearest l).2.length < l.length := by
  apply length_lex
  rintro rfl
  rw [hagree.1] at hmem
  exact hmask (by simpa [lex] using hmem)

theorem fueled (n : ℕ) : Fueled nearest I R n := by
  induction n with
  | zero => constructor <;> (intros; omega)
  | succ n ih =>
    constructor
    case value =>
      intro s l endTokens h hn hfuel
      rw [nextValue] at hfuel
      rcases bind_eq_error.mp hfuel with hnext | ⟨⟨tp, s₁⟩, hnext, hfuel⟩
      · exact nextOf_fuel hR h _ _ hnext
      · obtain ⟨h₁, hcase⟩ := nextOf_ok hR h hnext
        have hlt : tp.1 ≠ .none → (lex nearest l).2.length < l.length := by
          intro hne
          rcases hcase with ⟨hmem, hagree⟩ | ⟨hnone, -⟩
          · exact length_lex_of_mem hmem hagree (by decide)
          · exact absurd hnone hne
        dsimp only at hfuel
        split at hfuel
        · have := hlt (by rw [‹tp.1 = _›]; nofun)
          rcases bind_eq_error.mp hfuel with hobject | ⟨_, -, hfuel⟩
          · exact ih.object h₁ (by omega) hobject
          · cases hfuel
        · have := hlt (by rw [‹tp.1 = _›]; nofun)
          rcases bind_eq_error.mp hfuel with harray | ⟨_, -, hfuel⟩
          · exact ih.array h₁ (by omega) harray
          · cases hfuel
        · cases hfuel
    case object =>
      intro s l h hn hfuel
      rw [parseObject] at hfuel
      rcases bind_eq_error.mp hfuel with hnext | ⟨⟨tp, s₁⟩, hnext, hfuel⟩
      · exact nextOf_fuel hR h _ _ hnext
      · have := length_lex_le nearest l
        exact ih.entries tp [] (nextOf_ok hR h hnext).1 (by omega) hfuel
    case entries =>
      intro s l tp map h hn hfuel
      rw [parseEntries] at hfuel
      split_ifs at hfuel
      rcases bind_eq_error.mp hfuel with hcolon | ⟨⟨tp₁, s₁⟩, hcolon, hfuel⟩
      · exact nextOf_fuel hR h _ _ hcolon
      obtain ⟨h₁, htp₁, hagree₁⟩ := required_ok hR h hcolon
      have hlt₁ := length_lex_of_mem (List.mem_singleton.mpr htp₁) hagree₁ (by decide)
      rcases bind_eq_error.mp hfuel with hvalue | ⟨⟨value, s₂⟩, hvalue, hfuel⟩
      · exact ih.value [] h₁ (by omega) hvalue
      obtain ⟨-, hmem, -⟩ | ⟨-, u, hval, h₂⟩ := (sound hR n).value h₁ hvalue
      · exact absurd hmem List.not_mem_nil
      have hlt₂ := value_progress hval
      rcases bind_eq_error.mp hfuel with hsep | ⟨⟨separator, s₃⟩, hsep, hfuel⟩
      · exact nextOf_fuel hR h₂ _ _ hsep
      dsimp only at hfuel
      split_ifs at hfuel
      · cases hfuel
      have h₃ := (nextOf_ok hR h₂ hsep).1
      have hle₃ := length_lex_le nearest u
      rcases bind_eq_error.mp hfuel with hnext | ⟨⟨tp₄, s₄⟩, hnext, hfuel⟩
      · exact nextOf_fuel hR h₃ _ _ hnext
      have hle₄ := length_lex_le nearest (lex nearest u).2
      exact ih.entries tp₄ _ (nextOf_ok hR h₃ hnext).1 (by omega) hfuel
    case array =>
      intro s l h hn hfuel
      rw [parseArray] at hfuel
      rcases bind_eq_error.mp hfuel with hvalue | ⟨⟨tp, s₁⟩, hvalue, hfuel⟩
      · exact ih.value [.listClose] h (by omega) hvalue
      · obtain ⟨-, -, h₁⟩ | ⟨-, u, hval, h₁⟩ := (sound hR n).value h hvalue
        · have := length_lex_le nearest l
          exact ih.elements tp [] h₁ (by omega) hfuel
        · have := value_progress hval
          exact ih.elements tp [] h₁ (by omega) hfuel
    case elements =>
      intro s l tp list h hn hfuel
      rw [parseElements] at hfuel
      split_ifs at hfuel
      rcases bind_eq_error.mp hfuel with hsep | ⟨⟨separator, s₁⟩, hsep, hfuel⟩
      · exact nextOf_fuel hR h _ _ hsep
      dsimp only at hfuel
      split_ifs at hfuel with hend
      · cases hfuel
      obtain ⟨h₁, ⟨hmem, hagree⟩ | ⟨hnone, -⟩⟩ := nextOf_ok hR h hsep
      · have hlt := length_lex_of_mem hmem hagree (by decide)
        rcases bind_eq_error.mp hfuel with hvalue | ⟨⟨tp₂, s₂⟩, hvalue, hfuel⟩
        · exact ih.value [] h₁ (by omega) hvalue
        obtain ⟨-, hmem, -⟩ | ⟨-, u, hval, h₂⟩ := (sound hR n).value h₁ hvalue
        · exact absurd hmem List.not_mem_nil
        have hlt₂ := value_progress hval
        exact ih.elements tp₂ _ h₂ (by omega) hfuel
      · exact absurd hnone hend

/-- The reader returns the one value of the text, or fails. -/
theorem parseInput_iff {s : σ} {l : Codes} (h : R s none l) (v : Value) :
    parseInput I nearest s = .ok v ↔ (json nearest).Text l v := by
  unfold parseInput
  constructor
  · intro hok
    obtain ⟨⟨tp, s₁⟩, hvalue, hok⟩ := bind_eq_ok.mp hok
    obtain ⟨⟨tp₂, s₂⟩, hfinish, hok⟩ := bind_eq_ok.mp hok
    cases hok
    obtain ⟨-, hmem, -⟩ | ⟨-, u, hval, h₁⟩ := (sound hR _).value h hvalue
    · exact absurd hmem List.not_mem_nil
    obtain ⟨-, htp₂, hagree⟩ := required_ok hR h₁ hfinish
    exact ⟨u, hval, hagree.1.symm.trans htp₂⟩
  · rintro ⟨u, hval, hfinish⟩
    have hlen := hR.unread h
    obtain ⟨tp, s₁, hvalue, rfl, -, h₁⟩ :=
      complete_value hR hval h (show _ ≤ 3 * I.unread s + 1 by omega) []
    have hindex : (lex nearest u).1.1 = .finish := hfinish
    obtain ⟨tp₂, s₂, hnext, -⟩ := nextOf_of_index hR h₁ (show _ ∈ [TokenIndex.finish] by rw [hindex]; decide) []
    refine bind_eq_ok.mpr ⟨(tp, s₁), hvalue, ?_⟩
    exact bind_eq_ok.mpr ⟨(tp₂, s₂), hnext, rfl⟩

/-- It never runs out of calls. -/
theorem parseInput_fuel {s : σ} {l : Codes} (h : R s none l) : parseInput I nearest s ≠ .error .outOfFuel := by
  intro hfuel
  have hlen := hR.unread h
  unfold parseInput at hfuel
  rcases bind_eq_error.mp hfuel with hvalue | ⟨⟨tp, s₁⟩, hvalue, hfuel⟩
  · exact (fueled hR _).value [] h (by omega) hvalue
  · obtain ⟨-, hmem, -⟩ | ⟨-, u, -, h₁⟩ := (sound hR _).value h hvalue
    · exact absurd hmem List.not_mem_nil
    rcases bind_eq_error.mp hfuel with hfinish | ⟨_, -, hfuel⟩
    · exact nextOf_fuel hR h₁ _ _ hfinish
    · cases hfuel

end

end Json

end CommonCore
