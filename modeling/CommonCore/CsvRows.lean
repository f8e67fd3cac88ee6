import CommonCore.Escapes
import CommonCore.FromChars
import CommonCore.Splitting

/-!
# Rows of comma separated values

`CSVFileSink` puts a field in quotes if the separator is in it, and only then
does it double the quotes in the field. A reader takes a field without the
separator for the start of a quoted one where it begins with a quote, and
further quotes in it are in pairs.
-/

namespace CommonCore

namespace Str

/-- `str::substitute` -/
def substitute (original : Delimiter) (replacement : Bytes) (s : Bytes) : Bytes :=
  match _h : find original.1 s with
  | some (part, rest) => part ++ replacement ++ substitute original replacement rest
  | none => s
termination_by s.length
decreasing_by exact length_rest _h

theorem find_singleton_self (c : UInt8) (s : Bytes) : find [c] (c :: s) = some ([], s) := by
  simp [find]

theorem find_singleton_of_ne {b c : UInt8} (h : b ≠ c) (s : Bytes) :
    find [c] (b :: s) = (find [c] s).map fun (part, rest) => (b :: part, rest) := by
  simp [find, Ne.symm h]

theorem substitute_of_find {original : Delimiter} {s part rest : Bytes} (h : find original.1 s = some (part, rest)) (replacement : Bytes) :
    substitute original replacement s = part ++ replacement ++ substitute original replacement rest := by
  rw [substitute]
  split
  · rename_i heq
    rw [h] at heq
    cases heq
    rfl
  · rename_i heq
    rw [h] at heq
    cases heq

theorem substitute_of_find_none {original : Delimiter} {s : Bytes} (h : find original.1 s = none) (replacement : Bytes) :
    substitute original replacement s = s := by
  rw [substitute]
  split
  · rename_i heq
    rw [h] at heq
    cases heq
  · rfl

/-- A single character is replaced wherever it is. -/
theorem substitute_singleton (c : UInt8) (replacement s : Bytes) :
    substitute ⟨[c], List.cons_ne_nil _ _⟩ replacement s = s.flatMap fun b => if b = c then replacement else [b] := by
  induction s with
  | nil => exact substitute_of_find_none (by simp [find]) replacement
  | cons b s ih =>
    by_cases h : b = c
    · subst h
      rw [substitute_of_find (find_singleton_self b s), ih]
      simp
    · have hfind := find_singleton_of_ne h s
      cases hrest : find [c] s with
      | none =>
        rw [hrest] at hfind
        rw [substitute_of_find_none hrest] at ih
        rw [substitute_of_find_none hfind, List.flatMap_cons, if_neg h, ← ih]
        rfl
      | some r =>
        obtain ⟨part, rest⟩ := r
        rw [hrest] at hfind
        rw [substitute_of_find hrest] at ih
        rw [substitute_of_find hfind, List.flatMap_cons, if_neg h, ← ih]
        simp

end Str

namespace Csv

open Str

/-! ## What is written -/

/-- `CSVFileSink::protect_separator` -/
def protectSeparator (separator field : Bytes) : Bytes :=
  if (find separator field).isSome then quote :: substitute ⟨[quote], List.cons_ne_nil _ _⟩ [quote, quote] field ++ [quote] else field

/-- The loop of `CSVFileSink::handle_item`, with what is written before the next
field. -/
def writeFields (separator : Bytes) : Bytes → List Bytes → Bytes
  | _, [] => []
  | before, value :: row => before ++ escape [] (protectSeparator separator value) ++ writeFields separator separator row

/-- `CSVFileSink::handle_item`, for the fields of a row. -/
def handleItem (separator : Bytes) (row : List Bytes) : Bytes := writeFields separator [] row ++ [LF]

/-- `std::ispunct` -/
def isPunct (b : UInt8) : Bool := (0x21 ≤ b && b ≤ 0x7e) && !(isDigit b || isLower b || isUpper b)

/-- A character that separates columns. -/
structure Separator where
  char : UInt8
  punct : isPunct char = true
  ne_quote : char ≠ quote
  ne_backslash : char ≠ backslash

/-! ## Escapes -/

/-- The character that an escape begins with, and what follows it. -/
def unescapeFirst : Bytes → Option (UInt8 × Bytes)
  | [] => none
  | c :: s =>
    if c ≠ backslash then some (c, s)
    else
      match s with
      | [] => none
      | d :: s =>
        if d = 0x78 then
          match s with
          | [] => none
          | e :: s => if e = 0x37 then some (0x7f, s.tail) else some (e, s)
        else (escapeMap.find? fun entry => entry.2 == [backslash, d]).map fun entry => (entry.1, s)

theorem lookup_backslash : escapeMap.lookup backslash ≠ none := by decide

theorem unescapeFirst_entry {e : UInt8 × Bytes} (he : e ∈ escapeMap) (s : Bytes) : unescapeFirst (e.2 ++ s) = some (e.1, s) := by
  simp only [escapeMap, List.mem_cons, List.not_mem_nil, or_false] at he
  rcases he with rfl | rfl | rfl | rfl | rfl | rfl | rfl | rfl | rfl | rfl <;> rfl

theorem unescapeFirst_escapeByte (b : UInt8) (s : Bytes) : unescapeFirst (escapeByte [] b ++ s) = some (b, s) := by
  unfold escapeByte
  cases h : escapeMap.lookup b with
  | some text => exact unescapeFirst_entry (mem_of_lookup h) s
  | none =>
    have hb : b ≠ backslash := by
      rintro rfl
      exact lookup_backslash h
    dsimp only
    by_cases hcode : b < 0x20 ∨ 0x80 ≤ b
    · have hseven : b ≠ 0x37 := by
        rintro rfl
        revert hcode
        decide
      have hx : ascii "\\x" ++ [b] ++ s = backslash :: 0x78 :: b :: s := rfl
      rw [if_pos hcode, hx, unescapeFirst, if_neg (by simp)]
      simp [hseven]
    · rw [if_neg hcode, if_neg List.not_mem_nil, List.singleton_append]
      simp [unescapeFirst, hb]

theorem escapeByte_inj {b c : UInt8} {s t : Bytes} (h : escapeByte [] b ++ s = escapeByte [] c ++ t) : b = c ∧ s = t := by
  have heq := congrArg unescapeFirst h
  rw [unescapeFirst_escapeByte, unescapeFirst_escapeByte, Option.some.injEq, Prod.mk.injEq] at heq
  exact heq

theorem escape_inj {s t : Bytes} (h : escape [] s = escape [] t) : s = t := by
  induction s generalizing t with
  | nil =>
    cases t with
    | nil => rfl
    | cons c t =>
      rw [escape_cons] at h
      exact absurd (List.append_eq_nil_iff.mp h.symm).1 (escapeByte_ne_nil [] c)
  | cons b s ih =>
    cases t with
    | nil =>
      rw [escape_cons] at h
      exact absurd (List.append_eq_nil_iff.mp h).1 (escapeByte_ne_nil [] b)
    | cons c t =>
      rw [escape_cons, escape_cons] at h
      obtain ⟨rfl, hrest⟩ := escapeByte_inj h
      rw [ih hrest]

theorem LF_notMem_escape (s : Bytes) : LF ∉ escape [] s := by
  have hbyte : ∀ b, LF ∉ escapeByte [] b := by
    apply forall_byte
    decide +kernel
  intro h
  obtain ⟨b, -, hb⟩ := List.mem_flatMap.mp h
  exact hbyte b hb

/-! ## Quotes in pairs -/

/-- A text with two quotes for one. -/
def doubled (s : Bytes) : Bytes := s.flatMap fun b => if b = quote then [quote, quote] else [b]

theorem doubled_cons (b : UInt8) (s : Bytes) : doubled (b :: s) = (if b = quote then [quote, quote] else [b]) ++ doubled s :=
  List.flatMap_cons

theorem doubled_append (s t : Bytes) : doubled (s ++ t) = doubled s ++ doubled t := List.flatMap_append

/-- The end of a quoted text is at the first quote that is not one of a pair. -/
theorem doubled_inj {s t u v : Bytes} (hu : u.head? ≠ some quote) (hv : v.head? ≠ some quote)
    (h : doubled s ++ quote :: u = doubled t ++ quote :: v) : s = t ∧ u = v := by
  induction s generalizing t with
  | nil =>
    cases t with
    | nil => exact ⟨rfl, (List.cons.inj h).2⟩
    | cons c t =>
      rw [doubled_cons] at h
      by_cases hc : c = quote
      · rw [if_pos hc] at h
        have hrest := (List.cons.inj h).2
        rw [hrest] at hu
        exact absurd rfl hu
      · rw [if_neg hc] at h
        exact absurd (List.cons.inj h).1.symm hc
  | cons b s ih =>
    cases t with
    | nil =>
      rw [doubled_cons] at h
      by_cases hb : b = quote
      · rw [if_pos hb] at h
        have hrest := (List.cons.inj h).2
        rw [← hrest] at hv
        exact absurd rfl hv
      · rw [if_neg hb] at h
        exact absurd (List.cons.inj h).1 hb
    | cons c t =>
      rw [doubled_cons, doubled_cons] at h
      by_cases hb : b = quote
      · by_cases hc : c = quote
        · rw [if_pos hb, if_pos hc] at h
          obtain ⟨rfl, hrest⟩ := ih (List.cons.inj (List.cons.inj h).2).2
          exact ⟨by rw [hb, hc], hrest⟩
        · rw [if_pos hb, if_neg hc] at h
          exact absurd (List.cons.inj h).1.symm hc
      · by_cases hc : c = quote
        · rw [if_neg hb, if_pos hc] at h
          exact absurd (List.cons.inj h).1 hb
        · rw [if_neg hb, if_neg hc] at h
          obtain ⟨rfl, htail⟩ := List.cons.inj h
          obtain ⟨rfl, hrest⟩ := ih htail
          exact ⟨rfl, hrest⟩

/-! ## Fields -/

section
variable {sep : UInt8}

theorem find_isSome_iff (sep : UInt8) (s : Bytes) : (find [sep] s).isSome = true ↔ sep ∈ s := by
  induction s with
  | nil => simp [find]
  | cons b s ih =>
    by_cases h : b = sep
    · subst h
      simp [find_singleton_self]
    · rw [find_singleton_of_ne h, Option.isSome_map, ih, List.mem_cons]
      simp [Ne.symm h]

theorem protectSeparator_of_mem {f : Bytes} (h : sep ∈ f) : protectSeparator [sep] f = quote :: doubled f ++ [quote] := by
  rw [protectSeparator, if_pos ((find_isSome_iff sep f).mpr h), substitute_singleton]
  rfl

theorem protectSeparator_of_notMem {f : Bytes} (h : sep ∉ f) : protectSeparator [sep] f = f := by
  rw [protectSeparator, if_neg (mt (find_isSome_iff sep f).mp h)]

/-- Without the separator, and yet like the start of a field with it. -/
def Open (sep : UInt8) (f : Bytes) : Prop := sep ∉ f ∧ ∃ s, f = quote :: doubled s

/-- What is before the first separator. -/
theorem cut_inj {s t u v : Bytes} (hs : sep ∉ s) (ht : sep ∉ t) (h : s ++ sep :: u = t ++ sep :: v) : s = t ∧ u = v := by
  induction s generalizing t with
  | nil =>
    cases t with
    | nil => exact ⟨rfl, (List.cons.inj h).2⟩
    | cons c t => exact absurd ((List.cons.inj h).1 ▸ List.mem_cons_self) ht
  | cons b s ih =>
    cases t with
    | nil => exact absurd ((List.cons.inj h).1.symm ▸ List.mem_cons_self) hs
    | cons c t =>
      obtain ⟨rfl, htail⟩ := List.cons.inj h
      obtain ⟨rfl, hrest⟩ := ih (List.not_mem_of_not_mem_cons hs) (List.not_mem_of_not_mem_cons ht) htail
      exact ⟨rfl, hrest⟩

theorem doubled_notMem (hquote : sep ≠ quote) {s : Bytes} (h : sep ∉ s) : sep ∉ doubled s := by
  intro hmem
  obtain ⟨b, hb, hsep⟩ := List.mem_flatMap.mp hmem
  split_ifs at hsep with hq
  · simp [hquote] at hsep
  · rw [List.mem_singleton] at hsep
    exact h (hsep ▸ hb)

/-- What a field with the separator begins with is like an open field. -/
theorem eq_of_protected (hquote : sep ≠ quote) {f g u v : Bytes} (hf : sep ∈ f) (hg : sep ∉ g)
    (h : protectSeparator [sep] f ++ sep :: u = protectSeparator [sep] g ++ sep :: v) : Open sep g := by
  obtain ⟨s, t, rfl, hs⟩ := List.eq_append_cons_of_mem hf
  rw [protectSeparator_of_mem hf, protectSeparator_of_notMem hg, doubled_append, doubled_cons, if_neg hquote] at h
  have hcut : (quote :: doubled s) ++ sep :: (doubled t ++ quote :: sep :: u) = g ++ sep :: v := by simpa using h
  have hfirst : sep ∉ quote :: doubled s := by
    rw [List.mem_cons, not_or]
    exact ⟨hquote, doubled_notMem hquote hs⟩
  exact ⟨hg, s, (cut_inj hfirst hg hcut).1.symm⟩

theorem field_inj (hquote : sep ≠ quote) {f g u v : Bytes} (hf : ¬ Open sep f) (hg : ¬ Open sep g)
    (h : protectSeparator [sep] f ++ sep :: u = protectSeparator [sep] g ++ sep :: v) : f = g ∧ u = v := by
  by_cases hmem : sep ∈ f
  · by_cases hmem' : sep ∈ g
    · rw [protectSeparator_of_mem hmem, protectSeparator_of_mem hmem'] at h
      have hrest : doubled f ++ quote :: (sep :: u) = doubled g ++ quote :: (sep :: v) := by simpa using h
      obtain ⟨rfl, hsep⟩ := doubled_inj (by simp [hquote]) (by simp [hquote]) hrest
      exact ⟨rfl, (List.cons.inj hsep).2⟩
    · exact absurd (eq_of_protected hquote hmem hmem' h) hg
  · by_cases hmem' : sep ∈ g
    · exact absurd (eq_of_protected hquote hmem' hmem h.symm) hf
    · rw [protectSeparator_of_notMem hmem, protectSeparator_of_notMem hmem'] at h
      exact cut_inj hmem hmem' h

theorem mem_protectSeparator (sep : UInt8) (f : Bytes) : sep ∈ protectSeparator [sep] f ↔ sep ∈ f := by
  by_cases hmem : sep ∈ f
  · rw [protectSeparator_of_mem hmem, iff_true_right hmem]
    apply List.mem_append_left
    apply List.mem_cons_of_mem
    rw [doubled, List.mem_flatMap]
    refine ⟨sep, hmem, ?_⟩
    split_ifs with hq
    · simp [hq]
    · simp
  · rw [protectSeparator_of_notMem hmem]

theorem protectSeparator_inj {f g : Bytes} (h : protectSeparator [sep] f = protectSeparator [sep] g) : f = g := by
  have hiff : sep ∈ f ↔ sep ∈ g := by rw [← mem_protectSeparator sep f, h, mem_protectSeparator]
  by_cases hmem : sep ∈ f
  · rw [protectSeparator_of_mem hmem, protectSeparator_of_mem (hiff.mp hmem)] at h
    have hrest : doubled f ++ [quote] = doubled g ++ [quote] := by simpa using h
    exact (doubled_inj (by simp) (by simp) hrest).1
  · rw [protectSeparator_of_notMem hmem, protectSeparator_of_notMem (mt hiff.mpr hmem)] at h
    exact h

/-! ## Rows -/

/-- A row with a separator after every field. -/
def cells (sep : UInt8) (row : List Bytes) : Bytes := row.flatMap fun f => protectSeparator [sep] f ++ [sep]

theorem cells_cons (sep : UInt8) (f : Bytes) (row : List Bytes) : cells sep (f :: row) = protectSeparator [sep] f ++ sep :: cells sep row := by
  simp [cells]

theorem cells_inj (hquote : sep ≠ quote) {r₁ r₂ : List Bytes} (hlength : r₁.length = r₂.length) (h₁ : ∀ f ∈ r₁, ¬ Open sep f)
    (h₂ : ∀ f ∈ r₂, ¬ Open sep f) (h : cells sep r₁ = cells sep r₂) : r₁ = r₂ := by
  induction r₁ generalizing r₂ with
  | nil => exact (List.length_eq_zero_iff.mp hlength.symm).symm
  | cons f r₁ ih =>
    cases r₂ with
    | nil => cases hlength
    | cons g r₂ =>
      rw [List.forall_mem_cons] at h₁ h₂
      rw [cells_cons, cells_cons] at h
      obtain ⟨rfl, hrest⟩ := field_inj hquote h₁.1 h₂.1 h
      rw [ih (Nat.succ.inj hlength) h₁.2 h₂.2 hrest]

end

section
variable (sep : Separator)

theorem escape_separator (s : Bytes) : escape [] (sep.char :: s) = sep.char :: escape [] s := by
  have hbyte : ∀ b, isPunct b = true → b ≠ backslash → escapeByte [] b = [b] := by
    apply forall_byte
    decide +kernel
  rw [escape_cons, hbyte sep.char sep.punct sep.ne_backslash]
  rfl

theorem LF_ne_separator : LF ≠ sep.char := by
  intro h
  have hpunct := sep.punct
  rw [← h] at hpunct
  revert hpunct
  decide

theorem escape_append (s t : Bytes) : escape [] (s ++ t) = escape [] s ++ escape [] t := List.flatMap_append

theorem writeFields_append (before f : Bytes) (row : List Bytes) :
    writeFields [sep.char] before (f :: row) ++ [sep.char] = before ++ escape [] (cells sep.char (f :: row)) := by
  induction row generalizing before f with
  | nil =>
    have hsep : escape [] [sep.char] = [sep.char] := escape_separator sep []
    simp [writeFields, cells, escape_append, hsep]
  | cons g row ih =>
    rw [writeFields, List.append_assoc, ih, cells_cons sep.char f, escape_append, escape_separator]
    simp

theorem LF_notMem_writeFields {before : Bytes} (hbefore : LF ∉ before) (row : List Bytes) : LF ∉ writeFields [sep.char] before row := by
  induction row generalizing before with
  | nil => exact List.not_mem_nil
  | cons f row ih =>
    rw [writeFields, List.mem_append, List.mem_append, not_or, not_or]
    exact ⟨⟨hbefore, LF_notMem_escape _⟩, ih (by simpa using LF_ne_separator sep)⟩

theorem handleItem_eq_iff {r₁ r₂ : List Bytes} (hlength : r₁.length = r₂.length) :
    handleItem [sep.char] r₁ = handleItem [sep.char] r₂ ↔ cells sep.char r₁ = cells sep.char r₂ := by
  cases r₁ with
  | nil => rw [List.length_eq_zero_iff.mp hlength.symm, eq_self, eq_self]
  | cons f r₁ =>
    cases r₂ with
    | nil => cases hlength
    | cons g r₂ =>
      have hf := writeFields_append sep [] f r₁
      have hg := writeFields_append sep [] g r₂
      constructor
      · intro h
        rw [List.append_cancel_right h, hg] at hf
        exact (escape_inj hf).symm
      · intro h
        rw [h, ← hg] at hf
        rw [handleItem, handleItem, List.append_cancel_right hf]

end

/-! ## Telling rows apart -/

/-- A line break at the end, and nowhere else. -/
def OneLine (s : Bytes) : Prop := ∃ t, s = t ++ [LF] ∧ LF ∉ t

theorem handleItem_oneLine (sep : Separator) (row : List Bytes) : OneLine (handleItem [sep.char] row) :=
  ⟨_, rfl, LF_notMem_writeFields sep List.not_mem_nil row⟩

/-- No two rows of `n` fields are written alike. -/
def RowsApart (sep : Separator) (n : ℕ) : Prop :=
  ∀ r₁ r₂ : List Bytes, r₁.length = n → r₂.length = n → r₁ ≠ r₂ → handleItem [sep.char] r₁ ≠ handleItem [sep.char] r₂

theorem rowsApart_of_le {n : ℕ} (sep : Separator) (h : n ≤ 1) : RowsApart sep n := by
  intro r₁ r₂ h₁ h₂ hne heq
  apply hne
  have hcells := (handleItem_eq_iff sep (h₁.trans h₂.symm)).mp heq
  cases r₁ with
  | nil => exact (List.length_eq_zero_iff.mp (h₂.trans h₁.symm)).symm
  | cons f r₁ =>
    cases r₂ with
    | nil => exact absurd (h₁.trans h₂.symm) (by simp)
    | cons g r₂ =>
      rw [List.length_cons] at h₁ h₂
      obtain rfl : r₁ = [] := List.length_eq_zero_iff.mp (by omega)
      obtain rfl : r₂ = [] := List.length_eq_zero_iff.mp (by omega)
      rw [cells_cons, cells_cons] at hcells
      rw [protectSeparator_inj (List.append_cancel_right hcells)]

/-- An open field may be the start of a quoted one. -/
theorem exists_alike (sep : Separator) (n : ℕ) {f : Bytes} (hf : Open sep.char f) :
    ∃ r₁ r₂ : List Bytes, r₁.length = n + 2 ∧ r₂.length = n + 2 ∧ f ∈ r₁ ∧ r₁ ≠ r₂ ∧
      handleItem [sep.char] r₁ = handleItem [sep.char] r₂ := by
  obtain ⟨hmem, s, rfl⟩ := hf
  have hlast : sep.char ∈ s ++ [sep.char] := by simp
  have hquote : sep.char ∉ [quote] := by simpa using sep.ne_quote
  refine ⟨(quote :: doubled s) :: [sep.char] :: List.replicate n [], (s ++ [sep.char]) :: [quote] :: List.replicate n [],
    by simp, by simp, List.mem_cons_self, ?_, ?_⟩
  · intro heq
    rw [(List.cons.inj heq).1] at hmem
    exact hmem hlast
  · rw [handleItem_eq_iff sep (by simp)]
    simp only [cells_cons, protectSeparator_of_notMem hmem, protectSeparator_of_mem hlast, protectSeparator_of_notMem hquote,
      protectSeparator_of_mem (List.mem_singleton_self sep.char), doubled_append]
    simp [doubled, sep.ne_quote]

theorem not_rowsApart (sep : Separator) (n : ℕ) : ¬ RowsApart sep (n + 2) := by
  intro h
  have hopen : Open sep.char [quote] := ⟨by simpa using sep.ne_quote, [], rfl⟩
  obtain ⟨r₁, r₂, h₁, h₂, -, hne, heq⟩ := exists_alike sep n hopen
  exact h r₁ r₂ h₁ h₂ hne heq

/-- Rows without open fields are told apart. With two columns or more, every
open field is in a row that is written like another one. -/
theorem csv_rows_apart_iff (sep : Separator) (n : ℕ) :
    (∀ row : List Bytes, row.length = n → OneLine (handleItem [sep.char] row)) ∧
      (RowsApart sep n ↔ n ≤ 1) ∧
      (∀ r₁ r₂ : List Bytes, r₁.length = n → r₂.length = n → (∀ f ∈ r₁, ¬ Open sep.char f) → (∀ f ∈ r₂, ¬ Open sep.char f) →
        r₁ ≠ r₂ → handleItem [sep.char] r₁ ≠ handleItem [sep.char] r₂) ∧
      (2 ≤ n → ∀ f, Open sep.char f → ∃ r₁ r₂ : List Bytes, r₁.length = n ∧ r₂.length = n ∧ f ∈ r₁ ∧ r₁ ≠ r₂ ∧
        handleItem [sep.char] r₁ = handleItem [sep.char] r₂) := by
  refine ⟨fun row _ => handleItem_oneLine sep row, ?_, ?_, ?_⟩
  · constructor
    · intro h
      by_contra hlt
      obtain ⟨k, rfl⟩ := Nat.exists_eq_add_of_le' (not_le.mp hlt)
      exact not_rowsApart sep k h
    · exact rowsApart_of_le sep
  · intro r₁ r₂ h₁ h₂ hopen₁ hopen₂ hne heq
    have hlength := h₁.trans h₂.symm
    exact hne (cells_inj sep.ne_quote hlength hopen₁ hopen₂ ((handleItem_eq_iff sep hlength).mp heq))
  · intro hn f hf
    obtain ⟨k, rfl⟩ := Nat.exists_eq_add_of_le' hn
    exact exists_alike sep k hf

/-- A comma. -/
def comma : Separator := ⟨0x2c, by decide, by decide, by decide⟩

/-- Two columns, with a quote or a comma in each. -/
theorem csv_rows_alike : ¬ ∀ (sep : Separator) (n : ℕ), RowsApart sep n := fun h => not_rowsApart comma 0 (h comma 2)

end Csv

end CommonCore
