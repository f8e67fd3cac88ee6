import CommonCore.Variant

/-!
# Escaped strings

`core::str` puts a string in quotes and escapes what is in it, and takes both
off again. `std::quoted` has rules of its own.
-/

namespace CommonCore

def backslash : UInt8 := 0x5c

def quote : UInt8 := 0x22

def apostrophe : UInt8 := 0x27

def escapeMap : List (UInt8 × Bytes) :=
  [(0x00, ascii "\\0"), (backslash, ascii "\\\\"), (0x07, ascii "\\a"), (0x08, ascii "\\b"), (0x0c, ascii "\\f"),
    (0x0a, ascii "\\n"), (0x0d, ascii "\\r"), (0x09, ascii "\\t"), (0x0b, ascii "\\v"), (0x7f, ascii "\\x7f")]

/-- A `char` is signed, so that the upper half of the bytes is below a blank.
After `\x` comes the byte itself: `std::hex` is not for characters. -/
def escapeByte (extraEscapes : List UInt8) (b : UInt8) : Bytes :=
  match escapeMap.lookup b with
  | some text => text
  | none =>
    if b < 0x20 ∨ 0x80 ≤ b then ascii "\\x" ++ [b]
    else if b ∈ extraEscapes then [backslash, b]
    else [b]

def escape (extraEscapes : List UInt8) (s : Bytes) : Bytes := s.flatMap (escapeByte extraEscapes)

/-- `str::to_literal`. -/
def strToLiteral (s : Bytes) : Bytes := quote :: escape [quote] s ++ [quote]

/-- `std::quoted`. -/
def quoted (s : Bytes) : Bytes :=
  quote :: s.flatMap (fun b => if b = quote ∨ b = backslash then [backslash, b] else [b]) ++ [quote]

/-- The loop of `unquoted`, which has the surrounding quotes in its input. An
escape is forgotten before it is written, from an `optional` that is empty then. -/
def unquotedFrom (q : UInt8) : Bool → Bytes → Option Bytes
  | _, [] => some []
  | escape, c :: s =>
    if escape ∧ c ≠ q then none
    else if c = backslash then unquotedFrom q true s
    else (unquotedFrom q false s).map fun out => c :: out

def quoteChars : List UInt8 := [quote, apostrophe]

/-- `str::unquoted`. -/
def unquoted (input : Bytes) : Option Bytes :=
  match input.head?, input.getLast? with
  | some q, some r =>
    if 2 ≤ input.length ∧ q ∈ quoteChars ∧ r ∈ quoteChars then unquotedFrom q false input else some input
  | _, _ => some input

/-! ## Texts that replace characters by texts -/

theorem length_le_flatMap {α β : Type} {f : α → List β} (hf : ∀ a, f a ≠ []) (s : List α) :
    s.length ≤ (s.flatMap f).length := by
  induction s with
  | nil => exact Nat.le_refl 0
  | cons a s ih =>
    have := List.length_pos_iff.mpr (hf a)
    rw [List.flatMap_cons, List.length_append, List.length_cons]
    omega

/-- A text stays as it is if and only if each of its characters does. -/
theorem flatMap_eq_self_iff {α : Type} {f : α → List α} (hf : ∀ a, f a ≠ []) (s : List α) :
    s.flatMap f = s ↔ ∀ a ∈ s, f a = [a] := by
  induction s with
  | nil => simp
  | cons a s ih =>
    rw [List.flatMap_cons, List.forall_mem_cons, ← ih]
    constructor
    · intro h
      have hlength := congrArg List.length h
      have hpos := List.length_pos_iff.mpr (hf a)
      have hrest := length_le_flatMap hf s
      rw [List.length_append, List.length_cons] at hlength
      obtain ⟨c, hc⟩ := List.length_eq_one_iff.mp (show (f a).length = 1 by omega)
      rw [hc, List.singleton_append, List.cons.injEq] at h
      rw [hc, h.1]
      exact ⟨rfl, h.2⟩
    · rintro ⟨ha, hs⟩
      rw [ha, hs, List.singleton_append]

/-! ## What is left of a string -/

/-- Without a backslash in it a text stays as it is, quotes included. -/
theorem unquotedFrom_of_plain {q : UInt8} {s : Bytes} (hs : backslash ∉ s) : unquotedFrom q false s = some s := by
  induction s with
  | nil => rfl
  | cons c s ih =>
    rw [List.mem_cons, not_or] at hs
    unfold unquotedFrom
    rw [if_neg (by simp), if_neg (Ne.symm hs.1), ih hs.2]
    rfl

theorem unquoted_of_plain {s : Bytes} (hs : backslash ∉ s) : unquoted s = some s := by
  unfold unquoted
  split
  · split_ifs
    · exact unquotedFrom_of_plain hs
    · rfl
  · rfl

def Printable (b : UInt8) : Prop := 0x20 ≤ b ∧ b < 0x7f

instance (b : UInt8) : Decidable (Printable b) := inferInstanceAs (Decidable (_ ∧ _))

theorem forall_byte {p : UInt8 → Prop} (h : ∀ n < 256, p (UInt8.ofNat n)) (b : UInt8) : p b := by
  have hb := h b.toNat b.toNat_lt
  rwa [UInt8.ofNat_toNat] at hb

theorem escapeByte_of_printable :
    ∀ b, Printable b → escapeByte [quote] b = if b = backslash ∨ b = quote then [backslash, b] else [b] := by
  apply forall_byte
  decide +kernel

theorem mem_of_lookup {α β : Type*} [BEq α] [LawfulBEq α] {table : List (α × β)} {key : α} {value : β}
    (h : table.lookup key = some value) : (key, value) ∈ table := by
  obtain ⟨l₁, l₂, htable, -⟩ := List.lookup_eq_some_iff.mp h
  rw [htable]
  exact List.mem_append_right _ List.mem_cons_self

theorem escapeByte_ne_nil (extra : List UInt8) (b : UInt8) : escapeByte extra b ≠ [] := by
  unfold escapeByte
  cases h : escapeMap.lookup b with
  | none =>
    simp only
    split_ifs <;> exact List.cons_ne_nil _ _
  | some text =>
    have hall : ∀ e ∈ escapeMap, e.2 ≠ [] := by decide
    exact hall (b, text) (mem_of_lookup h)

theorem length_strToLiteral (s : Bytes) : s.length + 2 ≤ (strToLiteral s).length := by
  have := length_le_flatMap (escapeByte_ne_nil [quote]) s
  unfold strToLiteral escape
  rw [List.length_append, List.length_cons, List.length_singleton]
  omega

theorem escape_cons {extra : List UInt8} (b : UInt8) (s : Bytes) :
    escape extra (b :: s) = escapeByte extra b ++ escape extra s := List.flatMap_cons

/-- The quotes stay, and a backslash cannot be unescaped. -/
theorem unquotedFrom_escape {s : Bytes} (hs : ∀ b ∈ s, Printable b) :
    unquotedFrom quote false (escape [quote] s ++ [quote]) =
      if backslash ∈ s then none else some (s ++ [quote]) := by
  induction s with
  | nil => rfl
  | cons b s ih =>
    rw [List.forall_mem_cons] at hs
    rw [escape_cons, escapeByte_of_printable b hs.1]
    by_cases hslash : b = backslash
    · rw [if_pos (.inl hslash), hslash, if_pos List.mem_cons_self]
      rfl
    · have hmem : backslash ∈ b :: s ↔ backslash ∈ s := by simp [Ne.symm hslash]
      have hplain : unquotedFrom quote false (b :: (escape [quote] s ++ [quote])) =
          if backslash ∈ b :: s then none else some (b :: s ++ [quote]) := by
        unfold unquotedFrom
        rw [if_neg (by simp), if_neg hslash, ih hs.2]
        simp only [hmem]
        split_ifs <;> rfl
      by_cases hquote : b = quote
      · rw [if_pos (.inr hquote), hquote]
        rw [hquote] at hplain
        exact hplain
      · rw [if_neg (not_or.mpr ⟨hslash, hquote⟩)]
        exact hplain

theorem unquoted_strToLiteral {s : Bytes} (hs : ∀ b ∈ s, Printable b) :
    unquoted (strToLiteral s) = if backslash ∈ s then none else some (quote :: s ++ [quote]) := by
  have hfirst : (strToLiteral s).head? = some quote := rfl
  have hlast : (strToLiteral s).getLast? = some quote := List.getLast?_concat
  have hlength : 2 ≤ (strToLiteral s).length := by
    unfold strToLiteral
    simp
  have hloop : unquotedFrom quote false (strToLiteral s) =
      (unquotedFrom quote false (escape [quote] s ++ [quote])).map (quote :: ·) := rfl
  unfold unquoted
  rw [hfirst, hlast]
  simp only [hlength, quoteChars, List.mem_cons, true_or, and_self, if_true, hloop, unquotedFrom_escape hs]
  split_ifs <;> rfl

end CommonCore
