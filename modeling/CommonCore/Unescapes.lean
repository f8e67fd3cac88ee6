import CommonCore.Escapes
import CommonCore.FromChars

/-!
# Escapes read back

`unescape` puts the digits after `\x` into a stream and takes a character from
there, not a number. The digit that it takes is the oldest one of the stream, so
that others are left there.
-/

namespace CommonCore

def unescapeMap : List (UInt8 × UInt8) :=
  [(0x61, 0x07), (0x65, 0x1b), (0x66, 0x0c), (0x6e, 0x0a), (0x72, 0x0d), (0x74, 0x09), (0x76, 0x0b)]

/-- What is put out for an escaped character that no digits follow. -/
def decoded (c : UInt8) : UInt8 := (unescapeMap.lookup c).getD c

/-- How many digits shall follow: after `x`, `X`, `u` and `U`. -/
def digitCounts : List (UInt8 × ℕ) := [(0x78, 2), (0x58, 2), (0x75, 4), (0x55, 8)]

/-- The variables of the loop. -/
structure Unescaping where
  escaped : Bool := false
  digitsRemaining : ℕ := 0
  ord : Bytes := []

/-- `ord >> value`, where `value` is a character. -/
def extractByte (ord : Bytes) : Option (UInt8 × Bytes) :=
  match ord.dropWhile isSpace with
  | [] => none
  | c :: ord => some (c, ord)

namespace Unescaping

/-- One character, and what is put out. With no character in the stream, that is
a variable without a value. -/
def step (st : Unescaping) (c : UInt8) : Option (Unescaping × Bytes) :=
  if st.escaped then
    match unescapeMap.lookup c, digitCounts.lookup c with
    | some b, _ => some ({ st with escaped := false }, [b])
    | none, some n => some ({ st with escaped := false, digitsRemaining := n }, [])
    | none, none => some ({ st with escaped := false }, [c])
  else if 0 < st.digitsRemaining then
    let ord := st.ord ++ [c]
    let digitsRemaining := st.digitsRemaining - 1
    if digitsRemaining % 2 = 0 then
      (extractByte ord).map fun r => ({ st with digitsRemaining, ord := r.2 }, [r.1])
    else some ({ st with digitsRemaining, ord }, [])
  else if c = backslash then some ({ st with escaped := true }, [])
  else some (st, [c])

def run : Unescaping → Bytes → Option (Unescaping × Bytes)
  | st, [] => some (st, [])
  | st, c :: input =>
    match st.step c with
    | none => none
    | some (st', o) => (st'.run input).map fun r => (r.1, o ++ r.2)

end Unescaping

/-- `str::unescaped`. -/
def unescaped (input : Bytes) : Option Bytes := (Unescaping.run {} input).map Prod.snd

/-- `str::escaped`. -/
def escaped (input : Bytes) : Bytes := escape [] input

/-- `str::from_literal`. -/
def strFromLiteral (input : Bytes) : Option Bytes :=
  let input := if input.head? = some quote then input.tail else input
  let input := if input.getLast? = some quote then input.dropLast else input
  unescaped input

/-! ## The texts of bytes -/

/-- A byte that is escaped by itself. -/
def Raw (b : UInt8) : Prop := escapeMap.lookup b = none ∧ (b < 0x20 ∨ 0x80 ≤ b)

instance (b : UInt8) : Decidable (Raw b) := inferInstanceAs (Decidable (_ ∧ _))

/-- The control characters that `unescape` knows by a letter, as `escape` does. -/
def namedControls : List UInt8 := [0x07, 0x09, 0x0a, 0x0b, 0x0c, 0x0d]

/-- A byte that comes back. -/
def Restorable (b : UInt8) : Prop := Printable b ∨ b ∈ namedControls

instance (b : UInt8) : Decidable (Restorable b) := inferInstanceAs (Decidable (_ ∨ _))

/-- A byte that no text comes back to. -/
def Unreachable (b : UInt8) : Prop := b ∈ [0x00, 0x08, 0x7f]

instance (b : UInt8) : Decidable (Unreachable b) := inferInstanceAs (Decidable (_ ∈ _))

/-- How the other bytes are escaped. -/
inductive EscapedAs (extra : List UInt8) : UInt8 → Bytes → Prop
  | plain {b} : Printable b → b ≠ backslash → EscapedAs extra b [b]
  | slash : EscapedAs extra backslash [backslash, backslash]
  | letter {b n} : decoded n = b → digitCounts.lookup n = none → n ≠ backslash → (n = b → b = quote ∧ quote ∈ extra) →
      EscapedAs extra b [backslash, n]
  | raw {b} : Raw b → EscapedAs extra b [backslash, 0x78, b]

/-- The kinds of bytes, one by one. -/
theorem byte_kinds : ∀ b, (Unreachable b ∨
    Printable b ∧ b ≠ backslash ∧ escapeMap.lookup b = none ∧ ¬ (b < 0x20 ∨ 0x80 ≤ b) ∨ b = backslash ∨
      b ∈ namedControls ∨ Raw b) ∧
    (Restorable b → ¬ Raw b ∧ ¬ Unreachable b) ∧ (Raw b → isSpace b = false) ∧ (decoded b = backslash → b = backslash) := by
  apply forall_byte
  decide +kernel

theorem escapeByte_cases {extra : List UInt8} (he : ∀ e ∈ extra, e = quote) {b : UInt8} (hb : ¬ Unreachable b) :
    EscapedAs extra b (escapeByte extra b) := by
  rcases (byte_kinds b).1 with h | ⟨hp, hslash, hnone, hin⟩ | rfl | h | h
  · exact absurd h hb
  · unfold escapeByte
    simp only [hnone, if_neg hin]
    split_ifs with hextra
    · obtain rfl := he b hextra
      exact .letter rfl rfl (by decide) fun _ => ⟨rfl, hextra⟩
    · exact .plain hp hslash
  · exact .slash
  · simp only [namedControls, List.mem_cons, List.not_mem_nil, or_false] at h
    rcases h with rfl | rfl | rfl | rfl | rfl | rfl <;> exact .letter rfl rfl (by decide) fun h => absurd h (by decide)
  · unfold escapeByte
    simp only [h.1, if_pos h.2]
    exact .raw h

/-- A byte whose escape is not read back. -/
theorem raw_of_not_restorable {b : UInt8} (hb : ¬ Unreachable b) (h : ¬ Restorable b) : Raw b := by
  rcases (byte_kinds b).1 with hu | ⟨hp, -⟩ | rfl | hn | hraw
  · exact absurd hu hb
  · exact absurd (.inl hp) h
  · exact absurd (.inl (by decide)) h
  · exact absurd (.inr hn) h
  · exact hraw

/-- The first byte of a string that is not read back. -/
theorem restorable_or {s : Bytes} (hs : ∀ b ∈ s, ¬ Unreachable b) :
    (∀ b ∈ s, Restorable b) ∨ ∃ p b t, s = p ++ b :: t ∧ (∀ c ∈ p, Restorable c) ∧ Raw b := by
  induction s with
  | nil => exact .inl nofun
  | cons b s ih =>
    rw [List.forall_mem_cons] at hs
    by_cases hb : Restorable b
    · rcases ih hs.2 with h | ⟨p, b', t, rfl, hp, hraw⟩
      · exact .inl (List.forall_mem_cons.mpr ⟨hb, h⟩)
      · exact .inr ⟨b :: p, b', t, rfl, List.forall_mem_cons.mpr ⟨hb, hp⟩, hraw⟩
    · exact .inr ⟨[], b, s, rfl, nofun, raw_of_not_restorable hs.1 hb⟩

theorem escapeByte_raw {extra : List UInt8} {b : UInt8} (hraw : Raw b) : escapeByte extra b = [backslash, 0x78, b] := by
  unfold escapeByte
  simp only [hraw.1, if_pos hraw.2]
  rfl

theorem escapeByte_quote {extra : List UInt8} (hq : quote ∈ extra) : escapeByte extra quote = [backslash, quote] := by
  unfold escapeByte
  exact if_pos hq

theorem unreachable_facts : ∀ u, Unreachable u → (∀ e ∈ escapeMap, u ∉ e.2) ∧ escapeMap.lookup u ≠ none ∧
    u ≠ backslash ∧ u ≠ 0x78 ∧ u ∉ 0x1b :: namedControls := by
  intro u hu
  have h : ∀ u ∈ ([0x00, 0x08, 0x7f] : List UInt8), (∀ e ∈ escapeMap, u ∉ e.2) ∧ escapeMap.lookup u ≠ none ∧
      u ≠ backslash ∧ u ≠ 0x78 ∧ u ∉ 0x1b :: namedControls := by decide +kernel
  exact h u hu

/-- The three bytes are in no text. -/
theorem not_mem_escapeByte {extra : List UInt8} {u : UInt8} (hu : Unreachable u) (b : UInt8) : u ∉ escapeByte extra b := by
  obtain ⟨htexts, hlookup, hslash, hx, -⟩ := unreachable_facts u hu
  unfold escapeByte
  cases htext : escapeMap.lookup b with
  | some text =>
    exact htexts (b, text) (mem_of_lookup htext)
  | none =>
    have hb : u ≠ b := by
      rintro rfl
      exact hlookup htext
    have hmark : ascii "\\x" = [backslash, 0x78] := rfl
    dsimp only
    split_ifs <;> simp [hmark, hb, hslash, hx]

/-! ## The loop on parts of a text -/

namespace Unescaping

variable {st st' : Unescaping} {ord : Bytes} {c : UInt8}

theorem run_cons {input out : Bytes} : st.run (c :: input) = some (st', out) ↔
    ∃ st₁ o o', st.step c = some (st₁, o) ∧ st₁.run input = some (st', o') ∧ out = o ++ o' := by
  rw [run]
  cases hstep : st.step c with
  | none => simp
  | some r =>
    rw [Option.map_eq_some_iff]
    constructor
    · rintro ⟨r', hrun, heq⟩
      obtain ⟨rfl, rfl⟩ := Prod.mk.inj heq
      exact ⟨r.1, r.2, r'.2, rfl, hrun, rfl⟩
    · rintro ⟨st₁, o, o', heq, hrun, rfl⟩
      cases heq
      exact ⟨_, hrun, rfl⟩

theorem run_append {x y out : Bytes} : st.run (x ++ y) = some (st', out) ↔
    ∃ st₁ o o', st.run x = some (st₁, o) ∧ st₁.run y = some (st', o') ∧ out = o ++ o' := by
  induction x generalizing st out with
  | nil => exact ⟨fun h => ⟨st, [], out, rfl, h, rfl⟩, fun ⟨_, _, _, h, h', heq⟩ => by cases h; rw [heq]; exact h'⟩
  | cons c x ih =>
    rw [List.cons_append, run_cons]
    constructor
    · rintro ⟨st₁, o, o', hstep, hrun, rfl⟩
      obtain ⟨st₂, o₂, o₂', hx, hy, rfl⟩ := ih.mp hrun
      exact ⟨st₂, o ++ o₂, o₂', run_cons.mpr ⟨st₁, o, o₂, hstep, hx, rfl⟩, hy, (List.append_assoc ..).symm⟩
    · rintro ⟨st₂, o₀, o₂', hcons, hy, rfl⟩
      obtain ⟨st₁, o, o₂, hstep, hx, rfl⟩ := run_cons.mp hcons
      exact ⟨st₁, o, o₂ ++ o₂', hstep, ih.mpr ⟨st₂, o₂, o₂', hx, hy, rfl⟩, (List.append_assoc ..)⟩

/-! ### One character -/

theorem step_clean (hc : c ≠ backslash) : step ⟨false, 0, ord⟩ c = some (⟨false, 0, ord⟩, [c]) := by
  simp [step, hc]

theorem step_slash : step ⟨false, 0, ord⟩ backslash = some (⟨true, 0, ord⟩, []) := by
  simp [step]

theorem step_escaped (hc : digitCounts.lookup c = none) : step ⟨true, 0, ord⟩ c = some (⟨false, 0, ord⟩, [decoded c]) := by
  unfold step decoded
  simp only [if_true]
  cases unescapeMap.lookup c with
  | some b => rfl
  | none => simp [hc]

theorem step_digit : step ⟨false, 2, ord⟩ c = some (⟨false, 1, ord ++ [c]⟩, []) := by
  simp [step]

/-- The last digit takes one out of the stream. -/
theorem step_last {o : Bytes} : step ⟨false, 1, ord⟩ c = some (st', o) ↔
    ∃ v ord', extractByte (ord ++ [c]) = some (v, ord') ∧ st' = ⟨false, 0, ord'⟩ ∧ o = [v] := by
  simp only [step, Bool.false_eq_true, if_false, Nat.zero_lt_one, if_true, Nat.sub_self, Nat.zero_mod,
    Option.map_eq_some_iff, Prod.mk.injEq]
  constructor
  · rintro ⟨⟨v, ord'⟩, hv, rfl, rfl⟩
    exact ⟨v, ord', hv, rfl, rfl⟩
  · rintro ⟨v, ord', hv, rfl, rfl⟩
    exact ⟨(v, ord'), hv, rfl, rfl⟩

/-! ### What is not put out -/

theorem extractByte_sublist {v : UInt8} {ord' : Bytes} (h : extractByte ord = some (v, ord')) : (v :: ord').Sublist ord := by
  unfold extractByte at h
  split at h
  · cases h
  · rename_i c rest hdrop
    cases h
    rw [← hdrop]
    exact List.dropWhile_sublist isSpace

theorem extractByte_raw {b : UInt8} (h : Raw b) : extractByte (b :: ord) = some (b, ord) := by
  unfold extractByte
  rw [List.dropWhile_cons_of_neg (by simp [(byte_kinds b).2.2.1 h])]

/-- A character that is no escape for another is put out once at most. -/
theorem count_step {o : Bytes} (h : st.step c = some (st', o)) {b : UInt8} (hb : b ∉ 0x1b :: namedControls) :
    o.count b + st'.ord.count b ≤ [c].count b + st.ord.count b := by
  have hmap : ∀ c v, unescapeMap.lookup c = some v → v ≠ b := by
    rintro c v hv rfl
    have hall : ∀ e ∈ unescapeMap, e.2 ∈ 0x1b :: namedControls := by simp [unescapeMap, namedControls]
    exact hb (hall (c, v) (mem_of_lookup hv))
  unfold step at h
  dsimp only at h
  split_ifs at h
  · split at h
    · rename_i v hv
      cases h
      simp [List.count_cons, hmap _ _ hv]
    · cases h
      simp
    · cases h
      simp
  · obtain ⟨⟨v, ord'⟩, hv, heq⟩ := Option.map_eq_some_iff.mp h
    cases heq
    have hle := (extractByte_sublist hv).count_le b
    rw [List.count_append, List.count_cons] at hle
    rw [List.count_singleton]
    dsimp only
    omega
  · cases h
    simp [Nat.add_comm]
  · cases h
    simp
  · cases h
    simp

theorem count_run {input out : Bytes} (h : st.run input = some (st', out)) {b : UInt8} (hb : b ∉ 0x1b :: namedControls) :
    out.count b + st'.ord.count b ≤ input.count b + st.ord.count b := by
  induction input generalizing st out with
  | nil =>
    cases h
    exact Nat.le_refl _
  | cons c input ih =>
    obtain ⟨st₁, o, o', hstep, hrun, rfl⟩ := run_cons.mp h
    have hfirst := count_step hstep hb
    have hrest := ih hrun
    rw [List.count_append, ← List.singleton_append, List.count_append]
    omega

/-! ### Bytes that come back -/

theorem run_plain (hc : c ≠ backslash) : run ⟨false, 0, ord⟩ [c] = some (⟨false, 0, ord⟩, [c]) := by
  simp [run, step_clean hc]

theorem run_slash : run ⟨false, 0, ord⟩ [backslash, backslash] = some (⟨false, 0, ord⟩, [backslash]) := rfl

theorem run_letter (hc : digitCounts.lookup c = none) :
    run ⟨false, 0, ord⟩ [backslash, c] = some (⟨false, 0, ord⟩, [decoded c]) := by
  simp [run, step_slash, step_escaped hc]

theorem run_raw : run ⟨false, 0, ord⟩ [backslash, 0x78, c] = some (⟨false, 1, ord ++ [c]⟩, []) := by
  have hx : Unescaping.step ⟨true, 0, ord⟩ 0x78 = some (⟨false, 2, ord⟩, []) := rfl
  simp [run, step_slash, hx, step_digit]

/-- After one more digit, a character comes out of the stream. -/
theorem run_one {input out : Bytes} : run ⟨false, 1, ord⟩ (c :: input) = some (st', out) ↔
    ∃ v ord' o, extractByte (ord ++ [c]) = some (v, ord') ∧ run ⟨false, 0, ord'⟩ input = some (st', o) ∧ out = v :: o := by
  rw [run_cons]
  constructor
  · rintro ⟨st₁, o, o', hstep, hrun, rfl⟩
    obtain ⟨v, ord', hv, rfl, rfl⟩ := step_last.mp hstep
    exact ⟨v, ord', o', hv, hrun, rfl⟩
  · rintro ⟨v, ord', o, hv, hrun, rfl⟩
    exact ⟨_, _, o, step_last.mpr ⟨v, ord', hv, rfl, rfl⟩, hrun, rfl⟩

/-- Of the escapes with digits, `\x` and `\X`. -/
theorem digitCounts_two {b : UInt8} {n : ℕ} (h : digitCounts.lookup b = some n) (hb : b ≠ 0x75 ∧ b ≠ 0x55) :
    n = 2 ∧ unescapeMap.lookup b = none := by
  have hin : (b, n) ∈ digitCounts := mem_of_lookup h
  simp only [digitCounts, List.mem_cons, Prod.mk.injEq, List.not_mem_nil, or_false] at hin
  rcases hin with ⟨rfl, rfl⟩ | ⟨rfl, rfl⟩ | ⟨h, -⟩ | ⟨h, -⟩
  · exact ⟨rfl, rfl⟩
  · exact ⟨rfl, rfl⟩
  · exact absurd h hb.1
  · exact absurd h hb.2

theorem run_digits {n : ℕ} (h : digitCounts.lookup c = some n) (hc : c ≠ 0x75 ∧ c ≠ 0x55) :
    run ⟨true, 0, ord⟩ [c] = some (⟨false, 2, ord⟩, []) := by
  obtain ⟨rfl, hnone⟩ := digitCounts_two h hc
  have hstep : Unescaping.step ⟨true, 0, ord⟩ c = some (⟨false, 2, ord⟩, []) := by
    simp [Unescaping.step, hnone, h]
  simp [run, hstep]

theorem run_two {input : Bytes} : run ⟨false, 2, ord⟩ (c :: input) = run ⟨false, 1, ord ++ [c]⟩ input := by
  rw [run, step_digit]
  simp

theorem run_escaped (hc : digitCounts.lookup c = none) {input out : Bytes}
    (h : run ⟨true, 0, ord⟩ (c :: input) = some (st', out)) :
    ∃ o, run ⟨false, 0, ord⟩ input = some (st', o) ∧ out = decoded c :: o := by
  obtain ⟨st₁, o, o', hstep, hrun, rfl⟩ := run_cons.mp h
  rw [step_escaped hc] at hstep
  cases hstep
  exact ⟨o', hrun, rfl⟩

theorem run_text (hc : c ≠ backslash) : run ⟨false, 0, ord⟩ [0x78, c] = some (⟨false, 0, ord⟩, [0x78, c]) := by
  have hx : Unescaping.step ⟨false, 0, ord⟩ 0x78 = some (⟨false, 0, ord⟩, [0x78]) := rfl
  simp [run, hx, step_clean hc]

theorem run_escapeByte {extra : List UInt8} (he : ∀ e ∈ extra, e = quote) {b : UInt8} (hb : Restorable b) :
    run ⟨false, 0, ord⟩ (escapeByte extra b) = some (⟨false, 0, ord⟩, [b]) := by
  obtain ⟨hraw, hreach⟩ := (byte_kinds b).2.1 hb
  have hcases := escapeByte_cases he hreach
  generalize escapeByte extra b = text at hcases ⊢
  cases hcases with
  | plain hp hslash => simp [run, step_clean hslash]
  | slash => rfl
  | letter hn hdigits => simp [run, step_slash, step_escaped hdigits, hn]
  | raw h => exact absurd h hraw

theorem run_escape {extra : List UInt8} (he : ∀ e ∈ extra, e = quote) {s : Bytes} (hs : ∀ b ∈ s, Restorable b) :
    run ⟨false, 0, ord⟩ (escape extra s) = some (⟨false, 0, ord⟩, s) := by
  induction s with
  | nil => rfl
  | cons b s ih =>
    rw [List.forall_mem_cons] at hs
    rw [escape_cons, run_append]
    exact ⟨_, _, _, run_escapeByte he hs.1, ih hs.2, rfl⟩

end Unescaping

theorem reachable_of_run {extra : List UInt8} {st st' : Unescaping} {s out : Bytes}
    (hrun : st.run (escape extra s) = some (st', out)) (hord : st.ord = []) : ∀ b ∈ out, ¬ Unreachable b := by
  intro b hb hu
  obtain ⟨-, -, -, -, hnamed⟩ := unreachable_facts b hu
  have hcount := Unescaping.count_run hrun hnamed
  have hnone : (escape extra s).count b = 0 := by
    rw [List.count_eq_zero]
    intro hin
    obtain ⟨c, -, hc⟩ := List.mem_flatMap.mp hin
    exact not_mem_escapeByte hu c hc
  have hpos := List.count_pos_iff.mpr hb
  rw [hnone, hord, List.count_nil] at hcount
  omega

/-! ## Where the output has fallen behind -/

/-- Two bytes or more, and not two of which the second is the `x` of an escape. -/
def Far (pending : Bytes) : Prop := 2 ≤ pending.length ∧ ∀ c, pending ≠ [c, 0x78]

/-- The loop still has to put out `pending`, of the bytes whose texts it has read.
It never gets through with it. -/
inductive Behind : Unescaping → Bytes → Prop
  | clean {ord pending} : 1 ≤ pending.length → Behind ⟨false, 0, ord⟩ pending
  | escaped {ord pending} : Far pending → Behind ⟨true, 0, ord⟩ pending
  | one {ord pending} : Far pending → Behind ⟨false, 1, ord⟩ pending
  | two {ord pending} : 2 ≤ pending.length → Behind ⟨false, 2, ord⟩ pending

theorem Behind.pos {st : Unescaping} {pending : Bytes} (h : Behind st pending) : 1 ≤ pending.length := by
  cases h with
  | clean hl => exact hl
  | escaped hfar | one hfar => exact Nat.le_of_succ_le hfar.1
  | two hl => exact Nat.le_of_succ_le hl

/-- What is put out is what is pending. -/
theorem pending_of_prefix {o out pending s : Bytes} (h : o ++ out = pending ++ s) (hl : o.length ≤ pending.length) :
    ∃ pending', pending = o ++ pending' := by
  have hprefix : o <+: pending ++ s := ⟨out, h⟩
  obtain ⟨pending', heq⟩ := List.prefix_of_prefix_length_le hprefix (List.prefix_append pending s) hl
  exact ⟨pending', heq.symm⟩

/-- A text `\x` comes too early for what is pending. -/
theorem Far.three_le {pending s out : Bytes} {v b : UInt8} (h : Far pending) (heq : v :: 0x78 :: b :: out = pending ++ s) :
    3 ≤ pending.length := by
  obtain ⟨hl, hx⟩ := h
  by_contra hlt
  obtain ⟨c, d, rfl⟩ := List.length_eq_two.mp (show pending.length = 2 by omega)
  rw [List.cons_append, List.cons_append, List.cons.injEq, List.cons.injEq] at heq
  exact hx c (by rw [← heq.2.1])

theorem far_of_three {pending : Bytes} (h : 3 ≤ pending.length) : Far pending := by
  refine ⟨by omega, ?_⟩
  rintro c rfl
  simp at h

theorem far_append {pending : Bytes} {b : UInt8} (hl : 1 ≤ pending.length) (hb : b ≠ 0x78) : Far (pending ++ [b]) := by
  refine ⟨by simpa using hl, fun c h => hb ?_⟩
  have hlast := congrArg List.getLast? h
  rw [List.getLast?_concat] at hlast
  exact Option.some.inj hlast

theorem Raw.ne_of_printable {b c : UInt8} (hb : Raw b) (hc : Printable c) : b ≠ c := by
  rintro rfl
  exact ((byte_kinds b).2.1 (.inl hc)).1 hb

theorem far_of_cons {v b : UInt8} {pending : Bytes} (h : Far (v :: pending)) (hb : b ≠ 0x78) : Far (pending ++ [b]) :=
  far_append (Nat.le_of_succ_le_succ h.1) hb

section
open Unescaping

variable {extra : List UInt8} (he : ∀ e ∈ extra, e = quote)
include he

variable {ord o out pending s : Bytes} {b : UInt8} {st st' : Unescaping}

theorem Behind.step (h : Behind st pending) (hb : ¬ Unreachable b)
    (hwide : st.escaped = true → b ≠ 0x75 ∧ b ≠ 0x55) (hrun : st.run (escapeByte extra b) = some (st', o))
    (heq : o ++ out = pending ++ b :: s) : ∃ pending', pending ++ [b] = o ++ pending' ∧ Behind st' pending' := by
  have hcases := escapeByte_cases he hb
  generalize escapeByte extra b = text at hcases hrun
  -- It is enough that something stays pending.
  have hclean : ∀ {ord}, st' = ⟨false, 0, ord⟩ → o.length ≤ pending.length →
      ∃ pending', pending ++ [b] = o ++ pending' ∧ Behind st' pending' := by
    rintro ord rfl hl
    obtain ⟨pending', rfl⟩ := pending_of_prefix heq hl
    exact ⟨pending' ++ [b], List.append_assoc .., .clean (by simp)⟩
  cases h with
  | @clean ord pending hl =>
    cases hcases with
    | plain hp hslash =>
      rw [run_plain hslash] at hrun
      cases hrun
      exact hclean rfl hl
    | slash =>
      rw [run_slash] at hrun
      cases hrun
      exact hclean rfl hl
    | letter hn hdigits =>
      rw [run_letter hdigits] at hrun
      cases hrun
      exact hclean rfl hl
    | raw hraw =>
      rw [run_raw] at hrun
      cases hrun
      exact ⟨_, rfl, .one (far_append hl (hraw.ne_of_printable (by decide)))⟩
  | @escaped ord pending hfar =>
    cases hcases with
    | plain hp hslash =>
      cases hdigits : digitCounts.lookup b with
      | none =>
        obtain ⟨o, hrest, rfl⟩ := run_escaped hdigits hrun
        cases hrest
        exact hclean rfl (Nat.le_of_succ_le hfar.1)
      | some n =>
        rw [run_digits hdigits (hwide rfl)] at hrun
        cases hrun
        exact ⟨_, rfl, .two (by have := hfar.1; simp; omega)⟩
    | slash =>
      obtain ⟨o, hrest, rfl⟩ := run_escaped rfl hrun
      cases hrest
      obtain ⟨pending', rfl⟩ := pending_of_prefix heq (Nat.le_of_succ_le hfar.1)
      exact ⟨_, rfl, .escaped (far_of_cons hfar (by decide))⟩
    | letter hn hdigits hne =>
      obtain ⟨o, hrest, rfl⟩ := run_escaped rfl hrun
      rw [run_plain hne] at hrest
      cases hrest
      exact hclean rfl hfar.1
    | raw hraw =>
      obtain ⟨o, hrest, rfl⟩ := run_escaped rfl hrun
      rw [run_text (hraw.ne_of_printable (by decide))] at hrest
      cases hrest
      exact hclean rfl (hfar.three_le heq)
  | @one ord pending hfar =>
    cases hcases with
    | plain hp hslash =>
      obtain ⟨v, ord', o, -, hrest, rfl⟩ := run_one.mp hrun
      cases hrest
      exact hclean rfl (Nat.le_of_succ_le hfar.1)
    | slash =>
      obtain ⟨v, ord', o, -, hrest, rfl⟩ := run_one.mp hrun
      cases hrest
      obtain ⟨pending', rfl⟩ := pending_of_prefix heq (Nat.le_of_succ_le hfar.1)
      exact ⟨_, rfl, .escaped (far_of_cons hfar (by decide))⟩
    | letter hn hdigits hne =>
      obtain ⟨v, ord', o, -, hrest, rfl⟩ := run_one.mp hrun
      rw [run_plain hne] at hrest
      cases hrest
      exact hclean rfl hfar.1
    | raw hraw =>
      obtain ⟨v, ord', o, -, hrest, rfl⟩ := run_one.mp hrun
      rw [run_text (hraw.ne_of_printable (by decide))] at hrest
      cases hrest
      exact hclean rfl (hfar.three_le heq)
  | @two ord pending hl =>
    cases hcases with
    | plain hp hslash =>
      rw [run_two] at hrun
      cases hrun
      exact ⟨_, rfl, .one (far_of_three (by simpa using hl))⟩
    | slash =>
      rw [run_two] at hrun
      obtain ⟨v, ord', o, -, hrest, rfl⟩ := run_one.mp hrun
      cases hrest
      exact hclean rfl (Nat.le_of_succ_le hl)
    | letter hn hdigits hne =>
      rw [run_two] at hrun
      obtain ⟨v, ord', o, -, hrest, rfl⟩ := run_one.mp hrun
      cases hrest
      exact hclean rfl (Nat.le_of_succ_le hl)
    | raw hraw =>
      rw [run_two] at hrun
      obtain ⟨v, ord', o, -, hrest, rfl⟩ := run_one.mp hrun
      rw [run_plain (hraw.ne_of_printable (by decide))] at hrest
      cases hrest
      exact hclean rfl hl

/-- A text has no more of the letters that ask for many digits than what it is for. -/
theorem count_escapeByte_le (hb : ¬ Unreachable b) {c : UInt8} (hc : c = 0x75 ∨ c = 0x55) :
    (escapeByte extra b).count c ≤ [b].count c := by
  have hslash : c ≠ backslash := by rcases hc with rfl | rfl <;> decide
  have hx : c ≠ 0x78 := by rcases hc with rfl | rfl <;> decide
  have hcases := escapeByte_cases he hb
  generalize escapeByte extra b = text at hcases ⊢
  cases hcases with
  | plain => exact Nat.le_refl _
  | slash => simp [hslash.symm]
  | @letter _ n hn hdigits =>
    have hne : n ≠ c := by
      rintro rfl
      rcases hc with rfl | rfl <;> cases hdigits
    simp [List.count_cons, hslash.symm, hne]
  | raw hraw => simp [List.count_cons, hslash.symm, hx.symm]

theorem count_escape_le (hs : ∀ b ∈ s, ¬ Unreachable b) {c : UInt8} (hc : c = 0x75 ∨ c = 0x55) :
    (escape extra s).count c ≤ s.count c := by
  induction s with
  | nil => exact Nat.le_refl _
  | cons b s ih =>
    rw [List.forall_mem_cons] at hs
    rw [escape_cons, List.count_append, ← List.singleton_append, List.count_append]
    exact Nat.add_le_add (count_escapeByte_le he hs.1 hc) (ih hs.2)

theorem escapeByte_wide {c : UInt8} (hc : c = 0x75 ∨ c = 0x55) : escapeByte extra c = [c] := by
  have hnot : c ∉ extra := fun h => by
    have hquote := he c h
    rcases hc with rfl | rfl <;> cases hquote
  unfold escapeByte
  rcases hc with rfl | rfl <;> exact if_neg hnot

/-- Such a letter is not escaped, as it would not be put out. -/
theorem not_wide (hs : ∀ b ∈ s, ¬ Unreachable b) (hord : ∀ c, c = 0x75 ∨ c = 0x55 → ord.count c ≤ pending.count c)
    {c : UInt8} (hc : c = 0x75 ∨ c = 0x55) (hrun : run ⟨true, 0, ord⟩ (escape extra (c :: s)) = some (st', out)) :
    out ≠ pending ++ c :: s := by
  rw [escape_cons, escapeByte_wide he hc, List.singleton_append] at hrun
  obtain ⟨st₁, o, o', hstep, hrest, rfl⟩ := run_cons.mp hrun
  have hfirst : st₁.ord = ord ∧ o = [] := by
    rcases hc with rfl | rfl <;> cases hstep <;> exact ⟨rfl, rfl⟩
  have hb : c ∉ 0x1b :: namedControls := by
    rcases hc with rfl | rfl <;> simp [namedControls]
  have hcount := count_run hrest hb
  have hle := count_escape_le he hs hc
  have hpending := hord c hc
  rw [hfirst.1] at hcount
  rw [hfirst.2, List.nil_append]
  rintro rfl
  rw [List.count_append, List.count_cons_self] at hcount
  omega

/-- What is behind with the output does not get the whole string out. -/
theorem Behind.lost (h : Behind st pending) (hs : ∀ b ∈ s, ¬ Unreachable b)
    (hord : ∀ c, c = 0x75 ∨ c = 0x55 → st.ord.count c ≤ pending.count c)
    (hrun : st.run (escape extra s) = some (st', out)) : out ≠ pending ++ s := by
  induction s generalizing st pending out with
  | nil =>
    have hpos := h.pos
    cases hrun
    rintro heq
    rw [List.append_nil] at heq
    rw [← heq] at hpos
    cases hpos
  | cons b s ih =>
    rw [List.forall_mem_cons] at hs
    intro heq
    have hwide : st.escaped = true → b ≠ 0x75 ∧ b ≠ 0x55 := by
      intro hescaped
      rw [← not_or]
      intro hb
      cases h with
      | escaped => exact not_wide he hs.2 hord hb hrun heq
      | clean | one | two => cases hescaped
    rw [escape_cons] at hrun
    obtain ⟨st₁, o, o', hfirst, hrest, rfl⟩ := run_append.mp hrun
    obtain ⟨pending', hsplit, hbehind⟩ := h.step he hs.1 hwide hfirst heq
    refine ih hbehind hs.2 (fun c hc => ?_) hrest ?_
    · have hb : c ∉ 0x1b :: namedControls := by
        rcases hc with rfl | rfl <;> simp [namedControls]
      have hcount := count_run hfirst hb
      have hle := count_escapeByte_le he hs.1 hc
      have hpending := hord c hc
      have htotal := congrArg (List.count c) hsplit
      rw [List.count_append, List.count_append] at htotal
      omega
    · rw [← List.singleton_append, ← List.append_assoc, hsplit, List.append_assoc] at heq
      exact List.append_cancel_left heq

/-! ## What comes back -/

/-- Up to a byte that is escaped by itself. -/
theorem run_to_raw {p t : Bytes} (hp : ∀ c ∈ p, Restorable c) (hraw : Raw b) :
    run ⟨false, 0, ord⟩ (escape extra (p ++ b :: t)) = some (st', out) ↔
      ∃ out', run ⟨false, 1, ord ++ [b]⟩ (escape extra t) = some (st', out') ∧ out = p ++ out' := by
  have hsplit : escape extra (p ++ b :: t) = escape extra p ++ (escapeByte extra b ++ escape extra t) := by
    rw [← escape_cons]
    exact List.flatMap_append
  rw [hsplit, run_append]
  constructor
  · rintro ⟨st₁, o, o', hfirst, hrest, rfl⟩
    rw [run_escape he hp] at hfirst
    cases hfirst
    obtain ⟨st₂, o₂, out', hb, ht, rfl⟩ := run_append.mp hrest
    rw [escapeByte_raw hraw, run_raw] at hb
    cases hb
    exact ⟨out', ht, rfl⟩
  · rintro ⟨out', ht, rfl⟩
    refine ⟨_, _, out', run_escape he hp, run_append.mpr ⟨_, [], out', ?_, ht, rfl⟩, rfl⟩
    rw [escapeByte_raw hraw, run_raw]

/-- With a backslash left in the stream, no such byte is read back. -/
theorem restorable_of_slash (hs : ∀ b ∈ s, ¬ Unreachable b)
    (hrun : run ⟨false, 0, [backslash]⟩ (escape extra s) = some (st', s)) : ∀ b ∈ s, Restorable b := by
  rcases restorable_or hs with h | ⟨p, b, t, rfl, hp, hraw⟩
  · exact h
  · exfalso
    obtain ⟨out, hrest, heq⟩ := (run_to_raw he hp hraw).mp hrun
    obtain rfl := List.append_cancel_left heq
    cases t with
    | nil => cases hrest
    | cons c t =>
      rw [escape_cons] at hrest
      obtain ⟨d, text, htext⟩ := List.exists_cons_of_ne_nil (escapeByte_ne_nil extra c)
      rw [htext, List.cons_append] at hrest
      obtain ⟨v, ord', o, hv, -, heq⟩ := run_one.mp hrest
      cases hv
      obtain ⟨rfl, -⟩ := List.cons.inj heq
      exact hraw.ne_of_printable (by decide) rfl

/-- Escaped backslashes are put out one after another when they are read from
their second halves on, until a quote. -/
theorem run_slashes (hq : quote ∈ extra) {k : ℕ} {t : Bytes} (ht : ∀ b ∈ t, Restorable b) :
    run ⟨true, 0, ord⟩ (escape extra (List.replicate k backslash ++ quote :: t)) =
      some (⟨false, 0, ord⟩, backslash :: (List.replicate k backslash ++ quote :: t)) := by
  induction k with
  | zero =>
    rw [List.replicate_zero, List.nil_append, escape_cons, escapeByte_quote hq, run_append]
    exact ⟨⟨false, 0, ord⟩, [backslash, quote], t, rfl, run_escape he ht, rfl⟩
  | succ k ih =>
    rw [List.replicate_succ, List.cons_append, escape_cons, run_append]
    exact ⟨⟨true, 0, ord⟩, [backslash], _, rfl, ih, rfl⟩

/-- Backslashes up to a quote, and then bytes that come back. -/
def Closes (extra : List UInt8) (s : Bytes) : Prop :=
  quote ∈ extra ∧ ∃ k t, s = List.replicate k backslash ++ quote :: t ∧ ∀ b ∈ t, Restorable b

theorem closes_of_slash (hs : ∀ b ∈ s, ¬ Unreachable b)
    (hrun : run ⟨true, 0, [backslash]⟩ (escape extra s) = some (st', backslash :: s)) : Closes extra s := by
  induction s with
  | nil => cases hrun
  | cons b s ih =>
    have hord : ∀ c, c = 0x75 ∨ c = 0x55 → ([backslash] : Bytes).count c ≤ ([backslash] : Bytes).count c := fun _ _ => le_rfl
    rw [List.forall_mem_cons] at hs
    have hwide : ¬ (b = 0x75 ∨ b = 0x55) := fun hb => not_wide he hs.2 hord hb hrun rfl
    rw [escape_cons] at hrun
    obtain ⟨st₁, o, o', hfirst, hrest, heq⟩ := run_append.mp hrun
    have hcases := escapeByte_cases he hs.1
    generalize escapeByte extra b = text at hcases hfirst
    cases hcases with
    | plain hp hslash =>
      cases hdigits : digitCounts.lookup b with
      | none =>
        obtain ⟨o, hlast, rfl⟩ := run_escaped hdigits hfirst
        obtain ⟨hb, -⟩ := List.cons.inj heq
        exact absurd ((byte_kinds b).2.2.2 hb.symm) hslash
      | some n =>
        rw [run_digits hdigits (not_or.mp hwide)] at hfirst
        cases hfirst
        have hbehind : Behind ⟨false, 2, [backslash]⟩ [backslash, b] := .two (Nat.le_refl 2)
        refine absurd heq.symm (hbehind.lost he hs.2 (fun c hc => ?_) hrest)
        rw [← List.singleton_append (l := [b]), List.count_append]
        exact Nat.le_add_right ..
    | slash =>
      cases hfirst
      obtain ⟨-, heq⟩ := List.cons.inj heq
      obtain ⟨hq, k, t, rfl, ht⟩ := ih hs.2 (by rw [heq]; exact hrest)
      exact ⟨hq, k + 1, t, rfl, ht⟩
    | letter hn hdigits hne hself =>
      obtain ⟨o, hlast, rfl⟩ := run_escaped rfl hfirst
      rw [run_plain hne] at hlast
      cases hlast
      simp only [List.cons_append, List.nil_append, List.cons.injEq] at heq
      obtain ⟨-, heq, rfl⟩ := heq
      obtain ⟨rfl, hq⟩ := hself heq.symm
      exact ⟨hq, 0, s, rfl, restorable_of_slash he hs.2 hrest⟩
    | raw hraw =>
      obtain ⟨o, hlast, rfl⟩ := run_escaped rfl hfirst
      rw [run_text (hraw.ne_of_printable (by decide))] at hlast
      cases hlast
      simp only [List.cons_append, List.cons.injEq] at heq
      exact absurd heq.2.1 (hraw.ne_of_printable (by decide))

theorem closes_of_raw (hs : ∀ b ∈ s, ¬ Unreachable b) (hraw : Raw b)
    (hrun : run ⟨false, 1, [b]⟩ (escape extra s) = some (st', b :: s)) : Closes extra s := by
  cases s with
  | nil => cases hrun
  | cons c s =>
    rw [List.forall_mem_cons] at hs
    rw [escape_cons] at hrun
    obtain ⟨st₁, o, o', hfirst, hrest, heq⟩ := run_append.mp hrun
    have hcases := escapeByte_cases he hs.1
    generalize escapeByte extra c = text at hcases hfirst
    cases hcases with
    | plain hp hslash =>
      obtain ⟨v, ord', o, hv, hlast, rfl⟩ := run_one.mp hfirst
      rw [List.singleton_append, extractByte_raw hraw] at hv
      cases hv
      cases hlast
      have hbehind : Behind ⟨false, 0, [c]⟩ [c] := .clean (Nat.le_refl 1)
      exact absurd (List.cons.inj heq).2.symm (hbehind.lost he hs.2 (fun _ _ => le_rfl) hrest)
    | slash =>
      obtain ⟨v, ord', o, hv, hlast, rfl⟩ := run_one.mp hfirst
      rw [List.singleton_append, extractByte_raw hraw] at hv
      cases hv
      cases hlast
      obtain ⟨-, rfl⟩ := List.cons.inj heq
      obtain ⟨hq, k, t, rfl, ht⟩ := closes_of_slash he hs.2 hrest
      exact ⟨hq, k + 1, t, rfl, ht⟩
    | letter hn hdigits hne hself =>
      obtain ⟨v, ord', o, hv, hlast, rfl⟩ := run_one.mp hfirst
      rw [List.singleton_append, extractByte_raw hraw] at hv
      cases hv
      rw [run_plain hne] at hlast
      cases hlast
      simp only [List.cons_append, List.nil_append, List.cons.injEq] at heq
      obtain ⟨-, heq, rfl⟩ := heq
      obtain ⟨rfl, hq⟩ := hself heq.symm
      exact ⟨hq, 0, s, rfl, restorable_of_slash he hs.2 hrest⟩
    | raw hraw' =>
      obtain ⟨v, ord', o, hv, hlast, rfl⟩ := run_one.mp hfirst
      rw [run_text (hraw'.ne_of_printable (by decide))] at hlast
      cases hlast
      simp only [List.cons_append, List.cons.injEq] at heq
      exact absurd heq.2.1 (hraw'.ne_of_printable (by decide))

theorem run_closes (hraw : Raw b) (h : Closes extra s) :
    ∃ st', run ⟨false, 1, [b]⟩ (escape extra s) = some (st', b :: s) := by
  obtain ⟨hq, k, t, rfl, ht⟩ := h
  have hv : extractByte ([b] ++ [backslash]) = some (b, [backslash]) := extractByte_raw hraw
  refine ⟨⟨false, 0, [backslash]⟩, ?_⟩
  cases k with
  | zero =>
    rw [List.replicate_zero, List.nil_append, escape_cons, escapeByte_quote hq]
    refine run_one.mpr ⟨b, [backslash], quote :: t, hv, ?_, rfl⟩
    exact run_append (x := [quote]).mpr ⟨⟨false, 0, [backslash]⟩, [quote], t, rfl, run_escape he ht, rfl⟩
  | succ k =>
    rw [List.replicate_succ, List.cons_append, escape_cons]
    refine run_one.mpr ⟨b, [backslash], _, hv, ?_, rfl⟩
    exact run_append (x := [backslash]).mpr ⟨⟨true, 0, [backslash]⟩, [], _, rfl, run_slashes he hq ht, rfl⟩

/-- All bytes come back by themselves, or all but one that backslashes and a quote
follow. -/
def Restored (extra : List UInt8) (s : Bytes) : Prop :=
  (∀ b ∈ s, Restorable b) ∨ ∃ p b t, s = p ++ b :: t ∧ (∀ c ∈ p, Restorable c) ∧ Raw b ∧ Closes extra t

theorem unescaped_escape_iff (s : Bytes) : unescaped (escape extra s) = some s ↔ Restored extra s := by
  have hrun : unescaped (escape extra s) = some s ↔ ∃ st', run ⟨false, 0, []⟩ (escape extra s) = some (st', s) := by
    unfold unescaped
    rw [Option.map_eq_some_iff]
    constructor
    · rintro ⟨⟨st', out⟩, h, rfl⟩
      exact ⟨st', h⟩
    · rintro ⟨st', h⟩
      exact ⟨_, h, rfl⟩
  rw [hrun]
  constructor
  · rintro ⟨st', h⟩
    have hs := reachable_of_run h rfl
    rcases restorable_or hs with hall | ⟨p, b, t, rfl, hp, hraw⟩
    · exact .inl hall
    · obtain ⟨out, hrest, heq⟩ := (run_to_raw he hp hraw).mp h
      obtain rfl := List.append_cancel_left heq
      have ht : ∀ c ∈ t, ¬ Unreachable c := fun c hc => hs c (by simp [hc])
      exact .inr ⟨p, b, t, rfl, hp, hraw, closes_of_raw he ht hraw hrest⟩
  · rintro (hall | ⟨p, b, t, rfl, hp, hraw, ht⟩)
    · exact ⟨_, run_escape he hall⟩
    · obtain ⟨st', hrest⟩ := run_closes he hraw ht
      exact ⟨st', (run_to_raw he hp hraw).mpr ⟨_, hrest, rfl⟩⟩

end

theorem strFromLiteral_strToLiteral (s : Bytes) : strFromLiteral (strToLiteral s) = unescaped (escape [quote] s) := by
  have htail : (strToLiteral s).tail = escape [quote] s ++ [quote] := rfl
  have hhead : (strToLiteral s).head? = some quote := rfl
  unfold strFromLiteral
  simp only [hhead, if_true, htail, List.getLast?_concat, List.dropLast_concat]

/-- Hexadecimal digits and their values. -/
def hexValues : List (UInt8 × UInt8) :=
  [(0x30, 0), (0x31, 1), (0x32, 2), (0x33, 3), (0x34, 4), (0x35, 5), (0x36, 6), (0x37, 7), (0x38, 8), (0x39, 9),
    (0x61, 10), (0x62, 11), (0x63, 12), (0x64, 13), (0x65, 14), (0x66, 15),
    (0x41, 10), (0x42, 11), (0x43, 12), (0x44, 13), (0x45, 14), (0x46, 15)]

theorem unescaped_hex {h l : UInt8} (hh : isSpace h = false) : unescaped [backslash, 0x78, h, l] = some [h] := by
  have hv : extractByte ([h] ++ [l]) = some (h, [l]) := by
    unfold extractByte
    rw [List.singleton_append, List.dropWhile_cons_of_neg (by simp [hh])]
  have hrun : Unescaping.run {} ([backslash, 0x78, h] ++ [l]) = some (⟨false, 0, [l]⟩, [h]) :=
    Unescaping.run_append.mpr ⟨_, [], [h], Unescaping.run_raw, Unescaping.run_one.mpr ⟨h, [l], [], hv, rfl, rfl⟩, rfl⟩
  unfold unescaped
  exact congrArg (Option.map Prod.snd) hrun

/-- The values of the digits, and the only digit that lies where its own value
is the upper half. -/
theorem hexValues_facts {h : UInt8 × UInt8} (hh : h ∈ hexValues) : isSpace h.1 = false ∧ h.2.toNat < 16 ∧
    (16 * h.2.toNat ≤ h.1.toNat → h.1.toNat < 16 * h.2.toNat + 16 → h.1 = 0x33) ∧ (h.2 = 3 ↔ h.1 = 0x33) := by
  have hall : hexValues.all (fun h => isSpace h.1 = false ∧ h.2.toNat < 16 ∧
      (16 * h.2.toNat ≤ h.1.toNat → h.1.toNat < 16 * h.2.toNat + 16 → h.1 = 0x33) ∧ (h.2 = 3 ↔ h.1 = 0x33)) = true := by
    decide +kernel
  exact of_decide_eq_true (List.all_eq_true.mp hall h hh)

/-- The only digit that is the byte that two digits stand for. -/
theorem hexValues_own {h l : UInt8 × UInt8} (hh : h ∈ hexValues) (hl : l ∈ hexValues) :
    h.1 = 16 * h.2 + l.2 ↔ h.1 = 0x33 ∧ l.1 = 0x33 := by
  obtain ⟨-, hlt, hown, hthree⟩ := hexValues_facts hh
  obtain ⟨-, hlt', -, hthree'⟩ := hexValues_facts hl
  constructor
  · intro heq
    have hnat : h.1.toNat = 16 * h.2.toNat + l.2.toNat := by
      rw [heq, UInt8.toNat_add, UInt8.toNat_mul]
      show (16 * h.2.toNat % 256 + l.2.toNat) % 256 = _
      omega
    have h1 : h.1 = 0x33 := hown (by omega) (by omega)
    have h2 : h.2 = 3 := hthree.mpr h1
    rw [h1, h2] at hnat
    have h3 : l.2.toNat = 3 := by
      change 51 = 16 * 3 + l.2.toNat at hnat
      omega
    exact ⟨h1, hthree'.mp (UInt8.toNat_inj.mp h3)⟩
  · rintro ⟨h1, hl1⟩
    rw [h1, hthree.mpr h1, hthree'.mpr hl1]
    rfl

/-- Strings and bytes that come back from their texts. -/
theorem literals_restored_iff (s : Bytes) : (strFromLiteral (strToLiteral s) = some s ↔ Restored [quote] s) ∧
    (unescaped (escaped s) = some s ↔ ∀ b ∈ s, Restorable b) ∧
      ∀ h ∈ hexValues, ∀ l ∈ hexValues, unescaped [backslash, 0x78, h.1, l.1] = some [16 * h.2 + l.2] ↔
        h.1 = 0x33 ∧ l.1 = 0x33 := by
  refine ⟨?_, ?_, fun h hh l hl => ?_⟩
  · rw [strFromLiteral_strToLiteral]
    exact unescaped_escape_iff (by simp) s
  · have hnil : ∀ e ∈ ([] : List UInt8), e = quote := nofun
    refine (unescaped_escape_iff hnil s).trans (or_iff_left ?_)
    rintro ⟨-, -, -, -, -, -, hq, -⟩
    cases hq
  · rw [unescaped_hex (hexValues_facts hh).1, Option.some.injEq, List.cons.injEq, and_iff_left rfl]
    exact hexValues_own hh hl

/-- A null byte becomes a digit, and so does a capital letter that is given by its
number. -/
theorem literals_not_restored : strFromLiteral (strToLiteral [0x00]) = some [0x30] ∧
    unescaped (escaped [0x00]) = some [0x30] ∧ unescaped (ascii "\\x41") = some (ascii "4") := by
  decide

end CommonCore
