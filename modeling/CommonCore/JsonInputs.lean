import CommonCore.JsonParsing

/-!
# The two inputs of the reader

A string shows its bytes but for 0xff, which a signed `char` makes the end of
the input. A stream shows all of them.
-/

namespace CommonCore

namespace Json

open Parsers

def stringCode (b : UInt8) : Option UInt8 := if b = 0xff then none else some b

theorem byte_of_missing {b : UInt8} (h : stringCode b = none) : b = 0xff := by
  unfold stringCode at h
  split_ifs at h with hb
  exact hb

theorem byte_of_code {b c : UInt8} (h : stringCode b = some c) : b = c ∧ b ≠ 0xff := by
  unfold stringCode at h
  split_ifs at h with hb
  exact ⟨Option.some.inj h, hb⟩

def StringShows (s : StringInput) (t : Option Bytes) (l : Codes) : Prop :=
  s.pos ≤ s.string.length ∧ l = (s.string.drop s.pos).map stringCode ∧
    ∀ token, t = some token → s.tokenPos ≤ s.pos ∧ s.token = token

section
variable {s : StringInput} {t : Option Bytes} {l : Codes}

theorem StringShows.forget (h : StringShows s t l) : StringShows s none l := ⟨h.1, h.2.1, nofun⟩

theorem StringShows.finished (h : StringShows s t []) : s.getc = (eof, s) := by
  apply StringInput.getc_of_end
  have hdrop : s.string.drop s.pos = [] := List.map_eq_nil_iff.mp h.2.1.symm
  exact List.getElem?_eq_none (List.drop_eq_nil_iff.mp hdrop)

/-- The next character, which the token has as soon as it is read. -/
theorem StringShows.cons {o : Option UInt8} (h : StringShows s t (o :: l)) :
    ∃ b, stringCode b = o ∧ s.string[s.pos]? = some b ∧
      StringShows { s with pos := s.pos + 1 } (t.map (· ++ [b])) l := by
  obtain ⟨hpos, hl, htoken⟩ := h
  obtain ⟨b, rest, hdrop, hcode, hrest⟩ := List.map_eq_cons_iff.mp hl.symm
  have hget : s.string[s.pos]? = some b := by
    rw [← List.head?_drop, hdrop]
    rfl
  have hlt := (List.getElem?_eq_some_iff.mp hget).1
  have htail : s.string.drop (s.pos + 1) = rest := by
    rw [← List.tail_drop, hdrop]
    rfl
  refine ⟨b, hcode, hget, hlt, ?_, ?_⟩
  · rw [← hrest, htail]
  · intro token ht
    obtain ⟨token, rfl, rfl⟩ := Option.map_eq_some_iff.mp ht
    obtain ⟨hle, htok⟩ := htoken token rfl
    refine ⟨Nat.le_succ_of_le hle, ?_⟩
    have hsub : s.pos + 1 - s.tokenPos = s.pos - s.tokenPos + 1 := by omega
    have hnext : (s.string.drop s.tokenPos)[s.pos - s.tokenPos]? = some b := by
      rw [List.getElem?_drop, Nat.add_sub_cancel' hle, hget]
    show (s.string.drop s.tokenPos).take (s.pos + 1 - s.tokenPos) = _
    rw [hsub, List.take_add_one, hnext, ← htok]
    rfl

end

theorem code_string : ∀ b, b ≠ 0xff → Code b b.toInt8.toInt := by
  have hchar : ∀ b : UInt8, toChar b.toInt8.toInt = b := forall_byte (by decide +kernel)
  have hascii : ∀ b : UInt8, b < 0x80 → b.toInt8.toInt = b.toNat := forall_byte (by decide +kernel)
  have hupper : ∀ b : UInt8, b ≠ 0xff → 0x80 ≤ b → b.toInt8.toInt < -1 := forall_byte (by decide +kernel)
  exact fun b hb => ⟨hchar b, hascii b, fun h => .inl (hupper b hb h)⟩

theorem code_stream (b : UInt8) : Code b b.toNat := by
  have hchar : ∀ b : UInt8, toChar b.toNat = b := forall_byte (by decide +kernel)
  refine ⟨hchar b, fun _ => rfl, fun h => .inr ?_⟩
  have hb : 128 ≤ b.toNat := h
  omega

theorem string_shows : Shows stringInput StringShows where
  unread h := by
    show _ ≤ StringInput.unread _
    unfold StringInput.unread
    rw [h.2.1, List.length_map, List.length_drop]
  forget := StringShows.forget
  token h := (h.2.2 _ rfl).2
  finished h := by
    show (StringInput.getc _).1 = _ ∧ StringShows (StringInput.getc _).2 _ _
    rw [h.finished]
    exact ⟨rfl, h⟩
  finished_ungetc h := by
    show StringShows (StringInput.ungetc eof (StringInput.getc _).2) _ _
    rw [h.finished]
    exact h
  missing h := by
    obtain ⟨b, hcode, hget, hnext⟩ := h.cons
    have hb := byte_of_missing hcode
    show (StringInput.getc _).1 = _ ∧ StringShows (StringInput.getc _).2 _ _
    rw [StringInput.getc_of_lt hget]
    rw [hb] at hnext ⊢
    exact ⟨rfl, hnext⟩
  missing_ungetc h := by
    obtain ⟨b, hcode, hget, hnext⟩ := h.cons
    have hb := byte_of_missing hcode
    show StringShows (StringInput.ungetc eof (StringInput.getc _).2) _ _
    rw [StringInput.getc_of_lt hget]
    rw [hb] at hnext
    exact hnext
  code h := by
    obtain ⟨b, hcode, hget, -⟩ := h.cons
    obtain ⟨rfl, hb⟩ := byte_of_code hcode
    show Code _ (StringInput.getc _).1
    rw [StringInput.getc_of_lt hget]
    exact code_string b hb
  ungetc h := by
    obtain ⟨b, hcode, hget, -⟩ := h.cons
    obtain ⟨rfl, hb⟩ := byte_of_code hcode
    show StringShows (StringInput.ungetc (StringInput.getc _).1 (StringInput.getc _).2) _ _
    rw [StringInput.getc_of_lt hget]
    unfold StringInput.ungetc
    rw [if_pos (code_string b hb).ne_eof]
    exact h
  appendToToken h := by
    obtain ⟨b, hcode, hget, hnext⟩ := h.cons
    obtain ⟨rfl, -⟩ := byte_of_code hcode
    show StringShows (StringInput.getc _).2 _ _
    rw [StringInput.getc_of_lt hget]
    exact hnext
  initToken h := by
    obtain ⟨b, hcode, hget, hnext⟩ := h.cons
    obtain ⟨rfl, -⟩ := byte_of_code hcode
    show StringShows (StringInput.initToken (StringInput.getc _).2) _ _
    rw [StringInput.getc_of_lt hget]
    refine ⟨hnext.1, hnext.2.1, ?_⟩
    rintro _ ⟨⟩
    refine ⟨Nat.sub_le _ _, ?_⟩
    show (List.drop (_ + 1 - 1) _).take (_ + 1 - (_ + 1 - 1)) = _
    rw [Nat.add_sub_cancel, Nat.add_sub_cancel_left, List.take_one, List.head?_drop]
    exact congrArg Option.toList hget
  dropped h := by
    obtain ⟨b, hcode, hget, hnext⟩ := h.cons
    show StringShows (StringInput.getc _).2 _ _
    rw [StringInput.getc_of_lt hget]
    exact hnext.forget
  initToken_finished h := ⟨h.1, h.2.1, nofun⟩

/-! ## Streams -/

def StreamShows (s : StreamInput) (t : Option Bytes) (l : Codes) : Prop :=
  l = (if s.stream.fail then [] else s.stream.after.map some) ∧ ∀ token, t = some token → s.token = token

section
variable {s : StreamInput} {t : Option Bytes} {l : Codes}

theorem StreamShows.forget (h : StreamShows s t l) : StreamShows s none l := ⟨h.1, nofun⟩

theorem StreamShows.finished (h : StreamShows s t []) :
    ∃ stream : Stream, s.getc = (eof, { s with stream }) ∧ stream.fail = true := by
  obtain ⟨⟨before, after, fail⟩, token, position⟩ := s
  cases fail with
  | true => exact ⟨_, rfl, rfl⟩
  | false =>
    have hafter : after = [] := List.map_eq_nil_iff.mp h.1.symm
    subst hafter
    exact ⟨_, rfl, rfl⟩

theorem StreamShows.cons {o : Option UInt8} (h : StreamShows s t (o :: l)) :
    ∃ b before after, o = some b ∧ l = after.map some ∧ s.stream = ⟨before, b :: after, false⟩ := by
  obtain ⟨⟨before, after, fail⟩, token, position⟩ := s
  cases fail with
  | true => exact absurd h.1 (List.cons_ne_nil _ _)
  | false =>
    cases after with
    | nil => exact absurd h.1 (List.cons_ne_nil _ _)
    | cons b after =>
      obtain ⟨ho, hl⟩ := List.cons.inj h.1
      exact ⟨b, before, after, ho, hl, rfl⟩

theorem StreamShows.getc {b : UInt8} (h : StreamShows s t (some b :: l)) :
    ∃ stream : Stream, s.getc = ((b.toNat : Int), { s with stream }) ∧ stream.fail = false ∧ l = stream.after.map some ∧
      stream.unget = s.stream := by
  obtain ⟨b', before, after, ho, hl, hs⟩ := h.cons
  cases ho
  obtain ⟨stream, token, position⟩ := s
  dsimp only at hs
  subst hs
  exact ⟨_, rfl, rfl, hl, rfl⟩

end

theorem stream_shows : Shows streamInput StreamShows where
  unread h := by
    rw [h.1]
    show _ ≤ Stream.unread _
    unfold Stream.unread
    split_ifs <;> simp
  forget := StreamShows.forget
  token h := h.2 _ rfl
  finished h := by
    obtain ⟨stream, hget, hfail⟩ := h.finished
    show (StreamInput.getc _).1 = _ ∧ StreamShows (StreamInput.getc _).2 _ _
    rw [hget]
    exact ⟨rfl, by simp [hfail], h.2⟩
  finished_ungetc h := by
    obtain ⟨stream, hget, hfail⟩ := h.finished
    show StreamShows (StreamInput.ungetc (StreamInput.getc _).2) _ _
    rw [hget]
    unfold StreamInput.ungetc
    rw [Stream.unget_of_fail hfail]
    exact ⟨by simp [hfail], h.2⟩
  missing h := by
    obtain ⟨b, before, after, ho, -⟩ := h.cons
    cases ho
  missing_ungetc h := by
    obtain ⟨b, before, after, ho, -⟩ := h.cons
    cases ho
  code h := by
    obtain ⟨stream, hget, -⟩ := h.getc
    show Code _ (StreamInput.getc _).1
    rw [hget]
    exact code_stream _
  ungetc h := by
    obtain ⟨stream, hget, -, -, hunget⟩ := h.getc
    show StreamShows (StreamInput.ungetc (StreamInput.getc _).2) _ _
    rw [hget]
    unfold StreamInput.ungetc
    rw [hunget]
    exact h
  appendToToken h := by
    obtain ⟨stream, hget, hfail, hl, -⟩ := h.getc
    show StreamShows (StreamInput.appendToToken _ (StreamInput.getc _).2) _ _
    rw [hget]
    refine ⟨by simpa [StreamInput.appendToToken, hfail] using hl, fun token ht => ?_⟩
    obtain ⟨token, rfl, rfl⟩ := Option.map_eq_some_iff.mp ht
    exact congrArg (· ++ _) (h.2 token rfl)
  initToken h := by
    obtain ⟨stream, hget, hfail, hl, -⟩ := h.getc
    show StreamShows (StreamInput.initToken _ (StreamInput.getc _).2) _ _
    rw [hget]
    exact ⟨by simpa [StreamInput.initToken, hfail] using hl, fun token ht => Option.some.inj ht⟩
  dropped h := by
    obtain ⟨stream, hget, hfail, hl, -⟩ := h.getc
    show StreamShows (StreamInput.getc _).2 _ _
    rw [hget]
    exact ⟨by simpa [hfail] using hl, nofun⟩
  initToken_finished h := ⟨h.1, nofun⟩

/-! ## The readers -/

variable (nearest : Bytes → Option Double)

theorem decoded_iff (text : Bytes) (v : Value) :
    decoded nearest text = .ok v ↔ (json nearest).Text (text.map stringCode) v := by
  have h : StringShows (StringInput.ofString text) none (text.map stringCode) := ⟨Nat.zero_le _, rfl, nofun⟩
  exact parseInput_iff string_shows h v

theorem readStream_iff (text : Bytes) (v : Value) :
    readStream nearest text = .ok v ↔ (json nearest).Text (text.map some) v := by
  have h : StreamShows (StreamInput.ofStream text) none (text.map some) := ⟨rfl, nofun⟩
  exact parseInput_iff stream_shows h v

/-- No text takes the readers more calls than they have. -/
theorem readers_fuel (text : Bytes) :
    decoded nearest text ≠ .error .outOfFuel ∧ readStream nearest text ≠ .error .outOfFuel := by
  have hstring : StringShows (StringInput.ofString text) none (text.map stringCode) := ⟨Nat.zero_le _, rfl, nofun⟩
  have hstream : StreamShows (StreamInput.ofStream text) none (text.map some) := ⟨rfl, nofun⟩
  exact ⟨parseInput_fuel string_shows hstring, parseInput_fuel stream_shows hstream⟩

/-- One value, or an error twice. -/
def SameResult (a b : Except JsonError Value) : Prop := ∀ v, a = .ok v ↔ b = .ok v

end Json

end CommonCore
