import CommonCore.Variant

/-!
# Inputs of a parser

`core::parsers::Input` hands out characters as `int`, and takes the last one
back. `StringInput` widens a `char`, which is signed, and has its token in the
text; `StreamInput` has what `istream::get` returns, and its token in a buffer.
-/

namespace CommonCore

namespace Parsers

/-- `std::char_traits<char>::eof()` -/
def eof : Int := -1

/-- The `char` that an `int` is narrowed to. -/
def toChar (c : Int) : UInt8 := UInt8.ofInt c

/-- The virtual functions on a state `σ`. Reading comes to an end. -/
structure Input (σ : Type) where
  tokenPosition : σ → Int
  token : σ → Bytes
  getc : σ → Int × σ
  ungetc : Int → σ → σ
  initToken : UInt8 → σ → σ
  appendToToken : UInt8 → σ → σ
  unread : σ → ℕ
  unread_getc : ∀ s, (getc s).1 ≠ eof → unread (getc s).2 < unread s
  unread_getc_le : ∀ s, unread (getc s).2 ≤ unread s
  unread_ungetc : ∀ s, unread (ungetc (getc s).1 (getc s).2) ≤ unread s
  unread_initToken : ∀ c s, unread (initToken c s) = unread s
  unread_appendToToken : ∀ c s, unread (appendToToken c s) = unread s

/-! ## Strings -/

structure StringInput where
  string : Bytes
  pos : ℕ
  tokenPos : ℕ

namespace StringInput

def ofString (string : Bytes) : StringInput := ⟨string, 0, string.length⟩

/-- Before the first token this is no part of the text, and is not used. -/
def token (s : StringInput) : Bytes := (s.string.drop s.tokenPos).take (s.pos - s.tokenPos)

def getc (s : StringInput) : Int × StringInput :=
  match s.string[s.pos]? with
  | some b => (b.toInt8.toInt, { s with pos := s.pos + 1 })
  | none => (eof, s)

def ungetc (c : Int) (s : StringInput) : StringInput := if c ≠ eof then { s with pos := s.pos - 1 } else s

def initToken (s : StringInput) : StringInput := { s with tokenPos := s.pos - 1 }

def unread (s : StringInput) : ℕ := s.string.length - s.pos

theorem getc_of_lt {s : StringInput} {b : UInt8} (h : s.string[s.pos]? = some b) :
    s.getc = (b.toInt8.toInt, { s with pos := s.pos + 1 }) := by
  unfold getc
  rw [h]

theorem getc_of_end {s : StringInput} (h : s.string[s.pos]? = none) : s.getc = (eof, s) := by
  unfold getc
  rw [h]

theorem unread_getc (s : StringInput) : s.getc = (eof, s) ∨ s.getc.2 = { s with pos := s.pos + 1 } ∧ s.getc.2.unread < s.unread := by
  cases h : s.string[s.pos]? with
  | none => exact .inl (getc_of_end h)
  | some b =>
    have hlt := (List.getElem?_eq_some_iff.mp h).1
    rw [getc_of_lt h]
    refine .inr ⟨rfl, ?_⟩
    show s.string.length - (s.pos + 1) < s.string.length - s.pos
    omega

end StringInput

def stringInput : Input StringInput where
  tokenPosition s := s.tokenPos
  token := StringInput.token
  getc := StringInput.getc
  ungetc := StringInput.ungetc
  initToken _ := StringInput.initToken
  appendToToken _ s := s
  unread := StringInput.unread
  unread_getc s hc := by
    rcases s.unread_getc with h | ⟨-, h⟩
    · rw [h] at hc
      exact absurd rfl hc
    · exact h
  unread_getc_le s := by
    rcases s.unread_getc with h | ⟨-, h⟩
    · rw [h]
    · exact Nat.le_of_lt h
  unread_ungetc s := by
    rcases s.unread_getc with h | ⟨hs, h⟩
    · rw [h]
      exact Nat.le_refl _
    · unfold StringInput.ungetc
      split_ifs
      · rw [hs]
        exact Nat.le_refl _
      · exact Nat.le_of_lt h
  unread_initToken _ _ := rfl
  unread_appendToToken _ _ := rfl

/-! ## Streams -/

/-- `std::istream` over a buffer: what has been read, last first, and what not. -/
structure Stream where
  before : Bytes
  after : Bytes
  fail : Bool

namespace Stream

def get (s : Stream) : Int × Stream :=
  if s.fail then (eof, s)
  else
    match s.after with
    | [] => (eof, { s with fail := true })
    | b :: after => (b.toNat, { s with before := b :: s.before, after })

def unget (s : Stream) : Stream :=
  if s.fail then s
  else
    match s.before with
    | [] => { s with fail := true }
    | b :: before => { s with before, after := b :: s.after }

def tellg (s : Stream) : Int := if s.fail then -1 else s.before.length

def unread (s : Stream) : ℕ := if s.fail then 0 else s.after.length

theorem unread_get (s : Stream) :
    (s.get.1 = eof ∧ s.get.2.fail = true) ∨ (s.get.2.unread < s.unread ∧ s.get.2.unget = s) := by
  obtain ⟨before, after, fail⟩ := s
  cases fail with
  | true => exact .inl ⟨rfl, rfl⟩
  | false =>
    cases after with
    | nil => exact .inl ⟨rfl, rfl⟩
    | cons b after => exact .inr ⟨Nat.lt_succ_self _, rfl⟩

end Stream

structure StreamInput where
  stream : Stream
  token : Bytes
  tokenPosition : Int

namespace StreamInput

def ofStream (after : Bytes) : StreamInput := ⟨⟨[], after, false⟩, [], 0⟩

def getc (s : StreamInput) : Int × StreamInput := (s.stream.get.1, { s with stream := s.stream.get.2 })

def ungetc (s : StreamInput) : StreamInput := { s with stream := s.stream.unget }

def initToken (c : UInt8) (s : StreamInput) : StreamInput :=
  { s with token := [c], tokenPosition := s.stream.tellg - 1 }

def appendToToken (c : UInt8) (s : StreamInput) : StreamInput := { s with token := s.token ++ [c] }

end StreamInput

theorem Stream.unread_of_fail {s : Stream} (h : s.fail = true) : s.unread = 0 := if_pos h

theorem Stream.unget_of_fail {s : Stream} (h : s.fail = true) : s.unget = s := if_pos h

def streamInput : Input StreamInput where
  tokenPosition := StreamInput.tokenPosition
  token := StreamInput.token
  getc := StreamInput.getc
  ungetc _ := StreamInput.ungetc
  initToken := StreamInput.initToken
  appendToToken := StreamInput.appendToToken
  unread s := s.stream.unread
  unread_getc s hc := by
    rcases s.stream.unread_get with ⟨h, -⟩ | ⟨h, -⟩
    · exact absurd h hc
    · exact h
  unread_getc_le s := by
    rcases s.stream.unread_get with ⟨-, h⟩ | ⟨h, -⟩
    · show s.stream.get.2.unread ≤ _
      rw [Stream.unread_of_fail h]
      exact Nat.zero_le _
    · exact Nat.le_of_lt h
  unread_ungetc s := by
    rcases s.stream.unread_get with ⟨-, h⟩ | ⟨-, h⟩
    · show s.stream.get.2.unget.unread ≤ _
      rw [Stream.unget_of_fail h, Stream.unread_of_fail h]
      exact Nat.zero_le _
    · show s.stream.get.2.unget.unread ≤ _
      rw [h]
  unread_initToken _ _ := rfl
  unread_appendToToken _ _ := rfl

end Parsers

end CommonCore
