import CommonCore.Literals
import CommonCore.StatefulRuns

/-!
# YAML from a text and from a stream

The parser asks its input for as many bytes as it has room for. The library's own
handler for texts gives what is left of them; the handler for streams reports a
failure where `istream::read` has not got all of them.
-/

namespace CommonCore

namespace Yaml

open StatefulRuns Prog

/-! ## The library -/

/-- What `yaml_parser_parse` gives, apart from positions. -/
inductive Event
  | none
  | streamStart
  | streamEnd
  | documentStart
  | documentEnd
  | aliased (anchor : Bytes)
  | scalar (anchor tag : Option Bytes) (value : Bytes) (plain : Bool)
  | sequenceStart (anchor tag : Option Bytes)
  | sequenceEnd
  | mappingStart (anchor tag : Option Bytes)
  | mappingEnd

inductive EventType
  | none | streamStart | streamEnd | documentStart | documentEnd | aliased | scalar
  | sequenceStart | sequenceEnd | mappingStart | mappingEnd
  deriving DecidableEq

def Event.type : Event → EventType
  | .none => .none
  | .streamStart => .streamStart
  | .streamEnd => .streamEnd
  | .documentStart => .documentStart
  | .documentEnd => .documentEnd
  | .aliased _ => .aliased
  | .scalar .. => .scalar
  | .sequenceStart .. => .sequenceStart
  | .sequenceEnd => .sequenceEnd
  | .mappingStart .. => .mappingStart
  | .mappingEnd => .mappingEnd

structure Problem where
  problem : Bytes
  offset : ℕ

/-- What the library does next: it has an event, a problem, or room for more bytes. -/
inductive Step (σ : Type)
  | event (e : Event) (next : σ)
  | problem (p : Problem)
  | read (size : ℕ) (next : Bytes → σ)

/-- libyaml; `inputError` is what it says when a read handler returns 0. -/
structure Libyaml where
  State : Type
  init : State
  step : State → Step State
  inputError : Problem

/-! ## Input -/

/-- What is left of a text or a stream, and whether more has been asked for than there
was, by which a stream fails. -/
structure Input where
  rest : Bytes
  cut : Bool := false

/-- The bytes that a handler gives, or nothing where it returns 0. -/
abbrev Handler := ℕ → Input → Option Bytes × Input

/-- The handler behind `yaml_parser_set_input_string`. -/
def stringHandler : Handler := fun size input =>
  (some (input.rest.take size), ⟨input.rest.drop size, input.cut || decide (input.rest.length < size)⟩)

/-- `read_handler`, with `istream::read`. -/
def readHandler : Handler := fun size input =>
  if input.cut then (none, input)
  else if input.rest.length < size then (none, ⟨[], true⟩)
  else (some (input.rest.take size), ⟨input.rest.drop size, false⟩)

/-! ## The parser -/

inductive Error
  | failedPostcondition (p : Problem)
  | runtimeError (type : EventType)
  | literal (fault : LiteralFault)

structure YamlParser (lib : Libyaml) where
  parser : lib.State
  input : Input
  anchors : List (Bytes × Value) := []

section
variable (lib : Libyaml)

abbrev Action (α : Type) := Prog (YamlParser lib) Error α

/-- `next_event` -/
def nextEvent (handler : Handler) : ℕ → Action lib Event
  | 0 => going
  | n + 1 => fun s =>
    match lib.step s.parser with
    | .event e next => (.value e, { s with parser := next })
    | .problem p => (.error (.failedPostcondition p), s)
    | .read size next =>
      match handler size s.input with
      | (some bytes, input) => nextEvent handler n { s with parser := next bytes, input := input }
      | (none, input) => (.error (.failedPostcondition lib.inputError), { s with input := input })

def expectEventType (event : Event) (expected ends : List EventType) : Action lib Bool :=
  if event.type ∈ expected then pure true
  else if ends = [] ∨ event.type ∈ ends then pure false
  else throw (.runtimeError event.type)

def processAlias (anchor : Bytes) : Action lib Value := fun s => (.value ((s.anchors.lookup anchor).getD .none), s)

def recordValue (anchor : Option Bytes) (value : Value) : Action lib Value := fun s =>
  match anchor with
  | some anchor => (.value value, { s with anchors := (anchor, value) :: s.anchors })
  | none => (.value value, s)

def scalarValue (N : Numerics) (text : Bytes) (plain : Bool) : Except Error Value :=
  if plain then (fromLiteral N text).mapError .literal else .ok (.string text)

def processScalar (N : Numerics) (anchor : Option Bytes) (text : Bytes) (plain : Bool) : Action lib Value := do
  let value ← ofExcept (scalarValue N text plain)
  recordValue lib anchor value

section
variable (handler : Handler) (N : Numerics)

def expectNextEventType (n : ℕ) (expected ends : List EventType) : Action lib Bool := do
  let event ← nextEvent lib handler n
  expectEventType lib event expected ends

def readKey (n : ℕ) : Action lib (Option Bytes) := do
  let event ← nextEvent lib handler n
  let expected ← expectEventType lib event [.scalar] [.mappingEnd]
  match expected, event with
  | true, .scalar _ _ value _ => pure (some value)
  | _, _ => pure none

mutual
/-- `read_value` and `process_event` -/
def readValue : ℕ → Action lib (Option Value)
  | 0 => going
  | n + 1 => do
    let event ← nextEvent lib handler n
    match event with
    | .aliased anchor => do
      let value ← processAlias lib anchor
      pure (some value)
    | .scalar anchor _ text plain => do
      let value ← processScalar lib N anchor text plain
      pure (some value)
    | .sequenceStart anchor _ => do
      let list ← sequenceFrom n []
      let value ← recordValue lib anchor (.valuelist list)
      pure (some value)
    | .mappingStart anchor _ => do
      let map ← mappingFrom n []
      let value ← recordValue lib anchor (.kvmap map)
      pure (some value)
    | _ => pure none
/-- The loop of `process_sequence`. -/
def sequenceFrom : ℕ → List Value → Action lib (List Value)
  | 0, _ => going
  | n + 1, list => do
    match ← readValue n with
    | some value => sequenceFrom n (list ++ [value])
    | none => pure list
/-- The loop of `process_mapping`, which skips a key that has no value. -/
def mappingFrom : ℕ → KeyValueMap → Action lib KeyValueMap
  | 0, _ => going
  | n + 1, map => do
    match ← readKey lib handler n with
    | some key => do
      match ← readValue n with
      | some value => mappingFrom n (Keyed.put key value map)
      | none => mappingFrom n map
    | none => pure map
end

def readDocument (n : ℕ) : Action lib (Option Value) := do
  let expected ← expectNextEventType lib handler n [.documentStart] [.documentEnd, .streamEnd]
  if expected then readValue lib handler N n else pure none

/-- The loop of `read_all`. -/
def documentsFrom : ℕ → List Value → Action lib (List Value)
  | 0, _ => going
  | n + 1, docs => do
    match ← readDocument lib handler N n with
    | some doc => documentsFrom n (docs ++ [doc])
    | none => pure docs

def readAll (n : ℕ) : Action lib (List Value) := do
  let expected ← expectNextEventType lib handler n [.streamStart] [.streamEnd]
  if expected then documentsFrom lib handler N n [] else pure []

/-- The first document; there is no `front` of an empty list. -/
def parse (n : ℕ) : Action lib (Option Value) := do
  let docs ← readAll lib handler N n
  pure docs.head?

end

def parseText (N : Numerics) (n : ℕ) : Action lib (Option Value) := parse lib stringHandler N n

def parseStream (N : Numerics) (n : ℕ) : Action lib (Option Value) := parse lib readHandler N n

/-- A new parser, with a text or a fresh stream that holds it. -/
def start (text : Bytes) : YamlParser lib := { parser := lib.init, input := { rest := text } }

end

/-! ## Parsers with two handlers -/

section
variable {lib : Libyaml} {N : Numerics} {R : ∀ α : Type, Action lib α → Action lib α → Prop}

theorem frame_expectEventType (event : Event) (expected ends : List EventType) :
    Frame YamlParser.input (expectEventType lib event expected ends) := by
  intro s
  unfold expectEventType
  split_ifs <;> rfl

theorem frame_processAlias (anchor : Bytes) : Frame YamlParser.input (processAlias lib anchor) := fun _ => rfl

theorem frame_recordValue (anchor : Option Bytes) (value : Value) : Frame YamlParser.input (recordValue lib anchor value) := by
  intro s
  unfold recordValue
  cases anchor <;> rfl

theorem frame_ofExcept {α : Type} (x : Except Error α) : Frame YamlParser.input (ofExcept x : Action lib α) := by
  intro s
  cases x <;> rfl

section
variable (hR : Respects YamlParser.input R) {first second : Handler} {d : ℕ}
  (hnext : ∀ n, R Event (nextEvent lib first n) (nextEvent lib second (n + d)))
include hR

theorem related_processScalar (anchor : Option Bytes) (text : Bytes) (plain : Bool) :
    R Value (processScalar lib N anchor text plain) (processScalar lib N anchor text plain) := by
  unfold processScalar
  exact hR.bind (hR.frame (frame_ofExcept _)) fun value => hR.frame (frame_recordValue anchor value)

include hnext

theorem related_expectNextEventType (n : ℕ) (expected ends : List EventType) :
    R Bool (expectNextEventType lib first n expected ends) (expectNextEventType lib second (n + d) expected ends) := by
  unfold expectNextEventType
  exact hR.bind (hnext n) fun event => hR.frame (frame_expectEventType event expected ends)

theorem related_readKey (n : ℕ) : R (Option Bytes) (readKey lib first n) (readKey lib second (n + d)) := by
  unfold readKey
  apply hR.bind (hnext n)
  intro event
  apply hR.bind (hR.frame (frame_expectEventType event _ _))
  intro expected
  split <;> exact hR.pure _

variable (hgoing : ∀ {α : Type} (y : Action lib α), (d = 0 → y = going) → R α going y)
include hgoing

theorem related_readValue (n : ℕ) : R (Option Value) (readValue lib first N n) (readValue lib second N (n + d)) ∧
    (∀ list, R (List Value) (sequenceFrom lib first N n list) (sequenceFrom lib second N (n + d) list)) ∧
    ∀ map, R KeyValueMap (mappingFrom lib first N n map) (mappingFrom lib second N (n + d) map) := by
  induction n with
  | zero =>
    refine ⟨?_, fun list => ?_, fun map => ?_⟩
    · unfold readValue
      apply hgoing
      rintro rfl
      rfl
    · unfold sequenceFrom
      apply hgoing
      rintro rfl
      rfl
    · unfold mappingFrom
      apply hgoing
      rintro rfl
      rfl
  | succ n ih =>
    obtain ⟨hvalue, hsequence, hmapping⟩ := ih
    rw [show n + 1 + d = n + d + 1 by omega]
    refine ⟨?_, fun list => ?_, fun map => ?_⟩
    · unfold readValue
      apply hR.bind (hnext n)
      intro event
      cases event with
      | aliased anchor => exact hR.bind (hR.frame (frame_processAlias anchor)) fun value => hR.pure _
      | scalar anchor tag text plain => exact hR.bind (related_processScalar hR anchor text plain) fun value => hR.pure _
      | sequenceStart anchor tag =>
        apply hR.bind (hsequence [])
        exact fun list => hR.bind (hR.frame (frame_recordValue anchor _)) fun value => hR.pure _
      | mappingStart anchor tag =>
        apply hR.bind (hmapping [])
        exact fun map => hR.bind (hR.frame (frame_recordValue anchor _)) fun value => hR.pure _
      | _ => exact hR.pure _
    · unfold sequenceFrom
      apply hR.bind hvalue
      rintro (_ | value)
      · exact hR.pure _
      · exact hsequence _
    · unfold mappingFrom
      apply hR.bind (related_readKey hR hnext n)
      rintro (_ | key)
      · exact hR.pure _
      · apply hR.bind hvalue
        rintro (_ | value)
        · exact hmapping _
        · exact hmapping _

theorem related_documentsFrom (n : ℕ) (docs : List Value) :
    R (List Value) (documentsFrom lib first N n docs) (documentsFrom lib second N (n + d) docs) := by
  induction n generalizing docs with
  | zero =>
    unfold documentsFrom
    apply hgoing
    rintro rfl
    rfl
  | succ n ih =>
    rw [show n + 1 + d = n + d + 1 by omega]
    unfold documentsFrom readDocument
    apply hR.bind
    · apply hR.bind (related_expectNextEventType hR hnext n _ _)
      rintro (_ | _)
      · exact hR.pure _
      · exact (related_readValue hR hnext hgoing n).1
    · rintro (_ | doc)
      · exact hR.pure _
      · exact ih _

theorem related_parse (n : ℕ) : R (Option Value) (parse lib first N n) (parse lib second N (n + d)) := by
  unfold parse readAll
  apply hR.bind
  · apply hR.bind (related_expectNextEventType hR hnext n _ _)
    rintro (_ | _)
    · exact hR.pure _
    · exact related_documentsFrom hR hnext hgoing n []
  · exact fun docs => hR.pure _

end

/-! ## The two inputs -/

theorem below_nextEvent (handler : Handler) (n : ℕ) : Below Event (nextEvent lib handler n) (nextEvent lib handler (n + 1)) := by
  induction n with
  | zero => exact below_going _
  | succ n ih =>
    intro s h
    unfold nextEvent at h ⊢
    cases hstep : lib.step s.parser with
    | event e next => rfl
    | problem p => rfl
    | read size next =>
      simp only [hstep] at h
      rcases hhandler : handler size s.input with ⟨_ | bytes, input⟩
      · simp only [hhandler]
      · simp only [hhandler] at h ⊢
        exact ih _ h

/-- Less than was asked for has been left. -/
def Input.Cut (input : Input) : Prop := input.cut = true

theorem keeps_nextEvent (n : ℕ) (s : YamlParser lib) (h : s.input.Cut) : (nextEvent lib stringHandler n s).2.input.Cut := by
  induction n generalizing s with
  | zero => exact h
  | succ n ih =>
    unfold nextEvent
    cases hstep : lib.step s.parser with
    | event e next => exact h
    | problem p => exact h
    | read size next =>
      simp only [stringHandler]
      apply ih
      show (s.input.cut || _) = true
      rw [show s.input.cut = true from h, Bool.true_or]

theorem follows_nextEvent (n : ℕ) : Follows YamlParser.input Input.Cut Event (nextEvent lib stringHandler n) (nextEvent lib readHandler n) := by
  refine ⟨keeps_nextEvent n, fun s h => ?_⟩
  induction n generalizing s with
  | zero => exact .inl ⟨rfl, h⟩
  | succ n ih =>
    have hcut : s.input.cut = false := Bool.eq_false_iff.mpr h
    unfold nextEvent
    cases hstep : lib.step s.parser with
    | event e next => exact .inl ⟨rfl, h⟩
    | problem p => exact .inl ⟨rfl, h⟩
    | read size next =>
      by_cases hshort : s.input.rest.length < size
      · right
        simp only [stringHandler, readHandler, hcut, Bool.false_eq_true, if_false, if_pos hshort]
        refine ⟨keeps_nextEvent n _ ?_, _, rfl⟩
        show (false || decide (s.input.rest.length < size)) = true
        rw [Bool.false_or, decide_eq_true hshort]
      · simp only [stringHandler, readHandler, hcut, Bool.false_eq_true, if_false, if_neg hshort, Bool.false_or,
          decide_eq_false hshort]
        exact ih _ (by simp [Input.Cut])

theorem below_parseText (n : ℕ) : Below (Option Value) (parseText lib N n) (parseText lib N (n + 1)) :=
  related_parse (respects_below YamlParser.input) (fun n => below_nextEvent stringHandler n) (fun y _ => below_going y) n

theorem follows_parse (n : ℕ) :
    Follows YamlParser.input Input.Cut (Option Value) (parseText lib N n) (parseStream lib N n) := by
  have hR := respects_follows (σ := YamlParser lib) (ε := Error) YamlParser.input Input.Cut
  have hnext : ∀ n, Follows YamlParser.input Input.Cut Event (nextEvent lib stringHandler n) (nextEvent lib readHandler (n + 0)) :=
    follows_nextEvent
  refine related_parse hR hnext (fun y hy => ?_) n
  rw [hy rfl]
  exact hR.frame fun _ => rfl

end

/-- The results from a stream and from a text are the same when the text is an error, or
when never more of it is asked for than is left. -/
theorem parse_stream_agrees_iff (lib : Libyaml) (N : Numerics) (text : Bytes) :
    Agree (parseText lib N) (parseStream lib N) (start lib text) ↔
      Fails (parseText lib N) (start lib text) ∨ ∀ n, (parseText lib N n (start lib text)).2.input.cut = false := by
  rw [agree_iff below_parseText follows_parse (show ¬ (start lib text).input.Cut by simp [start, Input.Cut])]
  simp only [Input.Cut, Bool.not_eq_true]

/-! ## A document of one scalar -/

/-- The steps of the library for a document that is one quoted scalar. -/
inductive Quoted
  | begun
  | filling (buffer : Bytes)
  | streamStart (buffer : Bytes)
  | documentStart (buffer : Bytes)
  | scalar (buffer : Bytes)
  | documentEnd
  | streamEnd
  | ended

/-- The raw buffer of the library has room for that many bytes. -/
def rawBufferSize : ℕ := 16384

def quotedScalar : Libyaml where
  State := Quoted
  init := .begun
  step
    | .begun => .read rawBufferSize .filling
    | .filling buffer =>
      if buffer.length < 3 then .read (rawBufferSize - buffer.length) fun more => .streamStart (buffer ++ more)
      else .event .streamStart (.documentStart buffer)
    | .streamStart buffer => .event .streamStart (.documentStart buffer)
    | .documentStart buffer => .event .documentStart (.scalar buffer)
    | .scalar buffer => .event (.scalar none none buffer.tail.dropLast false) .documentEnd
    | .documentEnd => .event .documentEnd .streamEnd
    | .streamEnd => .event .streamEnd .ended
    | .ended => .event .none .ended
  inputError := ⟨ascii "input error", 0⟩

/-- The document `"a"` is read from a text, and not from a stream. -/
theorem quoted_scalar_disagrees : ¬ Agree (parseText quotedScalar noNumerics) (parseStream quotedScalar noNumerics)
    (start quotedScalar (ascii "\"a\"")) := by
  rintro ⟨-, hfails⟩
  have htext : Returns (parseText quotedScalar noNumerics) (start quotedScalar (ascii "\"a\"")) (some (.string (ascii "a"))) :=
    ⟨8, rfl⟩
  have hstream : Fails (parseStream quotedScalar noNumerics) (start quotedScalar (ascii "\"a\"")) :=
    ⟨8, .failedPostcondition quotedScalar.inputError, rfl⟩
  exact not_returns_of_fails below_parseText (hfails.mpr hstream) _ htext

end Yaml

end CommonCore
