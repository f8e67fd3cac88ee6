import CommonCore.FromChars

/-!
# Command line parsing

The parser walks over the arguments; an option that takes an argument may take
the next one. What it has read is written down, for each argument that it
starts with: the occurrences of options, where their values stood and what was
assigned to their targets.
-/

namespace CommonCore

namespace Argparse

variable {ι V : Type}

/-- `Option<T>`, with the conversion of its type, which may fail. -/
structure BaseOption (V : Type) where
  argname : Option Bytes
  shortopts : List UInt8
  longopts : List Bytes
  repeats : ℕ × ℕ
  constValue : Option V
  defaultValue : Option V
  convertTo : Bytes → Option V

namespace BaseOption

def takesArgument (opt : BaseOption V) : Bool := opt.argname.isSome

def hasDefault (opt : BaseOption V) : Bool := opt.defaultValue.isSome

def isNamed (opt : BaseOption V) : Bool := 0 < opt.shortopts.length + opt.longopts.length

end BaseOption

inductive Failure (ι : Type)
  | unknownShortOption (shortopt : UInt8)
  | unknownLongOption (longopt : Bytes)
  | requiresArgument (optkey : UInt8)
  | longRequiresArgument (optkey : Bytes)
  | repeatedTooManyTimes (opt : ι) (maxrepeats : ℕ)
  | tooManyArguments
  | missingOption (opt : ι)
  | missingArgument (opt : ι)
  | conversion (opt : ι) (arg : Bytes)
  deriving DecidableEq

/-- Where the value of an option stands: nowhere, behind its name, or in an
element of its own. -/
inductive Given
  | absent
  | attached (text : Bytes)
  | element (text : Bytes)
  deriving DecidableEq

structure Occurrence (ι V : Type) where
  option : ι
  given : Given
  assigned : List V
  deriving DecidableEq

inductive Use (ι V : Type)
  | cluster (occurrences : List (UInt8 × Occurrence ι V))
  | long (optkey : Bytes) (occurrence : Occurrence ι V)
  | positional (occurrence : Occurrence ι V)
  deriving DecidableEq

/-! ## The shapes of arguments -/

def dash : UInt8 := 45

def equalSign : UInt8 := 61

/-- `.` -/
def inLine (c : UInt8) : Bool := c != 10 && c != 13

/-- `-([^-].*)` -/
def matchShort : Bytes → Option Bytes
  | d :: c :: chars => if d = dash ∧ c ≠ dash ∧ chars.all inLine then some (c :: chars) else none
  | _ => none

/-- `--([^=[:space:]]+)(=(.*))?`: the key, and what follows the equal sign. -/
def matchLong : Bytes → Option (Bytes × Option Bytes)
  | d :: d' :: text =>
    if d = dash ∧ d' = dash then
      match text.span fun c => c ≠ equalSign && !isSpace c with
      | ([], _) => none
      | (key, []) => some (key, none)
      | (key, e :: value) => if e = equalSign ∧ value.all inLine then some (key, some value) else none
    else none
  | _ => none

section
variable [DecidableEq ι]

/-- `Parser::ParseState`; the iterator is an index, at first the end. -/
structure ParseState (ι : Type) where
  encounters : ι → ℕ
  currentUnnamed : ℕ

variable (options : List ι) (option : ι → BaseOption V)

/-- `add_encounter`: is there room for one more? -/
def ParseState.addEncounter (state : ParseState ι) (opt : ι) : Option (ParseState ι) :=
  if (option opt).repeats.2 = 0 ∨ state.encounters opt < (option opt).repeats.2 then
    some { state with encounters := Function.update state.encounters opt (state.encounters opt + 1) }
  else none

def getShortopt (shortopt : UInt8) : Option ι := options.find? fun opt => (option opt).shortopts.contains shortopt

def getLongopt (longopt : Bytes) : Option ι := options.find? fun opt => (option opt).longopts.contains longopt

def encounter (state : ParseState ι) (opt : ι) : Except (Failure ι) (ParseState ι) :=
  match state.addEncounter option opt with
  | some state => .ok state
  | none => .error (.repeatedTooManyTimes opt (option opt).repeats.2)

def assignArgument (opt : ι) (arg : Bytes) : Except (Failure ι) (List V) :=
  match (option opt).convertTo arg with
  | some v => .ok [v]
  | none => .error (.conversion opt arg)

def assignFixed (opt : ι) : List V := (option opt).constValue.toList

def assignDefault (opt : ι) : List V := (option opt).defaultValue.toList

/-! ## One argument -/

/-- The characters of a short option string. The next argument is there to be
taken as a value; was it? -/
def parseShort : Bytes → Option Bytes → ParseState ι →
    Except (Failure ι) (ParseState ι × List (UInt8 × Occurrence ι V) × Bool)
  | [], _, state => .ok (state, [], false)
  | optkey :: chars, next, state =>
    match getShortopt options option optkey with
    | none => .error (.unknownShortOption optkey)
    | some opt => do
      let state ← encounter option state opt
      if (option opt).takesArgument then
        if chars ≠ [] then
          let values ← assignArgument option opt chars
          .ok (state, [(optkey, ⟨opt, .attached chars, values⟩)], false)
        else
          match next with
          | some optarg =>
            let values ← assignArgument option opt optarg
            .ok (state, [(optkey, ⟨opt, .element optarg, values⟩)], true)
          | none =>
            if (option opt).hasDefault then
              -- The empty argument is assigned after the default.
              let values ← assignArgument option opt []
              .ok (state, [(optkey, ⟨opt, .absent, assignDefault option opt ++ values⟩)], false)
            else .error (.requiresArgument optkey)
      else
        let (state, occurrences, taken) ← parseShort chars next state
        .ok (state, (optkey, ⟨opt, .absent, assignFixed option opt⟩) :: occurrences, taken)

def parseLong (optkey : Bytes) (optarg : Option Bytes) (next : Option Bytes) (state : ParseState ι) :
    Except (Failure ι) (ParseState ι × Occurrence ι V × Bool) :=
  match getLongopt options option optkey with
  | none => .error (.unknownLongOption optkey)
  | some opt => do
    let state ← encounter option state opt
    match optarg with
    | some optval =>
      let values ← assignArgument option opt optval
      .ok (state, ⟨opt, .attached optval, values⟩, false)
    | none =>
      if (option opt).takesArgument then
        match next with
        | some optval =>
          let values ← assignArgument option opt optval
          .ok (state, ⟨opt, .element optval, values⟩, true)
        | none =>
          if (option opt).hasDefault then .ok (state, ⟨opt, .absent, assignDefault option opt⟩, false)
          else if 0 < (option opt).repeats.1 then .error (.longRequiresArgument optkey)
          else .ok (state, ⟨opt, .absent, []⟩, false)
      else .ok (state, ⟨opt, .absent, assignFixed option opt⟩, false)

/-- The next option from an index on that has no name and room for one more. -/
def nextUnnamed (state : ParseState ι) : ℕ → List ι → Except (Failure ι) (ParseState ι × ι)
  | _, [] => .error .tooManyArguments
  | k, opt :: rest =>
    if (option opt).isNamed then nextUnnamed state (k + 1) rest
    else
      match state.addEncounter option opt with
      | some state => .ok ({ state with currentUnnamed := k }, opt)
      | none => nextUnnamed state (k + 1) rest

def nextPositional (state : ParseState ι) : Except (Failure ι) (ParseState ι × ι) :=
  match options[state.currentUnnamed]? with
  | none => nextUnnamed option state 0 options
  | some opt =>
    match state.addEncounter option opt with
    | some state => .ok (state, opt)
    | none => nextUnnamed option state (state.currentUnnamed + 1) (options.drop (state.currentUnnamed + 1))

def parseArg (arg : Bytes) (state : ParseState ι) : Except (Failure ι) (ParseState ι × Occurrence ι V) := do
  let (state, opt) ← nextPositional options option state
  let values ← assignArgument option opt arg
  .ok (state, ⟨opt, .element arg, values⟩)

def parseOne (arg : Bytes) (next : Option Bytes) (state : ParseState ι) :
    Except (Failure ι) (ParseState ι × Use ι V × Bool) :=
  match matchShort arg with
  | some optstring => do
    let (state, occurrences, taken) ← parseShort options option optstring next state
    .ok (state, .cluster occurrences, taken)
  | none =>
    match matchLong arg with
    | some (optkey, optarg) => do
      let (state, occurrence, taken) ← parseLong options option optkey optarg next state
      .ok (state, .long optkey occurrence, taken)
    | none => do
      let (state, occurrence) ← parseArg options option arg state
      .ok (state, .positional occurrence, false)

/-! ## All of them -/

def parseEach : List Bytes → ParseState ι → Except (Failure ι) (ParseState ι × List (Use ι V))
  | [], state => .ok (state, [])
  | [arg], state => do
    let (state, use, _) ← parseOne options option arg none state
    .ok (state, [use])
  | arg :: next :: rest, state => do
    let (state, use, taken) ← parseOne options option arg (some next) state
    let (state, uses) ← if taken then parseEach rest state else parseEach (next :: rest) state
    .ok (state, use :: uses)

def assignDefaults : List ι → ParseState ι → Except (Failure ι) (ParseState ι × List (Occurrence ι V))
  | [], state => .ok (state, [])
  | opt :: rest, state =>
    let missing := (option opt).repeats.1 - state.encounters opt
    if (option opt).isNamed ∧ (option opt).hasDefault then do
      let encounters := Function.update state.encounters opt (state.encounters opt + missing)
      let (state, defaults) ← assignDefaults rest { state with encounters }
      .ok (state, List.replicate missing ⟨opt, .absent, assignDefault option opt⟩ ++ defaults)
    else if 0 < missing then
      .error (if (option opt).isNamed then .missingOption opt else .missingArgument opt)
    else assignDefaults rest state

structure Parsed (ι V : Type) where
  uses : List (Use ι V)
  defaults : List (Occurrence ι V)
  deriving DecidableEq

def parseArgs (args : List Bytes) : Except (Failure ι) (Parsed ι V) := do
  let (state, uses) ← parseEach options option args ⟨fun _ => 0, options.length⟩
  let (_, defaults) ← assignDefaults option options state
  .ok ⟨uses, defaults⟩

end

/-! ## Accounting for the arguments -/

namespace Given

def text : Given → Option Bytes
  | absent => none
  | attached text => some text
  | element text => some text

def elements : Given → List Bytes
  | element text => [text]
  | _ => []

def suffix : Given → Bytes
  | attached text => text
  | _ => []

def longSuffix : Given → Bytes
  | attached text => equalSign :: text
  | _ => []

end Given

namespace Use

def occurrences : Use ι V → List (Occurrence ι V)
  | cluster occurrences => occurrences.map Prod.snd
  | long _ occurrence => [occurrence]
  | positional occurrence => [occurrence]

/-- The elements that are written like this. -/
def spelling : Use ι V → List Bytes
  | cluster occurrences =>
    (dash :: occurrences.flatMap fun o => o.1 :: o.2.given.suffix) :: occurrences.flatMap fun o => o.2.given.elements
  | long optkey occurrence => (dash :: dash :: (optkey ++ occurrence.given.longSuffix)) :: occurrence.given.elements
  | positional occurrence => occurrence.given.elements

end Use

def Parsed.occurrences (p : Parsed ι V) : List (Occurrence ι V) := p.uses.flatMap Use.occurrences ++ p.defaults

section
variable [DecidableEq ι] (options : List ι) (option : ι → BaseOption V)

/-- One value is assigned: what is given, or else what the option has for it. -/
def Occurrence.Assigned (o : Occurrence ι V) : Prop :=
  ∃ v, o.assigned = [v] ∧
    match o.given.text with
    | some text => (option o.option).convertTo text = some v
    | none => (if (option o.option).takesArgument then (option o.option).defaultValue
        else (option o.option).constValue) = some v

def occurs (l : List (Occurrence ι V)) (opt : ι) : ℕ := l.countP fun o => o.option = opt

structure Accounted (args : List Bytes) (p : Parsed ι V) : Prop where
  consumed : p.uses.flatMap Use.spelling = args
  assigned : ∀ use ∈ p.uses, ∀ o ∈ use.occurrences, o.Assigned option
  defaults : ∀ o ∈ p.defaults, ∃ v, o.assigned = [v] ∧ (option o.option).defaultValue = some v
  repeats : ∀ opt ∈ options, (option opt).repeats.1 ≤ occurs p.occurrences opt ∧
    ((option opt).repeats.2 = 0 ∨ occurs p.occurrences opt ≤ (option opt).repeats.2)

/-! ## Where a value is missing -/

/-- Options without an argument have a fixed value, and one with an argument
does not end the last element. -/
def completeShort (hasNext : Bool) : Bytes → Prop
  | [] => True
  | optkey :: chars =>
    match getShortopt options option optkey with
    | none => True
    | some opt =>
      if (option opt).takesArgument then chars ≠ [] ∨ hasNext = true
      else (option opt).constValue.isSome = true ∧ completeShort hasNext chars

def completeLong (hasNext : Bool) (optkey : Bytes) (optarg : Option Bytes) : Prop :=
  match getLongopt options option optkey with
  | none => True
  | some opt =>
    optarg.isSome = true ∨
      if (option opt).takesArgument then hasNext = true ∨ (option opt).hasDefault = true
      else (option opt).constValue.isSome = true

def complete (hasNext : Bool) (arg : Bytes) : Prop :=
  match matchShort arg with
  | some optstring => completeShort options option hasNext optstring
  | none =>
    match matchLong arg with
    | some (optkey, optarg) => completeLong options option hasNext optkey optarg
    | none => True

/-- Does the last character name an option with an argument? -/
def openShort : Bytes → Bool
  | [] => false
  | optkey :: chars =>
    match getShortopt options option optkey with
    | none => false
    | some opt => if (option opt).takesArgument then chars = [] else openShort chars

/-- Does this argument take the next one as a value? -/
def opens (arg : Bytes) : Bool :=
  match matchShort arg with
  | some optstring => openShort options option optstring
  | none =>
    match matchLong arg with
    | some (optkey, optarg) =>
      optarg.isNone && (getLongopt options option optkey).any fun opt => (option opt).takesArgument
    | none => false

/-- No value is missing in the arguments. -/
def Complete : List Bytes → Prop
  | [] => True
  | [arg] => complete options option false arg
  | arg :: next :: rest =>
    complete options option true arg ∧ if opens options option arg then Complete rest else Complete (next :: rest)

end

end Argparse

end CommonCore
