import CommonCore.TokenParser

/-!
# Reading JSON

`core::json::CustomReader`. Lists and maps may be nested as deep as there are
characters: each level reads one.
-/

namespace CommonCore

namespace Json

open Parsers

def valueMask : TokenMask := [.mapOpen, .listOpen, .nullValue, .bool, .numeric, .quotedString]

/-- The string of a token. -/
def asString : Value → Bytes
  | .string s => s
  | _ => []

section
variable {σ : Type} (I : Input σ) (nearest : Bytes → Option Double)

mutual
/-- `next_value`. The number bounds the calls that follow. -/
def nextValue : ℕ → TokenMask → σ → Except JsonError (TokenPair × σ)
  | 0, _, _ => .error .outOfFuel
  | n + 1, endTokens, s => do
    let (tp, s) ← nextOf I nearest valueMask endTokens s
    match tp.1 with
    | .mapOpen =>
      let (map, s) ← parseObject n s
      return ((tp.1, .kvmap map), s)
    | .listOpen =>
      let (list, s) ← parseArray n s
      return ((tp.1, .valuelist list), s)
    | _ => return (tp, s)
termination_by structural n => n

def parseObject : ℕ → σ → Except JsonError (KeyValueMap × σ)
  | 0, _ => .error .outOfFuel
  | n + 1, s => do
    let (tp, s) ← nextOf I nearest [.quotedString] [.mapClose] s
    parseEntries n tp [] s
termination_by structural n => n

/-- The loop of `parse_object`. -/
def parseEntries : ℕ → TokenPair → KeyValueMap → σ → Except JsonError (KeyValueMap × σ)
  | 0, _, _, _ => .error .outOfFuel
  | n + 1, tp, map, s =>
    if tp.1 = .none then .ok (map, s)
    else do
      let (_, s) ← nextOf I nearest [.colon] [] s
      let (value, s) ← nextValue n [] s
      let map := Keyed.put (asString tp.2) value.2 map
      let (separator, s) ← nextOf I nearest [.comma] [.mapClose] s
      if separator.1 = .none then return (map, s)
      let (tp, s) ← nextOf I nearest [.quotedString] [] s
      parseEntries n tp map s
termination_by structural n => n

def parseArray : ℕ → σ → Except JsonError (List Value × σ)
  | 0, _ => .error .outOfFuel
  | n + 1, s => do
    let (tp, s) ← nextValue n [.listClose] s
    parseElements n tp [] s
termination_by structural n => n

/-- The loop of `parse_array`. -/
def parseElements : ℕ → TokenPair → List Value → σ → Except JsonError (List Value × σ)
  | 0, _, _, _ => .error .outOfFuel
  | n + 1, tp, list, s =>
    if tp.1 = .none then .ok (list, s)
    else do
      let list := list ++ [tp.2]
      let (separator, s) ← nextOf I nearest [.comma] [.listClose] s
      if separator.1 = .none then return (list, s)
      let (tp, s) ← nextValue n [] s
      parseElements n tp list s
termination_by structural n => n
end

def parseInput (s : σ) : Except JsonError Value := do
  let (tp, s) ← nextValue I nearest (3 * I.unread s + 1) [] s
  let _ ← nextOf I nearest [.finish] [] s
  return tp.2

end

/-- `CustomReader::decoded`. -/
def decoded (nearest : Bytes → Option Double) (text : Bytes) : Except JsonError Value :=
  parseInput stringInput nearest (StringInput.ofString text)

/-- `CustomReader::read_stream`. -/
def readStream (nearest : Bytes → Option Double) (text : Bytes) : Except JsonError Value :=
  parseInput streamInput nearest (StreamInput.ofStream text)

end Json

end CommonCore
