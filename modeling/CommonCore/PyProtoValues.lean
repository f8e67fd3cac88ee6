import CommonCore.Keyed
import CommonCore.Variant

/-!
# The Python variant codecs

`variant` and `wellknown` each encode a Python value into a oneof, and decode the
oneof again. A message in a oneof is selected when it is written to, so that a
container without items stays unset; a name that is not defined raises where it
is looked up.
-/

namespace CommonCore

namespace PyProto

/-- A dictionary is in key order here, as its order does not count. -/
inductive PyValue
  | none
  | bool (b : Bool)
  | int (n : Int)
  | float (r : Double)
  | str (s : String)
  | bytes (b : Bytes)
  | list (l : List PyValue)
  | tuple (l : List PyValue)
  | dict (d : List (String × PyValue))

inductive Raised
  | nameError (name : String)
  | typeError
  | valueError
  | overflowError

/-- What an encoder returns, taken to what it is decoded to. -/
def roundTrip {M α : Type} (encoded : Except Raised M) (decode : M → α) : Except Raised α := encoded.map decode

/-! ## variant.py -/

/-- `cc.protobuf.variant.Value` -/
inductive VariantMessage
  | unset
  | bool (b : Bool)
  | uint (n : UInt64)
  | sint (n : Int64)
  | real (r : Double)
  | string (s : String)
  | bytes (b : Bytes)
  | list (items : List VariantMessage)
  | tvlist (items : List (String × VariantMessage))
  | kvmap (map : List (String × VariantMessage))

/-- The loop ends with its first item: it returns, or looks up `instinstance`. -/
def isTaggedList : List PyValue → Except Raised Bool
  | [] => .ok true
  | .tuple [_, _] :: _ => .error (.nameError "instinstance")
  | _ :: _ => .ok false

/-- It begins with `isinstance(input, TaggedvalueList)`. -/
def encodeTaggedValueList : Except Raised VariantMessage := .error (.nameError "TaggedvalueList")

/-- A repeated or map field with these items, in a message that is selected by them. -/
def selected {α M : Type} (unset : M) (field : List α → M) (items : List α) : M :=
  if items.isEmpty then unset else field items

def encodeInt (n : Int) : Except Raised VariantMessage :=
  if 0 ≤ n then if n < 2 ^ 64 then .ok (.uint (UInt64.ofInt n)) else .error .valueError
  else if -2 ^ 63 ≤ n then .ok (.sint (Int64.ofInt n))
  else .error .valueError

mutual
def encodeValue : PyValue → Except Raised VariantMessage
  | .none => .ok .unset
  | .bool b => .ok (.bool b)
  | .int n => encodeInt n
  | .float r => .ok (.real r)
  | .str s => .ok (.string s)
  | .bytes _ => .error (.nameError "ouptut")
  | .list l => do
    if (← isTaggedList l) then encodeTaggedValueList
    else return selected .unset .list (← encodeItems l)
  | .tuple l => do
    if (← isTaggedList l) then encodeTaggedValueList
    else return selected .unset .list (← encodeItems l)
  | .dict d => return selected .unset .kvmap (← encodeEntries d)
termination_by structural v => v
def encodeItems : List PyValue → Except Raised (List VariantMessage)
  | [] => .ok []
  | v :: l => do return (← encodeValue v) :: (← encodeItems l)
termination_by structural l => l
def encodeEntry : String × PyValue → Except Raised (String × VariantMessage)
  | (key, v) => do return (key, ← encodeValue v)
termination_by structural e => e
def encodeEntries : List (String × PyValue) → Except Raised (List (String × VariantMessage))
  | [] => .ok []
  | e :: d => do return (← encodeEntry e) :: (← encodeEntries d)
termination_by structural d => d
end

variable (order : List (String × PyValue) → List (String × PyValue))

mutual
/-- `order` is the order in which a ProtoBuf map is visited. -/
def decodeValue : VariantMessage → PyValue
  | .unset => .none
  | .bool b => .bool b
  | .uint n => .int n.toNat
  | .sint n => .int n.toInt
  | .real r => .float r
  | .string s => .str s
  | .bytes b => .bytes b
  | .list items => .list (decodeItems items)
  | .tvlist items => .list (decodeTagged items)
  | .kvmap map => .dict (Keyed.putAll [] (order (decodeEntries map)))
termination_by structural m => m
def decodeItems : List VariantMessage → List PyValue
  | [] => []
  | m :: l => decodeValue m :: decodeItems l
termination_by structural l => l
def decodeTag : String × VariantMessage → PyValue
  | (tag, m) => .tuple [.str tag, decodeValue m]
termination_by structural e => e
def decodeTagged : List (String × VariantMessage) → List PyValue
  | [] => []
  | e :: l => decodeTag e :: decodeTagged l
termination_by structural l => l
def decodeEntry : String × VariantMessage → String × PyValue
  | (key, m) => (key, decodeValue m)
termination_by structural e => e
def decodeEntries : List (String × VariantMessage) → List (String × PyValue)
  | [] => []
  | e :: l => decodeEntry e :: decodeEntries l
termination_by structural l => l
end

/-! ## wellknown.py -/

/-- `google.protobuf.Value` -/
inductive StructMessage
  | unset
  | null
  | bool (b : Bool)
  | number (r : Double)
  | string (s : String)
  | struct (fields : List (String × StructMessage))
  | list (values : List StructMessage)

/-- An integer that is rounded to 53 bits, half to even. -/
def rounded (n : ℕ) : ℕ :=
  let unit := 2 ^ (n.size - 53)
  let q := n / unit
  let r := n % unit
  if 2 * r < unit ∨ 2 * r = unit ∧ q % 2 = 0 then q * unit else (q + 1) * unit

/-- The conversion of an `int` to a `double`. -/
def doubleOfInt (n : Int) : Except Raised Double :=
  if rounded n.natAbs < 2 ^ 1024 then .ok (.finite (n.sign * (rounded n.natAbs : Int) : Int))
  else .error .overflowError

mutual
def encodeStructValue : PyValue → Except Raised StructMessage
  | .none => .ok .null
  | .bool b => .ok (.bool b)
  | .int n => return .number (← doubleOfInt n)
  | .float r => .ok (.number r)
  | .str s => .ok (.string s)
  | .dict d => return selected .unset .struct (← encodeStruct d)
  | .list _ => .error (.nameError "encodeList")
  | .bytes _ => .error .typeError
  | .tuple _ => .error .typeError
termination_by structural v => v
def encodeField : String × PyValue → Except Raised (String × StructMessage)
  | (key, v) => do return (key, ← encodeStructValue v)
termination_by structural e => e
def encodeStruct : List (String × PyValue) → Except Raised (List (String × StructMessage))
  | [] => .ok []
  | e :: d => do return (← encodeField e) :: (← encodeStruct d)
termination_by structural d => d
end

/-- A number that `is_integer` is an `int` again. -/
def decodeNumber : Double → PyValue
  | .finite q => if q.den = 1 then .int q.num else .float (.finite q)
  | r => .float r

mutual
def decodeStructValue : StructMessage → PyValue
  | .unset => .none
  | .null => .none
  | .bool b => .bool b
  | .number r => decodeNumber r
  | .string s => .str s
  | .struct fields => .dict (Keyed.putAll [] (order (decodeStruct fields)))
  | .list values => .list (decodeListValue values)
termination_by structural m => m
def decodeField : String × StructMessage → String × PyValue
  | (key, m) => (key, decodeStructValue m)
termination_by structural e => e
def decodeStruct : List (String × StructMessage) → List (String × PyValue)
  | [] => []
  | e :: l => decodeField e :: decodeStruct l
termination_by structural l => l
def decodeListValue : List StructMessage → List PyValue
  | [] => []
  | m :: l => decodeStructValue m :: decodeListValue l
termination_by structural l => l
end

/-! ## The values -/

mutual
/-- Lists are of values, or of tuples of a tag and a value. -/
def PyValue.Variant : PyValue → Prop
  | .none | .bool _ | .str _ | .bytes _ => True
  | .int n => -2 ^ 63 ≤ n ∧ n < 2 ^ 64
  | .float _ | .tuple _ => False
  | .list l => VariantList l ∨ TaggedList l
  | .dict d => Keyed.Ordered d ∧ VariantDict d
termination_by structural v => v
def VariantList : List PyValue → Prop
  | [] => True
  | v :: l => v.Variant ∧ VariantList l
termination_by structural l => l
def Tagged : PyValue → Prop
  | .tuple [.str _, v] => v.Variant
  | _ => False
termination_by structural v => v
def TaggedList : List PyValue → Prop
  | [] => True
  | v :: l => Tagged v ∧ TaggedList l
termination_by structural l => l
def VariantEntry : String × PyValue → Prop
  | (_, v) => v.Variant
termination_by structural e => e
def VariantDict : List (String × PyValue) → Prop
  | [] => True
  | e :: d => VariantEntry e ∧ VariantDict d
termination_by structural d => d
end

mutual
/-- No bytes, no tagged list, and nothing that is empty. -/
def PyValue.Encoded : PyValue → Prop
  | .bytes _ | .tuple _ => False
  | .list l => l ≠ [] ∧ EncodedList l
  | .dict d => d ≠ [] ∧ EncodedDict d
  | _ => True
termination_by structural v => v
def EncodedList : List PyValue → Prop
  | [] => True
  | v :: l => v.Encoded ∧ EncodedList l
termination_by structural l => l
def EncodedEntry : String × PyValue → Prop
  | (_, v) => v.Encoded
termination_by structural e => e
def EncodedDict : List (String × PyValue) → Prop
  | [] => True
  | e :: d => EncodedEntry e ∧ EncodedDict d
termination_by structural d => d
end

mutual
def PyValue.JsonLike : PyValue → Prop
  | .none | .bool _ | .str _ => True
  | .int n => n.natAbs ≤ 2 ^ 53
  | .float _ | .bytes _ | .tuple _ => False
  | .list l => JsonLikeList l
  | .dict d => Keyed.Ordered d ∧ JsonLikeDict d
termination_by structural v => v
def JsonLikeList : List PyValue → Prop
  | [] => True
  | v :: l => v.JsonLike ∧ JsonLikeList l
termination_by structural l => l
def JsonLikeEntry : String × PyValue → Prop
  | (_, v) => v.JsonLike
termination_by structural e => e
def JsonLikeDict : List (String × PyValue) → Prop
  | [] => True
  | e :: d => JsonLikeEntry e ∧ JsonLikeDict d
termination_by structural d => d
end

mutual
/-- No list, and no empty dictionary. -/
def PyValue.Structured : PyValue → Prop
  | .list _ => False
  | .dict d => d ≠ [] ∧ StructuredDict d
  | _ => True
termination_by structural v => v
def StructuredEntry : String × PyValue → Prop
  | (_, v) => v.Structured
termination_by structural e => e
def StructuredDict : List (String × PyValue) → Prop
  | [] => True
  | e :: d => StructuredEntry e ∧ StructuredDict d
termination_by structural d => d
end

/-! ## Round trips of parts -/

section Parts

variable {M N α β : Type} {decode : M → α}

@[simp] theorem roundTrip_ok (m : M) (decode : M → α) : roundTrip (.ok m) decode = .ok (decode m) := rfl

@[simp] theorem roundTrip_error (e : Raised) (decode : M → α) : roundTrip (.error e) decode = .error e := rfl

theorem roundTrip_cons (decode : M → α) {decodes : List M → List α} (cons : ∀ m l, decodes (m :: l) = decode m :: decodes l)
    (e : Except Raised M) (e' : Except Raised (List M)) (v : α) (l : List α) :
    roundTrip (do return (← e) :: (← e')) decodes = .ok (v :: l) ↔
      roundTrip e decode = .ok v ∧ roundTrip e' decodes = .ok l := by
  cases e with
  | error => simp [Bind.bind, Except.bind]
  | ok m =>
    cases e' with
    | error => simp [Bind.bind, Except.bind]
    | ok ms => simp [Bind.bind, Except.bind, Pure.pure, Except.pure, cons]

theorem roundTrip_entry (decode : M → α) {decodeEntry : String × M → String × α} (entry : ∀ key m, decodeEntry (key, m) = (key, decode m))
    (e : Except Raised M) (key : String) (v : α) :
    roundTrip (do return (key, ← e)) decodeEntry = .ok (key, v) ↔ roundTrip e decode = .ok v := by
  cases e with
  | error => simp [Bind.bind, Except.bind]
  | ok m => simp [Bind.bind, Except.bind, Pure.pure, Except.pure, entry]

/-- A container that is not empty comes back where its items do. -/
theorem roundTrip_selected (decodes : List M → List α) {encoded : Except Raised (List M)} {unset : N} {field : List M → N}
    {decode : N → β} {v : β} {l : List α}
    (restored : ∀ ms, encoded = .ok ms → ms ≠ [] ∧ (decode (field ms) = v ↔ decodes ms = l)) :
    roundTrip (do return selected unset field (← encoded)) decode = .ok v ↔ roundTrip encoded decodes = .ok l := by
  cases e : encoded with
  | error => simp [Bind.bind, Except.bind]
  | ok ms =>
    obtain ⟨ne, same⟩ := restored ms e
    have written : selected unset field ms = field ms := if_neg (by simpa using ne)
    simp [Bind.bind, Except.bind, Pure.pure, Except.pure, written, same]

end Parts

/-- What a step of an encoder of items has encoded. -/
theorem encoded_cons {M : Type} {e : Except Raised M} {e' : Except Raised (List M)} {ms : List M}
    (encoded : (do return (← e) :: (← e') : Except Raised (List M)) = .ok ms) :
    ∃ m rest, e = .ok m ∧ e' = .ok rest ∧ ms = m :: rest := by
  cases e with
  | error => cases encoded
  | ok m =>
    cases e' with
    | error => cases encoded
    | ok rest => exact ⟨m, rest, rfl, rfl, (Except.ok.inj encoded).symm⟩

theorem encoded_entry {M : Type} {e : Except Raised M} {key : String} {p : String × M}
    (encoded : (do return (key, ← e) : Except Raised (String × M)) = .ok p) : p.1 = key := by
  cases e with
  | error => cases encoded
  | ok m =>
    obtain rfl := Except.ok.inj encoded
    rfl

variable {order : List (String × PyValue) → List (String × PyValue)}

section
variable (horder : ∀ d, (order d).Perm d)
include horder

/-- The entries that are decoded have the keys of the dictionary, and so its order. -/
theorem dict_restored {entries d : List (String × PyValue)} (keys : entries.map Prod.fst = d.map Prod.fst)
    (ordered : Keyed.Ordered d) : PyValue.dict (Keyed.putAll [] (order entries)) = .dict d ↔ entries = d := by
  have entries_ordered : Keyed.Ordered entries := by
    unfold Keyed.Ordered at *
    rw [← List.pairwise_map (f := Prod.fst) (R := fun a b => compare a b = .lt)] at *
    rwa [keys]
  rw [Keyed.putAll_of_perm entries_ordered (horder entries)]
  simp

end

/-! ## variant.py -/

theorem keys_encodeEntries : ∀ (d : List (String × PyValue)) (ms : List (String × VariantMessage)),
    encodeEntries d = .ok ms → (decodeEntries order ms).map Prod.fst = d.map Prod.fst
  | [], ms, encoded => by
    obtain rfl := Except.ok.inj encoded
    rfl
  | (key, v) :: d, ms, encoded => by
    obtain ⟨⟨key', m⟩, rest, e, e', rfl⟩ := encoded_cons encoded
    obtain rfl : key' = key := encoded_entry e
    simp only [decodeEntries, decodeEntry, List.map_cons, keys_encodeEntries d rest e']

theorem encodeItems_ne {l : List PyValue} (ne : l ≠ []) {ms : List VariantMessage} (encoded : encodeItems l = .ok ms) :
    ms ≠ [] := by
  cases l with
  | nil => exact absurd rfl ne
  | cons v l =>
    obtain ⟨m, rest, -, -, rfl⟩ := encoded_cons encoded
    simp

theorem encodeEntries_ne {d : List (String × PyValue)} (ne : d ≠ []) {ms : List (String × VariantMessage)}
    (encoded : encodeEntries d = .ok ms) : ms ≠ [] := by
  cases d with
  | nil => exact absurd rfl ne
  | cons e d =>
    obtain ⟨m, rest, -, -, rfl⟩ := encoded_cons encoded
    simp

/-- The list is told from a tagged one by its first item. -/
theorem isTaggedList_of_variant {v : PyValue} (variant : v.Variant) (l : List PyValue) :
    isTaggedList (v :: l) = .ok false := by
  cases v with
  | tuple => cases variant
  | _ => rfl

theorem isTaggedList_of_tagged {v : PyValue} (tagged : Tagged v) (l : List PyValue) :
    isTaggedList (v :: l) = .error (.nameError "instinstance") := by
  unfold Tagged at tagged
  split at tagged
  · rfl
  · cases tagged

theorem not_encoded_of_tagged {v : PyValue} (tagged : Tagged v) : ¬ v.Encoded := by
  unfold Tagged at tagged
  split at tagged
  · simp [PyValue.Encoded]
  · cases tagged

theorem int_restored {n : Int} (low : -2 ^ 63 ≤ n) (high : n < 2 ^ 64) :
    roundTrip (encodeInt n) (decodeValue order) = .ok (.int n) := by
  by_cases nonneg : 0 ≤ n
  · have restored : ((UInt64.ofInt n).toNat : Int) = n := by
      rw [UInt64.ofInt, UInt64.toNat_ofNat']
      omega
    simp only [encodeInt, if_pos nonneg, if_pos high, roundTrip_ok, decodeValue, restored]
  · have restored : (Int64.ofInt n).toInt = n := Int64.toInt_ofInt_of_le low (by omega)
    simp only [encodeInt, if_neg nonneg, if_pos low, roundTrip_ok, decodeValue, restored]

/-- A list of values that is not empty. -/
theorem encodeValue_list {l : List PyValue} (untagged : isTaggedList l = .ok false) :
    encodeValue (.list l) = (do return selected .unset .list (← encodeItems l)) := by
  rw [encodeValue, untagged]
  rfl

section
variable (horder : ∀ d, (order d).Perm d)
include horder

set_option linter.unusedSectionVars false in
mutual
theorem variant_restored : ∀ v : PyValue, v.Variant → (roundTrip (encodeValue v) (decodeValue order) = .ok v ↔ v.Encoded)
  | .none, _ | .bool _, _ | .str _, _ => by simp [encodeValue, decodeValue, PyValue.Encoded]
  | .bytes _, _ => by simp [encodeValue, PyValue.Encoded]
  | .int n, variant => by simp [encodeValue, int_restored variant.1 variant.2, PyValue.Encoded]
  | .float _, variant | .tuple _, variant => by simp [PyValue.Variant] at variant
  | .list [], _ => by
    simp only [PyValue.Encoded, ne_eq, not_true_eq_false, false_and, iff_false]
    intro restored
    cases restored
  | .list (v :: l), variant => by
    rw [PyValue.Variant] at variant
    rcases variant with variant | tagged
    · rw [encodeValue_list (isTaggedList_of_variant variant.1 l), roundTrip_selected (decodeItems order)]
      · rw [items_restored (v :: l) variant]
        simp [PyValue.Encoded]
      · intro ms encoded
        exact ⟨encodeItems_ne (by simp) encoded, by simp [decodeValue]⟩
    · rw [encodeValue, isTaggedList_of_tagged tagged.1]
      constructor
      · intro restored
        cases restored
      · intro encoded
        exact absurd encoded.2.1 (not_encoded_of_tagged tagged.1)
  | .dict [], _ => by
    simp only [PyValue.Encoded, ne_eq, not_true_eq_false, false_and, iff_false]
    intro restored
    cases restored
  | .dict (e :: d), variant => by
    rw [encodeValue, roundTrip_selected (decodeEntries order)]
    · rw [entries_restored (e :: d) variant.2]
      simp [PyValue.Encoded]
    · intro ms encoded
      refine ⟨encodeEntries_ne (by simp) encoded, ?_⟩
      rw [decodeValue]
      exact dict_restored horder (keys_encodeEntries _ _ encoded) variant.1
theorem items_restored : ∀ l : List PyValue, VariantList l →
    (roundTrip (encodeItems l) (decodeItems order) = .ok l ↔ EncodedList l)
  | [], _ => by simp [encodeItems, decodeItems, EncodedList]
  | v :: l, variant => by
    rw [encodeItems, roundTrip_cons (decodeValue order) (fun _ _ => rfl), EncodedList]
    rw [variant_restored v variant.1, items_restored l variant.2]
theorem entries_restored : ∀ d : List (String × PyValue), VariantDict d →
    (roundTrip (encodeEntries d) (decodeEntries order) = .ok d ↔ EncodedDict d)
  | [], _ => by simp [encodeEntries, decodeEntries, EncodedDict]
  | (key, v) :: d, variant => by
    rw [encodeEntries, roundTrip_cons (decodeEntry order) (fun _ _ => rfl), encodeEntry,
      roundTrip_entry (decodeValue order) (fun _ _ => rfl), EncodedDict, EncodedEntry]
    rw [variant_restored v variant.1, entries_restored d variant.2]
end

end

/-! ## wellknown.py -/

theorem rounded_of_le {n : ℕ} (small : n ≤ 2 ^ 53) : rounded n = n := by
  rcases Nat.lt_or_eq_of_le small with lt | rfl
  · have size : n.size - 53 = 0 := by
      have := Nat.size_le.mpr lt
      omega
    simp [rounded, size, Nat.mod_one]
  · have size : (2 ^ 53 : ℕ).size = 54 := Nat.size_pow
    rw [rounded, size]
    decide

theorem doubleOfInt_of_le {n : Int} (small : n.natAbs ≤ 2 ^ 53) : doubleOfInt n = .ok (.finite (n : ℚ)) := by
  have larger : 53 < 1024 := by decide
  have finite : n.natAbs < 2 ^ 1024 := small.trans_lt (pow_lt_pow_right₀ Nat.one_lt_two larger)
  rw [doubleOfInt, rounded_of_le small, if_pos finite, Int.sign_mul_natAbs]

theorem keys_encodeStruct : ∀ (d : List (String × PyValue)) (ms : List (String × StructMessage)),
    encodeStruct d = .ok ms → (decodeStruct order ms).map Prod.fst = d.map Prod.fst
  | [], ms, encoded => by
    obtain rfl := Except.ok.inj encoded
    rfl
  | (key, v) :: d, ms, encoded => by
    obtain ⟨⟨key', m⟩, rest, e, e', rfl⟩ := encoded_cons encoded
    obtain rfl : key' = key := encoded_entry e
    simp only [decodeStruct, decodeField, List.map_cons, keys_encodeStruct d rest e']

theorem encodeStruct_ne {d : List (String × PyValue)} (ne : d ≠ []) {ms : List (String × StructMessage)}
    (encoded : encodeStruct d = .ok ms) : ms ≠ [] := by
  cases d with
  | nil => exact absurd rfl ne
  | cons e d =>
    obtain ⟨m, rest, -, -, rfl⟩ := encoded_cons encoded
    simp

section
variable (horder : ∀ d, (order d).Perm d)
include horder

set_option linter.unusedSectionVars false in
mutual
theorem struct_value_restored : ∀ v : PyValue, v.JsonLike →
    (roundTrip (encodeStructValue v) (decodeStructValue order) = .ok v ↔ v.Structured)
  | .none, _ | .bool _, _ | .str _, _ => by simp [encodeStructValue, decodeStructValue, PyValue.Structured]
  | .bytes _, json | .float _, json | .tuple _, json => by simp [PyValue.JsonLike] at json
  | .int n, json => by
    rw [PyValue.JsonLike] at json
    rw [encodeStructValue, doubleOfInt_of_le json]
    simp [Bind.bind, Except.bind, Pure.pure, Except.pure, decodeStructValue, decodeNumber, PyValue.Structured]
  | .list _, _ => by simp [encodeStructValue, PyValue.Structured]
  | .dict [], _ => by
    simp only [PyValue.Structured, ne_eq, not_true_eq_false, false_and, iff_false]
    intro restored
    cases restored
  | .dict (e :: d), json => by
    rw [encodeStructValue, roundTrip_selected (decodeStruct order)]
    · rw [struct_restored (e :: d) json.2]
      simp [PyValue.Structured]
    · intro ms encoded
      refine ⟨encodeStruct_ne (by simp) encoded, ?_⟩
      rw [decodeStructValue]
      exact dict_restored horder (keys_encodeStruct _ _ encoded) json.1
theorem struct_restored : ∀ d : List (String × PyValue), JsonLikeDict d →
    (roundTrip (encodeStruct d) (decodeStruct order) = .ok d ↔ StructuredDict d)
  | [], _ => by simp [encodeStruct, decodeStruct, StructuredDict]
  | (key, v) :: d, json => by
    rw [encodeStruct, roundTrip_cons (decodeField order) (fun _ _ => rfl), encodeField,
      roundTrip_entry (decodeStructValue order) (fun _ _ => rfl), StructuredDict, StructuredEntry]
    rw [struct_value_restored v json.1, struct_restored d json.2]
end

end

def nestedDict : PyValue := .dict [("a", .int (-1)), ("b", .list [.str "x", .none])]

end PyProto

end CommonCore
