import CommonCore.Fuel
import CommonCore.Reflection
import CommonCore.CommonPrefixes
import CommonCore.VariantProto

/-!
# Decoding any ProtoBuf message

`MessageDecoder` makes a list of tagged values of the fields of a message, less
those that decode to nothing. An entry of a map is such a message as well, of
which the first and the last value are taken.
-/

namespace CommonCore

namespace Decoder

open Reflection Fuel

/-! ## Scalars and enumerations -/

/-- The names and numbers of a `google::protobuf::EnumDescriptor` -/
abbrev EnumType := List (Bytes × Int32)

inductive Scalar
  | int32 (n : Int32)
  | int64 (n : Int64)
  | uint32 (n : UInt32)
  | uint64 (n : UInt64)
  | real (r : Double)
  | bool (b : Bool)
  | enum (type : EnumType) (n : Int32)
  | string (s : Bytes)
  | bytes (b : Bytes)

/-- `std::out_of_range`, of `substr`. -/
inductive Thrown
  | outOfRange

def prefixLength (type : EnumType) : ℕ := (Str.commonPrefixWords (type.map Prod.fst) ⟨ascii "_", by decide⟩).length

def enumName (type : EnumType) (n : Int32) : Except Thrown Bytes :=
  match type.find? (·.2 = n) with
  | some (name, _) => if prefixLength type ≤ name.length then .ok (name.drop (prefixLength type)) else .error .outOfRange
  | none => .ok []

def scalarToValue (enumsAsStrings : Bool) : Scalar → Except Thrown Value
  | .int32 n => .ok (.sint n.toInt64)
  | .int64 n => .ok (.sint n)
  | .uint32 n => .ok (.uint n.toUInt64)
  | .uint64 n => .ok (.uint n)
  | .real r => .ok (.real r)
  | .bool b => .ok (.bool b)
  | .enum type n => if enumsAsStrings then (enumName type n).map .string else .ok (.sint n.toInt64)
  | .string s => .ok (.string s)
  | .bytes b => .ok (.bytevector b)

/-! ## Messages with decoders of their own -/

/-- `google::protobuf::Value` -/
inductive Json
  | unset
  | null
  | number (r : Double)
  | string (s : Bytes)
  | bool (b : Bool)
  | struct (fields : List (Bytes × Json))
  | list (values : List Json)

section
variable (order : KeyValueMap → KeyValueMap)

mutual
def Json.decode : Json → Value
  | .unset => .none
  | .null => .none
  | .number r => .real r
  | .string s => .string s
  | .bool b => .bool b
  | .struct fields => .kvmap (Keyed.putAll [] (order (decodeFields fields)))
  | .list values => .valuelist (decodeValues values)
termination_by structural m => m
def decodeField : Bytes × Json → Bytes × Value
  | (key, m) => (key, m.decode)
termination_by structural p => p
def decodeFields : List (Bytes × Json) → List (Bytes × Value)
  | [] => []
  | p :: fields => decodeField p :: decodeFields fields
termination_by structural fields => fields
def decodeValues : List Json → List Value
  | [] => []
  | m :: values => m.decode :: decodeValues values
termination_by structural values => values
end

/-- The well-known types, and those of `cc.protobuf.variant`. -/
inductive WellKnown
  | real (r : Double)
  | sint (n : Int64)
  | uint (n : UInt64)
  | string (s : Bytes)
  | bytes (b : Bytes)
  | bool (b : Bool)
  | duration (seconds nanos : Int)
  | timestamp (seconds nanos : Int)
  | json (m : Json)
  | listValue (values : List Json)
  | struct (fields : List (Bytes × Json))
  | variant (m : Message)
  | valueList (items : List Message)
  | taggedValueList (items : List (Bytes × Message))
  | keyValueMap (map : List (Bytes × Message))

def WellKnown.decode : WellKnown → Value
  | .real r => .real r
  | .sint n => .sint n
  | .uint n => .uint n
  | .string s => .string s
  | .bytes b => .bytevector b
  | .bool b => .bool b
  | .duration seconds nanos => .duration (seconds * Dt.second + nanos)
  | .timestamp seconds nanos => .timepoint (toTimepoint seconds nanos)
  | .json m => m.decode order
  | .listValue values => .valuelist (decodeValues order values)
  | .struct fields => (Json.struct fields).decode order
  | .variant m => m.decode order
  | .valueList items => .valuelist (decodeList order items)
  | .taggedValueList items => .tvlist (decodeTagged order items)
  | .keyValueMap map => (Message.kvmap map).decode order

end

/-! ## Messages by their fields -/

abbrev Msg (τ : Type) := Reflection.Msg Bytes Scalar WellKnown τ
abbrev Item (τ : Type) := Reflection.Item Bytes Scalar WellKnown τ
abbrev Field (τ : Type) := Reflection.Field Bytes Scalar WellKnown τ

/-- What a message has in the field of a name. -/
abbrev Fields (τ : Type) := Bytes → List (Item τ)

def front (l : TaggedValueList) : Value := (l.head?.map Prod.snd).getD .none

def back (l : TaggedValueList) : Value := (l.getLast?.map Prod.snd).getD .none

/-- How to decode, beyond the messages: the order in which maps are visited, and
what is written of values that are no strings. -/
structure Options where
  order : KeyValueMap → KeyValueMap
  stream : Value → Bytes
  enumsAsStrings : Bool

variable {τ : Type} [DecidableEq τ] (S : Schema Bytes Scalar WellKnown τ) (O : Options)

def asString : Value → Bytes
  | .string s => s
  | v => O.stream v

section
variable (toTvlist : τ → Fields τ → Run Thrown TaggedValueList) (present absent : Msg τ → Run Thrown Value)

/-- `message_to_value`, for which `to_tvlist` is called where the type has no
decoder of its own. -/
def messageToValue : Msg τ → Run Thrown Value
  | .own m => pure (m.decode O.order)
  | .generic t get => Value.tvlist <$> toTvlist t get

def itemToValue (messageToValue : Msg τ → Run Thrown Value) : Item τ → Run Thrown Value
  | .inl s => .ofExcept (scalarToValue O.enumsAsStrings s)
  | .inr m => messageToValue m

/-- A field that is absent reads as a default, which may be a message. -/
def singleFieldToValue (get : Fields τ) (fd : Field τ) : Run Thrown Value :=
  match fd.items get with
  | item :: _ => itemToValue O present item
  | [] => itemToValue O absent fd.kind.default

def repeatedFieldToValuelist (get : Fields τ) (fd : Field τ) : Run Thrown (List Value) :=
  (fd.items get).mapM (itemToValue O present)

def mappedFieldToTvlist (get : Fields τ) (fd : Field τ) : Run Thrown TaggedValueList :=
  (generics (fd.items get)).mapM fun entry => do
    let fieldData ← toTvlist entry.1 entry.2
    return (some (asString O (front fieldData)), back fieldData)

def fieldToValue (get : Fields τ) (fd : Field τ) : Run Thrown Value :=
  if (S.isMap fd).isSome then
    if fd.items get = [] then pure .none else Value.tvlist <$> mappedFieldToTvlist O toTvlist get fd
  else if fd.label = .repeated then
    if fd.items get = [] then pure .none else Value.valuelist <$> repeatedFieldToValuelist O present get fd
  else if fd.items get ≠ [] ∨ fd.label = .singular false then singleFieldToValue O present absent get fd
  else pure .none

def listed (fd : Field τ) : Value → Option (Option Bytes × Value)
  | .none => none
  | v => some (some fd.name, v)

def fieldsToTvlist (t : τ) (get : Fields τ) : Run Thrown TaggedValueList :=
  List.reduceOption <$> (S.fields t).mapM fun fd => listed fd <$> fieldToValue S O toTvlist present absent get fd

end

/-- `to_tvlist`, with fuel. Messages that are absent may be kept from being
descended into, where the run is left going. -/
def toTvlist (descend : Bool) : ℕ → τ → Fields τ → Run Thrown TaggedValueList
  | 0 => fun _ _ => .going
  | n + 1 =>
    let message := messageToValue O (toTvlist descend n)
    fieldsToTvlist S O (toTvlist descend n) message (if descend then message else fun _ => .going)

def toValue (descend : Bool) (n : ℕ) : Msg τ → Run Thrown Value := messageToValue O (toTvlist S O descend n)

/-! ## Entries of maps -/

theorem forall₂_zipWith {α β γ : Type} {R : α → β → Prop} {Q : α → γ → Prop} {f : α → β → γ} {l : List α} {m : List β}
    (h : List.Forall₂ R l m) (hf : ∀ a ∈ l, ∀ b, R a b → Q a (f a b)) : List.Forall₂ Q l (List.zipWith f l m) := by
  induction h with
  | nil => exact .nil
  | @cons a b l m hab _ ih => exact .cons (hf a List.mem_cons_self b hab) (ih fun a ha => hf a (List.mem_cons_of_mem _ ha))

section
variable (get : Fields τ) (fd key value : Field τ)

/-- What an item is decoded to. -/
def Decodes (item : Item τ) (v : Value) : Prop := Returns (fun n => itemToValue O (toValue S O true n) item) v

def FieldDecodes (v : Value) : Prop :=
  Returns (fun n => fieldToValue S O (toTvlist S O true n) (toValue S O true n) (toValue S O true n) get fd) v

def keyText (entry : τ × Fields τ) : Bytes :=
  match key.item entry.2 with
  | .inl (.string s) => s
  | _ => []

def StringKeys : Prop := ∀ entry ∈ generics (fd.items get), ∃ s, key.item entry.2 = .inl (.string s)

def tagged : Value → TaggedValueList
  | .tvlist l => l
  | _ => []

/-- If the values of a map can be decoded, the field is decoded to one entry for
each, with the text of the key and the value. -/
def KeepsEntries : Prop :=
  ∀ vs, List.Forall₂ (fun entry v => Decodes S O (value.item entry.2) v) (generics (fd.items get)) vs →
    ∃ v, FieldDecodes S O get fd v ∧
      tagged v = List.zipWith (fun entry v => (some (keyText key entry), v)) (generics (fd.items get)) vs

/-- All maps with strings for keys, at any depth. -/
def MapsKept (m : Msg τ) : Prop :=
  ∀ t get, S.Within (.generic t get) m → ∀ fd ∈ S.fields t, ∀ key value, S.isMap fd = some (key, value) →
    StringKeys get fd key → KeepsEntries S O get fd key value

/-- A message that is decoded to nothing, by the decoder of its type. -/
def Null (item : Item τ) : Prop := ∃ m, item = .inr (.own m) ∧ m.decode O.order = .none

def NoNullEntries (m : Msg τ) : Prop :=
  ∀ t get, S.Within (.generic t get) m → ∀ fd ∈ S.fields t, ∀ key value, S.isMap fd = some (key, value) →
    StringKeys get fd key → ∀ entry ∈ generics (fd.items get), ¬ Null O (value.item entry.2)

end

section
variable {S O} {get : Fields τ} {fd key value : Field τ}

theorem fieldToValue_singular {T : τ → Fields τ → Run Thrown TaggedValueList} {message : Msg τ → Run Thrown Value}
    (h : fd.label = .singular false) : fieldToValue S O T message message get fd = itemToValue O message (fd.item get) := by
  unfold fieldToValue singleFieldToValue Field.item
  rw [isMap_singular h, h]
  cases fd.items get <;> simp

/-- What becomes of the value of an entry, where the last value may be the key. -/
def kept (key : Bytes) : Value → Value
  | .none => .string key
  | v => v

theorem kept_eq_self {s : Bytes} {v : Value} : kept s v = v ↔ v ≠ .none := by
  cases v <;> simp [kept]

theorem toTvlist_entry {t : τ} {e : Fields τ} {s : Bytes} {v : Value} {n : ℕ} (hentry : S.mapEntry t = some (key, value))
    (hkey : key.item e = .inl (.string s)) (hvalue : itemToValue O (toValue S O true n) (value.item e) = pure v) :
    ∃ l, toTvlist S O true (n + 1) t e = pure l ∧ front l = .string s ∧ back l = kept s v := by
  obtain ⟨hfields, hkeylabel, hvaluelabel, -⟩ := S.entry t key value hentry
  have hpair : (S.fields t).mapM (fun fd => listed fd <$>
      fieldToValue S O (toTvlist S O true n) (toValue S O true n) (toValue S O true n) e fd) =
      (pure [listed key (.string s), listed value v] : Run Thrown _) := by
    rw [hfields, Run.mapM_eq_pure]
    refine .cons ?_ (.cons ?_ .nil)
    · rw [fieldToValue_singular hkeylabel, hkey]
      rfl
    · rw [fieldToValue_singular hvaluelabel, hvalue]
      rfl
  refine ⟨_, congrArg (List.reduceOption <$> ·) hpair, ?_⟩
  cases v <;> simp [listed, kept, front, back, List.reduceOption]

theorem mapped_eventually {vs : List Value} (hmap : S.isMap fd = some (key, value)) (hstrings : StringKeys get fd key)
    (h : List.Forall₂ (fun entry v => Decodes S O (value.item entry.2) v) (generics (fd.items get)) vs) :
    Returns (fun n => mappedFieldToTvlist O (toTvlist S O true n) get fd)
      (List.zipWith (fun entry v => (some (keyText key entry), kept (keyText key entry) v)) (generics (fd.items get)) vs) := by
  apply eventually_of_succ
  filter_upwards [eventually_forall₂ h] with n hn
  apply Run.mapM_eq_pure.2
  apply forall₂_zipWith hn
  intro entry hmem v hv
  obtain ⟨s, hs⟩ := hstrings entry hmem
  have hkey : keyText key entry = s := by rw [keyText, hs]
  obtain ⟨l, hl, hfront, hback⟩ := toTvlist_entry (mapEntry_of_mem hmap hmem) hs hv
  rw [hl, pure_bind, hfront, hback, hkey]
  rfl

/-- What a map is decoded to, whatever its values are. -/
theorem fieldDecodes_map {vs : List Value} (hmap : S.isMap fd = some (key, value)) (hstrings : StringKeys get fd key)
    (h : List.Forall₂ (fun entry v => Decodes S O (value.item entry.2) v) (generics (fd.items get)) vs) :
    ∃ v, FieldDecodes S O get fd v ∧
      tagged v = List.zipWith (fun entry v => (some (keyText key entry), kept (keyText key entry) v))
        (generics (fd.items get)) vs := by
  by_cases hitems : fd.items get = []
  · refine ⟨.none, Filter.Eventually.of_forall fun n => ?_, ?_⟩
    · simp [fieldToValue, hmap, hitems]
    · simp [tagged, hitems, generics]
  · refine ⟨.tvlist _, ?_, rfl⟩
    filter_upwards [mapped_eventually hmap hstrings h] with n hn
    simp [fieldToValue, hmap, hitems, hn]

theorem scalarToValue_ne_none (enumsAsStrings : Bool) (s : Scalar) : scalarToValue enumsAsStrings s ≠ .ok .none := by
  cases s with
  | enum type n =>
    by_cases h : enumsAsStrings = true
    · cases hname : enumName type n <;> simp [scalarToValue, h, hname, Except.map]
    · simp [scalarToValue, h]
  | _ => simp [scalarToValue]

theorem ne_none_of_decodes {item : Item τ} {v : Value} (h : Decodes S O item v) (hnull : ¬ Null O item) : v ≠ .none := by
  rintro rfl
  obtain ⟨n, hn⟩ := Filter.Eventually.exists h
  rcases item with s | m | ⟨t, e⟩
  · apply scalarToValue_ne_none O.enumsAsStrings s
    exact Option.some.inj hn
  · exact hnull ⟨m, rfl, Run.pure_inj.1 hn⟩
  · obtain ⟨l, -, hl⟩ := Run.map_eq_pure.1 hn
    cases hl

/-- If one value of a map is of a type with a decoder of its own, all are. -/
theorem own_of_own {m : WellKnown} {e e' : Fields τ} (h : value.item e = .inr (.own m)) :
    ∃ m', value.item e' = .inr (.own m') := by
  have hholds : value.kind.holds (value.item e) = true := Field.holds_item
  have hholds' : value.kind.holds (value.item e') = true := Field.holds_item
  rw [h] at hholds
  cases hkind : value.kind with
  | own d =>
    rw [hkind] at hholds'
    rcases hitem : value.item e' with s | m' | ⟨t, e'⟩
    · rw [hitem] at hholds'
      cases hholds'
    · exact ⟨m', rfl⟩
    · rw [hitem] at hholds'
      cases hholds'
  | scalar s | message t =>
    rw [hkind] at hholds
    cases hholds

def ownValue (O : Options) : Item τ → Value
  | .inr (.own m) => m.decode O.order
  | _ => .none

theorem decodes_own (m : WellKnown) : Decodes S O (.inr (.own m)) (m.decode O.order) :=
  Filter.Eventually.of_forall fun _ => rfl

theorem keepsEntries_iff (hmap : S.isMap fd = some (key, value)) (hstrings : StringKeys get fd key) :
    KeepsEntries S O get fd key value ↔ ∀ entry ∈ generics (fd.items get), ¬ Null O (value.item entry.2) := by
  constructor
  · rintro h entry hmem ⟨m, hm, hnull⟩
    have hvs : List.Forall₂ (fun entry v => Decodes S O (value.item entry.2) v) (generics (fd.items get))
        ((generics (fd.items get)).map fun entry => ownValue O (value.item entry.2)) := by
      rw [List.forall₂_map_right_iff, List.forall₂_same]
      intro entry' _
      obtain ⟨m', hm'⟩ : ∃ m', value.item entry'.2 = .inr (.own m') := own_of_own hm
      rw [hm']
      exact decodes_own m'
    obtain ⟨v, hv, htagged⟩ := h _ hvs
    obtain ⟨v', hv', htagged'⟩ := fieldDecodes_map hmap hstrings hvs
    rw [hv.unique hv', htagged', List.zipWith_map_right, List.zipWith_map_right, List.zipWith_self, List.zipWith_self,
      List.map_inj_left] at htagged
    have hkept := congrArg Prod.snd (htagged entry hmem)
    exact kept_eq_self.1 hkept (by rw [hm]; exact hnull)
  · intro h vs hvs
    obtain ⟨v, hv, htagged⟩ := fieldDecodes_map hmap hstrings hvs
    refine ⟨v, hv, htagged.trans ?_⟩
    apply List.zipWith_congr
    apply ((List.forall₂_and_left _ _).2 ⟨h, hvs⟩).imp
    rintro entry v ⟨hnull, hv⟩
    rw [kept_eq_self.2 (ne_none_of_decodes hv hnull)]

variable (S O)

/-- The entries of maps are kept just if no value is a message that decodes to
nothing; the key is taken for such a value. -/
theorem mapsKept_iff (m : Msg τ) : MapsKept S O m ↔ NoNullEntries S O m := by
  unfold MapsKept NoNullEntries
  constructor
  · intro h t get hwithin fd hfd key value hmap hstrings
    exact (keepsEntries_iff hmap hstrings).1 (h t get hwithin fd hfd key value hmap hstrings)
  · intro h t get hwithin fd hfd key value hmap hstrings
    exact (keepsEntries_iff hmap hstrings).2 (h t get hwithin fd hfd key value hmap hstrings)

end

/-! ## A map with a variant that is not set -/

def values : Field Bool := ⟨ascii "values", .repeated, .message false⟩

def valuesKey : Field Bool := ⟨ascii "key", .singular false, .scalar (.string [])⟩

def valuesValue : Field Bool := ⟨ascii "value", .singular false, .own (.variant .unset)⟩

/-- One type with a map of variants, and that of the entries of this map. -/
def variants : Schema Bytes Scalar WellKnown Bool where
  fields t := if t then [values] else [valuesKey, valuesValue]
  mapEntry t := if t then none else some (valuesKey, valuesValue)
  entry t key value h := by
    cases t with
    | true => cases h
    | false =>
      cases h
      exact ⟨rfl, rfl, rfl, _, rfl⟩

/-- From `a` to a variant without a value. -/
def unsetEntry : Fields Bool := fun name =>
  if name = ascii "key" then [.inl (.string (ascii "a"))]
  else if name = ascii "value" then [.inr (.own (.variant .unset))]
  else []

def unsetMap : Fields Bool := fun name => if name = ascii "values" then [.inr (.generic false unsetEntry)] else []

/-- The entry is from `a` to `a` when it is decoded. -/
theorem unset_not_kept : ¬ ∀ (O : Options) (m : Msg Bool), MapsKept variants O m := by
  intro h
  have hentries : generics (values.items unsetMap) = [(false, unsetEntry)] := by rfl
  have hstrings : StringKeys unsetMap values valuesKey := by
    intro entry hmem
    rw [hentries] at hmem
    rw [List.mem_singleton.1 hmem]
    exact ⟨ascii "a", rfl⟩
  have hkept := h ⟨id, fun _ => [], true⟩ (.generic true unsetMap) true unsetMap .refl values List.mem_cons_self
    valuesKey valuesValue rfl hstrings
  apply (keepsEntries_iff rfl hstrings).1 hkept (false, unsetEntry) (hentries ▸ List.mem_cons_self)
  exact ⟨.variant .unset, rfl, rfl⟩

/-! ## Whether decoding ends -/

/-- The scalars of a message can be decoded, and those for fields that are absent. -/
def ScalarsDecode : Msg τ → Prop
  | .own _ => True
  | .generic t get => ∀ fd ∈ S.fields t, ∀ s, .inl s ∈ fd.items get ∨ fd.kind = .scalar s →
    ∃ v, scalarToValue O.enumsAsStrings s = .ok v

/-- The message is decoded, and would be if that of an absent one never ended. -/
def DecodesPresent (m : Msg τ) : Prop :=
  (∃ n, (toValue S O true n m).Ends) ∧ ∃ n, (toValue S O false n m).Ends

section
variable {S O} {T : τ → Fields τ → Run Thrown TaggedValueList} {absent : Msg τ → Run Thrown Value} {get : Fields τ} {fd : Field τ}

omit [DecidableEq τ] in
theorem itemToValue_ends {message : Msg τ → Run Thrown Value} {item : Item τ} (h : ∀ m, item = .inr m → (message m).Ends) :
    (itemToValue O message item).Ends := by
  rcases item with s | m
  · exact Run.ends_ofExcept _
  · exact h m rfl

theorem fieldToValue_ends (hparts : ∀ m, .inr m ∈ fd.items get → (messageToValue O T m).Ends)
    (hplain : Schema.Plain fd → fd.items get ≠ []) : (fieldToValue S O T (messageToValue O T) absent get fd).Ends := by
  unfold fieldToValue
  split_ifs with hmap hitems hlabel hitems hsingle
  · exact Run.ends_pure _
  · apply Run.Ends.map
    apply Run.Ends.mapM
    rintro ⟨t, e⟩ hmem
    have hentry : (Value.tvlist <$> T t e).Ends := hparts _ (mem_generics.1 hmem)
    exact hentry.of_map.bind fun _ _ => Run.ends_pure _
  · exact Run.ends_pure _
  · apply Run.Ends.map
    apply Run.Ends.mapM
    intro item hmem
    exact itemToValue_ends fun m hm => hparts m (hm ▸ hmem)
  · unfold singleFieldToValue
    split
    · exact itemToValue_ends fun m hm => hparts m (by simp_all)
    · obtain ⟨s, hs⟩ := Schema.scalar_of_not_plain (by simp_all) fun h => hplain h ‹_›
      rw [hs]
      exact Run.ends_ofExcept _
  · exact Run.ends_pure _

omit [DecidableEq τ] in
theorem itemToValue_quiet {message : Msg τ → Run Thrown Value} {item : Item τ} (h : ∀ m, item = .inr m → (message m).Quiet)
    (hscalar : ∀ s, item = .inl s → ∃ v, scalarToValue O.enumsAsStrings s = .ok v) :
    (itemToValue O message item).Quiet := by
  rcases item with s | m
  · obtain ⟨v, hv⟩ := hscalar s rfl
    rw [itemToValue, hv]
    exact Run.quiet_pure v
  · exact h m rfl

section
variable (hparts : ∀ m, .inr m ∈ fd.items get → (messageToValue O T m).Quiet)
  (hscalars : ∀ s, .inl s ∈ fd.items get ∨ fd.kind = .scalar s → ∃ v, scalarToValue O.enumsAsStrings s = .ok v)
include hparts

theorem entry_quiet {entry : τ × Fields τ} (hmem : entry ∈ generics (fd.items get)) : (T entry.1 entry.2).Quiet := by
  have hentry : (Value.tvlist <$> T entry.1 entry.2).Quiet := hparts _ (mem_generics.1 hmem)
  exact hentry.of_map

include hscalars

theorem item_quiet {item : Item τ} (hmem : item ∈ fd.items get) : (itemToValue O (messageToValue O T) item).Quiet :=
  itemToValue_quiet (fun m hm => hparts m (hm ▸ hmem)) fun s hs => hscalars s (.inl (hs ▸ hmem))

theorem fieldToValue_quiet : (fieldToValue S O T (messageToValue O T) (fun _ => .going) get fd).Quiet := by
  unfold fieldToValue
  split_ifs with hmap hitems hlabel hitems hsingle
  · exact Run.quiet_pure _
  · apply Run.Quiet.map
    apply Run.Quiet.mapM
    intro entry hmem
    exact (entry_quiet hparts hmem).bind fun _ => Run.quiet_pure _
  · exact Run.quiet_pure _
  · apply Run.Quiet.map
    apply Run.Quiet.mapM
    intro item hmem
    exact item_quiet hparts hscalars hmem
  · unfold singleFieldToValue
    split
    · exact item_quiet hparts hscalars (by simp_all)
    · apply itemToValue_quiet
      · intro _ _
        exact Run.quiet_going
      · intro s hs
        apply hscalars s (.inr _)
        cases hkind : fd.kind <;> simp_all [Kind.default]
  · exact Run.quiet_pure _

/-- A field that ends has no message that is absent, and all its messages have ended. -/
theorem of_fieldToValue_ends (h : (fieldToValue S O T (messageToValue O T) (fun _ => .going) get fd).Ends) :
    (Schema.Plain fd → fd.items get ≠ []) ∧ ∀ m, .inr m ∈ fd.items get → (messageToValue O T m).Ends := by
  unfold fieldToValue at h
  split_ifs at h with hmap hitems hlabel hitems hsingle
  · obtain ⟨⟨key, value⟩, hmap⟩ := Option.isSome_iff_exists.1 hmap
    obtain ⟨hlabel, -⟩ := isMap_eq_some hmap
    exact ⟨fun hplain => by simp [hplain.1] at hlabel, by simp [hitems]⟩
  · refine ⟨fun _ => hitems, fun m hm => ?_⟩
    rcases m with m | ⟨t, e⟩
    · exact Run.ends_pure _
    · have hentry := h.of_map.of_mapM (fun entry hmem => (entry_quiet hparts hmem).bind fun _ => Run.quiet_pure _) (t, e)
        (mem_generics.2 hm)
      exact hentry.of_bind.map
  · exact ⟨fun hplain => by simp [hplain.1] at hlabel, by simp [hitems]⟩
  · refine ⟨fun _ => hitems, fun m hm => ?_⟩
    exact h.of_map.of_mapM (fun item hmem => item_quiet hparts hscalars hmem) _ hm
  · unfold singleFieldToValue at h
    rcases hitems : fd.items get with _ | ⟨item, rest⟩
    · rw [hitems] at h
      refine ⟨fun hplain _ => ?_, by simp⟩
      cases hkind : fd.kind with
      | scalar s => exact hplain.2 s hkind
      | own m | message t =>
        rw [hkind] at h
        exact Run.not_ends_going h
    · rw [hitems] at h
      have hrest := Field.nil_of_items_eq_cons hlabel hitems
      refine ⟨fun _ => by simp, fun m hm => ?_⟩
      rw [hrest, List.mem_singleton] at hm
      rw [← hm] at h
      exact h
  · push Not at hsingle
    exact ⟨fun hplain => absurd hplain.1 hsingle.2, by simp [hsingle.1]⟩

end

variable {m : Msg τ}

theorem toValue_succ_ends (descend : Bool) (n : ℕ) (hwhole : S.Whole m) (hparts : ∀ m' ∈ S.parts m, (toValue S O descend n m').Ends) :
    (toValue S O descend (n + 1) m).Ends := by
  rcases m with m | ⟨t, get⟩
  · exact Run.ends_pure _
  · apply Run.Ends.map
    apply Run.Ends.map
    apply Run.Ends.mapM
    intro fd hfd
    have hfield : ∀ m, .inr m ∈ fd.items get → (messageToValue O (toTvlist S O descend n) m).Ends :=
      fun m hm => hparts m (Schema.mem_parts.2 ⟨fd, hfd, hm⟩)
    exact (fieldToValue_ends hfield (hwhole fd hfd)).map

theorem field_quiet {n : ℕ} {t : τ} {get : Fields τ} (hscalars : ScalarsDecode S O (.generic t get))
    (hparts : ∀ m' ∈ S.parts (.generic t get), (toValue S O false n m').Quiet) {fd : Field τ} (hfd : fd ∈ S.fields t) :
    (fieldToValue S O (toTvlist S O false n) (toValue S O false n) (fun _ => .going) get fd).Quiet :=
  fieldToValue_quiet (fun m hm => hparts m (Schema.mem_parts.2 ⟨fd, hfd, hm⟩)) (hscalars fd hfd)

theorem toValue_succ_quiet (n : ℕ) (hscalars : ScalarsDecode S O m) (hparts : ∀ m' ∈ S.parts m, (toValue S O false n m').Quiet) :
    (toValue S O false (n + 1) m).Quiet := by
  rcases m with m | ⟨t, get⟩
  · exact Run.quiet_pure _
  · apply Run.Quiet.map
    apply Run.Quiet.map
    apply Run.Quiet.mapM
    intro fd hfd
    exact (field_quiet hscalars hparts hfd).map

theorem of_toValue_succ_ends (n : ℕ) (hscalars : ScalarsDecode S O m)
    (hparts : ∀ m' ∈ S.parts m, (toValue S O false n m').Quiet) (h : (toValue S O false (n + 1) m).Ends) :
    S.Whole m ∧ ∀ m' ∈ S.parts m, (toValue S O false n m').Ends := by
  rcases m with m | ⟨t, get⟩
  · exact ⟨trivial, by simp [Schema.parts]⟩
  · have hfields := h.of_map.of_map.of_mapM fun fd hfd => (field_quiet hscalars hparts hfd).map
    have hfield : ∀ fd ∈ S.fields t, (Schema.Plain fd → fd.items get ≠ []) ∧
        ∀ m, .inr m ∈ fd.items get → (toValue S O false n m).Ends := fun fd hfd =>
      of_fieldToValue_ends (fun m hm => hparts m (Schema.mem_parts.2 ⟨fd, hfd, hm⟩)) (hscalars fd hfd) (hfields fd hfd).of_map
    refine ⟨fun fd hfd => (hfield fd hfd).1, fun m hm => ?_⟩
    obtain ⟨fd, hfd, hmem⟩ := Schema.mem_parts.1 hm
    exact (hfield fd hfd).2 m hmem

theorem decodesPresent_of_whole (h : Throughout S.parts S.Whole m) : DecodesPresent S O m :=
  have hends descend := eventually_ends Schema.parts_finite (fun n _ => toValue_succ_ends descend n) h
  ⟨(hends true).exists, (hends false).exists⟩

theorem whole_of_decodesPresent (hscalars : Throughout S.parts (ScalarsDecode S O) m) (h : DecodesPresent S O m) :
    Throughout S.parts S.Whole m := by
  obtain ⟨-, n, hn⟩ := h
  refine throughout_of_ends ?_ ?_ (fun n m => toValue_succ_quiet n) (fun n m => of_toValue_succ_ends n) hscalars hn
  · rintro (m | ⟨t, get⟩) hm
    · exact ⟨trivial, rfl⟩
    · exact absurd hm.of_map Run.not_ends_going
  · rintro (m | ⟨t, get⟩) -
    · exact Run.quiet_pure _
    · exact Run.quiet_going.map

end

end Decoder

end CommonCore
