import CommonCore.Escapes

/-!
# Variant values in ProtoBuf messages

`encode` puts a value into a oneof and `decode` takes it out. A byte vector goes
in as `to_string` writes it, with escapes, and is not unescaped on the way out.
-/

namespace CommonCore

open Dt (second)

/-- `cc::protobuf::variant::Value`, with the fields of the messages in it. -/
inductive Message
  | unset
  | bool (b : Bool)
  | uint (n : UInt64)
  | sint (n : Int64)
  | real (r : Double)
  | string (s : Bytes)
  | bytes (b : Bytes)
  | timestamp (seconds nanos : Int)
  | duration (seconds nanos : Int)
  | list (items : List Message)
  | tvlist (items : List (Bytes × Message))
  | kvmap (map : List (Bytes × Message))

/-! ## Leaves -/

def hexDigits : Bytes := ascii "0123456789abcdef"

def streamByte (byte : UInt8) : Bytes :=
  if byte = backslash then [backslash, backslash]
  else if 0x20 ≤ byte ∧ byte < 0x7f then [byte]
  else ascii "\\x" ++ [hexDigits.getD (byte >>> 4).toNat 0, hexDigits.getD (byte &&& 0xf).toNat 0]

/-- `ByteVector::to_stream`. -/
def byteStream (b : Bytes) : Bytes := b.flatMap streamByte

/-- A conversion to `int`. -/
def toInt32 (n : Int) : Int := n.bmod (2 ^ 32)

/-- `dt::to_timespec`. -/
def toTimespec (tp : Int) : Int × Int :=
  let seconds := tp.fdiv second
  (seconds, tp - seconds * second)

/-- `dt::to_timepoint`, from seconds and nanoseconds. -/
def toTimepoint (seconds nanoseconds : Int) : Int := seconds * second + nanoseconds

/-- The seconds and nanoseconds of a `google::protobuf::Duration`. -/
def splitDuration (d : Int) : Int × Int :=
  let secs := d.tdiv second
  let secs := if d < secs * second then secs - 1 else secs
  (secs, d - secs * second)

/-! ## Values -/

mutual
def Value.encode : Value → Message
  | .none => .unset
  | .bool b => .bool b
  | .char c => .string [c]
  | .uint n => .uint n
  | .sint n => .sint n
  | .real r => .real r
  | .complex _ _ => .unset
  | .string s => .string s
  | .bytevector b => .bytes (byteStream b)
  | .timepoint t => .timestamp (toTimespec t).1 (toInt32 (toTimespec t).2)
  | .duration d => .duration (splitDuration d).1 (toInt32 (splitDuration d).2)
  | .valuelist l => .list (encodeList l)
  | .tvlist l => .tvlist (encodeTagged l)
  | .kvmap m => .kvmap (encodeKeyed m)
termination_by structural v => v
def encodeList : List Value → List Message
  | [] => []
  | v :: l => v.encode :: encodeList l
termination_by structural l => l
def encodeTag : Option Bytes × Value → Bytes × Message
  | (tag, v) => (tag.getD [], v.encode)
termination_by structural p => p
def encodeTagged : List (Option Bytes × Value) → List (Bytes × Message)
  | [] => []
  | p :: l => encodeTag p :: encodeTagged l
termination_by structural l => l
def encodeKey : Bytes × Value → Bytes × Message
  | (key, v) => (key, v.encode)
termination_by structural p => p
def encodeKeyed : List (Bytes × Value) → List (Bytes × Message)
  | [] => []
  | p :: m => encodeKey p :: encodeKeyed m
termination_by structural m => m
end

section
variable (order : KeyValueMap → KeyValueMap)

mutual
/-- `order` is the order in which a ProtoBuf map is visited. -/
def Message.decode : Message → Value
  | .unset => .none
  | .bool b => .bool b
  | .uint n => .uint n
  | .sint n => .sint n
  | .real r => .real r
  | .string s => .string s
  | .bytes b => .bytevector b
  | .timestamp seconds nanos => .timepoint (toTimepoint seconds nanos)
  | .duration seconds nanos => .duration (seconds * second + nanos)
  | .list l => .valuelist (decodeList l)
  | .tvlist l => .tvlist (decodeTagged l)
  | .kvmap m => .kvmap (Keyed.putAll [] (order (decodeKeyed m)))
termination_by structural m => m
def decodeList : List Message → List Value
  | [] => []
  | m :: l => m.decode :: decodeList l
termination_by structural l => l
def decodeTag : Bytes × Message → Option Bytes × Value
  | (tag, m) => (if 0 < tag.length then some tag else none, m.decode)
termination_by structural p => p
def decodeTagged : List (Bytes × Message) → List (Option Bytes × Value)
  | [] => []
  | p :: l => decodeTag p :: decodeTagged l
termination_by structural l => l
def decodeKey : Bytes × Message → Bytes × Value
  | (key, m) => (key, m.decode)
termination_by structural p => p
def decodeKeyed : List (Bytes × Message) → List (Bytes × Value)
  | [] => []
  | p :: m => decodeKey p :: decodeKeyed m
termination_by structural m => m
end

end

/-! ## What is decoded as it was -/

theorem toInt32_of_lt {n : Int} (h₀ : 0 ≤ n) (h₁ : n < second) : toInt32 n = n := by
  unfold toInt32 second at *
  apply Int.bmod_eq_of_le <;> omega

/-- Seconds and the rest, which fits 32 bits, make up the time again. -/
theorem add_toInt32 {t s : Int} (h₀ : s * second ≤ t) (h₁ : t < s * second + second) :
    s * second + toInt32 (t - s * second) = t := by
  rw [toInt32_of_lt (by omega) (by omega)]
  omega

theorem toTimepoint_toTimespec (t : Int) : toTimepoint (toTimespec t).1 (toInt32 (toTimespec t).2) = t := by
  apply add_toInt32
  · show t.fdiv second * second ≤ t
    rw [Int.fdiv_eq_ediv_of_nonneg t (by decide)]
    exact Int.ediv_mul_le t (by decide)
  · have := Int.lt_fdiv_add_one_mul_self t (show 0 < second by decide)
    rw [Int.add_mul, Int.one_mul] at this
    exact this

theorem duration_splitDuration (d : Int) :
    (splitDuration d).1 * second + toInt32 (splitDuration d).2 = d := by
  have hdiv := Int.tdiv_mul_add_tmod d second
  have hlt := Int.tmod_lt_of_pos d (show 0 < second by decide)
  have hgt := Int.lt_tmod_of_pos d (show 0 < second by decide)
  unfold splitDuration
  by_cases h : d < d.tdiv second * second
  · simp only [if_pos h]
    apply add_toInt32 <;> rw [Int.sub_mul, Int.one_mul] <;> omega
  · simp only [if_neg h]
    apply add_toInt32 <;> omega

/-- Neither a backslash nor outside printable ASCII. -/
def PlainByte (b : UInt8) : Prop := b ≠ backslash ∧ 0x20 ≤ b ∧ b < 0x7f

theorem streamByte_eq_iff (x : UInt8) : streamByte x = [x] ↔ PlainByte x := by
  unfold streamByte
  split_ifs with hb hp
  · simp [PlainByte, hb]
  · simp [PlainByte, hb, hp]
  · simp [PlainByte, hb, hp, ascii]

/-- An escape makes the text longer. -/
theorem byteStream_eq_iff (b : Bytes) : byteStream b = b ↔ ∀ x ∈ b, PlainByte x := by
  have hne : ∀ x, streamByte x ≠ [] := by
    intro x
    unfold streamByte
    split_ifs <;> simp
  unfold byteStream
  simp only [flatMap_eq_self_iff hne, streamByte_eq_iff]

/-! ## The round trip -/

mutual
/-- The values in question: no characters or reals, no empty tag, and every map
in key order. -/
def Value.Encodable : Value → Prop
  | .char _ => False
  | .real _ => False
  | .complex _ _ => False
  | .valuelist l => EncodableList l
  | .tvlist l => EncodableTagged l
  | .kvmap m => Keyed.Ordered m ∧ EncodableKeyed m
  | _ => True
termination_by structural v => v
def EncodableList : List Value → Prop
  | [] => True
  | v :: l => v.Encodable ∧ EncodableList l
termination_by structural l => l
def EncodableTag : Option Bytes × Value → Prop
  | (tag, v) => tag ≠ some [] ∧ v.Encodable
termination_by structural p => p
def EncodableTagged : List (Option Bytes × Value) → Prop
  | [] => True
  | p :: l => EncodableTag p ∧ EncodableTagged l
termination_by structural l => l
def EncodableKey : Bytes × Value → Prop
  | (_, v) => v.Encodable
termination_by structural p => p
def EncodableKeyed : List (Bytes × Value) → Prop
  | [] => True
  | p :: m => EncodableKey p ∧ EncodableKeyed m
termination_by structural m => m
end

mutual
/-- Every byte vector in the value is plain. -/
def Value.Plain : Value → Prop
  | .bytevector b => ∀ x ∈ b, PlainByte x
  | .valuelist l => PlainList l
  | .tvlist l => PlainTagged l
  | .kvmap m => PlainKeyed m
  | _ => True
termination_by structural v => v
def PlainList : List Value → Prop
  | [] => True
  | v :: l => v.Plain ∧ PlainList l
termination_by structural l => l
def PlainTag : Option Bytes × Value → Prop
  | (_, v) => v.Plain
termination_by structural p => p
def PlainTagged : List (Option Bytes × Value) → Prop
  | [] => True
  | p :: l => PlainTag p ∧ PlainTagged l
termination_by structural l => l
def PlainKey : Bytes × Value → Prop
  | (_, v) => v.Plain
termination_by structural p => p
def PlainKeyed : List (Bytes × Value) → Prop
  | [] => True
  | p :: m => PlainKey p ∧ PlainKeyed m
termination_by structural m => m
end

section
variable {order : KeyValueMap → KeyValueMap}

theorem keys_decodeKeyed (m : KeyValueMap) :
    (decodeKeyed order (encodeKeyed m)).map Prod.fst = m.map Prod.fst := by
  induction m with
  | nil => rfl
  | cons p m ih =>
    obtain ⟨k, v⟩ := p
    simp only [encodeKeyed, encodeKey, decodeKeyed, decodeKey, List.map_cons, ih]

theorem ordered_decodeKeyed {m : KeyValueMap} (h : Keyed.Ordered m) :
    Keyed.Ordered (decodeKeyed order (encodeKeyed m)) := by
  unfold Keyed.Ordered at *
  rw [← List.pairwise_map (f := Prod.fst) (R := fun a b => compare a b = .lt)] at *
  rw [keys_decodeKeyed]
  exact h

theorem decodeTag_encodeTag {tag : Option Bytes} (h : tag ≠ some []) :
    (if 0 < (tag.getD []).length then some (tag.getD []) else none) = tag := by
  cases tag with
  | none => rfl
  | some s =>
    have hs : s ≠ [] := fun e => h (congrArg some e)
    exact if_pos (List.length_pos_iff.mpr hs)

variable (horder : ∀ m, (order m).Perm m)
include horder

set_option linter.unusedSectionVars false in
mutual
theorem Value.decode_encode_iff : ∀ v : Value, v.Encodable → (v.encode.decode order = v ↔ v.Plain)
  | .none, _ => by simp [Value.encode, Message.decode, Value.Plain]
  | .bool _, _ => by simp [Value.encode, Message.decode, Value.Plain]
  | .char _, h => by simp [Value.Encodable] at h
  | .uint _, _ => by simp [Value.encode, Message.decode, Value.Plain]
  | .sint _, _ => by simp [Value.encode, Message.decode, Value.Plain]
  | .real _, h => by simp [Value.Encodable] at h
  | .complex _ _, h => by simp [Value.Encodable] at h
  | .string _, _ => by simp [Value.encode, Message.decode, Value.Plain]
  | .bytevector b, _ => by
    simp only [Value.encode, Message.decode, Value.Plain, Value.bytevector.injEq]
    exact byteStream_eq_iff b
  | .timepoint t, _ => by
    simp [Value.encode, Message.decode, Value.Plain, toTimepoint_toTimespec]
  | .duration d, _ => by
    simp [Value.encode, Message.decode, Value.Plain, duration_splitDuration]
  | .valuelist l, h => by
    simp only [Value.encode, Message.decode, Value.Plain, Value.valuelist.injEq]
    exact decodeList_encodeList_iff l h
  | .tvlist l, h => by
    simp only [Value.encode, Message.decode, Value.Plain, Value.tvlist.injEq]
    exact decodeTagged_encodeTagged_iff l h
  | .kvmap m, h => by
    simp only [Value.encode, Message.decode, Value.Plain, Value.kvmap.injEq]
    rw [Keyed.putAll_of_perm (ordered_decodeKeyed h.1) (horder _)]
    exact decodeKeyed_encodeKeyed_iff m h.2
theorem decodeList_encodeList_iff : ∀ l : List Value, EncodableList l →
    (decodeList order (encodeList l) = l ↔ PlainList l)
  | [], _ => by simp [encodeList, decodeList, PlainList]
  | v :: l, h => by
    simp only [encodeList, decodeList, PlainList, List.cons.injEq]
    rw [Value.decode_encode_iff v h.1, decodeList_encodeList_iff l h.2]
theorem decodeTagged_encodeTagged_iff : ∀ l : List (Option Bytes × Value), EncodableTagged l →
    (decodeTagged order (encodeTagged l) = l ↔ PlainTagged l)
  | [], _ => by simp [encodeTagged, decodeTagged, PlainTagged]
  | (tag, v) :: l, h => by
    simp only [encodeTagged, encodeTag, decodeTagged, decodeTag, PlainTagged, PlainTag, List.cons.injEq,
      Prod.mk.injEq, decodeTag_encodeTag h.1.1, true_and]
    rw [Value.decode_encode_iff v h.1.2, decodeTagged_encodeTagged_iff l h.2]
theorem decodeKeyed_encodeKeyed_iff : ∀ m : List (Bytes × Value), EncodableKeyed m →
    (decodeKeyed order (encodeKeyed m) = m ↔ PlainKeyed m)
  | [], _ => by simp [encodeKeyed, decodeKeyed, PlainKeyed]
  | (key, v) :: m, h => by
    simp only [encodeKeyed, encodeKey, decodeKeyed, decodeKey, PlainKeyed, PlainKey, List.cons.injEq,
      Prod.mk.injEq, true_and]
    rw [Value.decode_encode_iff v h.1, decodeKeyed_encodeKeyed_iff m h.2]
end

/-- A value comes back from its message exactly where its byte vectors need no
escapes. -/
theorem variant_restored_iff {v : Value} (h : v.Encodable) : v.encode.decode order = v ↔ v.Plain :=
  Value.decode_encode_iff horder v h

end

/-! ## Every value -/

section
variable (leaf : Value → Prop) (tagged : Option Bytes → Prop) (keyed : KeyValueMap → Prop)

mutual
/-- What holds of the values without parts, of the tags and of the maps in a value. -/
def Value.Everywhere : Value → Prop
  | .valuelist l => EverywhereList l
  | .tvlist l => EverywhereTagged l
  | .kvmap m => keyed m ∧ EverywhereKeyed m
  | v => leaf v
termination_by structural v => v
def EverywhereList : List Value → Prop
  | [] => True
  | v :: l => v.Everywhere ∧ EverywhereList l
termination_by structural l => l
def EverywhereTag : Option Bytes × Value → Prop
  | (tag, v) => tagged tag ∧ v.Everywhere
termination_by structural p => p
def EverywhereTagged : List (Option Bytes × Value) → Prop
  | [] => True
  | p :: l => EverywhereTag p ∧ EverywhereTagged l
termination_by structural l => l
def EverywhereKey : Bytes × Value → Prop
  | (_, v) => v.Everywhere
termination_by structural p => p
def EverywhereKeyed : List (Bytes × Value) → Prop
  | [] => True
  | p :: m => EverywhereKey p ∧ EverywhereKeyed m
termination_by structural m => m
end

end

/-- Every map in the entries is in key order. -/
def SortedMap : KeyValueMap → Prop := EverywhereKeyed (fun _ => True) (fun _ => True) Keyed.Ordered

/-- Neither a character nor complex, and no byte is escaped. -/
def PlainLeaf : Value → Prop
  | .char _ => False
  | .complex _ _ => False
  | .bytevector b => ∀ x ∈ b, PlainByte x
  | _ => True

/-- All of the entries is something that messages have a place for. -/
def TransferableMap : KeyValueMap → Prop := EverywhereKeyed PlainLeaf (fun tag => tag ≠ some []) fun _ => True

section
variable {order : KeyValueMap → KeyValueMap} (horder : ∀ m, (order m).Perm m)

theorem decodeTag_eq_iff (tag : Option Bytes) :
    (if 0 < (tag.getD []).length then some (tag.getD []) else none) = tag ↔ tag ≠ some [] := by
  refine ⟨?_, decodeTag_encodeTag⟩
  rintro h rfl
  cases h

include horder

set_option linter.unusedSectionVars false in
mutual
theorem Value.decoded_iff : ∀ v : Value, v.Everywhere (fun _ => True) (fun _ => True) Keyed.Ordered →
    (v.encode.decode order = v ↔ v.Everywhere PlainLeaf (fun tag => tag ≠ some []) fun _ => True)
  | .none, _ => by simp [Value.encode, Message.decode, Value.Everywhere, PlainLeaf]
  | .bool _, _ => by simp [Value.encode, Message.decode, Value.Everywhere, PlainLeaf]
  | .char _, _ => by simp [Value.encode, Message.decode, Value.Everywhere, PlainLeaf]
  | .uint _, _ => by simp [Value.encode, Message.decode, Value.Everywhere, PlainLeaf]
  | .sint _, _ => by simp [Value.encode, Message.decode, Value.Everywhere, PlainLeaf]
  | .real _, _ => by simp [Value.encode, Message.decode, Value.Everywhere, PlainLeaf]
  | .complex _ _, _ => by simp [Value.encode, Message.decode, Value.Everywhere, PlainLeaf]
  | .string _, _ => by simp [Value.encode, Message.decode, Value.Everywhere, PlainLeaf]
  | .bytevector b, _ => by
    simp only [Value.encode, Message.decode, Value.Everywhere, PlainLeaf, Value.bytevector.injEq]
    exact byteStream_eq_iff b
  | .timepoint t, _ => by
    simp [Value.encode, Message.decode, Value.Everywhere, PlainLeaf, toTimepoint_toTimespec]
  | .duration d, _ => by
    simp [Value.encode, Message.decode, Value.Everywhere, PlainLeaf, duration_splitDuration]
  | .valuelist l, h => by
    simp only [Value.encode, Message.decode, Value.Everywhere, Value.valuelist.injEq]
    exact list_decoded_iff l h
  | .tvlist l, h => by
    simp only [Value.encode, Message.decode, Value.Everywhere, Value.tvlist.injEq]
    exact tagged_decoded_iff l h
  | .kvmap m, h => by
    simp only [Value.encode, Message.decode, Value.Everywhere, Value.kvmap.injEq, true_and]
    rw [Keyed.putAll_of_perm (ordered_decodeKeyed h.1) (horder _)]
    exact keyed_decoded_iff m h.2
theorem list_decoded_iff : ∀ l : List Value, EverywhereList (fun _ => True) (fun _ => True) Keyed.Ordered l →
    (decodeList order (encodeList l) = l ↔ EverywhereList PlainLeaf (fun tag => tag ≠ some []) (fun _ => True) l)
  | [], _ => by simp [encodeList, decodeList, EverywhereList]
  | v :: l, h => by
    simp only [encodeList, decodeList, EverywhereList, List.cons.injEq]
    rw [Value.decoded_iff v h.1, list_decoded_iff l h.2]
theorem tagged_decoded_iff : ∀ l : List (Option Bytes × Value), EverywhereTagged (fun _ => True) (fun _ => True) Keyed.Ordered l →
    (decodeTagged order (encodeTagged l) = l ↔ EverywhereTagged PlainLeaf (fun tag => tag ≠ some []) (fun _ => True) l)
  | [], _ => by simp [encodeTagged, decodeTagged, EverywhereTagged]
  | (tag, v) :: l, h => by
    simp only [encodeTagged, encodeTag, decodeTagged, decodeTag, EverywhereTagged, EverywhereTag, List.cons.injEq,
      Prod.mk.injEq, decodeTag_eq_iff]
    rw [Value.decoded_iff v h.1.2, tagged_decoded_iff l h.2]
theorem keyed_decoded_iff : ∀ m : List (Bytes × Value), SortedMap m →
    (decodeKeyed order (encodeKeyed m) = m ↔ TransferableMap m)
  | [], _ => by simp [encodeKeyed, decodeKeyed, TransferableMap, EverywhereKeyed]
  | (key, v) :: m, h => by
    simp only [encodeKeyed, encodeKey, decodeKeyed, decodeKey, TransferableMap, EverywhereKeyed, EverywhereKey,
      List.cons.injEq, Prod.mk.injEq, true_and]
    rw [Value.decoded_iff v h.1]
    exact and_congr_right fun _ => keyed_decoded_iff m h.2
end

/-- A map comes back from its message exactly where all of it is transferable. -/
theorem attributes_decoded_iff {m : KeyValueMap} (ho : Keyed.Ordered m) (h : SortedMap m) :
    Keyed.putAll [] (order (decodeKeyed order (encodeKeyed m))) = m ↔ TransferableMap m := by
  rw [Keyed.putAll_of_perm (ordered_decodeKeyed ho) (horder _)]
  exact keyed_decoded_iff horder m h

end

def plainMap : Value := .kvmap [([1], .timepoint (-1)), ([2], .bytevector [0x20])]

theorem variant_restored_of_map : plainMap.encode.decode List.reverse = plainMap := by
  have hv : plainMap.Encodable := by
    refine ⟨?_, trivial, trivial, trivial⟩
    show List.Pairwise _ _
    decide
  apply (variant_restored_iff List.reverse_perm hv).mpr
  refine ⟨trivial, fun x hx => ?_, trivial⟩
  rw [List.mem_singleton.mp hx]
  exact ⟨by decide, by decide, by decide⟩

/-- A null byte comes back as four characters. -/
theorem bytes_not_restored : ¬ ∀ v : Value, v.Encodable → v.encode.decode id = v := by
  intro hall
  have hbytes := hall (.bytevector [0]) (by simp [Value.Encodable])
  simp only [Value.encode, Message.decode, Value.bytevector.injEq] at hbytes
  exact absurd hbytes (by decide)

end CommonCore
