import CommonCore.NetconfigTypes
import CommonCore.VariantProto

/-!
# Errors in protobuf messages

Maps in messages are lists of entries, which are visited in any order.
-/

namespace CommonCore

open Netconfig (Enumeration castFrom)

instance : Enumeration Domain where
  number d := d.ctorIdx
  cast := castFrom (fun d => d.ctorIdx) .none [.application, .system, .process, .device, .service]
  cast_number d := by cases d <;> rfl

instance : Enumeration Level where
  number l := l.ctorIdx
  cast := castFrom (fun l => l.ctorIdx) .none [.trace, .debug, .info, .notice, .warning, .error, .critical, .fatal]
  cast_number l := by cases l <;> rfl

namespace Proto

structure Error where
  domain : Int
  origin : Bytes
  level : Int
  code : Int64
  symbol : Bytes
  timestamp : Int × Int
  attributes : List (Bytes × Message)
  text : Bytes

end Proto

def Error.encode (native : Error) : Proto.Error where
  domain := Enumeration.number native.domain
  origin := native.origin
  level := Enumeration.number native.level
  code := native.code
  symbol := native.symbol
  timestamp := ((toTimespec native.timepoint).1, toInt32 (toTimespec native.timepoint).2)
  attributes := encodeKeyed native.attributes
  text := native.text

theorem map_eq_self_iff {α : Type} {f : α → α} {l : List α} : l.map f = l ↔ ∀ a ∈ l, f a = a := by
  conv_lhs => rhs; rw [← List.map_id l]
  exact List.map_inj_left

/-- The order in which the entries of a map in a message are visited. -/
structure Visiting where
  order : {κ α : Type} → List (κ × α) → List (κ × α)
  perm : ∀ {κ α : Type} (l : List (κ × α)), (order l).Perm l

def inReverse : Visiting := ⟨List.reverse, List.reverse_perm⟩

section
variable (V : Visiting)

def decodeAttributes (map : List (Bytes × Message)) : KeyValueMap :=
  Keyed.putAll [] (V.order (decodeKeyed V.order map))

def Proto.Error.decode (proto : Proto.Error) : CommonCore.Error where
  text := proto.text
  domain := Enumeration.cast proto.domain
  origin := proto.origin
  code := proto.code
  symbol := proto.symbol
  level := Enumeration.cast proto.level
  timepoint := toTimepoint proto.timestamp.1 proto.timestamp.2
  attributes := decodeAttributes V proto.attributes

/-! ## What comes back -/

def KeyValueMap.Sorted (m : KeyValueMap) : Prop := Keyed.Ordered m ∧ SortedMap m

/-- The entries of a map, decoded one by one. -/
theorem Visiting.perm_decoded {α β κ μ : Type} (encode : α → κ × μ) (decode : κ × μ → β) (l : List α) :
    ((V.order (l.map encode)).map decode).Perm (l.map fun e => decode (encode e)) := by
  have h := (V.perm (l.map encode)).map decode
  rw [List.map_map] at h
  exact h

theorem Visiting.perm_restored {α κ μ : Type} {encode : α → κ × μ} {decode : κ × μ → α} {l : List α}
    (h : ∀ e ∈ l, decode (encode e) = e) : ((V.order (l.map encode)).map decode).Perm l := by
  exact (V.perm_decoded encode decode l).trans (.of_eq (map_eq_self_iff.mpr h))

theorem decodeAttributes_encodeKeyed_iff {attributes : KeyValueMap} (h : KeyValueMap.Sorted attributes) :
    decodeAttributes V (encodeKeyed attributes) = attributes ↔ TransferableMap attributes :=
  attributes_decoded_iff (fun m => V.perm m) h.1 h.2

theorem Error.decode_encode_iff {error : Error} (h : KeyValueMap.Sorted error.attributes) :
    error.encode.decode V = error ↔ TransferableMap error.attributes := by
  rw [← decodeAttributes_encodeKeyed_iff V h]
  obtain ⟨⟩ := error
  simp [encode, Proto.Error.decode, Enumeration.cast_number, toTimepoint_toTimespec]

end

end CommonCore
