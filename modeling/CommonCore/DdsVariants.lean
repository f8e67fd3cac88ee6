import CommonCore.VariantProto

/-!
# Variant values in DDS structures

`encode` puts a value into a union that is generated from the IDL, and `decode`
takes out the member that is selected. A setter selects its member; a reference
to a member is to be had only while that is selected.
-/

namespace CommonCore

namespace Dds

open Dt (second)

/-- `CC::Variant::ValueType` -/
inductive ValueType
  | vtNone | vtBool | vtChar | vtUint | vtSint | vtReal | vtComplex | vtString | vtBytearray
  | vtTimepoint | vtDuration
  deriving DecidableEq

/-- `CC::Common::Duration`, which is also the timestamp. -/
structure Duration where
  seconds : UInt64
  nanoseconds : UInt32
  deriving DecidableEq

/-- The member that belongs to a discriminator. -/
abbrev Member : ValueType → Type
  | .vtNone => Unit
  | .vtBool => Bool
  | .vtChar => UInt8
  | .vtUint => UInt64
  | .vtSint => Int64
  | .vtReal => Double
  | .vtComplex => Double × Double
  | .vtString => Bytes
  | .vtBytearray => Bytes
  | .vtTimepoint => Duration
  | .vtDuration => Duration

/-- The class that is generated for the union. -/
structure ValueUnion (U : Type) where
  fresh : U
  d : U → ValueType
  set : (t : ValueType) → Member t → U → U
  get : (t : ValueType) → U → Member t
  /-- What is written through the reference to a member; there may be none. -/
  ref : (t : ValueType) → Member t → U → Option U
  d_fresh : d fresh ≠ .vtTimepoint ∧ d fresh ≠ .vtDuration
  d_set : ∀ t x u, d (set t x u) = t
  get_set : ∀ t x u, get t (set t x u) = x
  d_ref : ∀ t x u u', ref t x u = some u' → d u' = d u

/-! ## Times -/

def encodeTimestamp (tp : Int) : Duration :=
  { seconds := UInt64.ofInt (toTimespec tp).1, nanoseconds := UInt32.ofInt (toTimespec tp).2 }

def decodeTimestamp (idl : Duration) : Int := toTimepoint idl.seconds.toInt64.toInt idl.nanoseconds.toNat

def encodeDuration (d : Int) : Duration :=
  { seconds := UInt64.ofInt (splitDuration d).1, nanoseconds := UInt32.ofInt (splitDuration d).2 }

def decodeDuration (idl : Duration) : Int := idl.seconds.toInt64.toInt * second + idl.nanoseconds.toNat

/-! ## Values -/

variable {U : Type} (G : ValueUnion U)

/-- Without a result the program ends, as `encode` is `noexcept`. -/
def encode : Value → U → Option U
  | .none, u => some (G.set .vtNone () u)
  | .bool b, u => some (G.set .vtBool b u)
  | .uint n, u => some (G.set .vtUint n.toUInt32.toUInt64 u) -- as_uint
  | .sint n, u => some (G.set .vtSint n.toInt32.toInt64 u) -- as_sint
  | .real r, u => some (G.set .vtReal r u)
  | .complex re im, u => G.ref .vtComplex (re, im) u
  | .char c, u => some (G.set .vtChar c u)
  | .string s, u => some (G.set .vtString s u)
  | .bytevector b, u => some (G.set .vtBytearray b u)
  | .timepoint t, u => G.ref .vtTimepoint (encodeTimestamp t) u
  | .duration d, u => G.ref .vtDuration (encodeDuration d) u
  | .valuelist _, u | .tvlist _, u | .kvmap _, u => some u

def decode (u : U) : Value :=
  match G.d u with
  | .vtNone => .none
  | .vtBool => .bool (G.get .vtBool u)
  | .vtChar => .char (G.get .vtChar u)
  | .vtUint => .uint (G.get .vtUint u)
  | .vtSint => .sint (G.get .vtSint u)
  | .vtReal => .real (G.get .vtReal u)
  | .vtComplex => .complex (G.get .vtComplex u).1 (G.get .vtComplex u).2
  | .vtString => .string (G.get .vtString u)
  | .vtBytearray => .bytevector (G.get .vtBytearray u)
  | .vtTimepoint => .timepoint (decodeTimestamp (G.get .vtTimepoint u))
  | .vtDuration => .duration (decodeDuration (G.get .vtDuration u))

/-! ## Lists and maps -/

def encodeList (l : List Value) : Option (List U) := l.mapM fun v => encode G v G.fresh

def decodeList (l : List U) : List Value := l.map (decode G)

def encodeTagged (l : List (Option Bytes × Value)) : Option (List (Bytes × U)) :=
  l.mapM fun e => (encode G e.2 G.fresh).map (Prod.mk (e.1.getD []))

def decodeTagged (l : List (Bytes × U)) : List (Option Bytes × Value) := l.map fun e => (some e.1, decode G e.2)

def encodeKeyed (m : KeyValueMap) : Option (List (Bytes × U)) :=
  m.mapM fun e => (encode G e.2 G.fresh).map (Prod.mk e.1)

def decodeKeyed (l : List (Bytes × U)) : KeyValueMap := Keyed.putAll [] (l.map fun e => (e.1, decode G e.2))

/-! ## Transfers -/

/-- What there are structures for. -/
inductive Data
  | value (v : Value)
  | valuelist (l : List Value)
  | tvlist (l : List (Option Bytes × Value))
  | kvmap (m : KeyValueMap)

/-- `decoded(encoded(…))` -/
def Data.transfer : Data → Option Data
  | .value v => (encode G v G.fresh).map fun u => .value (decode G u)
  | .valuelist l => (encodeList G l).map fun us => .valuelist (decodeList G us)
  | .tvlist l => (encodeTagged G l).map fun us => .tvlist (decodeTagged G us)
  | .kvmap m => (encodeKeyed G m).map fun us => .kvmap (decodeKeyed G us)

def Data.values : Data → List Value
  | .value v => [v]
  | .valuelist l => l
  | .tvlist l => l.map Prod.snd
  | .kvmap m => m.map Prod.snd

/-! ## What comes back -/

/-- The values that have a member in the union, reals apart. -/
def Scalar : Value → Prop
  | .real _ | .complex _ _ | .valuelist _ | .tvlist _ | .kvmap _ => False
  | _ => True

/-- No time, and no integer that needs more than 32 bits. -/
def Fits : Value → Prop
  | .uint n => n.toNat < 2 ^ 32
  | .sint n => -2 ^ 31 ≤ n.toInt ∧ n.toInt < 2 ^ 31
  | .timepoint _ | .duration _ => False
  | _ => True

/-- All tags are present, and all values have a member in the union, reals apart. -/
structure Data.Flat (d : Data) : Prop where
  scalar : ∀ v ∈ d.values, Scalar v
  tagged : ∀ l, d = .tvlist l → ∀ e ∈ l, e.1.isSome
  ordered : ∀ m, d = .kvmap m → Keyed.Ordered m

theorem decode_set (t : ValueType) (x : Member t) (u : U) :
    decode G (G.set t x u) =
      match t, x with
      | .vtNone, _ => .none
      | .vtBool, b => .bool b
      | .vtChar, c => .char c
      | .vtUint, n => .uint n
      | .vtSint, n => .sint n
      | .vtReal, r => .real r
      | .vtComplex, z => .complex z.1 z.2
      | .vtString, s => .string s
      | .vtBytearray, b => .bytevector b
      | .vtTimepoint, tp => .timepoint (decodeTimestamp tp)
      | .vtDuration, d => .duration (decodeDuration d) := by
  cases t <;> simp [decode, G.d_set, G.get_set]

theorem uint_fits (n : UInt64) : n.toUInt32.toUInt64 = n ↔ n.toNat < 2 ^ 32 := by
  rw [← UInt64.toNat_inj, UInt32.toNat_toUInt64, UInt64.toNat_toUInt32]
  omega

theorem sint_fits (n : Int64) : n.toInt32.toInt64 = n ↔ -2 ^ 31 ≤ n.toInt ∧ n.toInt < 2 ^ 31 := by
  rw [← Int64.toInt_inj, Int32.toInt_toInt64, Int64.toInt_toInt32]
  constructor
  · intro h
    have := Int.bmod_lt (m := 2 ^ 32) (x := n.toInt) (by decide)
    have := Int.le_bmod (m := 2 ^ 32) (x := n.toInt) (by decide)
    omega
  · intro h
    exact Int.bmod_eq_of_le (by omega) (by omega)

/-- A member that is not selected is out of reach, so a time never comes back. -/
theorem ref_not_restored {t : ValueType} (ht : G.d G.fresh ≠ t) {x : Member t} {v : Value}
    (hv : ∀ u, decode G u = v → G.d u = t) : ¬ (G.ref t x G.fresh).map (decode G) = some v := by
  intro h
  obtain ⟨u, hu, hd⟩ := Option.map_eq_some_iff.1 h
  exact ht ((G.d_ref t x _ _ hu).symm.trans (hv u hd))

theorem d_of_timepoint {u : U} {t : Int} (h : decode G u = .timepoint t) : G.d u = .vtTimepoint := by
  revert h
  unfold decode
  cases G.d u <;> simp

theorem d_of_duration {u : U} {d : Int} (h : decode G u = .duration d) : G.d u = .vtDuration := by
  revert h
  unfold decode
  cases G.d u <;> simp

theorem value_restored_iff {v : Value} (h : Scalar v) : (encode G v G.fresh).map (decode G) = some v ↔ Fits v := by
  cases v with
  | uint n => simpa [encode, decode_set, Fits] using uint_fits n
  | sint n => simpa [encode, decode_set, Fits] using sint_fits n
  | timepoint t => exact iff_of_false (ref_not_restored G G.d_fresh.1 fun u => d_of_timepoint G) id
  | duration d => exact iff_of_false (ref_not_restored G G.d_fresh.2 fun u => d_of_duration G) id
  | none | bool | char | string | bytevector => simp [encode, decode_set, Fits]
  | real | complex | valuelist | tvlist | kvmap => exact h.elim

/-! ## Lists and maps come back -/

theorem mapM_restored_iff {α β : Type} {f : α → Option β} {g : β → α} (l : List α) :
    (l.mapM f).map (List.map g) = some l ↔ ∀ x ∈ l, (f x).map g = some x := by
  induction l with
  | nil => simp
  | cons x l ih =>
    rw [List.forall_mem_cons, ← ih, List.mapM_cons]
    cases f x <;> cases l.mapM f <;> simp

theorem map_mk_iff {α α' β γ : Type} {a : α} {a' : α'} {b : β} {o : Option γ} {g : γ → β} {h : α × γ → α' × β}
    (hh : ∀ c, h (a, c) = (a', g c)) : (o.map (Prod.mk a)).map h = some (a', b) ↔ o.map g = some b := by
  cases o <;> simp [hh]

theorem tagged_restored_iff {l : List (Option Bytes × Value)} (h : ∀ e ∈ l, e.1.isSome) :
    (encodeTagged G l).map (decodeTagged G) = some l ↔ ∀ e ∈ l, (encode G e.2 G.fresh).map (decode G) = some e.2 := by
  refine (mapM_restored_iff (g := fun e : Bytes × U => (some e.1, decode G e.2)) l).trans (forall₂_congr fun e he => ?_)
  obtain ⟨t, ht⟩ := Option.isSome_iff_exists.1 (h e he)
  obtain ⟨_, v⟩ := e
  subst ht
  exact map_mk_iff fun u => rfl

/-- The entries come in the order of their keys, and so they do again. -/
theorem decodeKeyed_of_encodeKeyed {m : KeyValueMap} (hm : Keyed.Ordered m) :
    (encodeKeyed G m).map (decodeKeyed G) = (encodeKeyed G m).map (List.map fun e : Bytes × U => (e.1, decode G e.2)) := by
  have keys : ∀ {m : KeyValueMap} {us}, encodeKeyed G m = some us → us.map Prod.fst = m.map Prod.fst := by
    intro m
    induction m with
    | nil => simp [encodeKeyed]
    | cons e m ih =>
      intro us h
      obtain ⟨u, hu, us', hus, rfl⟩ : ∃ u, (encode G e.2 G.fresh).map (Prod.mk e.1) = some u ∧
          ∃ us', encodeKeyed G m = some us' ∧ u :: us' = us := by
        simpa [encodeKeyed, List.mapM_cons, Option.bind_eq_some_iff] using h
      obtain ⟨u', -, rfl⟩ := Option.map_eq_some_iff.1 hu
      simp [ih hus]
  cases h : encodeKeyed G m with
  | none => rfl
  | some us =>
    have hu : Keyed.Ordered us := by
      have := (List.pairwise_map (f := Prod.fst) (R := fun a b => compare a b = .lt)).2 hm
      rw [← keys h] at this
      exact List.pairwise_map.1 this
    exact congrArg some (Keyed.putAll_of_ordered ((Keyed.ordered_map (decode G)).2 hu))

theorem keyed_restored_iff {m : KeyValueMap} (hm : Keyed.Ordered m) :
    (encodeKeyed G m).map (decodeKeyed G) = some m ↔ ∀ e ∈ m, (encode G e.2 G.fresh).map (decode G) = some e.2 := by
  rw [decodeKeyed_of_encodeKeyed G hm]
  exact (mapM_restored_iff m).trans (forall₂_congr fun e _ => map_mk_iff fun u => rfl)

/-- What is sent comes back if and only if there is no time in it, and no
integer that needs more than 32 bits. -/
theorem transferred_iff {d : Data} (hd : d.Flat) : d.transfer G = some d ↔ ∀ v ∈ d.values, Fits v := by
  have scalars : (∀ v ∈ d.values, (encode G v G.fresh).map (decode G) = some v) ↔ ∀ v ∈ d.values, Fits v :=
    forall₂_congr fun v hv => value_restored_iff G (hd.scalar v hv)
  rw [← scalars]
  cases d with
  | value v =>
    rw [Data.values, List.forall_mem_singleton, Data.transfer]
    cases encode G v G.fresh <;> simp
  | valuelist l =>
    rw [Data.values, ← mapM_restored_iff, Data.transfer, encodeList]
    cases l.mapM fun v => encode G v G.fresh <;> simp [decodeList]
  | tvlist l =>
    rw [Data.values, List.forall_mem_map, ← tagged_restored_iff G (hd.tagged l rfl), Data.transfer]
    cases encodeTagged G l <;> simp
  | kvmap m =>
    rw [Data.values, List.forall_mem_map, ← keyed_restored_iff G (hd.ordered m rfl), Data.transfer]
    cases encodeKeyed G m <;> simp

/-! ## A union -/

/-- A union that holds the selected member, and refuses a reference to another. -/
def checkedUnion : ValueUnion (Sigma Member) where
  fresh := ⟨.vtBool, false⟩
  d u := u.1
  set t x _ := ⟨t, x⟩
  get t u := if h : u.1 = t then h ▸ u.2 else
    match t with
    | .vtNone => ()
    | .vtBool => false
    | .vtChar | .vtUint => 0
    | .vtSint => 0
    | .vtReal => .nan
    | .vtComplex => (.nan, .nan)
    | .vtString | .vtBytearray => []
    | .vtTimepoint | .vtDuration => ⟨0, 0⟩
  ref t x u := if u.1 = t then some ⟨t, x⟩ else none
  d_fresh := by decide
  d_set t x u := rfl
  get_set t x u := by simp
  d_ref t x u u' h := by
    split at h
    · rename_i ht
      obtain rfl := Option.some.inj h
      exact ht.symm
    · cases h

def readings : Data := .kvmap [([1], .uint 4294967295), ([2], .sint (-2147483648)), ([3], .string [0x20])]

theorem readings_transferred : readings.Flat ∧ readings.transfer checkedUnion = some readings := by
  have hf : readings.Flat :=
    { scalar := by simp [readings, Data.values, Scalar]
      tagged := by simp [readings]
      ordered := by
        intro m h
        obtain rfl := Data.kvmap.inj h
        simp [Keyed.Ordered]
        decide }
  refine ⟨hf, (transferred_iff checkedUnion hf).2 ?_⟩
  simp [readings, Data.values, Fits]

theorem large_not_transferred :
    ¬ ∀ d : Data, d.Flat → d.transfer checkedUnion = some d := by
  intro h
  have hf : (Data.value (.uint 4294967296)).Flat :=
    { scalar := by simp [Data.values, Scalar]
      tagged := by simp
      ordered := by simp }
  have := h _ hf
  simp [Data.transfer, encode, decode, checkedUnion] at this
  revert this
  decide

end Dds

end CommonCore
