import CommonCore.EventProto
import CommonCore.Switch

/-!
# Switches in protobuf messages

Specifications and statuses as they go between a switchboard and its clients.
-/

namespace CommonCore

open Netconfig (Enumeration castFrom)

/-! ## Enumerations -/

def State.number (s : State) : Int := s.value.toNat

def DependencyPolarity.number : DependencyPolarity → Int
  | toggle => 0
  | positive => 1
  | negative => -1

instance : Enumeration State where
  number := State.number
  cast := castFrom State.number .unset [.activating, .active, .deactivating, .inactive, .failing, .failed]
  cast_number s := by cases s <;> rfl

instance : Enumeration DependencyPolarity where
  number := DependencyPolarity.number
  cast := castFrom DependencyPolarity.number .toggle [.positive, .negative]
  cast_number p := by cases p <;> rfl

instance : Enumeration InterceptorPhase where
  number p := p.ctorIdx
  cast := castFrom (fun p => p.ctorIdx) .early [.normal, .late]
  cast_number p := by cases p <;> rfl

instance : Enumeration ExceptionHandling where
  number eh := eh.value
  cast := castFrom (fun eh => eh.value) .default [.ignore, .abort, .fail, .revert]
  cast_number eh := by cases eh <;> rfl

/-- States are ordered by their numbers. -/
instance : Ord State := ⟨compareOn State.number⟩

instance : Std.TransOrd State := inferInstanceAs (Std.TransCmp (compareOn State.number))

instance : Std.LawfulEqOrd State where
  eq_of_compare {s t} h := by
    have h : compare s.number t.number = .eq := h
    have hcast : (Enumeration.cast s.number : State) = Enumeration.cast t.number :=
      congrArg _ (Std.LawfulEqCmp.eq_of_compare h)
    exact (Enumeration.cast_number s).symm.trans (hcast.trans (Enumeration.cast_number t))

/-! ## Messages -/

namespace Proto

structure Localization where
  description : String
  targetTexts : List (Bool × String)
  stateTexts : List (Int × String)

structure Dependency where
  triggerStates : StateMask
  polarity : Int
  hard : Bool
  sufficient : Bool

structure InterceptorSpec where
  owner : String
  stateTransitions : StateMask
  phase : Int
  asynchronous : Bool
  rerun : Bool
  onCancel : Int
  onError : Int

structure Specification where
  isPrimary : Option Bool
  aliases : List String
  localizations : List (String × Localization)
  dependencies : List (String × Dependency)
  interceptors : List (String × InterceptorSpec)

structure Status where
  currentState : Int
  settledState : Int
  active : Bool
  pending : Bool
  error : Option Error
  attributes : Option (List (Bytes × Message))

end Proto

/-! ## Encoding -/

def Localization.encode (localization : Localization) : Proto.Localization where
  description := localization.description
  targetTexts := localization.targetTexts
  stateTexts := localization.stateTexts.map fun e => (Enumeration.number e.1, e.2)

def Dependency.encode (native : Dependency) : Proto.Dependency where
  triggerStates := native.triggerStates
  polarity := Enumeration.number native.polarity
  hard := native.hard
  sufficient := native.sufficient

def Interceptor.encode (native : Interceptor) : Proto.InterceptorSpec where
  owner := native.owner
  stateTransitions := native.stateTransitions
  phase := Enumeration.number native.phase
  asynchronous := native.asynchronous
  rerun := native.rerun
  onCancel := Enumeration.number native.onCancel
  onError := Enumeration.number native.onError

def Specification.encode (spec : Specification) : Proto.Specification where
  isPrimary := some spec.primary
  aliases := spec.aliases.toList
  localizations := spec.localizations.toList.map fun e => (e.1, e.2.encode)
  dependencies := spec.dependencies.map.toList.map fun e => (e.1, e.2.encode)
  interceptors := spec.interceptors.map.toList.map fun e => (e.1, e.2.encode)

def Status.encode (status : Status) : Proto.Status where
  currentState := Enumeration.number status.currentState
  settledState := Enumeration.number status.settledState
  active := status.active
  pending := status.pending
  error := status.error.map Error.encode
  attributes := if 0 < status.attributes.length then some (encodeKeyed status.attributes) else none

/-! ## Decoding -/

section
variable (V : Visiting)

def Proto.Localization.decode (msg : Proto.Localization) : CommonCore.Localization where
  description := msg.description
  targetTexts := Keyed.putAll [] (V.order msg.targetTexts)
  stateTexts := Keyed.putAll [] ((V.order msg.stateTexts).map fun e => (Enumeration.cast e.1, e.2))

def Proto.Dependency.decode (predecessorName : SwitchName) (proto : Proto.Dependency) : CommonCore.Dependency where
  predecessorName
  triggerStates := proto.triggerStates
  polarity := Enumeration.cast proto.polarity
  hard := proto.hard
  sufficient := proto.sufficient

/-- The level at which failures are logged is left at its default. -/
def Proto.InterceptorSpec.decode (name : InterceptorName) (proto : Proto.InterceptorSpec) : Interceptor where
  name
  owner := proto.owner
  stateTransitions := proto.stateTransitions
  phase := Enumeration.cast proto.phase
  asynchronous := proto.asynchronous
  rerun := proto.rerun
  onCancel := Enumeration.cast proto.onCancel
  onError := Enumeration.cast proto.onError

def Proto.Specification.decode (msg : Proto.Specification) : CommonCore.Specification where
  primary := msg.isPrimary.getD false
  aliases := .ofList msg.aliases compare
  localizations := .ofList ((V.order msg.localizations).map fun e => (e.1, e.2.decode V)) compare
  dependencies := .ofList ((V.order msg.dependencies).map fun e => e.2.decode e.1)
  interceptors := .ofList ((V.order msg.interceptors).map fun e => e.2.decode e.1)

def Proto.Status.decode (msg : Proto.Status) : CommonCore.Status where
  currentState := Enumeration.cast msg.currentState
  settledState := Enumeration.cast msg.settledState
  active := msg.active
  pending := msg.pending
  error := msg.error.map (Proto.Error.decode V)
  attributes := decodeAttributes V (msg.attributes.getD [])

end

/-! ## What comes back -/

/-- The texts are in the order of what they stand for. -/
def Specification.Sorted (spec : Specification) : Prop :=
  ∀ e ∈ spec.localizations.toList, Keyed.Ordered e.2.targetTexts ∧ Keyed.Ordered e.2.stateTexts

def Status.Sorted (status : Status) : Prop :=
  KeyValueMap.Sorted status.attributes ∧ ∀ error ∈ status.error, KeyValueMap.Sorted error.attributes

/-- Messages have a place for all attributes, those of the error included. -/
def Status.Transferable (status : Status) : Prop :=
  TransferableMap status.attributes ∧ ∀ error ∈ status.error, TransferableMap error.attributes

section
variable (V : Visiting)

theorem Localization.decode_encode {localization : Localization} (ht : Keyed.Ordered localization.targetTexts)
    (hs : Keyed.Ordered localization.stateTexts) : localization.encode.decode V = localization := by
  obtain ⟨description, targets, states⟩ := localization
  have htargets : Keyed.putAll [] (V.order targets) = targets := Keyed.putAll_of_perm ht (V.perm _)
  have hstates : Keyed.putAll [] ((V.order (states.map fun e => (Enumeration.number e.1, e.2))).map
      fun e => ((Enumeration.cast e.1 : State), e.2)) = states :=
    Keyed.putAll_of_perm hs (V.perm_restored fun e _ => Prod.ext (Enumeration.cast_number e.1) rfl)
  simp only [encode, Proto.Localization.decode, htargets, hstates]

theorem Dependency.decode_encode (d : Dependency) : d.encode.decode d.predecessorName = d := by
  simp [encode, Proto.Dependency.decode, Enumeration.cast_number]

theorem Interceptor.decode_encode_iff (ic : Interceptor) : ic.encode.decode ic.name = ic ↔ ic.logFailureLevel = .notice := by
  obtain ⟨⟩ := ic
  simp [encode, Proto.InterceptorSpec.decode, Enumeration.cast_number, eq_comm]

/-- Values that keep their names, filed in any order. -/
theorem filed_ofList_eq_iff {κ α : Type} [Ord κ] [Std.TransOrd κ] [Std.LawfulEqOrd κ] {name : α → κ}
    {m : Keyed.Filed κ α name} {f : α → α} {l : List α} (h : l.Perm (m.values.map f)) (hf : ∀ v, name (f v) = name v) :
    Keyed.Filed.ofList l = m ↔ ∀ v ∈ m.values, f v = v := by
  constructor
  · rintro heq v hv
    have hdistinct : l.Pairwise fun v w => name v ≠ name w := by
      refine (h.pairwise_iff fun hne heq => hne heq.symm).mpr (List.pairwise_map.mpr ?_)
      refine Keyed.Filed.values_ordered.imp fun {v w} hlt heq => ?_
      rw [hf, hf] at heq
      rw [heq, Keyed.compare_self] at hlt
      cases hlt
    have hget : (Keyed.Filed.ofList l : Keyed.Filed κ α name).get? (name (f v)) = some (f v) :=
      Keyed.Filed.get?_foldl_of_mem hdistinct (h.mem_iff.mpr (List.mem_map_of_mem hv))
    rw [heq, hf, Keyed.Filed.mem_values.mp hv] at hget
    exact (Option.some.inj hget).symm
  · intro hid
    exact Keyed.Filed.ofList_of_perm (map_eq_self_iff.mpr hid ▸ h)

/-- Values under their names, decoded one by one. -/
theorem Visiting.perm_values {α μ : Type} {name : α → String} (m : Keyed.Filed String α name) (encode : α → μ)
    (decode : String → μ → α) :
    ((V.order (m.map.toList.map fun e => (e.1, encode e.2))).map fun e => decode e.1 e.2).Perm
      (m.values.map fun v => decode (name v) (encode v)) := by
  have hvalues : m.map.toList.map (fun e => decode e.1 (encode e.2)) = m.values.map fun v => decode (name v) (encode v) := by
    rw [Keyed.Filed.values, List.map_map]
    refine List.map_congr_left fun e he => ?_
    rw [← m.filed e.1 e.2 (Std.ExtTreeMap.mem_toList_iff_getElem?_eq_some.mp he)]
    rfl
  rw [← hvalues]
  exact V.perm_decoded _ _ _

theorem Specification.decode_encode_iff {spec : Specification} (h : spec.Sorted) :
    spec.encode.decode V = spec ↔ ∀ ic ∈ spec.interceptors.values, ic.logFailureLevel = .notice := by
  obtain ⟨primary, aliases, localizations, dependencies, interceptors⟩ := spec
  have haliases : Std.ExtTreeSet.ofList aliases.toList compare = aliases := Keyed.treeSet_ofList_of_perm (.refl _)
  have hlocalizations : Std.ExtTreeMap.ofList
      ((V.order (localizations.toList.map fun e => (e.1, e.2.encode))).map fun e => (e.1, e.2.decode V)) compare =
        localizations :=
    Keyed.treeMap_ofList_of_perm (V.perm_restored fun e he =>
      Prod.ext rfl (Localization.decode_encode V (h e he).1 (h e he).2))
  have hdependencies := (filed_ofList_eq_iff
    (V.perm_values dependencies Dependency.encode fun name msg => msg.decode name) fun _ => rfl).mpr
      fun d _ => d.decode_encode
  have hinterceptors := filed_ofList_eq_iff
    (V.perm_values interceptors Interceptor.encode fun name msg => msg.decode name) fun _ => rfl
  simp only [Interceptor.decode_encode_iff] at hinterceptors
  simp only [encode, Proto.Specification.decode, Option.getD_some, haliases, hlocalizations, hdependencies,
    Specification.mk.injEq, true_and]
  exact hinterceptors

theorem Status.decode_encode_iff {status : Status} (h : status.Sorted) :
    status.encode.decode V = status ↔ status.Transferable := by
  obtain ⟨currentState, settledState, active, pending, error, attributes⟩ := status
  obtain ⟨hattributes, herror⟩ := h
  have habsent : (if 0 < attributes.length then some (encodeKeyed attributes) else none).getD [] = encodeKeyed attributes := by
    cases attributes <;> rfl
  have herror' : (error.map Error.encode).map (Proto.Error.decode V) = error ↔ ∀ e ∈ error, TransferableMap e.attributes := by
    cases error with
    | none => simp
    | some e => simpa using Error.decode_encode_iff V (herror e rfl)
  simp only [encode, Proto.Status.decode, Enumeration.cast_number, habsent, Status.mk.injEq, true_and, Transferable]
  rw [decodeAttributes_encodeKeyed_iff V hattributes, herror', and_comm]

end

/-- Specifications come back exactly where all interceptors log failures at the
default level, and statuses exactly where their attributes are transferable. -/
theorem switchboard_restored_iff (V : Visiting) :
    (∀ spec : Specification, spec.Sorted →
      (spec.encode.decode V = spec ↔ ∀ ic ∈ spec.interceptors.values, ic.logFailureLevel = .notice)) ∧
    ∀ status : Status, status.Sorted → (status.encode.decode V = status ↔ status.Transferable) :=
  ⟨fun _ h => Specification.decode_encode_iff V h, fun _ h => Status.decode_encode_iff V h⟩

/-- A lamp that has failed, and what it depends on -/
def lampSpec : Specification where
  primary := true
  localizations := (∅ : Std.ExtTreeMap String Localization compare).insert "en"
    { description := "Lamp", targetTexts := [(false, "off"), (true, "on")], stateTexts := [(.active, "lit")] }
  dependencies := .ofList [{ predecessorName := "fuse", polarity := .negative }, { predecessorName := "power" }]
  interceptors := .ofList [{ name := "log", phase := .late }]

def lampStatus : Status where
  currentState := .failed
  error := some { text := ascii "burnt out", timepoint := -1, attributes := [(ascii "age", .duration (-2))] }

theorem lamp_restored : lampSpec.encode.decode inReverse = lampSpec ∧ lampStatus.encode.decode inReverse = lampStatus := by
  have hspec : lampSpec.Sorted := by
    show ∀ e ∈ lampSpec.localizations.toList, List.Pairwise _ _ ∧ List.Pairwise _ _
    decide
  have hstatus : lampStatus.Sorted := by
    refine ⟨⟨List.Pairwise.nil, trivial⟩, fun error he => ?_⟩
    obtain rfl := Option.some.inj he
    exact ⟨List.pairwise_singleton _ _, trivial, trivial⟩
  have htransferable : lampStatus.Transferable := by
    refine ⟨trivial, fun error he => ?_⟩
    obtain rfl := Option.some.inj he
    exact ⟨trivial, trivial⟩
  obtain ⟨h, h'⟩ := switchboard_restored_iff inReverse
  exact ⟨(h _ hspec).mpr (by decide), (h' _ hstatus).mpr htransferable⟩

/-- An interceptor whose failures are warnings, and an error with a null byte in its attributes -/
theorem switchboard_not_restored :
    ¬ (∀ spec : Specification, spec.Sorted → spec.encode.decode inReverse = spec) ∧
      ¬ ∀ status : Status, status.Sorted → status.encode.decode inReverse = status := by
  constructor
  · intro h
    let spec : Specification := { interceptors := .ofList [{ name := "log", logFailureLevel := .warning }] }
    have hsorted : spec.Sorted := fun e he => by
      rw [show spec.localizations.toList = [] from rfl] at he
      cases he
    have hlevels := (Specification.decode_encode_iff inReverse hsorted).mp (h spec hsorted)
    revert hlevels
    decide
  · intro h
    have hsorted : Status.Sorted { attributes := [(ascii "raw", .bytevector [0])] } :=
      ⟨⟨List.pairwise_singleton _ _, trivial, trivial⟩, fun error he => by cases he⟩
    have hbytes := ((Status.decode_encode_iff inReverse hsorted).mp (h _ hsorted)).1.1 0 (List.mem_singleton.mpr rfl)
    exact absurd hbytes.2.1 (by decide)

end CommonCore
