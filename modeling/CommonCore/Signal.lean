import Mathlib

/-!
# Mapping signals

A `MappingSignal` sends changes of a keyed value to its slots, and keeps the
latest value of each key for slots that connect later. Slots are what they have
received, latest first.

The maps are unordered, so where the code visits one of them the model visits
some list of its entries, and does not say which.
-/

namespace CommonCore

/-- `core::signal::MappingAction`. -/
inductive MappingAction
  | none | addition | removal | update
  deriving DecidableEq

abbrev Handle := String

abbrev Received (K V : Type) := List (MappingAction × K × V)

/-- `core::signal::MappingSignal`. `sent` is everything that went out. -/
structure MappingSignal (K V : Type) where
  caching : Bool
  cached : AList fun _ : K => V := ∅
  sent : Received K V := []
  slots : List (Handle × Received K V) := []

namespace MappingSignal

variable {K V : Type}

def callback (handle : Handle) (action : MappingAction) (key : K) (value : V) (slot : Handle × Received K V) :
    Handle × Received K V :=
  if slot.1 = handle then (slot.1, (action, key, value) :: slot.2) else slot

def sendall (s : MappingSignal K V) (action : MappingAction) (key : K) (value : V) : MappingSignal K V :=
  { s with
    sent := (action, key, value) :: s.sent
    slots := s.slots.map fun slot => (slot.1, (action, key, value) :: slot.2) }

/-- `emit_cached_to`, where `entries` are those of the cache. -/
def emitCachedTo (s : MappingSignal K V) (handle : Handle) (entries : List (Sigma fun _ : K => V)) : MappingSignal K V :=
  entries.foldl (fun s e => { s with slots := s.slots.map (callback handle .addition e.1 e.2) }) s

/-- `connect`, with `emit_cached`. -/
def connect (s : MappingSignal K V) (handle : Handle) (entries : List (Sigma fun _ : K => V)) : MappingSignal K V :=
  { s with slots := (handle, []) :: s.slots.filter fun slot => slot.1 != handle }.emitCachedTo handle entries

def disconnect (s : MappingSignal K V) (handle : Handle) : MappingSignal K V :=
  { s with slots := s.slots.filter fun slot => slot.1 != handle }

variable [DecidableEq K]

def updateCache (s : MappingSignal K V) (key : K) (value : V) : MappingSignal K V :=
  { s with cached := s.cached.insert key value }

/-- `emit`, with the action given. -/
def emitAction (s : MappingSignal K V) (action : MappingAction) (key : K) (value : V) : MappingSignal K V :=
  let s :=
    if s.caching then
      match action with
      | .update | .addition => s.updateCache key value
      | .removal => { s with cached := s.cached.erase key }
      | .none => s
    else s
  s.sendall action key value

def emit (s : MappingSignal K V) (key : K) (value : V) : MappingSignal K V :=
  s.emitAction (if !s.caching then .update else if key ∈ s.cached then .update else .addition) key value

def clear (s : MappingSignal K V) (key : K) (value : V) : MappingSignal K V := s.emitAction .removal key value

def clearIfCached (s : MappingSignal K V) (key : K) : MappingSignal K V :=
  match s.cached.lookup key with
  | some value => { s with cached := s.cached.erase key }.sendall .removal key value
  | none => s

/-- `clear_all_cached`, where `entries` are those of the cache. -/
def clearAllCached [Inhabited V] (s : MappingSignal K V) (entries : List (Sigma fun _ : K => V)) : MappingSignal K V :=
  { entries.foldl (fun s e => s.sendall .removal e.1 default) s with cached := ∅ }

section
variable [BEq V]

def changeAction (s : MappingSignal K V) (key : K) (value : V) : MappingAction :=
  if !s.caching then .none
  else
    match s.cached.lookup key with
    | none => .addition
    | some v => if v == value then .none else .update

/-- `emit_if_changed`: was anything emitted, and the signal afterwards. -/
def emitIfChanged (s : MappingSignal K V) (key : K) (value : V) : Bool × MappingSignal K V :=
  match s.changeAction key value with
  | .none => (false, s)
  | action => (true, (s.updateCache key value).sendall action key value)

/-- The first loop of `synchronize`, with what is left of the previous cache and
the number of emissions so far. -/
def syncUpdate (c : MappingSignal K V × (AList fun _ : K => V) × ℕ) (e : Sigma fun _ : K => V) :
    MappingSignal K V × (AList fun _ : K => V) × ℕ :=
  match c.2.1.lookup e.1 with
  | some v =>
    if v == e.2 then (c.1, c.2.1.erase e.1, c.2.2)
    else (c.1.emitAction .update e.1 e.2, c.2.1.erase e.1, c.2.2 + 1)
  | none => (c.1.emitAction .addition e.1 e.2, c.2.1, c.2.2 + 1)

/-- `synchronize`, where `visited` are the entries of the map it is given, and
`left` those of the previous cache that the first loop leaves. -/
def synchronize (s : MappingSignal K V) (visited left : List (Sigma fun _ : K => V)) : ℕ × MappingSignal K V :=
  let c := visited.foldl syncUpdate (s, s.cached, 0)
  (c.2.2 + left.length, left.foldl (fun s e => s.emitAction .removal e.1 e.2) c.1)

end

/-- The value a slot that heard everything holds for a key. -/
def lastSent (s : MappingSignal K V) (key : K) : Option V :=
  match s.sent.find? fun e => e.2.1 = key with
  | some (.removal, _, _) => none
  | some (_, _, v) => some v
  | none => none

/-- A slot that heard everything knows what the cache knows. -/
def InStep (s : MappingSignal K V) : Prop := ∀ key, s.lastSent key = s.cached.lookup key

theorem inStep_new (caching : Bool) : InStep ({ caching } : MappingSignal K V) := fun key => by
  simp [lastSent]

section
variable [BEq V] {s : MappingSignal K V} {key : K} {value : V}

/-- Either the value compared equal to the cached one and nothing happened, or
it is now the cached value and the latest one sent. -/
theorem emitIfChanged_cases (s : MappingSignal K V) (key : K) (value : V) (hc : s.caching = true) :
    (∃ v, s.cached.lookup key = some v ∧ (v == value) = true ∧ s.emitIfChanged key value = (false, s)) ∨
    ∃ action, (action = .addition ∧ s.cached.lookup key = none ∨
        action = .update ∧ (s.cached.lookup key).isSome = true) ∧
      s.emitIfChanged key value = (true, (s.updateCache key value).sendall action key value) := by
  unfold emitIfChanged changeAction
  cases hk : s.cached.lookup key with
  | none => exact .inr ⟨.addition, .inl ⟨rfl, rfl⟩, by simp [hc]⟩
  | some v =>
    by_cases hv : (v == value) = true
    · exact .inl ⟨v, rfl, hv, by simp [hc, hv]⟩
    · exact .inr ⟨.update, .inr ⟨rfl, rfl⟩, by simp [hc, hv]⟩

@[simp] theorem emitIfChanged_caching : (s.emitIfChanged key value).2.caching = s.caching := by
  unfold emitIfChanged
  split <;> rfl

theorem emitIfChanged_inStep (hc : s.caching = true) (hs : s.InStep) : (s.emitIfChanged key value).2.InStep := by
  rcases s.emitIfChanged_cases key value hc with ⟨_, _, _, h⟩ | ⟨action, ha, h⟩
  · rw [h]; exact hs
  · rw [h]
    intro k
    simp only [sendall, updateCache]
    by_cases hk : k = key
    · subst hk
      rw [AList.lookup_insert]
      rcases ha with ⟨rfl, _⟩ | ⟨rfl, _⟩ <;> simp [lastSent]
    · rw [AList.lookup_insert_ne hk, ← hs k]
      simp [lastSent, Ne.symm hk]

/-- Other keys are not touched. -/
theorem emitIfChanged_of_ne (hc : s.caching = true) {k : K} (hk : key ≠ k) :
    (s.emitIfChanged key value).2.cached.lookup k = s.cached.lookup k := by
  rcases s.emitIfChanged_cases key value hc with ⟨_, _, _, h⟩ | ⟨_, _, h⟩ <;> rw [h]
  exact AList.lookup_insert_ne hk.symm

end

end MappingSignal

end CommonCore
