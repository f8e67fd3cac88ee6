import CommonCore.Dicts

/-!
# Signal connections in Python

The slots of each signal are in a list, and those of all signals under an entry
of their own. Disconnecting looks for the name of the signal in the list of its
slots, and the filter cannot look up a number.
-/

namespace CommonCore

namespace SignalStore

variable {σ : Type}

/-! ## The operations -/

inductive PyError
  | attributeError
  | nameError
  deriving DecidableEq

/-- What may stand in a list of slots, or be looked for in one. -/
inductive Object (σ : Type)
  | slot (s : σ)
  /-- `lambda signal: slot(getattr(signal, name))` -/
  | lambda (s : σ) (name : String)
  | str (s : String)
  deriving DecidableEq

/-- A slot that is called, with the message or with a field of it. -/
structure Invocation (σ : Type) where
  slot : σ
  data : Option String

def Object.invoke : Object σ → Option (Invocation σ)
  | slot s => some ⟨s, none⟩
  | lambda s name => some ⟨s, some name⟩
  | str _ => none

/-- The fields of the `oneof`, with their numbers. -/
abbrev SignalFields := List (String × ℕ)

/-- The message that selects the signals to be sent. -/
structure Filter where
  polarity : Bool
  indices : List ℕ

def Filter.matches (f : Filter) (number : ℕ) : Bool := f.polarity == f.indices.contains number

def allSignals : String := "*"

end SignalStore

/-- The slots by the name of their signal. -/
structure SignalStore (σ : Type) where
  slots : Dict String (List (SignalStore.Object σ)) := .empty

namespace SignalStore

/-- `self.slots.setdefault(name, []).append(x)` -/
def append (store : SignalStore σ) (name : String) (x : Object σ) : SignalStore σ :=
  ⟨store.slots.set name ((store.slots.get name).getD [] ++ [x])⟩

def connectAll (store : SignalStore σ) (slot : σ) : SignalStore σ := store.append allSignals (.slot slot)

def connectSignal (fields : SignalFields) (store : SignalStore σ) (name : String) (slot : Object σ) :
    Except PyError (SignalStore σ) :=
  if name ∈ fields.map Prod.fst then .ok (store.append name slot) else .error .attributeError

def connectSignalData (fields : SignalFields) (store : SignalStore σ) (name : String) (slot : σ) :
    Except PyError (SignalStore σ) :=
  if name ∈ fields.map Prod.fst then connectSignal fields store name (.lambda slot name) else .error .attributeError

/-- `if signal_name := self.signal_name(msg)`: a message without a signal has the
empty name. -/
def emit (store : SignalStore σ) (name : String) : List (Invocation σ) :=
  if name = "" then []
  else ((store.slots.get name).getD [] ++ (store.slots.get allSignals).getD []).filterMap Object.invoke

/-- The name `signalname` is not defined. -/
def fieldNumber (_fieldname : String) : Except PyError ℕ := .error .nameError

def signalFilter (store : SignalStore σ) (matchAll : Bool := false) : Except PyError Filter :=
  if matchAll ∨ (store.slots.get allSignals).isSome then .ok { polarity := false, indices := [] }
  else do
    let indices ← ((store.slots.items.map Prod.fst).filter (· ≠ allSignals)).mapM fieldNumber
    return { polarity := true, indices }

section
variable [DecidableEq σ]

/-- `slots.remove(x)`, unless that raises a `ValueError`. -/
def remove (slots : List (Object σ)) (x : Object σ) : Option (List (Object σ)) :=
  if x ∈ slots then some (slots.erase x) else none

def disconnectSignal (store : SignalStore σ) (name : String) (slot : Option (Object σ)) : SignalStore σ × Bool :=
  match slot with
  | some _ =>
    match store.slots.get name with
    | none => (store, false)
    | some slots =>
      match remove slots (.str name) with
      | none => (store, false)
      | some slots => (⟨store.slots.set name slots⟩, true)
  | none => (⟨store.slots.pop name⟩, ((store.slots.get name).getD []) ≠ [])

def disconnectAll (store : SignalStore σ) (slot : Option σ) : SignalStore σ × Bool :=
  match slot with
  | some slot => disconnectSignal store allSignals (some (.slot slot))
  | none => (⟨store.slots.pop allSignals⟩, ((store.slots.get allSignals).getD []) ≠ [])

/-- Another lambda is made for the slot, and nothing is returned. -/
def disconnectSignalData (store : SignalStore σ) (name : String) (slot : Option σ) : SignalStore σ × Option Bool :=
  ((disconnectSignal store name (slot.map (.lambda · name))).1, none)

/-! ## Histories -/

inductive Call (σ : Type)
  | connectAll (slot : σ)
  | connectSignal (name : String) (slot : σ)
  | connectSignalData (name : String) (slot : σ)
  | disconnectAll (slot : Option σ)
  | disconnectSignal (name : String) (slot : Option σ)
  | disconnectSignalData (name : String) (slot : Option σ)

/-- The store after a call, which is as before where the call raises an error, and
what a call to disconnect returns. -/
def call (fields : SignalFields) (store : SignalStore σ) : Call σ → SignalStore σ × Option Bool
  | .connectAll slot => (store.connectAll slot, none)
  | .connectSignal name slot => ((connectSignal fields store name (.slot slot)).toOption.getD store, none)
  | .connectSignalData name slot => ((connectSignalData fields store name slot).toOption.getD store, none)
  | .disconnectAll slot => ((store.disconnectAll slot).1, some (store.disconnectAll slot).2)
  | .disconnectSignal name slot =>
    ((store.disconnectSignal name (slot.map .slot)).1, some (store.disconnectSignal name (slot.map .slot)).2)
  | .disconnectSignalData name slot => store.disconnectSignalData name slot

def after (fields : SignalFields) (history : List (Call σ)) : SignalStore σ :=
  history.foldl (fun store c => (store.call fields c).1) {}

/-! ## What the calls shall do -/

/-- A slot that is connected, under the name of a signal or for all of them. -/
structure Connection (σ : Type) where
  key : String
  data : Bool
  slot : σ
  deriving DecidableEq

def Connection.object (c : Connection σ) : Object σ := if c.data then .lambda c.slot c.key else .slot c.slot

def Call.connects (fields : SignalFields) : Call σ → Option (Connection σ)
  | connectAll slot => some ⟨allSignals, false, slot⟩
  | connectSignal name slot => if name ∈ fields.map Prod.fst then some ⟨name, false, slot⟩ else none
  | connectSignalData name slot => if name ∈ fields.map Prod.fst then some ⟨name, true, slot⟩ else none
  | _ => none

/-- The connection that a slot is given for. -/
def Call.disconnects : Call σ → Option (Connection σ)
  | disconnectAll slot => slot.map fun s => ⟨allSignals, false, s⟩
  | disconnectSignal name slot => slot.map fun s => ⟨name, false, s⟩
  | disconnectSignalData name slot => slot.map fun s => ⟨name, true, s⟩
  | _ => none

/-- The name whose slots are all disconnected. -/
def Call.clears : Call σ → Option String
  | disconnectAll none => some allSignals
  | disconnectSignal name none | disconnectSignalData name none => some name
  | _ => none

def connect (fields : SignalFields) (l : List (Connection σ)) (c : Call σ) : List (Connection σ) :=
  (l.filter fun x => c.disconnects ≠ some x ∧ c.clears ≠ some x.key) ++ (c.connects fields).toList

def connections (fields : SignalFields) (history : List (Call σ)) : List (Connection σ) := history.foldl (connect fields) []

/-- The slots of the signal are called, and then those of all signals. -/
def emitted (l : List (Connection σ)) (name : String) : List (Invocation σ) :=
  if name = "" then []
  else (l.filter (·.key = name) ++ l.filter (·.key = allSignals)).filterMap fun c => c.object.invoke

/-- What holds of each call of a history, and the calls before it. -/
def AtEachCall (P : List (Call σ) → Call σ → Prop) (history : List (Call σ)) : Prop :=
  ∀ before c rest, history = before ++ c :: rest → P before c

/-- A call that disconnects a slot that is connected. -/
def Disconnects (fields : SignalFields) (before : List (Call σ)) (c : Call σ) : Prop :=
  ∃ x ∈ connections fields before, c.disconnects = some x

structure Lawful (fields : SignalFields) (history : List (Call σ)) : Prop where
  reports : AtEachCall (fun before c => Disconnects fields before c → ((after fields before).call fields c).2 = some true) history
  emits : ∀ name, (after fields history).emit name = emitted (connections fields history) name
  filters : ∃ f, (after fields history).signalFilter = .ok f ∧
    ∀ e ∈ fields, f.matches e.2 = true ↔ ∃ x ∈ connections fields history, x.key = allSignals ∨ x.key = e.1

/-! ## Until a slot is disconnected -/

omit [DecidableEq σ] in
theorem atEachCall_nil (P : List (Call σ) → Call σ → Prop) : AtEachCall P [] := by
  intro before c rest h
  exact absurd h (List.append_ne_nil_of_right_ne_nil _ (List.cons_ne_nil _ _)).symm

omit [DecidableEq σ] in
theorem atEachCall_concat (P : List (Call σ) → Call σ → Prop) (history : List (Call σ)) (c : Call σ) :
    AtEachCall P (history ++ [c]) ↔ AtEachCall P history ∧ P history c := by
  constructor
  · intro h
    refine ⟨fun before c' rest heq => h before c' (rest ++ [c]) (by simp [heq]), h history c [] rfl⟩
  · intro ⟨hall, hlast⟩ before c' rest heq
    rcases List.eq_nil_or_concat rest with hrest | ⟨rest', c'', hrest⟩
    · subst hrest
      obtain ⟨rfl, hc⟩ := List.append_inj' heq rfl
      cases hc
      exact hlast
    · subst hrest
      have heq' : history ++ [c] = (before ++ c' :: rest') ++ [c''] := by simp [heq]
      exact hall before c' rest' (List.append_inj' heq' rfl).1

/-- The entry of a name: the slots that are connected under it. -/
def entry (l : List (Connection σ)) (key : String) : Option (List (Object σ)) :=
  if (l.filter (·.key = key)).isEmpty then none else some ((l.filter (·.key = key)).map Connection.object)

omit [DecidableEq σ] in
theorem entry_getD (l : List (Connection σ)) (key : String) :
    (entry l key).getD [] = (l.filter (·.key = key)).map Connection.object := by
  unfold entry
  split_ifs with h
  · rw [List.isEmpty_iff.mp h]
    rfl
  · rfl

/-- The store holds these connections. -/
def Holds (store : SignalStore σ) (l : List (Connection σ)) : Prop := ∀ key, store.slots.get key = entry l key

omit [DecidableEq σ] in
theorem holds_append {store : SignalStore σ} {l : List (Connection σ)} (h : Holds store l) (x : Connection σ) :
    Holds (store.append x.key x.object) (l ++ [x]) := by
  intro key
  unfold append
  rw [Dict.get_set, h x.key, entry_getD]
  by_cases hkey : key = x.key
  · subst hkey
    simp [entry]
  · rw [if_neg hkey, h key]
    simp [entry, Ne.symm hkey]

omit [DecidableEq σ] in
theorem holds_pop {store : SignalStore σ} {l : List (Connection σ)} (h : Holds store l) (name : String) :
    Holds ⟨store.slots.pop name⟩ (l.filter (·.key ≠ name)) := by
  intro key
  rw [Dict.get_pop, h key]
  by_cases hkey : key = name
  · subst hkey
    simp [entry]
  · have hfilter : (l.filter (·.key ≠ name)).filter (·.key = key) = l.filter (·.key = key) := by
      rw [List.filter_filter]
      refine List.filter_congr fun x _ => ?_
      by_cases hx : x.key = key
      · simp [hx, hkey]
      · simp [hx]
    rw [if_neg hkey]
    unfold entry
    rw [hfilter]

/-- No name is found among the slots. -/
theorem disconnectSignal_some {store : SignalStore σ} {l : List (Connection σ)} (h : Holds store l) (name : String)
    (x : Object σ) : store.disconnectSignal name (some x) = (store, false) := by
  unfold disconnectSignal
  simp only [h name]
  unfold entry
  split_ifs with hempty
  · rfl
  · have hnot : Object.str name ∉ (l.filter (·.key = name)).map Connection.object := by
      intro hmem
      obtain ⟨c, -, hc⟩ := List.mem_map.mp hmem
      unfold Connection.object at hc
      split_ifs at hc
    simp only [remove, if_neg hnot]

theorem connect_of_not {fields : SignalFields} {l : List (Connection σ)} {c : Call σ} (h : ∀ x ∈ l, c.disconnects ≠ some x)
    (hclears : c.clears = none) : connect fields l c = l ++ (c.connects fields).toList := by
  unfold connect
  rw [List.filter_eq_self.mpr]
  intro x hx
  simp [h x hx, hclears]

theorem connect_of_clears {fields : SignalFields} {l : List (Connection σ)} {c : Call σ} {name : String}
    (hclears : c.clears = some name) (hdisconnects : c.disconnects = none) (hconnects : c.connects fields = none) :
    connect fields l c = l.filter (·.key ≠ name) := by
  unfold connect
  rw [hconnects, Option.toList_none, List.append_nil, hclears, hdisconnects]
  refine List.filter_congr fun x _ => ?_
  simp [eq_comm]

section
variable {fields : SignalFields} {store : SignalStore σ} {l : List (Connection σ)}

omit [DecidableEq σ] in
theorem holds_connectSignal (h : Holds store l) (x : Connection σ) :
    Holds ((connectSignal fields store x.key x.object).toOption.getD store)
      (l ++ (if x.key ∈ fields.map Prod.fst then some x else none).toList) := by
  unfold connectSignal
  split_ifs with hname
  · exact holds_append h x
  · rw [Option.toList_none, List.append_nil]
    exact h

/-- A call keeps the connections, unless it disconnects a slot that is connected. -/
theorem holds_call (h : Holds store l) (c : Call σ) (hc : ∀ x ∈ l, c.disconnects ≠ some x) :
    Holds (store.call fields c).1 (connect fields l c) := by
  cases c with
  | connectAll slot =>
    rw [connect_of_not hc rfl]
    exact holds_append h ⟨allSignals, false, slot⟩
  | connectSignal name slot =>
    rw [connect_of_not hc rfl]
    exact holds_connectSignal h ⟨name, false, slot⟩
  | connectSignalData name slot =>
    rw [connect_of_not hc rfl]
    have hsame : connectSignalData fields store name slot = connectSignal fields store name (.lambda slot name) := by
      unfold connectSignalData connectSignal
      split_ifs <;> rfl
    simp only [call, hsame]
    exact holds_connectSignal h ⟨name, true, slot⟩
  | disconnectAll slot =>
    cases slot with
    | none =>
      rw [connect_of_clears rfl rfl rfl]
      exact holds_pop h allSignals
    | some slot =>
      rw [connect_of_not hc rfl]
      simp only [call, disconnectAll, disconnectSignal_some h, Call.connects, Option.toList_none, List.append_nil]
      exact h
  | disconnectSignal name slot =>
    cases slot with
    | none =>
      rw [connect_of_clears rfl rfl rfl]
      exact holds_pop h name
    | some slot =>
      rw [connect_of_not hc rfl]
      simp only [call, Option.map_some, disconnectSignal_some h, Call.connects, Option.toList_none, List.append_nil]
      exact h
  | disconnectSignalData name slot =>
    cases slot with
    | none =>
      rw [connect_of_clears rfl rfl rfl]
      exact holds_pop h name
    | some slot =>
      rw [connect_of_not hc rfl]
      simp only [call, disconnectSignalData, Option.map_some, disconnectSignal_some h, Call.connects, Option.toList_none,
        List.append_nil]
      exact h

/-- No such call reports that it has disconnected the slot. -/
theorem not_reported (h : Holds store l) {c : Call σ} {x : Connection σ} (hc : c.disconnects = some x) :
    (store.call fields c).2 ≠ some true := by
  cases c with
  | connectAll slot => cases hc
  | connectSignal name slot => cases hc
  | connectSignalData name slot => cases hc
  | disconnectAll slot =>
    cases slot with
    | none => cases hc
    | some slot =>
      simp only [call, disconnectAll, disconnectSignal_some h]
      decide
  | disconnectSignal name slot =>
    cases slot with
    | none => cases hc
    | some slot =>
      simp only [call, Option.map_some, disconnectSignal_some h]
      decide
  | disconnectSignalData name slot => exact nofun

end

theorem connections_concat (fields : SignalFields) (history : List (Call σ)) (c : Call σ) :
    connections fields (history ++ [c]) = connect fields (connections fields history) c := by
  simp [connections]

theorem after_concat (fields : SignalFields) (history : List (Call σ)) (c : Call σ) :
    after fields (history ++ [c]) = ((after fields history).call fields c).1 := by
  simp [after]

/-- No slot is disconnected by a call that names it. -/
def Undisturbed (fields : SignalFields) (history : List (Call σ)) : Prop :=
  AtEachCall (fun before c => ¬ Disconnects fields before c) history

theorem holds_after {fields : SignalFields} {history : List (Call σ)} (h : Undisturbed fields history) :
    Holds (after fields history) (connections fields history) := by
  induction history using List.reverseRecOn with
  | nil => exact fun _ => rfl
  | append_singleton history c ih =>
    obtain ⟨hall, hlast⟩ := (atEachCall_concat _ _ _).mp h
    rw [after_concat, connections_concat]
    exact holds_call (ih hall) c fun x hx hc => hlast ⟨x, hx, hc⟩

theorem undisturbed_of_reports {fields : SignalFields} {history : List (Call σ)}
    (h : AtEachCall (fun before c => Disconnects fields before c → ((after fields before).call fields c).2 = some true) history) :
    Undisturbed fields history := by
  induction history using List.reverseRecOn with
  | nil => exact atEachCall_nil _
  | append_singleton history c ih =>
    obtain ⟨hall, hlast⟩ := (atEachCall_concat _ _ _).mp h
    refine (atEachCall_concat _ _ _).mpr ⟨ih hall, fun hd => ?_⟩
    obtain ⟨x, -, hx⟩ := id hd
    exact not_reported (holds_after (ih hall)) hx (hlast hd)

omit [DecidableEq σ] in
theorem emit_of_holds {store : SignalStore σ} {l : List (Connection σ)} (h : Holds store l) (name : String) :
    store.emit name = emitted l name := by
  unfold emit emitted
  rw [h name, h allSignals, entry_getD, entry_getD, ← List.map_append, List.filterMap_map]
  rfl

omit [DecidableEq σ] in
theorem entry_isSome {l : List (Connection σ)} {key : String} : (entry l key).isSome ↔ ∃ x ∈ l, x.key = key := by
  unfold entry
  split_ifs with h
  · rw [List.isEmpty_iff, List.filter_eq_nil_iff] at h
    simpa using h
  · rw [List.isEmpty_iff, List.filter_eq_nil_iff] at h
    simpa using h

omit [DecidableEq σ] in
/-- A filter for some signals is only made where there are none to look up. -/
theorem signalFilter_of_notMem {store : SignalStore σ} {l : List (Connection σ)} (h : Holds store l)
    (hall : ¬ ∃ x ∈ l, x.key = allSignals) :
    store.signalFilter = if l = [] then .ok { polarity := true, indices := [] } else .error .nameError := by
  have hnot : ¬ (false = true ∨ (store.slots.get allSignals).isSome) := by
    rw [h allSignals, entry_isSome]
    simpa using hall
  have hmem : ∀ key, key ∈ store.slots.items.map Prod.fst ↔ ∃ x ∈ l, x.key = key := by
    intro key
    rw [← Dict.get_isSome, h key, entry_isSome]
  unfold signalFilter
  rw [if_neg hnot]
  cases hkeys : (store.slots.items.map Prod.fst).filter (· ≠ allSignals) with
  | nil =>
    have hnil : l = [] := by
      refine List.eq_nil_iff_forall_not_mem.mpr fun x hx => ?_
      have hfilter := List.filter_eq_nil_iff.mp hkeys x.key ((hmem x.key).mpr ⟨x, hx, rfl⟩)
      exact hall ⟨x, hx, by simpa using hfilter⟩
    rw [if_pos hnil]
    rfl
  | cons key keys =>
    have hkey : key ∈ (store.slots.items.map Prod.fst).filter (· ≠ allSignals) := by
      rw [hkeys]
      exact List.mem_cons_self
    obtain ⟨x, hx, -⟩ := (hmem key).mp (List.mem_of_mem_filter hkey)
    rw [if_neg (List.ne_nil_of_mem hx)]
    rfl

omit [DecidableEq σ] in
theorem filter_of_holds {fields : SignalFields} {store : SignalStore σ} {l : List (Connection σ)} (h : Holds store l) :
    (∃ f, store.signalFilter = .ok f ∧
        ∀ e ∈ fields, f.matches e.2 = true ↔ ∃ x ∈ l, x.key = allSignals ∨ x.key = e.1) ↔
      (∃ x ∈ l, x.key = allSignals) ∨ l = [] := by
  by_cases hall : ∃ x ∈ l, x.key = allSignals
  · refine ⟨fun _ => .inl hall, fun _ => ⟨{ polarity := false, indices := [] }, ?_, fun e _ => ?_⟩⟩
    · have hsome : (store.slots.get allSignals).isSome := by
        rw [h allSignals]
        exact entry_isSome.mpr hall
      unfold signalFilter
      rw [if_pos (.inr hsome)]
    · obtain ⟨x, hx, hkey⟩ := hall
      exact ⟨fun _ => ⟨x, hx, .inl hkey⟩, fun _ => rfl⟩
  · rw [signalFilter_of_notMem h hall, or_iff_right hall]
    by_cases hnil : l = []
    · subst hnil
      refine ⟨fun _ => rfl, fun _ => ⟨_, if_pos rfl, fun e _ => ?_⟩⟩
      simp [Filter.matches]
    · rw [if_neg hnil]
      exact ⟨nofun, fun h => absurd h hnil⟩

/-- The law holds of a history if no slot that is connected is disconnected by a
call that names it, and no filter is asked for the slots of single signals. -/
theorem lawful_iff (fields : SignalFields) (history : List (Call σ)) :
    Lawful fields history ↔ Undisturbed fields history ∧
      ((∃ x ∈ connections fields history, x.key = allSignals) ∨ connections fields history = []) := by
  constructor
  · intro h
    have hundisturbed := undisturbed_of_reports h.reports
    exact ⟨hundisturbed, (filter_of_holds (holds_after hundisturbed)).mp h.filters⟩
  · intro ⟨hundisturbed, hfilter⟩
    have hholds := holds_after hundisturbed
    refine ⟨fun before c rest heq hd => absurd hd (hundisturbed before c rest heq), ?_, ?_⟩
    · exact emit_of_holds hholds
    · exact (filter_of_holds hholds).mpr hfilter

/-- A slot that is connected and disconnected again is still called. -/
theorem not_lawful : ¬ ∀ (fields : SignalFields) (history : List (Call Unit)), Lawful fields history := by
  intro hall
  have hemits := (hall [("a", 1)] [.connectSignal "a" (), .disconnectSignal "a" (some ())]).emits "a"
  cases hemits

end

end SignalStore

end CommonCore
