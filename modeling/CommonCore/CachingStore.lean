import CommonCore.Dicts
import CommonCore.Signal

/-!
# The caching signal store

A store sends signal messages to the slots that are connected to a signal or to
all of them, and keeps the latest message of each signal and mapping key for
slots that connect later. Slots are what they have received since they connected.
Where the source waits for the cache to be complete, it then goes on in the same
way. A call is what it leaves behind, and whether it returned: the description of
an invocation is made outside of what catches the exceptions of a slot.
-/

namespace CommonCore

/-- A loop, which ends where its body raises. -/
def each {α σ : Type} (f : α → σ → σ × Bool) : List α → σ → σ × Bool
  | [], s => (s, true)
  | a :: l, s => if (f a s).2 then each f l (f a s).1 else f a s

section
variable {α σ : Type} {f : α → σ → σ × Bool}

/-- What every round that returns keeps. -/
theorem each_induction {P : σ → Prop} (hstep : ∀ a s, P s → (f a s).2 = true → P (f a s).1) {l : List α} {s : σ}
    (hs : P s) (h : (each f l s).2 = true) : P (each f l s).1 := by
  induction l generalizing s with
  | nil => exact hs
  | cons a l ih =>
    unfold each at h ⊢
    by_cases ha : (f a s).2 = true
    · rw [if_pos ha] at h ⊢
      exact ih (hstep a s hs ha) h
    · rw [if_neg ha] at h
      exact absurd h ha

theorem each_of_returned {l : List α} {s : σ} (h : (each f l s).2 = true) :
    (each f l s).1 = l.foldl (fun s a => (f a s).1) s := by
  induction l generalizing s with
  | nil => rfl
  | cons a l ih =>
    unfold each at h ⊢
    by_cases ha : (f a s).2 = true
    · rw [if_pos ha] at h ⊢
      exact ih h
    · rw [if_neg ha] at h
      exact absurd h ha

/-- Where the loop ends early, one round raises after others that returned. -/
theorem each_of_raised {l : List α} {s : σ} (h : (each f l s).2 = false) :
    ∃ l₁ a l₂, l = l₁ ++ a :: l₂ ∧ (each f l₁ s).2 = true ∧ (f a (each f l₁ s).1).2 = false ∧
      (each f l s).1 = (f a (each f l₁ s).1).1 := by
  induction l generalizing s with
  | nil => cases h
  | cons a l ih =>
    unfold each at h
    by_cases ha : (f a s).2 = true
    · rw [if_pos ha] at h
      obtain ⟨l₁, b, l₂, rfl, hret, hraised, heq⟩ := ih h
      refine ⟨a :: l₁, b, l₂, rfl, ?_⟩
      simp only [each, if_pos ha]
      exact ⟨hret, hraised, heq⟩
    · rw [if_neg ha] at h
      refine ⟨[], a, l, rfl, rfl, h, ?_⟩
      simp only [each, if_neg ha]

end

/-- A message of the store's type. An action that is `none` is a number outside
of the enumeration, and `signal` the field that the `oneof` selects. -/
structure SignalMessage (n : ℕ) (V : Type) where
  mappingAction : Option MappingAction := some .none
  mappingKey : String := ""
  signal : Option (Fin n × V) := none

variable {n : ℕ} {V : Type}

namespace SignalMessage

/-- The message with this field; without a value the `oneof` stays unset. -/
def construct (action : MappingAction) (key : String) (name : Fin n) (value : Option V) : SignalMessage n V :=
  { mappingAction := some action, mappingKey := key, signal := value.map fun v => (name, v) }

def mappingControls (msg : SignalMessage n V) : MappingAction × Option String :=
  match msg.mappingAction with
  | some action => (action, if msg.mappingKey = "" then none else some msg.mappingKey)
  | none => (.none, none)

/-- `getattr`: a field that is not selected reads as the empty message. -/
def field [Inhabited V] (msg : SignalMessage n V) (name : Fin n) : V :=
  match msg.signal with
  | some (name', v) => if name' = name then v else default
  | none => default

end SignalMessage

/-- Whether `dissect_message` returns for a message: it raises for one with an
enumeration whose number has no name. -/
class MessageDissecter (n : ℕ) (V : Type) where
  dissects : SignalMessage n V → Bool

open MessageDissecter

/-- A slot that is connected to one signal, or to all. It answers if it has a
`__name__` and, where it is a coroutine, an event loop. -/
structure Connection (n : ℕ) (V : Type) where
  name : Option (Fin n)
  received : List (SignalMessage n V)
  answers : Bool

namespace Connection

def hears (c : Connection n V) (name : Fin n) : Prop := c.name = some name ∨ c.name = none

instance (c : Connection n V) (name : Fin n) : Decidable (c.hears name) :=
  inferInstanceAs (Decidable (_ ∨ _))

def receive (msg : SignalMessage n V) (c : Connection n V) : Connection n V :=
  { c with received := c.received ++ [msg] }

def told [MessageDissecter n V] (c : Connection n V) (msg : SignalMessage n V) : Bool := c.answers && dissects msg

/-- `_emit_to`, for each of these slots. -/
def emitTo [MessageDissecter n V] (msg : SignalMessage n V) (p : Connection n V → Bool) :
    List (Connection n V) → List (Connection n V) × Bool
  | [] => ([], true)
  | c :: slots =>
    if p c then
      if c.told msg then ((emitTo msg p slots).map (c.receive msg :: ·) id) else (c :: slots, false)
    else (emitTo msg p slots).map (c :: ·) id

end Connection

structure CachingSignalStore (n : ℕ) (V : Type) where
  cache : Fin n → Dict (Option String) (SignalMessage n V) := fun _ => .empty
  slots : List (Connection n V) := []

namespace CachingSignalStore

def updateCache (s : CachingSignalStore n V) (name : Fin n) (action : MappingAction) (key : Option String)
    (msg : SignalMessage n V) : CachingSignalStore n V :=
  let datamap := s.cache name
  { s with cache := Function.update s.cache name (if action = .removal then datamap.pop key else datamap.set key msg) }

section
variable [MessageDissecter n V]

/-- `SignalStore.emit`: the slots of the signal, then those of all signals. -/
def dispatch (s : CachingSignalStore n V) (name : Fin n) (msg : SignalMessage n V) : CachingSignalStore n V × Bool :=
  let named := Connection.emitTo msg (fun c => c.name = some name) s.slots
  let all := if named.2 then Connection.emitTo msg (fun c => c.name = none) named.1 else named
  ({ s with slots := all.1 }, all.2)

def emit (s : CachingSignalStore n V) (msg : SignalMessage n V) : CachingSignalStore n V × Bool :=
  match msg.signal with
  | some (name, _) => (s.updateCache name msg.mappingControls.1 msg.mappingControls.2 msg).dispatch name msg
  | none => (s, true)

def emitEvent (s : CachingSignalStore n V) (name : Fin n) (value : Option V) : CachingSignalStore n V × Bool :=
  s.emit { signal := value.map fun v => (name, v) }

end

/-- The cached messages of a signal, in the order in which they are replayed. -/
def cachedMessages (s : CachingSignalStore n V) (name : Fin n) : List (SignalMessage n V) :=
  (s.cache name).items.map Prod.snd

section
variable [MessageDissecter n V]

/-- A new slot, to which these messages are replayed. -/
def connect (s : CachingSignalStore n V) (name : Option (Fin n)) (answers : Bool) (msgs : List (SignalMessage n V)) :
    CachingSignalStore n V × Bool :=
  let told := fun msg => (⟨name, [], answers⟩ : Connection n V).told msg
  ({ s with slots := s.slots ++ [⟨name, msgs.takeWhile told, answers⟩] }, msgs.all told)

def connectSignal (s : CachingSignalStore n V) (name : Fin n) (answers : Bool) : CachingSignalStore n V × Bool :=
  s.connect (some name) answers (s.cachedMessages name)

def connectAll (s : CachingSignalStore n V) (answers : Bool) : CachingSignalStore n V × Bool :=
  s.connect none answers ((List.finRange n).flatMap s.cachedMessages)

end

/-- `disconnect_signal` and `disconnect_all` without a slot; with one, they
look for the name among the slots and find nothing to remove. -/
def disconnect (s : CachingSignalStore n V) (name : Option (Fin n)) : CachingSignalStore n V :=
  { s with slots := s.slots.filter fun c => c.name ≠ name }

section
variable [Inhabited V]

def getCachedMap (s : CachingSignalStore n V) (name : Fin n) : Dict (Option String) V :=
  (s.cache name).mapValues fun msg => msg.field name

def getCachedSignal (s : CachingSignalStore n V) (name : Fin n) (key : Option String) : Option V :=
  ((s.cache name).get key).map fun msg => msg.field name

variable [DecidableEq V]

/-- The action for a key, when none is given. -/
def derivedAction (value cachedValue : Option V) : Option MappingAction :=
  match value, cachedValue with
  | none, none => none
  | none, some _ => some .removal
  | some _, none => some .addition
  | some v, some c => if v ≠ c then some .update else none

variable [MessageDissecter n V]

def emitMapping (s : CachingSignalStore n V) (name : Fin n) (key : String) (value : Option V)
    (action : Option MappingAction) : CachingSignalStore n V × Bool :=
  let action :=
    if key ≠ "" ∧ action = none then derivedAction value (s.getCachedSignal name (some key)) else action
  match action with
  | some a => s.emit (.construct a key name value)
  | none => (s, true)

/-- The first loop of `emit_map_update`, for a key that is cached. -/
def emitRemoval (name : Fin n) (updatedMap : Dict String V) (emptyValue : Option V) (e : Option String × V)
    (s : CachingSignalStore n V) : CachingSignalStore n V × Bool :=
  if (e.1.bind updatedMap.get).isSome then (s, true)
  else s.emitMapping name (e.1.getD "") (some (emptyValue.getD e.2)) (some .removal)

/-- The second loop. -/
def emitUpdated (name : Fin n) (e : String × V) (s : CachingSignalStore n V) : CachingSignalStore n V × Bool :=
  s.emitMapping name e.1 (some e.2) none

def emitMapUpdate (s : CachingSignalStore n V) (name : Fin n) (updatedMap : Dict String V) (emptyValue : Option V) :
    CachingSignalStore n V × Bool :=
  let removed := each (emitRemoval name updatedMap emptyValue) (s.getCachedMap name).items s
  if removed.2 then each (emitUpdated name) updatedMap.items removed.1 else removed

end

/-! ## What the calls shall do -/

/-- What a slot that listens to this signal makes of a message. -/
def follow (name : Fin n) (d : Dict (Option String) V) (msg : SignalMessage n V) : Dict (Option String) V :=
  match msg.signal with
  | some (name', v) =>
    if name' = name then
      if msg.mappingControls.1 = .removal then d.pop msg.mappingControls.2 else d.set msg.mappingControls.2 v
    else d
  | none => d

def folded (name : Fin n) (received : List (SignalMessage n V)) : Dict (Option String) V :=
  received.foldl (follow name) .empty

/-- Every slot that hears the signal has received one more message, with this
action and key, and the others none. -/
def Notified (s s' : CachingSignalStore n V) (name : Fin n) (action : MappingAction) (key : String) : Prop :=
  List.Forall₂ (fun c c' => c'.name = c.name ∧
    if c.hears name then
      ∃ msg, c'.received = c.received ++ [msg] ∧ msg.mappingControls = (action, some key) ∧
        msg.signal.map Prod.fst = some name
    else c'.received = c.received) s.slots s'.slots

section
variable [Inhabited V] [DecidableEq V] [MessageDissecter n V]

/-- The documented table: what becomes of the key, and who is told. -/
def Tabled (s : CachingSignalStore n V) (name : Fin n) (key : String) (value : Option V) : Prop :=
  let s' := (s.emitMapping name key value none).1
  match value, s.getCachedSignal name (some key) with
  | none, none => s' = s
  | none, some _ => s'.getCachedSignal name (some key) = none ∧ s.Notified s' name .removal key
  | some v, none => s'.getCachedSignal name (some key) = some v ∧ s.Notified s' name .addition key
  | some v, some c =>
    if v = c then s' = s else s'.getCachedSignal name (some key) = some v ∧ s.Notified s' name .update key

/-- The cache and the slots know this map. -/
def Synchronized (s : CachingSignalStore n V) (name : Fin n) (map : Dict String V) : Prop :=
  (∀ key, (s.getCachedMap name).get key = key.bind map.get) ∧
    ∀ c ∈ s.slots, c.hears name → ∀ key, (folded name c.received).get key = key.bind map.get

/-- Every slot that hears the message can be told. -/
def Heard (s : CachingSignalStore n V) (msg : SignalMessage n V) : Prop :=
  ∀ e ∈ msg.signal, ∀ c ∈ s.slots, c.hears e.1 → c.told msg = true

/-- A value that the cache does not have already. -/
def HeardValue (s : CachingSignalStore n V) (name : Fin n) (key : String) (v : V) : Prop :=
  key ≠ "" → ∀ action ∈ derivedAction (some v) (s.getCachedSignal name (some key)), s.Heard (.construct action key name (some v))

/-- The keys that the new map does not have, and its values. -/
def HeardMap (s : CachingSignalStore n V) (name : Fin n) (updatedMap : Dict String V) (emptyValue : Option V) : Prop :=
  (∀ e ∈ (s.getCachedMap name).items, e.1.bind updatedMap.get = none →
    s.Heard (.construct .removal (e.1.getD "") name (some (emptyValue.getD e.2)))) ∧
    ∀ e ∈ updatedMap.items, s.HeardValue name e.1 e.2

instance (s : CachingSignalStore n V) (msg : SignalMessage n V) : Decidable (s.Heard msg) :=
  inferInstanceAs (Decidable (∀ e ∈ msg.signal, ∀ c ∈ s.slots, c.hears e.1 → c.told msg = true))

instance (s : CachingSignalStore n V) (name : Fin n) (key : String) (v : V) : Decidable (s.HeardValue name key v) :=
  inferInstanceAs (Decidable (key ≠ "" → ∀ action ∈ derivedAction (some v) (s.getCachedSignal name (some key)),
    s.Heard (.construct action key name (some v))))

instance (s : CachingSignalStore n V) (name : Fin n) (updatedMap : Dict String V) (emptyValue : Option V) :
    Decidable (s.HeardMap name updatedMap emptyValue) := inferInstanceAs (Decidable (_ ∧ _))

inductive Call (n : ℕ) (V : Type)
  | connectSignal (name : Fin n) (answers : Bool)
  | connectAll (answers : Bool)
  | disconnect (name : Option (Fin n))
  | emit (msg : SignalMessage n V)
  | emitEvent (name : Fin n) (value : Option V)
  | emitMapping (name : Fin n) (key : String) (value : Option V) (action : Option MappingAction)
  | emitMapUpdate (name : Fin n) (updatedMap : Dict String V) (emptyValue : Option V)

def call (s : CachingSignalStore n V) : Call n V → CachingSignalStore n V × Bool
  | .connectSignal name answers => s.connectSignal name answers
  | .connectAll answers => s.connectAll answers
  | .disconnect name => (s.disconnect name, true)
  | .emit msg => s.emit msg
  | .emitEvent name value => s.emitEvent name value
  | .emitMapping name key value action => s.emitMapping name key value action
  | .emitMapUpdate name updatedMap emptyValue => s.emitMapUpdate name updatedMap emptyValue

/-- Every slot is told all that it hears in this call. -/
def Call.Heard (s : CachingSignalStore n V) : Call n V → Prop
  | .connectSignal name answers => ∀ msg ∈ s.cachedMessages name, (answers && dissects msg) = true
  | .connectAll answers => ∀ name, ∀ msg ∈ s.cachedMessages name, (answers && dissects msg) = true
  | .disconnect _ => True
  | .emit msg => s.Heard msg
  | .emitEvent name value => s.Heard { signal := value.map fun v => (name, v) }
  | .emitMapping name key (some v) none => s.HeardValue name key v
  | .emitMapping name key value action => ∀ a ∈ action, s.Heard (.construct a key name value)
  | .emitMapUpdate name updatedMap emptyValue => s.HeardMap name updatedMap emptyValue

instance (s : CachingSignalStore n V) : DecidablePred (Call.Heard s)
  | .connectSignal name _ => inferInstanceAs (Decidable (∀ msg ∈ s.cachedMessages name, _))
  | .connectAll _ => inferInstanceAs (Decidable (∀ name, ∀ msg ∈ s.cachedMessages name, _))
  | .disconnect _ => inferInstanceAs (Decidable True)
  | .emit msg => inferInstanceAs (Decidable (s.Heard msg))
  | .emitEvent _ _ => inferInstanceAs (Decidable (s.Heard _))
  | .emitMapping name key (some v) none => inferInstanceAs (Decidable (s.HeardValue name key v))
  | .emitMapping name key (some v) (some a) => inferInstanceAs (Decidable (∀ b ∈ Option.some a, s.Heard (.construct b key name (some v))))
  | .emitMapping name key none action => inferInstanceAs (Decidable (∀ a ∈ action, s.Heard (.construct a key name none)))
  | .emitMapUpdate name updatedMap emptyValue => inferInstanceAs (Decidable (s.HeardMap name updatedMap emptyValue))

inductive Reachable : CachingSignalStore n V → Prop
  | init : Reachable {}
  | call {s : CachingSignalStore n V} (h : Reachable s) {c : Call n V} (hc : c.Heard s) : Reachable (s.call c).1

end

/-! ## One message -/

theorem follow_of_ne {name name' : Fin n} {msg : SignalMessage n V} {v : V} (hm : msg.signal = some (name', v))
    (hne : name' ≠ name) (d : Dict (Option String) V) : follow name d msg = d := by
  unfold follow
  rw [hm]
  exact if_neg hne

theorem follow_unset {name : Fin n} {msg : SignalMessage n V} (hm : msg.signal = none) (d : Dict (Option String) V) :
    follow name d msg = d := by
  unfold follow
  rw [hm]

theorem folded_append (name : Fin n) (received : List (SignalMessage n V)) (msg : SignalMessage n V) :
    folded name (received ++ [msg]) = follow name (folded name received) msg := by
  unfold folded
  rw [List.foldl_append]
  rfl

section
variable [MessageDissecter n V]

omit [MessageDissecter n V] in
theorem exists_of_forall₂ {α β : Type} {R S : α → β → Prop} {l : List α} {l' : List β} (hR : List.Forall₂ R l l')
    (hS : List.Forall₂ S l l') {a : α} (ha : a ∈ l) : ∃ b ∈ l', R a b ∧ S a b := by
  induction hR with
  | nil => cases ha
  | cons h _ ih =>
    cases hS with
    | cons h' hs' =>
      rcases List.mem_cons.mp ha with rfl | ha
      · exact ⟨_, List.mem_cons_self, h, h'⟩
      · obtain ⟨b, hb, hab⟩ := ih hs' ha
        exact ⟨b, List.mem_cons_of_mem _ hb, hab⟩

/-- What `_emit_to` does with one slot. -/
inductive Served (msg : SignalMessage n V) (p : Connection n V → Bool) (c : Connection n V) : Connection n V → Prop
  | told (hp : p c = true) (ht : c.told msg = true) : Served msg p c (c.receive msg)
  | passed : Served msg p c c

theorem emitTo_served (msg : SignalMessage n V) (p : Connection n V → Bool) (slots : List (Connection n V)) :
    List.Forall₂ (Served msg p) slots (Connection.emitTo msg p slots).1 := by
  have hrest : ∀ slots : List (Connection n V), List.Forall₂ (Served msg p) slots slots :=
    fun slots => List.forall₂_same.mpr fun _ _ => .passed
  induction slots with
  | nil => exact .nil
  | cons c slots ih =>
    unfold Connection.emitTo
    split_ifs with hp ht
    · exact .cons (.told hp ht) ih
    · exact hrest _
    · exact .cons .passed ih

theorem emitTo_returned_iff {msg : SignalMessage n V} {p : Connection n V → Bool} {slots : List (Connection n V)} :
    (Connection.emitTo msg p slots).2 = true ↔ ∀ c ∈ slots, p c = true → c.told msg = true := by
  induction slots with
  | nil => exact iff_of_true rfl (List.forall_mem_nil _)
  | cons c slots ih =>
    rw [List.forall_mem_cons, ← ih, Connection.emitTo]
    split_ifs with hp ht
    · exact (and_iff_right fun _ => ht).symm
    · exact iff_of_false nofun fun h => ht (h.1 hp)
    · exact (and_iff_right fun h => absurd h hp).symm

theorem emitTo_of_returned {msg : SignalMessage n V} {p : Connection n V → Bool} {slots : List (Connection n V)}
    (h : (Connection.emitTo msg p slots).2 = true) :
    (Connection.emitTo msg p slots).1 = slots.map fun c => if p c then c.receive msg else c := by
  induction slots with
  | nil => rfl
  | cons c slots ih =>
    unfold Connection.emitTo at h ⊢
    rw [List.map_cons]
    split_ifs at h ⊢ with hp ht
    · exact congrArg (c.receive msg :: ·) (ih h)
    · exact congrArg (c :: ·) (ih h)

/-- What a dispatch does with one slot. -/
structure Followed (name : Fin n) (msg : SignalMessage n V) (c c' : Connection n V) : Prop where
  name_eq : c'.name = c.name
  answers_eq : c'.answers = c.answers
  served : c' = c ∨ c.hears name ∧ c.told msg = true ∧ c' = c.receive msg

theorem Served.followed {name : Fin n} {msg : SignalMessage n V} {c c₁ c₂ : Connection n V}
    (h₁ : Served msg (fun c => c.name = some name) c c₁) (h₂ : Served msg (fun c => c.name = none) c₁ c₂) :
    Followed name msg c c₂ := by
  cases h₁ with
  | told hp ht =>
    cases h₂ with
    | told hp' ht' =>
      -- No slot is in both loops.
      rw [decide_eq_true_eq] at hp hp'
      cases hp.symm.trans hp'
    | passed => exact ⟨rfl, rfl, .inr ⟨.inl (of_decide_eq_true hp), ht, rfl⟩⟩
  | passed =>
    cases h₂ with
    | told hp ht => exact ⟨rfl, rfl, .inr ⟨.inr (of_decide_eq_true hp), ht, rfl⟩⟩
    | passed => exact ⟨rfl, rfl, .inl rfl⟩

theorem forall₂_followed {name : Fin n} {msg : SignalMessage n V} {slots slots₁ slots₂ : List (Connection n V)}
    (h₁ : List.Forall₂ (Served msg fun c => c.name = some name) slots slots₁)
    (h₂ : List.Forall₂ (Served msg fun c => c.name = none) slots₁ slots₂) :
    List.Forall₂ (Followed name msg) slots slots₂ := by
  induction h₁ generalizing slots₂ with
  | nil =>
    cases h₂
    exact .nil
  | cons h _ ih =>
    cases h₂ with
    | cons h' hs' => exact .cons (h.followed h') (ih hs')

theorem dispatch_followed (s : CachingSignalStore n V) (name : Fin n) (msg : SignalMessage n V) :
    List.Forall₂ (Followed name msg) s.slots (s.dispatch name msg).1.slots := by
  have hnamed := emitTo_served msg (fun c => c.name = some name) s.slots
  unfold dispatch
  dsimp only
  split_ifs
  · exact forall₂_followed hnamed (emitTo_served ..)
  · exact forall₂_followed hnamed (List.forall₂_same.mpr fun _ _ => .passed)

theorem dispatch_returned_iff {s : CachingSignalStore n V} {name : Fin n} {msg : SignalMessage n V} :
    (s.dispatch name msg).2 = true ↔ ∀ c ∈ s.slots, c.hears name → c.told msg = true := by
  have hnamed : (Connection.emitTo msg (fun c => c.name = some name) s.slots).2 = true ↔
      ∀ c ∈ s.slots, c.name = some name → c.told msg = true := by
    rw [emitTo_returned_iff]
    simp only [decide_eq_true_eq]
  unfold dispatch
  dsimp only
  by_cases h : (Connection.emitTo msg (fun c => c.name = some name) s.slots).2 = true
  · rw [if_pos h, emitTo_returned_iff, emitTo_of_returned h, List.forall_mem_map]
    refine forall₂_congr fun c hc => ?_
    by_cases hn : c.name = some name
    · have ht := hnamed.mp h c hc hn
      simp [hn, ht, Connection.receive]
    · simp [hn, Connection.hears]
  · rw [if_neg h]
    exact iff_of_false h fun hall => h (hnamed.mpr fun c hc hn => hall c hc (.inl hn))

/-- A dispatch that returns has told every slot that hears the signal. -/
theorem dispatch_of_returned {s : CachingSignalStore n V} {name : Fin n} {msg : SignalMessage n V}
    (h : (s.dispatch name msg).2 = true) :
    (s.dispatch name msg).1.slots = s.slots.map fun c => if c.hears name then c.receive msg else c := by
  unfold dispatch at h ⊢
  dsimp only at h ⊢
  by_cases hn : (Connection.emitTo msg (fun c => c.name = some name) s.slots).2 = true
  · rw [if_pos hn] at h ⊢
    rw [emitTo_of_returned h, emitTo_of_returned hn, List.map_map]
    refine List.map_congr_left fun c _ => ?_
    by_cases hc : c.name = some name
    · simp [hc, Connection.hears, Connection.receive]
    · simp [hc, Connection.hears]
  · rw [if_neg hn] at h
    exact absurd h hn

theorem emit_unset {s : CachingSignalStore n V} {msg : SignalMessage n V} (hm : msg.signal = none) : s.emit msg = (s, true) := by
  unfold emit
  rw [hm]

theorem emit_selected {s : CachingSignalStore n V} {msg : SignalMessage n V} {name : Fin n} {v : V}
    (hm : msg.signal = some (name, v)) :
    s.emit msg = (s.updateCache name msg.mappingControls.1 msg.mappingControls.2 msg).dispatch name msg := by
  unfold emit
  rw [hm]

theorem emit_returned_iff {s : CachingSignalStore n V} {msg : SignalMessage n V} : (s.emit msg).2 = true ↔ s.Heard msg := by
  cases hm : msg.signal with
  | none =>
    rw [emit_unset hm]
    exact iff_of_true rfl fun e he => by simp [hm] at he
  | some e =>
    rw [emit_selected hm, dispatch_returned_iff]
    simp only [Heard, hm, Option.mem_some_iff, forall_eq']
    rfl

/-- Who can be told stays the same. -/
theorem heard_emit {s : CachingSignalStore n V} {msg msg' : SignalMessage n V} : (s.emit msg).1.Heard msg' ↔ s.Heard msg' := by
  cases hm : msg.signal with
  | none => rw [emit_unset hm]
  | some e =>
    rw [emit_selected hm]
    have hall : ∀ {slots slots' : List (Connection n V)} (name' : Fin n), List.Forall₂ (Followed e.1 msg) slots slots' →
        ((∀ c ∈ slots', c.hears name' → c.told msg' = true) ↔ ∀ c ∈ slots, c.hears name' → c.told msg' = true) := by
      intro slots slots' name' hf
      induction hf with
      | nil => exact Iff.rfl
      | cons h _ ih =>
        rw [List.forall_mem_cons, List.forall_mem_cons, ih]
        refine and_congr_left fun _ => ?_
        unfold Connection.hears Connection.told
        rw [h.name_eq, h.answers_eq]
    exact forall₂_congr fun e' _ => hall e'.1 (dispatch_followed _ e.1 msg)

/-- A slot that hears the signal of a message that returns is told. -/
theorem slots_emit {s : CachingSignalStore n V} {msg : SignalMessage n V} (h : (s.emit msg).2 = true) {c' : Connection n V}
    (hc' : c' ∈ (s.emit msg).1.slots) :
    ∃ c ∈ s.slots, c'.name = c.name ∧
      ∀ name, c.hears name → folded name c'.received = follow name (folded name c.received) msg := by
  cases hm : msg.signal with
  | none =>
    rw [emit_unset hm] at hc'
    exact ⟨c', hc', rfl, fun name _ => (follow_unset hm _).symm⟩
  | some e =>
    obtain ⟨name', v⟩ := e
    rw [emit_selected hm] at h hc'
    rw [dispatch_of_returned h] at hc'
    obtain ⟨c, hc, rfl⟩ := List.mem_map.mp hc'
    refine ⟨c, hc, ?_⟩
    by_cases hh : c.hears name'
    · rw [if_pos hh]
      exact ⟨rfl, fun name _ => folded_append name c.received msg⟩
    · rw [if_neg hh]
      refine ⟨rfl, fun name hn => (follow_of_ne hm ?_ _).symm⟩
      rintro rfl
      exact hh hn

/-- A slot that cannot be told of a message stays as it is. -/
theorem untold_emit {s : CachingSignalStore n V} {msg : SignalMessage n V} {name : Fin n} {v : V} (hm : msg.signal = some (name, v))
    {c : Connection n V} (hc : c ∈ s.slots) (ht : ¬ c.told msg = true) : c ∈ (s.emit msg).1.slots := by
  have hfollowed := dispatch_followed (s.updateCache name msg.mappingControls.1 msg.mappingControls.2 msg) name msg
  obtain ⟨c', hc', hf, -⟩ := exists_of_forall₂ hfollowed hfollowed hc
  rw [emit_selected hm]
  rcases hf.served with rfl | ⟨-, htold, -⟩
  · exact hc'
  · exact absurd htold ht

end

theorem mappingControls_construct (action : MappingAction) (key : String) (name : Fin n) (value : Option V) :
    (SignalMessage.construct action key name value).mappingControls = (action, if key = "" then none else some key) :=
  rfl

section
variable [MessageDissecter n V]

/-- A message is told to everyone who hears it, if they can be told. -/
theorem notified_emit_iff {s : CachingSignalStore n V} {msg : SignalMessage n V} {name : Fin n} {v : V} {action : MappingAction}
    {key : String} (hm : msg.signal = some (name, v)) (hc : msg.mappingControls = (action, some key)) :
    s.Notified (s.emit msg).1 name action key ↔ s.Heard msg := by
  constructor
  · intro h
    simp only [Heard, hm, Option.mem_some_iff, forall_eq']
    intro c hc hh
    rw [emit_selected hm] at h
    obtain ⟨c', -, hf, -, hnotified⟩ := exists_of_forall₂ (dispatch_followed _ name msg) h hc
    rcases hf.served with rfl | ⟨-, ht, -⟩
    · rw [if_pos hh] at hnotified
      obtain ⟨msg', happ, -⟩ := hnotified
      exact absurd happ.symm (by simp)
    · exact ht
  · intro h
    have hreturned := emit_returned_iff.mpr h
    unfold Notified
    rw [emit_selected hm] at hreturned ⊢
    rw [dispatch_of_returned hreturned]
    show List.Forall₂ _ s.slots (s.slots.map _)
    rw [List.forall₂_map_right_iff]
    refine List.forall₂_same.mpr fun c _ => ?_
    by_cases hh : c.hears name
    · rw [if_pos hh, if_pos hh]
      exact ⟨rfl, msg, rfl, hc, by rw [hm]; rfl⟩
    · rw [if_neg hh, if_neg hh]
      exact ⟨rfl, rfl⟩

end

/-- A message is cached under its own signal and key. -/
def Filed (name : Fin n) (e : Option String × SignalMessage n V) : Prop :=
  (∃ v, e.2.signal = some (name, v)) ∧ e.2.mappingControls.2 = e.1 ∧ e.2.mappingControls.1 ≠ .removal

theorem Filed.key {name : Fin n} {e : Option String × SignalMessage n V} (h : Filed name e) : e.1 ≠ some "" := by
  rw [← h.2.1]
  unfold SignalMessage.mappingControls
  split
  · dsimp only
    split_ifs with hk
    · nofun
    · exact fun he => hk (Option.some.inj he)
  · nofun

theorem derivedAction_ne_removal [DecidableEq V] {v : V} {cachedValue : Option V} : derivedAction (some v) cachedValue ≠ some .removal := by
  unfold derivedAction
  cases cachedValue with
  | none => nofun
  | some c =>
    dsimp only
    split_ifs <;> nofun

section
variable [Inhabited V] [MessageDissecter n V] {s : CachingSignalStore n V}

omit [MessageDissecter n V] in
theorem get_getCachedMap (name : Fin n) (key : Option String) :
    (s.getCachedMap name).get key = s.getCachedSignal name key := Dict.get_mapValues _ _ _

/-- The cache follows what is emitted. -/
theorem getCachedMap_emit (msg : SignalMessage n V) (name : Fin n) :
    (s.emit msg).1.getCachedMap name = follow name (s.getCachedMap name) msg := by
  cases hm : msg.signal with
  | none => rw [emit_unset hm, follow_unset hm]
  | some e =>
    obtain ⟨name', v⟩ := e
    rw [emit_selected hm]
    show Dict.mapValues _ (Function.update s.cache name' _ name) = _
    by_cases hn : name' = name
    · subst hn
      have hfield : msg.field name' = v := by
        unfold SignalMessage.field
        rw [hm]
        exact if_pos rfl
      rw [Function.update_self]
      unfold follow
      rw [hm]
      dsimp only
      rw [if_pos rfl]
      split_ifs with hr
      · exact Dict.mapValues_pop ..
      · rw [Dict.mapValues_set, hfield]
        rfl
    · rw [follow_of_ne hm hn, Function.update_of_ne (Ne.symm hn)]
      rfl

theorem get_emit_construct (action : MappingAction) (key : String) (name : Fin n) (v : V) (k : Option String) :
    ((s.emit (.construct action key name (some v))).1.getCachedMap name).get k =
      if k = (if key = "" then none else some key) then (if action = .removal then none else some v)
      else (s.getCachedMap name).get k := by
  have hfollow : follow name (s.getCachedMap name) (.construct action key name (some v)) =
      if action = .removal then (s.getCachedMap name).pop (if key = "" then none else some key)
      else (s.getCachedMap name).set (if key = "" then none else some key) v := if_pos rfl
  rw [getCachedMap_emit, hfollow]
  by_cases ha : action = .removal
  · rw [if_pos ha, if_pos ha, Dict.get_pop]
  · rw [if_neg ha, if_neg ha, Dict.get_set]

/-! ## Cache and slots in step -/

structure InStep (s : CachingSignalStore n V) : Prop where
  filed : ∀ name, ∀ e ∈ (s.cache name).items, Filed name e
  followed : ∀ c ∈ s.slots, ∀ name, c.hears name → folded name c.received = s.getCachedMap name

theorem InStep.emit (h : s.InStep) {msg : SignalMessage n V} (hreturned : (s.emit msg).2 = true) : (s.emit msg).1.InStep := by
  constructor
  · cases hm : msg.signal with
    | none =>
      rw [emit_unset hm]
      exact h.filed
    | some e =>
      obtain ⟨name', v⟩ := e
      rw [emit_selected hm]
      intro name e he
      change e ∈ (Function.update s.cache name' _ name).items at he
      by_cases hn : name = name'
      · subst hn
        rw [Function.update_self] at he
        split_ifs at he with hr
        · exact h.filed name e (List.mem_filter.mp he).1
        · rcases Dict.mem_setItems he with rfl | he
          · exact ⟨⟨v, hm⟩, rfl, hr⟩
          · exact h.filed name e he
      · rw [Function.update_of_ne hn] at he
        exact h.filed name e he
  · intro c' hc' name hh
    obtain ⟨c, hc, hname, hfold⟩ := slots_emit hreturned hc'
    have hh : c.hears name := by
      unfold Connection.hears at *
      rwa [← hname]
    rw [hfold name hh, getCachedMap_emit, h.followed c hc name hh]

omit [MessageDissecter n V] in
/-- What is replayed for a signal gives its map. -/
theorem InStep.replayed (h : s.InStep) (name : Fin n) (d : Dict (Option String) V) :
    (s.cachedMessages name).foldl (follow name) d =
      (s.getCachedMap name).items.foldl (fun d e => d.set e.1 e.2) d := by
  have hfiled := h.filed name
  unfold cachedMessages getCachedMap Dict.mapValues
  dsimp only
  generalize (s.cache name).items = l at hfiled
  induction l generalizing d with
  | nil => rfl
  | cons e l ih =>
    obtain ⟨⟨v, hm⟩, hkey, hr⟩ := hfiled e List.mem_cons_self
    have hfield : e.2.field name = v := by
      unfold SignalMessage.field
      rw [hm]
      exact if_pos rfl
    have hstep : follow name d e.2 = d.set e.1 v := by
      unfold follow
      rw [hm]
      dsimp only
      rw [if_pos rfl, if_neg hr, hkey]
    rw [List.map_cons, List.foldl_cons, List.map_cons, List.foldl_cons, hstep, hfield]
    exact ih _ fun e he => hfiled e (List.mem_cons_of_mem _ he)

omit [MessageDissecter n V] in
theorem InStep.not_replayed (h : s.InStep) {name name' : Fin n} (hn : name' ≠ name) (d : Dict (Option String) V) :
    (s.cachedMessages name').foldl (follow name) d = d := by
  have hfiled := h.filed name'
  unfold cachedMessages
  generalize (s.cache name').items = l at hfiled
  induction l with
  | nil => rfl
  | cons e l ih =>
    obtain ⟨⟨v, hm⟩, -, -⟩ := hfiled e List.mem_cons_self
    rw [List.map_cons, List.foldl_cons, follow_of_ne hm hn]
    exact ih fun e he => hfiled e (List.mem_cons_of_mem _ he)

omit [MessageDissecter n V] in
/-- Among all signals, each is replayed once. -/
theorem InStep.replayed_all (h : s.InStep) (name : Fin n) {names : List (Fin n)} (hn : names.Nodup)
    (d : Dict (Option String) V) :
    (names.flatMap s.cachedMessages).foldl (follow name) d =
      if name ∈ names then (s.cachedMessages name).foldl (follow name) d else d := by
  induction names generalizing d with
  | nil => rfl
  | cons name' names ih =>
    obtain ⟨hno, hn⟩ := List.nodup_cons.mp hn
    rw [List.flatMap_cons, List.foldl_append, ih hn]
    by_cases he : name' = name
    · subst he
      rw [if_neg hno, if_pos List.mem_cons_self]
    · rw [h.not_replayed he]
      have hmem : name ∈ name' :: names ↔ name ∈ names := by
        rw [List.mem_cons]
        exact or_iff_right (Ne.symm he)
      simp only [hmem]

/-- A new slot that is told all that is replayed to it. -/
theorem InStep.connect (h : s.InStep) {name : Option (Fin n)} {answers : Bool} {msgs : List (SignalMessage n V)}
    (htold : ∀ msg ∈ msgs, (answers && dissects msg) = true)
    (hmsgs : ∀ name', name = some name' ∨ name = none → folded name' msgs = s.getCachedMap name') :
    (s.connect name answers msgs).1.InStep := by
  have hall : msgs.takeWhile (fun msg => (⟨name, [], answers⟩ : Connection n V).told msg) = msgs :=
    List.takeWhile_eq_self_iff.mpr htold
  refine ⟨h.filed, fun c hc name' hh => ?_⟩
  rcases List.mem_append.mp hc with hc | hc
  · exact h.followed c hc name' hh
  · rw [List.mem_singleton.mp hc] at hh ⊢
    rw [hall]
    exact hmsgs name' hh

theorem InStep.connectSignal (h : s.InStep) (name : Fin n) {answers : Bool}
    (htold : ∀ msg ∈ s.cachedMessages name, (answers && dissects msg) = true) : (s.connectSignal name answers).1.InStep := by
  refine h.connect htold fun name' hh => ?_
  rcases hh with hh | hh
  · rw [← Option.some.inj hh]
    exact (h.replayed name .empty).trans (Dict.foldl_set_empty _)
  · cases hh

theorem InStep.connectAll (h : s.InStep) {answers : Bool}
    (htold : ∀ name, ∀ msg ∈ s.cachedMessages name, (answers && dissects msg) = true) : (s.connectAll answers).1.InStep := by
  refine h.connect (fun msg hmsg => ?_) fun name _ => ?_
  · obtain ⟨name, -, hmem⟩ := List.mem_flatMap.mp hmsg
    exact htold name msg hmem
  · have hall := h.replayed_all name (List.nodup_finRange n) .empty
    rw [if_pos (List.mem_finRange name), h.replayed, Dict.foldl_set_empty] at hall
    exact hall

omit [MessageDissecter n V] in
theorem InStep.disconnect (h : s.InStep) (name : Option (Fin n)) : (s.disconnect name).InStep :=
  ⟨h.filed, fun c hc => h.followed c (List.mem_filter.mp hc).1⟩

variable [DecidableEq V]

theorem InStep.emitMapping (h : s.InStep) {name : Fin n} {key : String} {value : Option V} {action : Option MappingAction}
    (hreturned : (s.emitMapping name key value action).2 = true) : (s.emitMapping name key value action).1.InStep := by
  unfold CachingSignalStore.emitMapping at hreturned ⊢
  dsimp only at hreturned ⊢
  split at hreturned
  · exact h.emit hreturned
  · exact h

theorem InStep.emitRemoval {name : Fin n} {updatedMap : Dict String V} {emptyValue : Option V} (e : Option String × V)
    (s : CachingSignalStore n V) (h : s.InStep) (hreturned : (emitRemoval name updatedMap emptyValue e s).2 = true) :
    (emitRemoval name updatedMap emptyValue e s).1.InStep := by
  unfold CachingSignalStore.emitRemoval at hreturned ⊢
  split_ifs at hreturned ⊢
  · exact h
  · exact h.emitMapping hreturned

theorem InStep.emitUpdated {name : Fin n} (e : String × V) (s : CachingSignalStore n V) (h : s.InStep)
    (hreturned : (emitUpdated name e s).2 = true) : (emitUpdated name e s).1.InStep := h.emitMapping hreturned

theorem InStep.emitMapUpdate (h : s.InStep) {name : Fin n} {updatedMap : Dict String V} {emptyValue : Option V}
    (hreturned : (s.emitMapUpdate name updatedMap emptyValue).2 = true) :
    (s.emitMapUpdate name updatedMap emptyValue).1.InStep := by
  unfold CachingSignalStore.emitMapUpdate at hreturned ⊢
  dsimp only at hreturned ⊢
  split_ifs at hreturned ⊢ with hremoved
  · exact each_induction InStep.emitUpdated (each_induction InStep.emitRemoval h hremoved) hreturned
  · exact absurd hreturned hremoved

/-! ## One call -/

theorem emitMapping_derived {key : String} (hkey : key ≠ "") (name : Fin n) (value : Option V) :
    s.emitMapping name key value none =
      match derivedAction value (s.getCachedSignal name (some key)) with
      | some a => s.emit (.construct a key name value)
      | none => (s, true) := by
  unfold emitMapping
  rw [if_pos ⟨hkey, rfl⟩]

theorem emitMapping_given (name : Fin n) (key : String) (value : Option V) (a : MappingAction) :
    s.emitMapping name key value (some a) = s.emit (.construct a key name value) := by
  unfold emitMapping
  rw [if_neg fun h => Option.some_ne_none _ h.2]

omit [Inhabited V] [MessageDissecter n V] in
/-- A value that is emitted is not the cached one. -/
theorem cached_ne_of_derived {v : V} {cachedValue : Option V} {action : MappingAction}
    (h : derivedAction (some v) cachedValue = some action) : cachedValue ≠ some v := by
  rintro rfl
  simp [derivedAction] at h

theorem emitUpdated_returned_iff {name : Fin n} {e : String × V} : (emitUpdated name e s).2 = true ↔ s.HeardValue name e.1 e.2 := by
  unfold emitUpdated HeardValue
  by_cases hkey : e.1 = ""
  · refine iff_of_true ?_ fun h => absurd hkey h
    unfold emitMapping
    rw [if_neg fun h => h.1 hkey]
  · rw [emitMapping_derived hkey, forall_prop_of_true hkey]
    cases derivedAction (some e.2) (s.getCachedSignal name (some e.1)) with
    | none => exact iff_of_true rfl nofun
    | some a =>
      simp only [Option.mem_some_iff, forall_eq']
      exact emit_returned_iff

theorem emitRemoval_returned_iff {name : Fin n} {updatedMap : Dict String V} {emptyValue : Option V} {e : Option String × V} :
    (emitRemoval name updatedMap emptyValue e s).2 = true ↔ (e.1.bind updatedMap.get = none →
      s.Heard (.construct .removal (e.1.getD "") name (some (emptyValue.getD e.2)))) := by
  unfold emitRemoval
  split_ifs with hin
  · exact iff_of_true rfl fun hno => by simp [hno] at hin
  · rw [forall_prop_of_true (Option.not_isSome_iff_eq_none.mp hin), emitMapping_given]
    exact emit_returned_iff

/-- With a value given, the key has it afterwards. -/
theorem get_emitMapping {key : String} (hkey : key ≠ "") (name : Fin n) (v : V) (k : Option String) :
    ((s.emitMapping name key (some v) none).1.getCachedMap name).get k =
      if k = some key then some v else (s.getCachedMap name).get k := by
  rw [emitMapping_derived hkey]
  cases hd : derivedAction (some v) (s.getCachedSignal name (some key)) with
  | none =>
    have hsame : s.getCachedSignal name (some key) = some v := by
      unfold derivedAction at hd
      cases hc : s.getCachedSignal name (some key) with
      | none =>
        rw [hc] at hd
        cases hd
      | some c =>
        rw [hc] at hd
        dsimp only at hd
        by_cases hv : v = c
        · rw [hv]
        · rw [if_pos hv] at hd
          cases hd
    dsimp only
    by_cases hk : k = some key
    · rw [if_pos hk, hk, get_getCachedMap, hsame]
    · rw [if_neg hk]
  | some a =>
    have ha : a ≠ .removal := by
      rintro rfl
      exact derivedAction_ne_removal hd
    dsimp only
    rw [get_emit_construct, if_neg hkey, if_neg ha]

theorem tabled_iff {key : String} (hkey : key ≠ "") (name : Fin n) (value : Option V) :
    s.Tabled name key value ↔
      (value.isSome ∨ s.getCachedSignal name (some key) = none) ∧ ∀ v ∈ value, s.HeardValue name key v := by
  have hnotified : ∀ (v : V) (a : MappingAction),
      s.Notified (s.emit (.construct a key name (some v))).1 name a key ↔ s.Heard (.construct a key name (some v)) := fun v a =>
    notified_emit_iff rfl (by rw [mappingControls_construct, if_neg hkey])
  have hvalue : ∀ v : V, (s.emitMapping name key (some v) none).1.getCachedSignal name (some key) = some v := by
    intro v
    rw [← get_getCachedMap, get_emitMapping hkey, if_pos rfl]
  have hemit := fun value => emitMapping_derived (s := s) hkey name value
  unfold Tabled
  dsimp only
  cases value with
  | none =>
    specialize hemit none
    cases hc : s.getCachedSignal name (some key) with
    | none =>
      rw [hc] at hemit
      exact iff_of_true (congrArg Prod.fst hemit) ⟨.inr rfl, nofun⟩
    | some c =>
      -- The message for the removal selects no signal.
      rw [hc] at hemit
      have hsame : s.emitMapping name key none none = (s, true) := hemit.trans (emit_unset rfl)
      dsimp only
      rw [hsame, hc]
      exact iff_of_false (fun h => by cases h.1) (by simp)
  | some v =>
    specialize hemit (some v)
    simp only [Option.isSome_some, true_or, true_and, Option.mem_some_iff, forall_eq', HeardValue, forall_prop_of_true hkey]
    cases hc : s.getCachedSignal name (some key) with
    | none =>
      rw [hc] at hemit
      simp only [derivedAction, Option.mem_some_iff, forall_eq']
      rw [and_iff_right (hvalue v), hemit]
      exact hnotified v _
    | some c =>
      rw [hc] at hemit
      dsimp only [derivedAction] at hemit ⊢
      by_cases hv : v = c
      · rw [if_neg (not_not.mpr hv)] at hemit ⊢
        rw [if_pos hv]
        exact iff_of_true (congrArg Prod.fst hemit) nofun
      · rw [if_pos hv] at hemit ⊢
        rw [if_neg hv, and_iff_right (hvalue v), hemit]
        simp only [Option.mem_some_iff, forall_eq']
        exact hnotified v _

/-! ## A whole map -/

theorem heard_emitMapping {name : Fin n} {key : String} {value : Option V} {action : Option MappingAction} {msg : SignalMessage n V} :
    (s.emitMapping name key value action).1.Heard msg ↔ s.Heard msg := by
  unfold emitMapping
  dsimp only
  split
  · exact heard_emit
  · exact Iff.rfl

theorem heard_emitRemoval {name : Fin n} {updatedMap : Dict String V} {emptyValue : Option V} {e : Option String × V}
    {msg : SignalMessage n V} : (emitRemoval name updatedMap emptyValue e s).1.Heard msg ↔ s.Heard msg := by
  unfold emitRemoval
  split_ifs
  · exact Iff.rfl
  · exact heard_emitMapping

theorem removals_returned_iff {name : Fin n} {updatedMap : Dict String V} {emptyValue : Option V} {l : List (Option String × V)} :
    (each (emitRemoval name updatedMap emptyValue) l s).2 = true ↔ ∀ e ∈ l, e.1.bind updatedMap.get = none →
      s.Heard (.construct .removal (e.1.getD "") name (some (emptyValue.getD e.2))) := by
  induction l generalizing s with
  | nil => exact iff_of_true rfl (List.forall_mem_nil _)
  | cons e l ih =>
    rw [List.forall_mem_cons, ← emitRemoval_returned_iff, each]
    by_cases he : (emitRemoval name updatedMap emptyValue e s).2 = true
    · rw [if_pos he, and_iff_right he, ih]
      exact forall₂_congr fun _ _ => forall_congr' fun _ => heard_emitRemoval
    · rw [if_neg he]
      exact iff_of_false he fun h => he h.1

theorem heardValue_congr {s s' : CachingSignalStore n V} {name : Fin n} {key : String}
    (hcached : s'.getCachedSignal name (some key) = s.getCachedSignal name (some key)) (hheard : ∀ msg, s'.Heard msg ↔ s.Heard msg)
    (v : V) : s'.HeardValue name key v ↔ s.HeardValue name key v := by
  unfold HeardValue
  rw [hcached]
  exact forall_congr' fun _ => forall₂_congr fun _ _ => hheard _

theorem getCachedSignal_emitUpdated {name : Fin n} {e : String × V} {key : String} (hne : e.1 ≠ key) :
    (emitUpdated name e s).1.getCachedSignal name (some key) = s.getCachedSignal name (some key) := by
  unfold emitUpdated
  by_cases hkey : e.1 = ""
  · unfold emitMapping
    rw [if_neg fun h => h.1 hkey]
  · rw [← get_getCachedMap, get_emitMapping hkey, if_neg fun h => hne (Option.some.inj h).symm, get_getCachedMap]

theorem updates_returned_iff {name : Fin n} {l : List (String × V)} (hn : (l.map Prod.fst).Nodup) :
    (each (emitUpdated name) l s).2 = true ↔ ∀ e ∈ l, s.HeardValue name e.1 e.2 := by
  induction l generalizing s with
  | nil => exact iff_of_true rfl (List.forall_mem_nil _)
  | cons e l ih =>
    obtain ⟨hno, hn⟩ := List.nodup_cons.mp hn
    rw [List.forall_mem_cons, ← emitUpdated_returned_iff, each]
    by_cases he : (emitUpdated name e s).2 = true
    · rw [if_pos he, and_iff_right he, ih hn]
      refine forall₂_congr fun e' he' => heardValue_congr ?_ (fun _ => heard_emitMapping) _
      exact getCachedSignal_emitUpdated fun heq => hno (heq ▸ List.mem_map_of_mem he')
    · rw [if_neg he]
      exact iff_of_false he fun h => he h.1

/-- The first loop takes away what the new map does not have. -/
theorem get_foldl_emitRemoval (name : Fin n) (updatedMap : Dict String V) (emptyValue : Option V)
    {l : List (Option String × V)} (hl : ∀ e ∈ l, e.1 ≠ some "") (s : CachingSignalStore n V) (k : Option String) :
    ((l.foldl (fun s e => (emitRemoval name updatedMap emptyValue e s).1) s).getCachedMap name).get k =
      if k ∈ l.map Prod.fst ∧ k.bind updatedMap.get = none then none else (s.getCachedMap name).get k := by
  induction l generalizing s with
  | nil => simp
  | cons e l ih =>
    rw [List.foldl_cons, ih (fun e he => hl e (List.mem_cons_of_mem _ he))]
    have hkey : (if e.1.getD "" = "" then none else some (e.1.getD "")) = e.1 := by
      have := hl e List.mem_cons_self
      cases h : e.1 with
      | none => rfl
      | some key =>
        rw [h] at this
        exact if_neg fun he => this (congrArg some he)
    have hstep : ((emitRemoval name updatedMap emptyValue e s).1.getCachedMap name).get k =
        if k = e.1 ∧ k.bind updatedMap.get = none then none else (s.getCachedMap name).get k := by
      unfold emitRemoval
      by_cases hin : (e.1.bind updatedMap.get).isSome
      · rw [if_pos hin, if_neg]
        rintro ⟨rfl, hno⟩
        rw [hno] at hin
        cases hin
      · have hno : e.1.bind updatedMap.get = none := Option.not_isSome_iff_eq_none.mp hin
        rw [if_neg hin, emitMapping_given, get_emit_construct, hkey, if_pos rfl]
        by_cases hk : k = e.1
        · subst hk
          rw [if_pos rfl, if_pos ⟨rfl, hno⟩]
        · rw [if_neg hk, if_neg fun h => hk h.1]
    rw [hstep, List.map_cons]
    by_cases hno : k.bind updatedMap.get = none
    · simp only [hno, and_true, List.mem_cons]
      by_cases hm : k ∈ l.map Prod.fst
      · rw [if_pos hm, if_pos (.inr hm)]
      · rw [if_neg hm]
        simp only [hm, or_false]
    · simp only [hno, and_false, if_false]

/-- The second loop brings in what it has. -/
theorem get_foldl_emitUpdated (name : Fin n) {l : List (String × V)} (hl : ∀ e ∈ l, e.1 ≠ "")
    (hn : (l.map Prod.fst).Nodup) (s : CachingSignalStore n V) (k : Option String) :
    ((l.foldl (fun s e => (emitUpdated name e s).1) s).getCachedMap name).get k =
      (k.bind (Dict.get ⟨l, hn⟩)).or ((s.getCachedMap name).get k) := by
  induction l generalizing s with
  | nil =>
    cases k with
    | none => rfl
    | some key => rfl
  | cons e l ih =>
    obtain ⟨hno, hn'⟩ := List.nodup_cons.mp hn
    rw [List.foldl_cons, ih (fun e he => hl e (List.mem_cons_of_mem _ he)) hn', emitUpdated,
      get_emitMapping (hl e List.mem_cons_self)]
    cases k with
    | none => rfl
    | some key =>
      have hget : Dict.get ⟨e :: l, hn⟩ key = if e.1 = key then some e.2 else Dict.get ⟨l, hn'⟩ key := by
        unfold Dict.get
        by_cases he : e.1 = key <;> simp [he]
      show (Dict.get ⟨l, hn'⟩ key).or _ = (Dict.get ⟨e :: l, hn⟩ key).or _
      rw [hget]
      by_cases he : e.1 = key
      · subst he
        have hnone : Dict.get ⟨l, hn'⟩ e.1 = none := by
          rw [← Option.not_isSome_iff_eq_none, Dict.get_isSome]
          exact hno
        rw [hnone, if_pos rfl, if_pos rfl]
        rfl
      · rw [if_neg he, if_neg fun h => he (Option.some.inj h).symm]

omit [MessageDissecter n V] [DecidableEq V] in
theorem InStep.cached_keys (h : s.InStep) (name : Fin n) : ∀ e ∈ (s.getCachedMap name).items, e.1 ≠ some "" := by
  intro e he
  obtain ⟨e', he', rfl⟩ := List.mem_map.mp he
  exact (h.filed name e' he').key

theorem emitMapUpdate_returned_iff (h : s.InStep) {name : Fin n} {updatedMap : Dict String V} {emptyValue : Option V} :
    (s.emitMapUpdate name updatedMap emptyValue).2 = true ↔ s.HeardMap name updatedMap emptyValue := by
  unfold HeardMap
  rw [← removals_returned_iff, emitMapUpdate]
  by_cases hremoved : (each (emitRemoval name updatedMap emptyValue) (s.getCachedMap name).items s).2 = true
  · rw [if_pos hremoved, and_iff_right hremoved, updates_returned_iff updatedMap.nodup]
    refine forall₂_congr fun e he => heardValue_congr ?_ ?_ _
    · have hin : updatedMap.get e.1 = some e.2 := Dict.get_eq_some.mpr he
      rw [each_of_returned hremoved, ← get_getCachedMap, get_foldl_emitRemoval _ _ _ (h.cached_keys name), if_neg, get_getCachedMap]
      rintro ⟨-, hno⟩
      cases hin.symm.trans hno
    · exact each_induction (P := fun s' => ∀ msg, s'.Heard msg ↔ s.Heard msg)
        (fun _ _ hs _ msg => heard_emitRemoval.trans (hs msg)) (fun _ => Iff.rfl) hremoved
  · rw [if_neg hremoved]
    exact iff_of_false hremoved fun hheard => hremoved hheard.1

theorem InStep.call (h : s.InStep) {c : Call n V} (hc : c.Heard s) : (s.call c).1.InStep := by
  cases c with
  | connectSignal name answers => exact h.connectSignal name hc
  | connectAll answers => exact h.connectAll hc
  | disconnect name => exact h.disconnect name
  | emit msg => exact h.emit (emit_returned_iff.mpr hc)
  | emitEvent name value => exact h.emit (emit_returned_iff.mpr hc)
  | emitMapping name key value action =>
    refine h.emitMapping ?_
    cases action with
    | some a =>
      rw [emitMapping_given]
      cases value <;> exact emit_returned_iff.mpr (hc a rfl)
    | none =>
      cases value with
      | none =>
        -- Without a value the message selects no signal.
        unfold CachingSignalStore.emitMapping
        dsimp only
        split
        · rfl
        · rfl
      | some v => exact (emitUpdated_returned_iff (e := (key, v))).mpr hc
  | emitMapUpdate name updatedMap emptyValue => exact h.emitMapUpdate ((emitMapUpdate_returned_iff h).mpr hc)

theorem Reachable.inStep (h : s.Reachable) : s.InStep := by
  induction h with
  | init => exact ⟨nofun, nofun⟩
  | call _ hc ih => exact ih.call hc

theorem get_emitMapUpdate (h : s.InStep) {name : Fin n} {updatedMap : Dict String V} (hkeys : ∀ e ∈ updatedMap.items, e.1 ≠ "")
    {emptyValue : Option V} (hreturned : (s.emitMapUpdate name updatedMap emptyValue).2 = true) (k : Option String) :
    ((s.emitMapUpdate name updatedMap emptyValue).1.getCachedMap name).get k = k.bind updatedMap.get := by
  unfold emitMapUpdate at hreturned ⊢
  dsimp only at hreturned ⊢
  by_cases hremoved : (each (emitRemoval name updatedMap emptyValue) (s.getCachedMap name).items s).2 = true
  · rw [if_pos hremoved] at hreturned ⊢
    rw [each_of_returned hreturned, get_foldl_emitUpdated name hkeys updatedMap.nodup, each_of_returned hremoved,
      get_foldl_emitRemoval name updatedMap emptyValue (h.cached_keys name)]
    cases hk : k.bind updatedMap.get with
    | some v => rfl
    | none =>
      rw [Option.none_or]
      cases hget : (s.getCachedMap name).get k with
      | none => rw [ite_self]
      | some v =>
        have hin : k ∈ (s.getCachedMap name).items.map Prod.fst := Dict.get_isSome.mp (by rw [hget]; rfl)
        exact if_pos ⟨hin, rfl⟩
  · rw [if_neg hremoved] at hreturned
    exact absurd hreturned hremoved

/-- A slot that hears the signal knows another map. -/
def Behind (s : CachingSignalStore n V) (name : Fin n) (updatedMap : Dict String V) : Prop :=
  ∃ c ∈ s.slots, c.hears name ∧ ∃ k, (folded name c.received).get k ≠ k.bind updatedMap.get

omit [DecidableEq V] in
/-- A message that raises leaves the slot that was not told with what was cached. -/
theorem behind_of_raised (h : s.InStep) {name : Fin n} {updatedMap : Dict String V} {action : MappingAction} {key : String} {v : V}
    (hraised : (s.emit (.construct action key name (some v))).2 = false) {k : Option String}
    (hk : (s.getCachedMap name).get k ≠ k.bind updatedMap.get) :
    Behind (s.emit (.construct action key name (some v))).1 name updatedMap := by
  have hnot : ¬ s.Heard (.construct action key name (some v)) := fun hheard =>
    absurd (emit_returned_iff.mpr hheard) (by rw [hraised]; exact Bool.false_ne_true)
  simp only [Heard, SignalMessage.construct, Option.map_some, Option.mem_some_iff, forall_eq'] at hnot
  push Not at hnot
  obtain ⟨c, hc, hh, ht⟩ := hnot
  refine ⟨c, untold_emit rfl hc ht, hh, k, ?_⟩
  rw [h.followed c hc name hh]
  exact hk

/-- A key that cannot be taken away from a slot. -/
theorem behind_of_removal (h : s.InStep) {name : Fin n} {updatedMap : Dict String V} {emptyValue : Option V} {e : Option String × V}
    (hraised : (emitRemoval name updatedMap emptyValue e s).2 = false) (hcached : ((s.getCachedMap name).get e.1).isSome) :
    Behind (emitRemoval name updatedMap emptyValue e s).1 name updatedMap := by
  unfold emitRemoval at hraised ⊢
  split_ifs at hraised ⊢ with hin
  rw [emitMapping_given] at hraised ⊢
  refine behind_of_raised h hraised (k := e.1) fun heq => ?_
  rw [heq] at hcached
  exact hin hcached

/-- A value that cannot be brought to a slot. -/
theorem behind_of_update (h : s.InStep) {name : Fin n} {updatedMap : Dict String V} {e : String × V} (hkey : e.1 ≠ "")
    (hin : updatedMap.get e.1 = some e.2) (hraised : (emitUpdated name e s).2 = false) :
    Behind (emitUpdated name e s).1 name updatedMap := by
  unfold emitUpdated at hraised ⊢
  rw [emitMapping_derived hkey] at hraised ⊢
  cases hd : derivedAction (some e.2) (s.getCachedSignal name (some e.1)) with
  | none =>
    rw [hd] at hraised
    cases hraised
  | some a =>
    rw [hd] at hraised
    refine behind_of_raised h hraised (k := some e.1) fun heq => cached_ne_of_derived hd ?_
    rw [← get_getCachedMap, heq]
    exact hin

theorem behind_of_map (h : s.InStep) {name : Fin n} {updatedMap : Dict String V} (hkeys : ∀ e ∈ updatedMap.items, e.1 ≠ "")
    {emptyValue : Option V} (hraised : (s.emitMapUpdate name updatedMap emptyValue).2 = false) :
    Behind (s.emitMapUpdate name updatedMap emptyValue).1 name updatedMap := by
  unfold emitMapUpdate at hraised ⊢
  dsimp only at hraised ⊢
  split_ifs at hraised ⊢ with hremoved
  · obtain ⟨l₁, e, l₂, hl, hret, hround, heq⟩ := each_of_raised hraised
    have hmem : e ∈ updatedMap.items := hl ▸ List.mem_append_right _ List.mem_cons_self
    rw [heq]
    have hstep : InStep _ := each_induction InStep.emitUpdated (each_induction InStep.emitRemoval h hremoved) hret
    exact behind_of_update hstep (hkeys e hmem) (Dict.get_eq_some.mpr hmem) hround
  · obtain ⟨l₁, e, l₂, hl, hret, hround, heq⟩ := each_of_raised hraised
    rw [heq]
    refine behind_of_removal (each_induction InStep.emitRemoval h hret) hround ?_
    -- The rounds before took away other keys.
    have hnodup := (s.getCachedMap name).nodup
    rw [hl, List.map_append, List.map_cons] at hnodup
    have hno : e.1 ∉ l₁.map Prod.fst := fun hin => (List.nodup_append.mp hnodup).2.2 _ hin _ List.mem_cons_self rfl
    have hcached : ∀ e ∈ l₁, e.1 ≠ some "" := fun e he => h.cached_keys name e (hl ▸ List.mem_append_left _ he)
    rw [each_of_returned hret, get_foldl_emitRemoval _ _ _ hcached, if_neg fun hin => hno hin.1, Dict.get_isSome, hl, List.map_append]
    exact List.mem_append_right _ List.mem_cons_self

theorem synchronized_emitMapUpdate_iff (h : s.InStep) {name : Fin n} {updatedMap : Dict String V}
    (hkeys : ∀ e ∈ updatedMap.items, e.1 ≠ "") {emptyValue : Option V} :
    (s.emitMapUpdate name updatedMap emptyValue).1.Synchronized name updatedMap ↔ s.HeardMap name updatedMap emptyValue := by
  rw [← emitMapUpdate_returned_iff h]
  constructor
  · intro hsync
    by_contra hraised
    obtain ⟨c, hc, hh, k, hk⟩ := behind_of_map h hkeys (Bool.eq_false_iff.mpr hraised)
    exact hk (hsync.2 c hc hh k)
  · intro hreturned
    have hmap := get_emitMapUpdate h hkeys hreturned
    refine ⟨hmap, fun c hc hh k => ?_⟩
    rw [(h.emitMapUpdate hreturned).followed c hc name hh]
    exact hmap k

end

/-! ## A key that is not removed -/

/-- The number of an enumeration with two symbols. -/
structure Greeting where
  number : ℕ
  deriving DecidableEq, Inhabited

instance : MessageDissecter 1 Greeting := ⟨fun msg => msg.signal.all fun e => e.2.number < 2⟩

/-- A store with a slot and two values. -/
def greeted : CachingSignalStore 1 Greeting :=
  [Call.connectSignal 0 true, .emitMapping 0 "a" (some (.mk 1)) none, .emitMapping 0 "b" (some (.mk 0)) none].foldl
    (fun s c => (s.call c).1) {}

theorem greeted_reachable : greeted.Reachable := by
  have hconnected : ((({} : CachingSignalStore 1 Greeting).call (.connectSignal 0 true)).1).Reachable := .call .init (by decide)
  have hfirst := hconnected.call (c := .emitMapping 0 "a" (some (.mk 1)) none) (by decide)
  exact hfirst.call (c := .emitMapping 0 "b" (some (.mk 0)) none) (by decide)

def greetings (number : ℕ) : Dict String Greeting := ((Dict.empty.set "b" (.mk 1)).set "c" (.mk number))

end CachingSignalStore

end CommonCore
