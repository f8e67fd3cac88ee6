import CommonCore.Histories
import Mathlib.Data.Fintype.Basic
import Mathlib.Tactic.Common

/-!
# Installing and finalizing upgrades

The lock of the native provider is taken by `install`, stays taken when the
install succeeds, and is given back by `finalize`. Calls come from any number of
clients at once; a call reads or writes what they share in steps of its own. The
lock is a `std::unique_lock` that all calls share: next to the mutex it has a
flag of its own, whether it owns the mutex.
-/

namespace CommonCore

namespace Upgrade

/-- `std::variant<std::monostate, vfs::Path, URL>`. -/
inductive PackageSource
  | none
  | vfs (path : String)
  | url (url : String)
  deriving DecidableEq

inductive PackageHandler
  | vfs
  | url

def getHandler : PackageSource → Option PackageHandler
  | .vfs _ => some .vfs
  | .url _ => some .url
  | .none => none

/-- What the package's own file says, from where it was installed. -/
structure NativePackageInfo (Settings : Type) where
  source : PackageSource
  settings : Settings
  deriving DecidableEq

variable {Client Settings : Type}

/-- Where `PackageHandler::install` is. -/
inductive Handling (Settings : Type)
  | staging
  | unpacking
  | installing
  /-- `remove_all`, with what is then returned, or rethrown. -/
  | clearing (result : Option (NativePackageInfo Settings))

inductive Call (Settings : Type)
  | idle
  /-- In `try_lock`: whether the lock is owned is tested, the mutex is tried, and
  what has come of it is recorded. -/
  | testing (source : PackageSource)
  | trying (source : PackageSource)
  | recording (source : PackageSource) (acquired : Bool)
  | handling (source : PackageSource) (at_ : Handling Settings)
  | storing (info : NativePackageInfo Settings)
  /-- `finalize` has seen the lock taken. -/
  | checking
  | selecting
  | starting
  | finalizing (info : NativePackageInfo Settings)
  /-- In `unlock`, at the end of an install that has thrown or of a finalize. -/
  | unlocking (threw : Bool)
  | releasing (threw : Bool)
  | disowning (threw : Bool)

/-- How the part of a call that is outside of the provider ends. -/
inductive Outcome (Settings : Type)
  | returns (settings : Settings)
  | throws

structure Provider (Client Settings : Type) where
  mutex : Bool := false
  ownsLock : Bool := false
  installedPackageInfo : Option (NativePackageInfo Settings) := none
  calls : Client → Call Settings := fun _ => .idle
  /-- `UniqueLock::unlock` is `noexcept`, and throws where the lock is not owned. -/
  terminated : Bool := false

inductive Action (Client Settings : Type)
  /-- `best` is the source of the best candidate from prior scans, if any. -/
  | install (c : Client) (source : PackageSource) (best : Option PackageSource)
  | finalize (c : Client)
  | proceed (c : Client) (outcome : Outcome Settings)

inductive Event (Client Settings : Type)
  /-- An install has taken the mutex. -/
  | began (c : Client)
  | succeeded (c : Client) (info : NativePackageInfo Settings)
  | threw (c : Client)
  /-- A finalize has seen the lock taken, and then `installed_package_info` set. -/
  | takenUp (c : Client)
  /-- The finalizer of a package is run. -/
  | finalizer (c : Client) (info : NativePackageInfo Settings)
  deriving DecidableEq

def Handling.next (source : PackageSource) : Handling Settings → Outcome Settings → Call Settings
  | .staging, .returns _ => .handling source .unpacking
  | .staging, .throws => .unlocking true
  | .unpacking, .returns _ => .handling source .installing
  | .unpacking, .throws => .handling source (.clearing none)
  | .installing, .returns settings => .handling source (.clearing (some { source := source, settings := settings }))
  | .installing, .throws => .handling source (.clearing none)
  | .clearing (some info), .returns _ => .storing info
  | .clearing _, _ => .unlocking true

namespace Provider

variable [DecidableEq Client]

def goTo (p : Provider Client Settings) (c : Client) (call : Call Settings) : Provider Client Settings :=
  { p with calls := Function.update p.calls c call }

def install (p : Provider Client Settings) (c : Client) (source : PackageSource) (best : Option PackageSource) :
    Provider Client Settings :=
  match source, best with
  | .none, some best => p.goTo c (.testing best)
  | .none, none => p -- NotFound
  | source, _ => p.goTo c (.testing source)

def finalize (p : Provider Client Settings) (c : Client) : Provider Client Settings :=
  if p.ownsLock then p.goTo c .checking else p

/-- The next step of a call that has begun. -/
def proceed (p : Provider Client Settings) (c : Client) (outcome : Outcome Settings) :
    Option (Provider Client Settings) :=
  match p.calls c with
  | .idle => none
  | .testing source =>
    some (p.goTo c (if p.ownsLock then .idle else .trying source)) -- Unavailable
  | .trying source =>
    if p.mutex then some (p.goTo c (.recording source false))
    else some ({ p with mutex := true }.goTo c (.recording source true))
  | .recording source acquired =>
    let call := if acquired && (getHandler source).isSome then .handling source .staging else .idle
    some ({ p with ownsLock := acquired }.goTo c call)
  | .handling source at_ => some (p.goTo c (at_.next source outcome))
  | .storing info => some ({ p with installedPackageInfo := some info }.goTo c .idle)
  | .checking => some (p.goTo c (if p.installedPackageInfo.isSome then .selecting else .idle))
  | .selecting =>
    p.installedPackageInfo.map fun info => p.goTo c (if (getHandler info.source).isSome then .starting else .unlocking false)
  | .starting => p.installedPackageInfo.map fun info => p.goTo c (.finalizing info)
  | .finalizing _ =>
    match outcome with
    | .returns _ => some (p.goTo c (.unlocking false))
    | .throws => some (p.goTo c .idle)
  | .unlocking threw => some (if p.ownsLock then p.goTo c (.releasing threw) else { p with terminated := true })
  | .releasing threw => some ({ p with mutex := false }.goTo c (.disowning threw))
  | .disowning _ => some ({ p with ownsLock := false }.goTo c .idle)

def step (p : Provider Client Settings) (a : Action Client Settings) : Option (Provider Client Settings) :=
  if p.terminated then none
  else
    match a with
    | .install c source best =>
      match p.calls c with
      | .idle => some (p.install c source best)
      | _ => none
    | .finalize c =>
      match p.calls c with
      | .idle => some (p.finalize c)
      | _ => none
    | .proceed c outcome => p.proceed c outcome

def event (p : Provider Client Settings) : Action Client Settings → Option (Event Client Settings)
  | .proceed c _ =>
    match p.calls c with
    | .trying _ => if p.mutex then none else some (.began c)
    | .storing info => some (.succeeded c info)
    | .disowning true => some (.threw c)
    | .checking => if p.installedPackageInfo.isSome then some (.takenUp c) else none
    | .starting => p.installedPackageInfo.map (.finalizer c)
    | _ => none
  | _ => none

/-- An install handler runs for this client. -/
def Handles (p : Provider Client Settings) (c : Client) : Prop :=
  ∃ source at_, p.calls c = .handling source at_

end Provider

/-- Any number of clients that install and finalize. -/
def service (Client Settings : Type) [DecidableEq Client] :
    Machine (Provider Client Settings) (Action Client Settings) (Event Client Settings) :=
  { step := Provider.step, event := Provider.event }

/-- The package of the latest install, if that has succeeded and its finalizer has not been run. -/
def due : List (Event Client Settings) → Option (NativePackageInfo Settings)
  | .succeeded _ info :: _ => some info
  | .takenUp _ :: h => due h
  | _ => none

/-- As `due`, if no finalize has taken it up either. -/
def owed : List (Event Client Settings) → Option (NativePackageInfo Settings)
  | .succeeded _ info :: _ => some info
  | _ => none

def Event.takesUp : Event Client Settings → Bool
  | .takenUp _ => true
  | _ => false

/-- Between the test of `try_lock` and its record. -/
def Call.inTryLock : Call Settings → Bool
  | .trying _ | .recording _ _ => true
  | _ => false

/-- An install finds that the lock is not owned. -/
def Provider.passes (p : Provider Client Settings) : Action Client Settings → Bool
  | .proceed c _ =>
    match p.calls c with
    | .testing _ => !p.ownsLock
    | _ => false
  | _ => false

/-- A finalize takes up an install that has succeeded, before any other does, and
no install passes the test of `try_lock` while another one is in it. -/
structure Orderly [DecidableEq Client] (h : List (Event Client Settings)) (p : Provider Client Settings)
    (a : Action Client Settings) : Prop where
  takesUp : ∀ e ∈ p.event a, e.takesUp = true → (owed h).isSome = true
  alone : p.passes a = true → ∀ c, (p.calls c).inTryLock = false

instance [DecidableEq Client] [Fintype Client] (h : List (Event Client Settings)) (p : Provider Client Settings)
    (a : Action Client Settings) : Decidable (Orderly h p a) :=
  decidable_of_iff ((∀ e ∈ p.event a, e.takesUp = true → (owed h).isSome = true) ∧
      (p.passes a = true → ∀ c, (p.calls c).inTryLock = false))
    ⟨fun ok => ⟨ok.1, ok.2⟩, fun ok => ⟨ok.takesUp, ok.alone⟩⟩

structure Exclusive [DecidableEq Client] (h : List (Event Client Settings)) (p : Provider Client Settings) : Prop where
  oneHandler : ∀ c c', p.Handles c → p.Handles c' → c = c'
  /-- The lock is not released while a handler runs. -/
  kept : ∀ a q, p.step a = some q → p.mutex = true ∧ q.mutex = false ∨ p.ownsLock = true ∧ q.ownsLock = false →
    ∀ c, ¬ p.Handles c
  finalizer : ∀ a c info, p.event a = some (.finalizer c info) → due h = some info
  /-- After an install that throws, the lock is free. -/
  threw : ∀ a c q, p.step a = some q → p.event a = some (.threw c) → q.mutex = false ∧ q.ownsLock = false
  running : p.terminated = false

/-! ## Who holds the lock -/

/-- What a call that has the lock, or is about to take it, knows of the mutex and
of whether the lock is owned. -/
def Call.holds : Call Settings → Option (Bool × Bool)
  | .idle | .testing _ | .checking => none
  | .trying _ => some (false, false)
  | .recording _ _ => some (true, false)
  | .disowning _ => some (false, true)
  | _ => some (true, true)

def Call.busy (call : Call Settings) : Bool := call.holds.isSome

/-- The call has taken up an install, and not yet begun its finalizer. -/
def Call.takes : Call Settings → Bool
  | .selecting | .starting => true
  | _ => false

theorem Call.busy_of_takes {call : Call Settings} (taken : call.takes = true) : call.busy = true := by
  cases call <;> simp_all [Call.takes, Call.busy, Call.holds]

/-- Whoever is busy without owning the lock is in `try_lock`. -/
theorem Call.inTryLock_of_holds {call : Call Settings} {b : Bool} (holds : call.holds = some (b, false)) : call.inTryLock = true := by
  cases call <;> simp_all [Call.holds, Call.inTryLock]

theorem Handling.next_holds (source : PackageSource) (at_ : Handling Settings) (outcome : Outcome Settings) :
    (at_.next source outcome).holds = some (true, true) := by
  cases at_ with
  | clearing result => cases result <;> cases outcome <;> rfl
  | _ => cases outcome <;> rfl

theorem Handling.next_takes (source : PackageSource) (at_ : Handling Settings) (outcome : Outcome Settings) :
    (at_.next source outcome).takes = false := by
  cases at_ with
  | clearing result => cases result <;> cases outcome <;> rfl
  | _ => cases outcome <;> rfl

theorem Handling.next_acquired (source source' : PackageSource) (at_ : Handling Settings) (outcome : Outcome Settings) :
    at_.next source outcome ≠ .recording source' false := by
  cases at_ with
  | clearing result => cases result <;> cases outcome <;> nofun
  | _ => cases outcome <;> nofun

theorem due_of_owed {h : List (Event Client Settings)} {info : NativePackageInfo Settings} (o : owed h = some info) :
    due h = some info := by
  cases h with
  | nil => cases o
  | cons e h => cases e <;> simp_all [owed, due]

structure Held (h : List (Event Client Settings)) (p : Provider Client Settings) : Prop where
  alone : ∀ c c', (p.calls c).busy = true → (p.calls c').busy = true → c = c'
  locked : ∀ c b, (p.calls c).holds = some b → (p.mutex, p.ownsLock) = b
  /-- Between the calls the mutex is locked if the lock is owned. -/
  settled : (∀ c, (p.calls c).busy = false) → p.mutex = p.ownsLock
  acquired : ∀ c source, p.calls c ≠ .recording source false
  taken : ∀ c, (p.calls c).busy = true → owed h = none
  upToDate : ∀ c, (p.calls c).takes = true → due h = p.installedPackageInfo
  kept : ∀ info, owed h = some info → p.mutex = true ∧ p.ownsLock = true ∧ p.installedPackageInfo = some info
  running : p.terminated = false

variable {h : List (Event Client Settings)} {p q : Provider Client Settings}

/-- No call but this one is busy. -/
theorem held_of_others {c : Client} (others : ∀ c', c' ≠ c → (p.calls c').busy = false)
    (locked : ∀ b, (p.calls c).holds = some b → (p.mutex, p.ownsLock) = b)
    (settled : (p.calls c).busy = false → p.mutex = p.ownsLock)
    (acquired : ∀ source, p.calls c ≠ .recording source false)
    (taken : (p.calls c).busy = true → owed h = none)
    (upToDate : (p.calls c).takes = true → due h = p.installedPackageInfo)
    (kept : ∀ info, owed h = some info → p.mutex = true ∧ p.ownsLock = true ∧ p.installedPackageInfo = some info)
    (running : p.terminated = false) : Held h p := by
  have is_c : ∀ c', (p.calls c').busy = true → c' = c := by
    intro c' b
    by_contra ne
    simp [others c' ne] at b
  refine { alone := ?_, locked := ?_, settled := fun all => settled (all c), acquired := ?_, taken := ?_, upToDate := ?_, kept := kept,
           running := running }
  · intro c₁ c₂ b₁ b₂
    rw [is_c c₁ b₁, is_c c₂ b₂]
  · intro c' b holds
    obtain rfl := is_c c' (by simp [Call.busy, holds])
    exact locked b holds
  · intro c' source recording
    obtain rfl := is_c c' (by simp [Call.busy, recording, Call.holds])
    exact acquired source recording
  · intro c' b
    obtain rfl := is_c c' b
    exact taken b
  · intro c' t
    obtain rfl := is_c c' (Call.busy_of_takes t)
    exact upToDate t

theorem Held.others (held : Held h p) {c : Client} (busy : (p.calls c).busy = true) (c' : Client) (ne : c' ≠ c) :
    (p.calls c').busy = false := by
  by_contra b
  exact ne (held.alone c' c (by simpa using b) busy)

/-- Who is busy while the lock is not owned is in `try_lock`. -/
theorem Held.idle_of_unowned (held : Held h p) (free : p.ownsLock = false) (none_in : ∀ c, (p.calls c).inTryLock = false) (c : Client) :
    (p.calls c).busy = false := by
  by_contra b
  obtain ⟨⟨mutex, owns⟩, holds⟩ := Option.isSome_iff_exists.mp (Bool.of_not_eq_false b)
  have same := held.locked c _ holds
  rw [free] at same
  obtain ⟨-, rfl⟩ := Prod.mk.inj same
  exact absurd (Call.inTryLock_of_holds holds) (by simp [none_in c])

theorem Held.idle_of_owed (held : Held h p) (o : (owed h).isSome = true) (c : Client) : (p.calls c).busy = false := by
  by_contra b
  simp [held.taken c (by simpa using b)] at o

theorem held_start : Held ([] : List (Event Client Settings)) {} :=
  { alone := by simp [Call.busy, Call.holds], locked := by simp [Call.holds], settled := fun _ => rfl, acquired := by simp
    taken := by simp [Call.busy, Call.holds], upToDate := by simp [Call.takes], kept := by simp [owed], running := rfl }

section Steps

variable [DecidableEq Client]

@[simp] theorem Provider.goTo_calls (c c' : Client) (call : Call Settings) :
    (p.goTo c call).calls c' = if c' = c then call else p.calls c' := by
  simp [Provider.goTo, Function.update_apply]

@[simp] theorem Provider.goTo_mutex (c : Client) (call : Call Settings) : (p.goTo c call).mutex = p.mutex := rfl

@[simp] theorem Provider.goTo_ownsLock (c : Client) (call : Call Settings) : (p.goTo c call).ownsLock = p.ownsLock := rfl

@[simp] theorem Provider.goTo_installedPackageInfo (c : Client) (call : Call Settings) :
    (p.goTo c call).installedPackageInfo = p.installedPackageInfo := rfl

@[simp] theorem Provider.goTo_terminated (c : Client) (call : Call Settings) :
    (p.goTo c call).terminated = p.terminated := rfl

/-- A call that stays as it is towards the lock. -/
theorem Held.goTo (held : Held h p) {c : Client} {call : Call Settings} (holds : call.holds = (p.calls c).holds)
    (takes : call.takes = true → (p.calls c).takes = true) (acquired : ∀ source, call ≠ .recording source false) :
    Held h (p.goTo c call) := by
  have as_before : ∀ c', ((p.goTo c call).calls c').holds = (p.calls c').holds := by
    intro c'
    by_cases e : c' = c
    · simp [e, holds]
    · simp [e]
  refine { held with alone := ?_, locked := ?_, settled := ?_, acquired := ?_, taken := ?_, upToDate := ?_ }
  · intro c₁ c₂ b₁ b₂
    rw [Call.busy, as_before] at b₁ b₂
    exact held.alone c₁ c₂ b₁ b₂
  · intro c' b holds
    exact held.locked c' b (by rwa [← as_before])
  · intro idle
    refine held.settled fun c' => ?_
    rw [Call.busy, ← as_before]
    exact idle c'
  · intro c' source
    by_cases e : c' = c
    · simpa [e] using acquired source
    · simpa [e] using held.acquired c' source
  · intro c' b
    rw [Call.busy, as_before] at b
    exact held.taken c' b
  · intro c' t
    by_cases e : c' = c
    · subst e
      exact held.upToDate c' (takes (by simpa using t))
    · exact held.upToDate c' (by simpa [e] using t)

/-- Nobody but this busy call changes, and what it knows of the lock. -/
theorem Held.advance (held : Held h p) {c : Client} (busy : (p.calls c).busy = true) {h' : List (Event Client Settings)}
    {call : Call Settings} {mutex owns : Bool} (holds : ∀ b, call.holds = some b → (mutex, owns) = b)
    (settled : call.busy = false → mutex = owns) (acquired : ∀ source, call ≠ .recording source false) (takes : call.takes = false)
    (log : owed h' = none) : Held h' ({ p with mutex := mutex, ownsLock := owns }.goTo c call) := by
  apply held_of_others (c := c)
  · intro c' ne
    simpa [ne] using held.others busy c' ne
  · simpa using holds
  · simpa using settled
  · simpa using acquired
  · exact fun _ => log
  · simp [takes]
  · simp [log]
  · exact held.running

/-! ## Every step of an orderly run -/

theorem Held.install (held : Held h p) {c : Client} (idle : p.calls c = .idle) (source : PackageSource)
    (best : Option PackageSource) : Held h (p.install c source best) := by
  have testing : ∀ source, Held h (p.goTo c (.testing source)) := fun source =>
    held.goTo (by simp [idle, Call.holds]) (by simp [Call.takes]) (by simp)
  cases source with
  | none =>
    cases best with
    | none => exact held
    | some best => exact testing best
  | vfs path => exact testing _
  | url url => exact testing _

theorem Held.finalize (held : Held h p) {c : Client} (idle : p.calls c = .idle) : Held h (p.finalize c) := by
  rw [Provider.finalize]
  split
  · exact held.goTo (by simp [idle, Call.holds]) (by simp [Call.takes]) (by simp)
  · exact held

/-- An install passes the test of `try_lock`. -/
theorem Held.pass (held : Held h p) (c : Client) (source : PackageSource) (free : p.ownsLock = false)
    (none_in : ∀ c, (p.calls c).inTryLock = false) : Held h (p.goTo c (.trying source)) := by
  have idle := held.idle_of_unowned free none_in
  have not_owed : owed h = none := by
    cases o : owed h with
    | none => rfl
    | some info => exact absurd ((held.kept info o).2.1.symm.trans free) nofun
  apply held_of_others (c := c)
  · intro c' ne
    simpa [ne] using idle c'
  · simp [Call.holds, held.settled idle, free]
  · simp [held.settled idle]
  · simp
  · exact fun _ => not_owed
  · simp [Call.takes]
  · simp [not_owed]
  · exact held.running

theorem Held.store (held : Held h p) {c : Client} {info : NativePackageInfo Settings} (storing : p.calls c = .storing info) :
    Held (.succeeded c info :: h) ({ p with installedPackageInfo := some info }.goTo c .idle) := by
  have busy : (p.calls c).busy = true := by simp [storing, Call.busy, Call.holds]
  obtain ⟨mutex, owns⟩ := Prod.mk.inj (held.locked c (true, true) (by simp [storing, Call.holds]))
  apply held_of_others (c := c)
  · intro c' ne
    simpa [ne] using held.others busy c' ne
  · simp [Call.holds]
  · simp [mutex, owns]
  · simp
  · simp [Call.busy, Call.holds]
  · simp [Call.takes]
  · simp [owed, mutex, owns]
  · exact held.running

/-- A finalize takes up an install that has succeeded. -/
theorem Held.takeUp (held : Held h p) (c : Client) (o : (owed h).isSome = true) :
    Held (.takenUp c :: h) (p.goTo c .selecting) := by
  obtain ⟨info, o'⟩ := Option.isSome_iff_exists.mp o
  obtain ⟨mutex, owns, found⟩ := held.kept info o'
  apply held_of_others (c := c)
  · intro c' ne
    simpa [ne] using held.idle_of_owed o c'
  · simp [Call.holds, mutex, owns]
  · simp [mutex, owns]
  · simp
  · simp [owed]
  · intro _
    rw [due, due_of_owed o']
    exact found.symm
  · simp [owed]
  · exact held.running

theorem Held.proceed (held : Held h p) {c : Client} {outcome : Outcome Settings}
    (ok : Orderly h p (.proceed c outcome)) (stepped : p.proceed c outcome = some q) :
    Held ((service Client Settings).log h p (.proceed c outcome)) q := by
  simp only [Machine.log, service, Provider.event]
  unfold Provider.proceed at stepped
  cases call : p.calls c with
  | idle => simp [call] at stepped
  | testing source =>
    simp only [call] at stepped ⊢
    obtain rfl := Option.some.inj stepped
    split
    next => exact held.goTo (by simp [call, Call.holds]) (by simp [Call.takes]) (by simp)
    next free =>
      simp only [Bool.not_eq_true] at free
      exact held.pass c source free (ok.alone (by simp [Provider.passes, call, free]))
  | trying source =>
    obtain ⟨mutex, owns⟩ := Prod.mk.inj (held.locked c (false, false) (by simp [call, Call.holds]))
    simp only [call, mutex] at stepped ⊢
    obtain rfl := Option.some.inj stepped
    exact held.advance (by simp [call, Call.busy, Call.holds]) (by simp [Call.holds, owns]) (by simp [Call.busy, Call.holds])
      (by simp) rfl rfl
  | recording source acquired =>
    obtain ⟨mutex, -⟩ := Prod.mk.inj (held.locked c (true, false) (by simp [call, Call.holds]))
    have taken := held.taken c (by simp [call, Call.busy, Call.holds])
    cases acquired with
    | false => exact absurd call (held.acquired c source)
    | true =>
      simp only [call] at stepped ⊢
      obtain rfl := Option.some.inj stepped
      have busy : (p.calls c).busy = true := by simp [call, Call.busy, Call.holds]
      cases getHandler source with
      | some => exact held.advance busy (by simp [Call.holds, mutex]) (by simp [Call.busy, Call.holds]) (by simp) rfl taken
      | none => exact held.advance busy (by simp [Call.holds]) (by simp [mutex]) (by simp) rfl taken
  | handling source at_ =>
    simp only [call] at stepped ⊢
    obtain rfl := Option.some.inj stepped
    exact held.goTo (by rw [Handling.next_holds, call]; rfl) (by simp [Handling.next_takes]) fun source' => Handling.next_acquired source source' at_ outcome
  | storing info =>
    simp only [call] at stepped ⊢
    obtain rfl := Option.some.inj stepped
    exact held.store call
  | checking =>
    simp only [call] at stepped ⊢
    obtain rfl := Option.some.inj stepped
    split
    next found =>
      have taken : p.event (.proceed c outcome) = some (.takenUp c) := by simp [Provider.event, call, found]
      exact held.takeUp c (ok.takesUp _ taken rfl)
    next => exact held.goTo (by simp [call, Call.holds]) (by simp [Call.takes]) (by simp)
  | selecting =>
    simp only [call] at stepped ⊢
    obtain ⟨info, -, rfl⟩ := Option.map_eq_some_iff.mp stepped
    split
    · exact held.goTo (by simp [call, Call.holds]) (by simp [call, Call.takes]) (by simp)
    · exact held.goTo (by simp [call, Call.holds]) (by simp [Call.takes]) (by simp)
  | starting =>
    have busy : (p.calls c).busy = true := by simp [call, Call.busy, Call.holds]
    have locked := held.locked c (true, true) (by simp [call, Call.holds])
    simp only [call] at stepped ⊢
    obtain ⟨info, found, rfl⟩ := Option.map_eq_some_iff.mp stepped
    simp only [found]
    exact held.advance busy (by simp [Call.holds, locked]) (by simp [Call.busy, Call.holds]) (by simp) rfl rfl
  | finalizing info =>
    have busy : (p.calls c).busy = true := by simp [call, Call.busy, Call.holds]
    obtain ⟨mutex, owns⟩ := Prod.mk.inj (held.locked c (true, true) (by simp [call, Call.holds]))
    simp only [call] at stepped ⊢
    split at stepped
    · obtain rfl := Option.some.inj stepped
      exact held.goTo (by simp [call, Call.holds]) (by simp [Call.takes]) (by simp)
    · obtain rfl := Option.some.inj stepped
      exact held.advance busy (by simp [Call.holds]) (by simp [mutex, owns]) (by simp) rfl (held.taken c busy)
  | unlocking threw =>
    obtain ⟨-, owns⟩ := Prod.mk.inj (held.locked c (true, true) (by simp [call, Call.holds]))
    simp only [call, owns] at stepped ⊢
    obtain rfl := Option.some.inj stepped
    exact held.goTo (by simp [call, Call.holds]) (by simp [Call.takes]) (by simp)
  | releasing threw =>
    have busy : (p.calls c).busy = true := by simp [call, Call.busy, Call.holds]
    obtain ⟨-, owns⟩ := Prod.mk.inj (held.locked c (true, true) (by simp [call, Call.holds]))
    simp only [call] at stepped ⊢
    obtain rfl := Option.some.inj stepped
    exact held.advance busy (by simp [Call.holds, owns]) (by simp [Call.busy, Call.holds]) (by simp) rfl (held.taken c busy)
  | disowning threw =>
    have busy : (p.calls c).busy = true := by simp [call, Call.busy, Call.holds]
    obtain ⟨mutex, -⟩ := Prod.mk.inj (held.locked c (false, true) (by simp [call, Call.holds]))
    simp only [call] at stepped ⊢
    obtain rfl := Option.some.inj stepped
    cases threw with
    | true => exact held.advance busy (by simp [Call.holds]) (by simp [mutex]) (by simp) rfl rfl
    | false => exact held.advance busy (by simp [Call.holds]) (by simp [mutex]) (by simp) rfl (held.taken c busy)

theorem held_step (a : Action Client Settings) (held : Held h p) (ok : Orderly h p a)
    (stepped : p.step a = some q) : Held ((service Client Settings).log h p a) q := by
  unfold Provider.step at stepped
  rw [held.running] at stepped
  cases a with
  | install c source best =>
    simp only [Bool.false_eq_true, if_false] at stepped
    split at stepped
    next idle =>
      obtain rfl := Option.some.inj stepped
      exact held.install idle source best
    next => cases stepped
  | finalize c =>
    simp only [Bool.false_eq_true, if_false] at stepped
    split at stepped
    next idle =>
      obtain rfl := Option.some.inj stepped
      exact held.finalize idle
    next => cases stepped
  | proceed c outcome => exact held.proceed ok stepped

theorem held_of_orderly (run : (service Client Settings).Run Orderly {} h p) : Held h p :=
  run.invariant held_start fun _ _ a _ held ok stepped => held_step a held ok stepped

/-- Which steps release the lock. -/
theorem releases {a : Action Client Settings} (stepped : p.step a = some q)
    (released : p.mutex = true ∧ q.mutex = false ∨ p.ownsLock = true ∧ q.ownsLock = false) :
    ∃ c, (∃ threw, p.calls c = .releasing threw ∨ p.calls c = .disowning threw) ∨ ∃ source, p.calls c = .recording source false := by
  unfold Provider.step at stepped
  split at stepped
  next => cases stepped
  next =>
    cases a with
    | install c source best =>
      cases call : p.calls c <;> simp only [call] at stepped <;> cases stepped
      cases source <;> cases best <;> simp [Provider.install] at released
    | finalize c =>
      cases call : p.calls c <;> simp only [call] at stepped <;> cases stepped
      unfold Provider.finalize at released
      split at released <;> simp at released
    | proceed c outcome =>
      refine ⟨c, ?_⟩
      unfold Provider.proceed at stepped
      cases call : p.calls c with
      | releasing threw => exact .inl ⟨threw, .inl rfl⟩
      | disowning threw => exact .inl ⟨threw, .inr rfl⟩
      | recording source acquired =>
        cases acquired with
        | false => exact .inr ⟨source, rfl⟩
        | true =>
          simp only [call] at stepped
          obtain rfl := Option.some.inj stepped
          simp at released
      | idle => simp [call] at stepped
      | testing source | handling source at_ | storing info | checking =>
        simp only [call] at stepped
        obtain rfl := Option.some.inj stepped
        simp at released
      | trying source =>
        simp only [call] at stepped
        split at stepped <;> obtain rfl := Option.some.inj stepped <;> simp at released
      | selecting | starting =>
        simp only [call] at stepped
        obtain ⟨info, -, rfl⟩ := Option.map_eq_some_iff.mp stepped
        simp at released
      | finalizing info =>
        simp only [call] at stepped
        cases outcome <;> obtain rfl := Option.some.inj stepped <;> simp at released
      | unlocking threw =>
        simp only [call] at stepped
        obtain rfl := Option.some.inj stepped
        split at released <;> simp at released

omit [DecidableEq Client] in
theorem event_finalizer {a : Action Client Settings} {c : Client} {info : NativePackageInfo Settings}
    (e : p.event a = some (.finalizer c info)) : p.calls c = .starting ∧ p.installedPackageInfo = some info := by
  cases a with
  | install | finalize => cases e
  | proceed c' outcome =>
    rw [Provider.event] at e
    cases call : p.calls c' with
    | starting =>
      simp only [call] at e
      obtain ⟨info', found, e⟩ := Option.map_eq_some_iff.mp e
      cases e
      exact ⟨call, found⟩
    | disowning threw => cases threw <;> simp [call] at e
    | _ => simp [call] at e

omit [DecidableEq Client] in
theorem event_threw {a : Action Client Settings} {c : Client} (e : p.event a = some (.threw c)) :
    p.calls c = .disowning true ∧ ∃ outcome, a = .proceed c outcome := by
  cases a with
  | install | finalize => cases e
  | proceed c' outcome =>
    rw [Provider.event] at e
    cases call : p.calls c' with
    | disowning threw =>
      cases threw with
      | true =>
        simp only [call] at e
        cases e
        exact ⟨call, outcome, rfl⟩
      | false => simp [call] at e
    | _ => simp [call] at e

theorem Held.exclusive (held : Held h p) : Exclusive h p where
  oneHandler c c' := by
    intro ⟨_, _, call⟩ ⟨_, _, call'⟩
    exact held.alone c c' (by simp [call, Call.busy, Call.holds]) (by simp [call', Call.busy, Call.holds])
  kept a q stepped released c := by
    intro ⟨_, _, call⟩
    have busy : (p.calls c).busy = true := by simp [call, Call.busy, Call.holds]
    obtain ⟨c', ⟨threw, ends⟩ | ⟨source, recording⟩⟩ := releases stepped released
    · have same : c = c' := held.alone c c' busy (by rcases ends with e | e <;> simp [e, Call.busy, Call.holds])
      subst same
      rcases ends with e | e <;> simp [call] at e
    · exact held.acquired c' source recording
  finalizer a c info e := by
    obtain ⟨call, found⟩ := event_finalizer e
    rw [held.upToDate c (by simp [call, Call.takes]), found]
  threw a c q stepped e := by
    obtain ⟨call, outcome, rfl⟩ := event_threw e
    obtain ⟨mutex, -⟩ := Prod.mk.inj (held.locked c (false, true) (by simp [call, Call.holds]))
    simp only [Provider.step, held.running, Provider.proceed, call] at stepped
    obtain rfl := Option.some.inj stepped
    exact ⟨mutex, rfl⟩
  running := held.running

/-! ## Upgrades one after the other -/

/-- Where every finalize takes up an install that has succeeded, and no other
finalize has, and installs take the lock one after the other, the clients do not
get in each other's way. -/
theorem exclusive_of_orderly (h : List (Event Client Settings)) (p : Provider Client Settings)
    (run : (service Client Settings).Run Orderly {} h p) : Exclusive h p :=
  (held_of_orderly run).exclusive

end Steps

/-! ## A finalize in the middle of a later install -/

def installed : NativePackageInfo Unit := { source := .url "first", settings := () }

/-- An install of a package, its finalize, and the first steps of another install,
while a third one is refused. -/
def twoRounds : List (Action (Fin 2) Unit) :=
  [.install 0 (.url "first") none] ++ List.replicate 8 (.proceed 0 (.returns ())) ++
    [.finalize 1] ++ List.replicate 7 (.proceed 1 (.returns ())) ++
    [.install 0 (.url "second") none] ++ List.replicate 3 (.proceed 0 (.returns ())) ++
    [.install 1 (.url "third") none, .proceed 1 (.returns ())]

theorem twoRounds_exclusive : ∃ p : Provider (Fin 2) Unit, p.Handles 0 ∧ p.installedPackageInfo = some installed ∧
    Exclusive [.began 0, .finalizer 1 installed, .takenUp 1, .succeeded 0 installed, .began 0] p :=
  ⟨_, ⟨_, _, rfl⟩, rfl, exclusive_of_orderly _ _
    (Machine.Run.exec .start (show (service (Fin 2) Unit).exec Orderly twoRounds ([], {}) = _ from rfl))⟩

/-- Two installs that are in `try_lock` at once: the second one to record has not
acquired the mutex, and the first one throws. -/
def raced : List (Action (Fin 2) Unit) :=
  [.install 0 (.url "first") none, .install 1 (.url "second") none, .proceed 0 .throws, .proceed 1 .throws, .proceed 0 .throws,
    .proceed 1 .throws, .proceed 0 .throws, .proceed 1 .throws, .proceed 0 .throws, .proceed 0 .throws]

/-- A finalize finds the package that has been finalized, while another one is
being installed; and an unlock throws. -/
theorem twoRounds_not_exclusive : (¬ ∀ (h : List (Event (Fin 2) Unit)) (p : Provider (Fin 2) Unit),
    (service (Fin 2) Unit).Run Machine.anyStep {} h p → Exclusive h p) ∧
      ∃ h p, (service (Fin 2) Unit).Run Machine.anyStep {} h p ∧ p.terminated = true := by
  refine ⟨fun all => ?_, _, _, Machine.Run.exec .start
    (show (service (Fin 2) Unit).exec Machine.anyStep raced ([], {}) = _ from rfl), rfl⟩
  have run := Machine.Run.exec .start (show (service (Fin 2) Unit).exec Machine.anyStep
    (twoRounds ++ [.finalize 1, .proceed 1 .throws, .proceed 1 .throws]) ([], {}) = _ from rfl)
  have finalized := (all _ _ run).finalizer (.proceed 1 .throws) 1 installed rfl
  cases finalized

end Upgrade

end CommonCore
