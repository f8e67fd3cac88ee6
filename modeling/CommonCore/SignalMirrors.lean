import CommonCore.SignalStreams

/-!
# What the client of a stream holds

For each signal that is connected, the client holds what the server has cached
when it has caught up with the queue. A stream that begins tells the client what
the server has, and not what it has no longer.
-/

namespace CommonCore

namespace SignalStream

open QueuedReplica

variable {δ π σ μ V : Type}

/-- The cell that a queued message writes. -/
def effect (e : Origin × Msg δ π σ μ V) : Option (Cell δ π σ μ × Option (Option V)) := e.2.effect

/-! ## Messages and their signals -/

theorem effect_ofData {i : δ} {value : V} {x : Cell δ π σ μ} {v : Option (Option V)}
    (e : (Msg.ofData i value : Msg δ π σ μ V).effect = some (x, v)) : x = .data i ∧ v = some (some value) := by
  obtain ⟨rfl, rfl⟩ := Prod.mk.inj (Option.some.inj e)
  exact ⟨rfl, rfl⟩

/-- An empty pointer is decoded as the object that an empty field stands for. -/
theorem effect_ofPointer [Inhabited V] {i : π} {value : Option V} {x : Cell δ π σ μ} {v : Option (Option V)}
    (e : (Msg.ofPointer i value : Msg δ π σ μ V).effect = some (x, v)) :
    x = .pointer i ∧ v = some (some (value.getD default)) := by
  cases value with
  | none | some =>
    obtain ⟨rfl, rfl⟩ := Prod.mk.inj (Option.some.inj e)
    exact ⟨rfl, rfl⟩

theorem effect_ofShared {i : σ} {value : Option V} {x : Cell δ π σ μ} {v : Option (Option V)}
    (e : (Msg.ofShared i value : Msg δ π σ μ V).effect = some (x, v)) : x = .shared i ∧ v = value.map some := by
  cases value with
  | none => cases e
  | some value =>
    obtain ⟨rfl, rfl⟩ := Prod.mk.inj (Option.some.inj e)
    exact ⟨rfl, rfl⟩

theorem effect_ofMapping {i : μ} {action : MappingAction} {key : String} {value : V} {x : Cell δ π σ μ}
    {v : Option (Option V)} (e : (Msg.ofMapping i action key value : Msg δ π σ μ V).effect = some (x, v)) : x = .mapping i key := by
  cases action with
  | none => cases e
  | addition | update | removal =>
    obtain ⟨rfl, -⟩ := Prod.mk.inj (Option.some.inj e)
    rfl

/-- A signal replays cells of its own, with what is cached in them if that is no empty pointer. -/
theorem effect_cachedMessages [Inhabited V] {c : Caches δ π σ μ V} {entries : Entries V} {n : Name δ π σ μ}
    (replays : c.Replays entries n) {msg : Msg δ π σ μ V} (mem : msg ∈ c.cachedMessages entries n) {x : Cell δ π σ μ}
    {v : Option (Option V)} (e : msg.effect = some (x, v)) : x.name = n ∧ (c.cell x ≠ some none → v = c.cell x) := by
  cases n with
  | data i =>
    simp only [Caches.cachedMessages, Option.mem_toList, Option.map_eq_some_iff] at mem
    obtain ⟨value, cached, rfl⟩ := mem
    obtain ⟨rfl, rfl⟩ := effect_ofData e
    exact ⟨rfl, fun _ => by simp [Caches.cell, cached]⟩
  | pointer i =>
    simp only [Caches.cachedMessages, Option.mem_toList, Option.map_eq_some_iff] at mem
    obtain ⟨value, cached, rfl⟩ := mem
    obtain ⟨rfl, rfl⟩ := effect_ofPointer e
    refine ⟨rfl, fun filled => ?_⟩
    cases value with
    | none => exact absurd cached filled
    | some value => exact cached.symm
  | shared i =>
    simp only [Caches.cachedMessages, Option.mem_toList, Option.map_eq_some_iff] at mem
    obtain ⟨value, cached, rfl⟩ := mem
    obtain ⟨rfl, rfl⟩ := effect_ofShared e
    exact ⟨rfl, fun _ => by simp [Caches.cell, cached]⟩
  | mapping i =>
    simp only [Caches.cachedMessages, List.mem_map] at mem
    obtain ⟨entry, mem, rfl⟩ := mem
    obtain ⟨rfl, rfl⟩ := Prod.mk.inj (Option.some.inj e)
    refine ⟨rfl, fun _ => ?_⟩
    have held : entry ∈ (c.mapping i).entries := replays.mem_iff.mp mem
    exact (congrArg (Option.map some) (AList.mem_lookup_iff.mpr held)).symm

/-- A signal replays all that is cached. -/
theorem replayed_of_cached [Inhabited V] {c : Caches δ π σ μ V} {entries : Entries V} {x : Cell δ π σ μ}
    (replays : c.Replays entries x.name) (cached : c.cell x ≠ none) :
    ∃ msg ∈ c.cachedMessages entries x.name, ∃ v, msg.effect = some (x, v) := by
  obtain ⟨value, held⟩ := Option.ne_none_iff_exists'.mp cached
  cases x with
  | data i =>
    obtain ⟨v, held, -⟩ := Option.map_eq_some_iff.mp held
    exact ⟨.ofData i v, by simp [Caches.cachedMessages, Cell.name, held], _, rfl⟩
  | pointer i =>
    have held : c.pointer i = some value := held
    exact ⟨.ofPointer i value, by simp [Caches.cachedMessages, Cell.name, held], by cases value <;> exact ⟨_, rfl⟩⟩
  | shared i =>
    obtain ⟨v, held, -⟩ := Option.map_eq_some_iff.mp held
    exact ⟨.ofShared i (some v), by simp [Caches.cachedMessages, Cell.name, held], _, rfl⟩
  | mapping i key =>
    obtain ⟨v, held, -⟩ := Option.map_eq_some_iff.mp held
    have mem : ⟨key, v⟩ ∈ entries := replays.mem_iff.mpr (AList.mem_lookup_iff.mp held)
    exact ⟨.ofMapping i .addition key v, List.mem_map.mpr ⟨⟨key, v⟩, mem, rfl⟩, _, rfl⟩

/-! ## The state of a stream -/

variable {watched : Watched δ π σ μ}

structure Formed (watched : Watched δ π σ μ) (st : Stream δ π σ μ V) : Prop where
  names : st.connected ++ st.toConnect = watched.names
  initialized : st.initialized = true → st.toConnect = []
  complete : st.complete = true → st.initialized = true
  queued : ∀ e ∈ st.queue, ∀ x v, effect e = some (x, v) → x.name ∈ st.connected

theorem Formed.new (watched : Watched δ π σ μ) : Formed watched ({ toConnect := watched.names } : Stream δ π σ μ V) where
  names := rfl
  initialized := by simp
  complete := by simp
  queued := by simp

theorem Formed.append {st : Stream δ π σ μ V} (formed : Formed watched st) {msgs : Queue δ π σ μ V}
    (own : ∀ e ∈ msgs, ∀ x v, effect e = some (x, v) → x.name ∈ st.connected) :
    Formed watched { st with queue := st.queue ++ msgs } where
  names := formed.names
  initialized := formed.initialized
  complete := formed.complete
  queued e mem := by
    rcases List.mem_append.mp mem with mem | mem
    · exact formed.queued e mem
    · exact own e mem

/-- What the client has of a signal when it has caught up. -/
def Follows [DecidableEq δ] [DecidableEq π] [DecidableEq σ] [DecidableEq μ] (n : Name δ π σ μ) (server client : Caches δ π σ μ V)
    (st : Stream δ π σ μ V) : Prop :=
  n ∈ st.connected → ∀ x : Cell δ π σ μ, x.name = n → caughtUp effect st.queue client.cell x = server.cell x

section Streams

variable [DecidableEq δ] [DecidableEq π] [DecidableEq σ] [DecidableEq μ]
variable {server server' client : Caches δ π σ μ V} {st : Stream δ π σ μ V} {n m : Name δ π σ μ}

theorem write_congr {w : Option (Cell δ π σ μ × Option (Option V))} {f g : Cell δ π σ μ → Option (Option V)}
    {x : Cell δ π σ μ} (same : f x = g x) : write w f x = write w g x := by
  cases w with
  | none => exact same
  | some w => by_cases e : x = w.1 <;> simp [write, e, same]

theorem write_other {w : Option (Cell δ π σ μ × Option (Option V))} {f : Cell δ π σ μ → Option (Option V)}
    {x : Cell δ π σ μ} (own : ∀ y v, w = some (y, v) → y.name = m) (ne : x.name ≠ m) : write w f x = f x := by
  cases w with
  | none => rfl
  | some w =>
    have other : x ≠ w.1 := by
      rintro rfl
      exact ne (own w.1 w.2 rfl)
    simp [write, other]

/-- An emission, which writes a cell of its signal on either side. -/
theorem Follows.emit (follows : Follows n server client st) {w : Option (Cell δ π σ μ × Option (Option V))}
    {msg : Msg δ π σ μ V} (stored : server'.cell = write w server.cell) (own : ∀ x v, w = some (x, v) → x.name = m)
    (sent : ∀ x v, msg.effect = some (x, v) → x.name = m) (same : n = m → n ∈ st.connected → msg.effect = w) :
    Follows n server' client (if m ∈ st.connected then { st with queue := st.queue ++ [(.emitted, msg)] } else st) := by
  split
  next connected =>
    intro mem x name
    have before := follows mem x name
    rw [caughtUp_append, caughtUp_cons, caughtUp_nil, stored]
    by_cases e : n = m
    · have sent_w : effect (Origin.emitted, msg) = w := same e mem
      rw [sent_w]
      exact write_congr before
    · have sent_m : ∀ y v, effect (Origin.emitted, msg) = some (y, v) → y.name = m := sent
      rw [write_other sent_m (name ▸ e), write_other own (name ▸ e), before]
  next apart =>
    intro mem x name
    have other : x.name ≠ m := by
      rintro rfl
      exact apart (name ▸ mem)
    rw [stored, write_other own other]
    exact follows mem x name

/-- The next signal is connected, whose cache holds no empty pointer, and the client
holds nothing of it that the server has not. -/
theorem Follows.connect [Inhabited V] (formed : Formed watched st) (follows : Follows n server client st) {rest : List (Name δ π σ μ)}
    {entries : Entries V} (next : st.toConnect = m :: rest) (replays : server.Replays entries m)
    (fresh : n = m → ∀ x : Cell δ π σ μ, x.name = n →
      server.cell x ≠ some none ∧ (server.cell x = none → client.cell x = none)) :
    Follows n server client { st with
      connected := st.connected ++ [m], toConnect := rest
      queue := st.queue ++ (server.cachedMessages entries m).map (Prod.mk .replayed) } := by
  have new : m ∉ st.connected := by
    have nodup := watched.nodup
    rw [← formed.names, next] at nodup
    exact fun mem => List.disjoint_of_nodup_append nodup mem List.mem_cons_self
  intro mem x name
  show caughtUp effect (st.queue ++ _) client.cell x = server.cell x
  rw [caughtUp_append]
  by_cases e : n = m
  · subst e
    apply caughtUp_faithful
    · intro e mem w written
      obtain ⟨msg, replayed, rfl⟩ := List.mem_map.mp mem
      obtain ⟨own, held⟩ := effect_cachedMessages replays replayed written
      exact held (fresh rfl w.1 own).1
    · by_cases cached : server.cell x = none
      · right
        have unwritten : ∀ e ∈ st.queue, ¬ Writes effect x e := by
          rintro e mem ⟨v, written⟩
          exact new (name ▸ formed.queued e mem x v written)
        rw [caughtUp_of_not_writes unwritten, cached]
        exact (fresh rfl x name).2 cached
      · left
        obtain ⟨msg, mem, v, written⟩ := replayed_of_cached (name ▸ replays) cached
        exact ⟨(.replayed, msg), List.mem_map_of_mem (name ▸ mem), v, written⟩
  · have old : n ∈ st.connected := by
      rcases List.mem_append.mp mem with mem | mem
      · exact mem
      · exact absurd (List.mem_singleton.mp mem) e
    rw [caughtUp_of_not_writes, follows old x name]
    rintro e' mem' ⟨v, written⟩
    obtain ⟨msg, replayed, rfl⟩ := List.mem_map.mp mem'
    exact e (name ▸ (effect_cachedMessages replays replayed written).1)

/-! ## Steps -/

variable [DecidableEq V] [Inhabited V] {s s' : Link δ π σ μ V}

theorem Link.step_watch (stepped : s.step watched .watch = some s') :
    s.stream = none ∧ s' = { s with stream := some { toConnect := watched.names } } := by
  simp only [Link.step] at stepped
  cases e : s.stream <;> simp_all

theorem Link.step_connect {entries : Entries V} (stepped : s.step watched (.connect entries) = some s') :
    ∃ st n rest, s.stream = some st ∧ st.toConnect = n :: rest ∧ s.server.Replays entries n ∧
      s' = s.connect st n rest entries := by
  simp only [Link.step] at stepped
  cases e : s.stream with
  | none => simp [e] at stepped
  | some st =>
    cases e' : st.toConnect with
    | nil => simp [e, e'] at stepped
    | cons n rest =>
      simp only [e, e'] at stepped
      split at stepped
      next replays => exact ⟨st, n, rest, rfl, e', replays, (Option.some.inj stepped).symm⟩
      next => cases stepped

theorem Link.step_complete (stepped : s.step watched .complete = some s') :
    ∃ st, s.stream = some st ∧ st.toConnect = [] ∧ st.initialized = false ∧
      s' = { s with stream := some { st with initialized := true, queue := st.queue ++ [(.completion, {})] } } := by
  simp only [Link.step] at stepped
  cases e : s.stream with
  | none => simp [e] at stepped
  | some st =>
    simp only [e] at stepped
    split at stepped
    next ready => exact ⟨st, rfl, ready.1, ready.2, (Option.some.inj stepped).symm⟩
    next => cases stepped

theorem Link.step_deliver (stepped : s.step watched .deliver = some s') :
    ∃ st origin msg rest, s.stream = some st ∧ st.initialized = true ∧ st.queue = (origin, msg) :: rest ∧
      s' = { s with
        client := s.client.process msg
        stream := some { st with queue := rest, complete := st.complete || origin == .completion } } := by
  simp only [Link.step] at stepped
  cases e : s.stream with
  | none => simp [e] at stepped
  | some st =>
    simp only [e] at stepped
    split at stepped
    next origin msg rest initialized queue =>
      exact ⟨st, origin, msg, rest, rfl, initialized, queue, (Option.some.inj stepped).symm⟩
    next => cases stepped

/-- The stream is as the server and the client have made it. -/
def Sound (watched : Watched δ π σ μ) (s : Link δ π σ μ V) : Prop := ∀ st, s.stream = some st → Formed watched st

omit [DecidableEq V] [Inhabited V] in
theorem Sound.forward (sound : Sound watched s) (server : Caches δ π σ μ V) {m : Name δ π σ μ} {msg : Msg δ π σ μ V}
    (own : ∀ x v, msg.effect = some (x, v) → x.name = m) : Sound watched ({ s with server := server }.forward m msg) := by
  intro st e
  obtain ⟨st, stream, rfl⟩ := Option.map_eq_some_iff.mp e
  split
  next connected =>
    apply (sound st stream).append
    intro e mem x v written
    obtain rfl := List.mem_singleton.mp mem
    rwa [own x v written]
  next => exact sound st stream

theorem Sound.step (sound : Sound watched s) (a : Action δ π σ μ V) (stepped : s.step watched a = some s') :
    Sound watched s' := by
  cases a with
  | emitData i value =>
    obtain rfl := Option.some.inj stepped
    exact sound.forward _ fun x v e => (effect_ofData e).1 ▸ rfl
  | emitPointer i value =>
    obtain rfl := Option.some.inj stepped
    exact sound.forward _ fun x v e => (effect_ofPointer e).1 ▸ rfl
  | emitShared i value =>
    obtain rfl := Option.some.inj stepped
    exact sound.forward _ fun x v e => (effect_ofShared e).1 ▸ rfl
  | emitMapping i action key value =>
    obtain rfl := Option.some.inj stepped
    exact sound.forward _ fun x v e => effect_ofMapping e ▸ rfl
  | watch =>
    obtain ⟨-, rfl⟩ := Link.step_watch stepped
    intro st e
    obtain rfl := Option.some.inj e
    exact .new watched
  | connect entries =>
    obtain ⟨st, n, rest, stream, next, replays, rfl⟩ := Link.step_connect stepped
    have formed := sound st stream
    intro st' e
    obtain rfl := Option.some.inj e
    refine { names := ?_, initialized := ?_, complete := formed.complete, queued := ?_ }
    · rw [← formed.names, next]
      simp
    · intro initialized
      simp [formed.initialized initialized] at next
    · intro e mem x v written
      rcases List.mem_append.mp mem with mem | mem
      · exact List.mem_append_left _ (formed.queued e mem x v written)
      · obtain ⟨msg, replayed, rfl⟩ := List.mem_map.mp mem
        simp [(effect_cachedMessages replays replayed written).1]
  | complete =>
    obtain ⟨st, stream, next, -, rfl⟩ := Link.step_complete stepped
    have formed := sound st stream
    intro st' e
    obtain rfl := Option.some.inj e
    refine { names := formed.names, initialized := fun _ => next, complete := fun _ => rfl, queued := ?_ }
    intro e mem x v written
    rcases List.mem_append.mp mem with mem | mem
    · exact formed.queued e mem x v written
    · obtain rfl := List.mem_singleton.mp mem
      cases written
  | deliver =>
    obtain ⟨st, origin, msg, rest, stream, initialized, queue, rfl⟩ := Link.step_deliver stepped
    have formed := sound st stream
    intro st' e
    obtain rfl := Option.some.inj e
    refine { names := formed.names, initialized := formed.initialized, complete := fun _ => initialized, queued := ?_ }
    intro e mem
    exact formed.queued e (by simp [queue, mem])
  | disconnect =>
    obtain ⟨st, -, rfl⟩ := Option.map_eq_some_iff.mp stepped
    intro st' e
    cases e

/-- The client catches up with a signal of the server. -/
def Mirrors (n : Name δ π σ μ) (s : Link δ π σ μ V) : Prop :=
  ∀ st, s.stream = some st → Follows n s.server s.client st

/-- Nothing of the signal goes unsaid: an empty pointer is not emitted or replayed to
the client, and what the server has no longer is not what the client still has. -/
def Told (n : Name δ π σ μ) (s : Link δ π σ μ V) : Action δ π σ μ V → Prop
  | .emitPointer i none => n = .pointer i → ∀ st, s.stream = some st → n ∉ st.connected
  | .emitShared i none => n = .shared i → ∀ st, s.stream = some st → n ∉ st.connected
  | .connect _ => s.next = some n → ∀ x : Cell δ π σ μ, x.name = n →
      s.server.cell x ≠ some none ∧ (s.server.cell x = none → s.client.cell x = none)
  | _ => True

omit [DecidableEq V] [Inhabited V] in
theorem Mirrors.forward {n : Name δ π σ μ} (mirrors : Mirrors n s) {server : Caches δ π σ μ V} {m : Name δ π σ μ}
    {msg : Msg δ π σ μ V} {w : Option (Cell δ π σ μ × Option (Option V))} (stored : server.cell = write w s.server.cell)
    (own : ∀ x v, w = some (x, v) → x.name = m) (sent : ∀ x v, msg.effect = some (x, v) → x.name = m)
    (same : ∀ st, s.stream = some st → n = m → n ∈ st.connected → msg.effect = w) :
    Mirrors n ({ s with server := server }.forward m msg) := by
  intro st e
  obtain ⟨st, stream, rfl⟩ := Option.map_eq_some_iff.mp e
  exact (mirrors st stream).emit stored own sent (same st stream)

theorem Mirrors.step {n : Name δ π σ μ} (sound : Sound watched s) (mirrors : Mirrors n s) {a : Action δ π σ μ V}
    (told : Told n s a) (stepped : s.step watched a = some s') : Mirrors n s' := by
  cases a with
  | emitData i value =>
    obtain rfl := Option.some.inj stepped
    refine mirrors.forward (cell_emitData _ i value) ?_ (fun x v e => (effect_ofData e).1 ▸ rfl) fun _ _ _ _ => rfl
    rintro x v e
    obtain ⟨rfl, -⟩ := Prod.mk.inj (Option.some.inj e)
    rfl
  | emitPointer i value =>
    obtain rfl := Option.some.inj stepped
    refine mirrors.forward (cell_emitPointer _ i value) ?_ (fun x v e => (effect_ofPointer e).1 ▸ rfl) ?_
    · rintro x v e
      obtain ⟨rfl, -⟩ := Prod.mk.inj (Option.some.inj e)
      rfl
    · intro st stream e connected
      cases value with
      | none => exact absurd connected (told e st stream)
      | some value => rfl
  | emitShared i value =>
    obtain rfl := Option.some.inj stepped
    refine mirrors.forward (cell_emitShared _ i value) ?_ (fun x v e => (effect_ofShared e).1 ▸ rfl) ?_
    · rintro x v e
      obtain ⟨rfl, -⟩ := Prod.mk.inj (Option.some.inj e)
      rfl
    · intro st stream e connected
      cases value with
      | none => exact absurd connected (told e st stream)
      | some value => rfl
  | emitMapping i action key value =>
    obtain rfl := Option.some.inj stepped
    exact mirrors.forward (cell_emitMapping _ i action key value) (fun x v e => effect_ofMapping e ▸ rfl)
      (fun x v e => effect_ofMapping e ▸ rfl) fun _ _ _ _ => rfl
  | watch =>
    obtain ⟨-, rfl⟩ := Link.step_watch stepped
    intro st e mem
    obtain rfl := Option.some.inj e
    cases mem
  | connect entries =>
    obtain ⟨st, m, rest, stream, next, replays, rfl⟩ := Link.step_connect stepped
    intro st' e
    obtain rfl := Option.some.inj e
    apply (mirrors st stream).connect (sound st stream) next replays
    rintro rfl
    exact told (by simp [Link.next, stream, next])
  | complete =>
    obtain ⟨st, stream, -, -, rfl⟩ := Link.step_complete stepped
    intro st' e mem x name
    obtain rfl := Option.some.inj e
    show caughtUp effect (st.queue ++ _) _ _ = _
    rw [caughtUp_append]
    exact mirrors st stream mem x name
  | deliver =>
    obtain ⟨st, origin, msg, rest, stream, -, queue, rfl⟩ := Link.step_deliver stepped
    intro st' e mem x name
    obtain rfl := Option.some.inj e
    have before := mirrors st stream mem x name
    rw [queue, caughtUp_cons] at before
    show caughtUp effect rest (s.client.process msg).cell x = _
    rw [cell_process]
    exact before
  | disconnect =>
    obtain ⟨st, -, rfl⟩ := Option.map_eq_some_iff.mp stepped
    intro st' e
    cases e

omit [DecidableEq V] [Inhabited V] in
/-- With nothing left to deliver, the client holds what the server has. -/
theorem Mirrors.settled {n : Name δ π σ μ} (sound : Sound watched s) (mirrors : Mirrors n s) (settled : s.Settled)
    (mem : n ∈ watched.names) {x : Cell δ π σ μ} (name : x.name = n) : s.client.cell x = s.server.cell x := by
  obtain ⟨st, stream, complete, queue⟩ := settled
  have formed := sound st stream
  have connected : n ∈ st.connected := by
    rw [← formed.names, formed.initialized (formed.complete complete), List.append_nil] at mem
    exact mem
  simpa [queue] using mirrors st stream connected x name

/-! ## Mappings across streams -/

/-- A client has no keys of a mapping that the server has dropped while it was away. -/
def Renewed (_ : List (Event δ π σ μ V)) (s : Link δ π σ μ V) : Action δ π σ μ V → Prop
  | .connect _ => ∀ i ∈ s.next.bind Name.mapping?, ∀ key ∈ (s.client.mapping i).keys, key ∈ s.server.mapping i
  | _ => True

instance (h : List (Event δ π σ μ V)) (s : Link δ π σ μ V) (a : Action δ π σ μ V) : Decidable (Renewed h s a) :=
  match a with
  | .connect _ => inferInstanceAs (Decidable (∀ i ∈ s.next.bind Name.mapping?, _))
  | .emitData .. | .emitPointer .. | .emitShared .. | .emitMapping .. | .watch | .complete | .deliver | .disconnect =>
    inferInstanceAs (Decidable True)

omit [DecidableEq δ] [DecidableEq π] [DecidableEq σ] [DecidableEq μ] [DecidableEq V] in
theorem Renewed.told {h : List (Event δ π σ μ V)} {a : Action δ π σ μ V} (renewed : Renewed h s a) (i : μ) :
    Told (.mapping i) s a := by
  cases a with
  | connect entries =>
    intro next x name
    cases x with
    | data | pointer | shared => cases name
    | mapping j key =>
      obtain rfl : j = i := by simpa [Cell.name] using name
      refine ⟨by simp [Caches.cell], fun gone => ?_⟩
      have gone : (s.server.mapping j).lookup key = none := Option.map_eq_none_iff.mp gone
      refine Option.map_eq_none_iff.mpr ?_
      by_contra held
      have key_mem : key ∈ s.client.mapping j := AList.lookup_isSome.mp (Option.isSome_iff_ne_none.mpr held)
      have kept := renewed j (by simp [next, Name.mapping?]) key key_mem
      exact AList.lookup_eq_none.mp gone kept
  | emitPointer i value | emitShared i value =>
    cases value with
    | none => intro e; cases e
    | some value => trivial
  | _ => trivial

theorem sound_of_run {allowed : List (Event δ π σ μ V) → Link δ π σ μ V → Action δ π σ μ V → Prop}
    {server client : Caches δ π σ μ V} {h : List (Event δ π σ μ V)}
    (run : (watch watched).Run allowed { server := server, client := client } h s) : Sound watched s := by
  refine run.invariant (I := fun _ s => Sound watched s) ?_ fun _ _ a _ sound _ stepped => sound.step a stepped
  intro st e
  cases e

/-- In every run in which the signal is told of, whatever the caches were before. -/
theorem mirrors_of_run {n : Name δ π σ μ} {allowed : List (Event δ π σ μ V) → Link δ π σ μ V → Action δ π σ μ V → Prop}
    (told : ∀ h s a, allowed h s a → Told n s a) {server client : Caches δ π σ μ V} {h : List (Event δ π σ μ V)}
    (run : (watch watched).Run allowed { server := server, client := client } h s) : Mirrors n s := by
  have both : Sound watched s ∧ Mirrors n s := by
    refine run.invariant (I := fun _ s => Sound watched s ∧ Mirrors n s) ⟨?_, ?_⟩ ?_
    · intro st e
      cases e
    · intro st e
      cases e
    · intro h s a s' both ok stepped
      exact ⟨both.1.step a stepped, both.2.step both.1 (told h s a ok) stepped⟩
  exact both.2

/-- Where no key was dropped behind the client's back, it has the server's mapping
whenever its stream has delivered everything. -/
theorem mapping_mirrored (watched : Watched δ π σ μ) (server client : Caches δ π σ μ V) (h : List (Event δ π σ μ V))
    (s : Link δ π σ μ V) (run : (watch watched).Run Renewed { server := server, client := client } h s)
    (settled : s.Settled) (i : μ) (mem : .mapping i ∈ watched.names) (key : String) :
    (s.client.mapping i).lookup key = (s.server.mapping i).lookup key := by
  have mirrors : Mirrors (.mapping i) s := mirrors_of_run (fun h s a renewed => renewed.told i) run
  exact Option.map_injective (Option.some_injective V)
    (mirrors.settled (sound_of_run run) settled mem (x := .mapping i key) rfl)

end Streams

/-! ## A removal during an outage -/

/-- One signal, with a mapping. -/
def oneMapping : Watched Empty Empty Empty Unit := { names := [.mapping ()], nodup := List.nodup_singleton _ }

/-- What is cached comes to the client, and the stream breaks. -/
def outage : List (Action Empty Empty Empty Unit Bool) :=
  [.emitMapping () .addition "key" true, .watch, .connect [⟨"key", true⟩], .complete, .deliver, .deliver, .disconnect]

theorem update_mirrored : ∃ s : Link Empty Empty Empty Unit Bool, (s.client.mapping ()).lookup "key" = some false ∧
    (s.client.mapping ()).lookup "key" = (s.server.mapping ()).lookup "key" :=
  ⟨_, rfl, mapping_mirrored oneMapping {} {} _ _
    (Machine.Run.exec .start (show (watch oneMapping).exec Renewed
      (outage ++ [.emitMapping () .update "key" false, .watch, .connect [⟨"key", false⟩], .complete, .deliver, .deliver])
      ([], {}) = some (_, _) from rfl))
    ⟨_, rfl, rfl, rfl⟩ () (by simp [oneMapping]) "key"⟩

theorem removal_not_mirrored : ¬ ∀ (h : List (Event Empty Empty Empty Unit Bool)) (s : Link Empty Empty Empty Unit Bool),
    (watch oneMapping).Run Machine.anyStep {} h s → s.Settled →
      ∀ key, (s.client.mapping ()).lookup key = (s.server.mapping ()).lookup key := by
  intro all
  have run := Machine.Run.exec .start (show (watch oneMapping).exec Machine.anyStep
    (outage ++ [.emitMapping () .removal "key" false, .watch, .connect [], .complete, .deliver])
    ([], ({} : Link Empty Empty Empty Unit Bool)) = some (_, _) from rfl)
  have same := all _ _ run ⟨_, rfl, rfl, rfl⟩ "key"
  cases same

end SignalStream

end CommonCore
