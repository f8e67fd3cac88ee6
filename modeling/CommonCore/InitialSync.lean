import CommonCore.SignalMirrors

/-!
# The end of the cache

The client takes a message without a signal for the end of the cache. An empty
pointer of a `SharedDataSignal` makes such a message too, and an empty pointer in
its cache makes none at all. An empty pointer of a `DataSignal` comes to the client
as a pointer to a default object.
-/

namespace CommonCore

namespace SignalStream

variable {δ π σ μ V : Type}

/-- The client is told of the end of the cache by the message that ends it, when
it has received all that was cached, and holds the pointers that were last emitted. -/
structure Synchronized (watched : Watched δ π σ μ) (h : List (Event δ π σ μ V)) (s : Link δ π σ μ V) : Prop where
  initComplete : ∀ origin left, .initComplete origin left ∈ h → origin = .completion ∧ left = []
  sharedPointers : s.Settled → ∀ i, .shared i ∈ watched.names → s.client.shared i = s.server.shared i
  pointers : s.Settled → ∀ i, .pointer i ∈ watched.names → s.client.pointer i = s.server.pointer i

/-- A signal that is connected has no empty pointer to replay, and of what it has
not cached the client holds nothing. -/
def ConnectsFilled (server client : Caches δ π σ μ V) : Name δ π σ μ → Prop
  | .pointer i => server.pointer i ≠ some none ∧ ((server.pointer i).isNone → (client.pointer i).isNone)
  | .shared i => (server.shared i).isNone → (client.shared i).isNone
  | _ => True

/-- No empty pointer is emitted or replayed to the client. -/
def Filled (_ : List (Event δ π σ μ V)) (s : Link δ π σ μ V) : Action δ π σ μ V → Prop
  | .emitPointer i none => ∀ st ∈ s.stream, .pointer i ∉ st.connected
  | .emitShared i none => ∀ st ∈ s.stream, .shared i ∉ st.connected
  | .connect _ => ∀ n ∈ s.next, ConnectsFilled s.server s.client n
  | _ => True

/-! ## What is in the queue -/

/-- The only message without a signal is the one that ends the cache, and what
is replayed comes before it. -/
structure Ordered (st : Stream δ π σ μ V) : Prop where
  unset : ∀ e ∈ st.queue, e.2.signal = none → e.1 = .completion
  pending : st.initialized = false → ∀ e ∈ st.queue, e.1 ≠ .completion
  sorted : st.queue.Pairwise fun e e' => e.1 = .completion → e'.1 ≠ .replayed

theorem Ordered.append {st : Stream δ π σ μ V} (ordered : Ordered st) (msgs : Queue δ π σ μ V)
    (encoded : ∀ e ∈ msgs, e.2.signal ≠ none ∧ e.1 ≠ .completion)
    (late : st.initialized = false ∨ ∀ e ∈ msgs, e.1 ≠ .replayed) : Ordered { st with queue := st.queue ++ msgs } := by
  refine { unset := ?_, pending := ?_, sorted := ?_ }
  · intro e mem unset
    rcases List.mem_append.mp mem with mem | mem
    · exact ordered.unset e mem unset
    · exact absurd unset (encoded e mem).1
  · intro starting e mem
    rcases List.mem_append.mp mem with mem | mem
    · exact ordered.pending starting e mem
    · exact (encoded e mem).2
  · refine List.pairwise_append.mpr ⟨ordered.sorted, ?_, ?_⟩
    · exact List.pairwise_of_forall_mem_list fun e mem _ _ ended => absurd ended (encoded e mem).2
    · intro e mem e' mem' ended
      rcases late with starting | late
      · exact absurd ended (ordered.pending starting e mem)
      · exact late e' mem'

theorem cachedMessages_set [Inhabited V] {c : Caches δ π σ μ V} {entries : Entries V} {n : Name δ π σ μ} {msg : Msg δ π σ μ V}
    (mem : msg ∈ c.cachedMessages entries n) : msg.signal ≠ none := by
  cases n with
  | data i =>
    simp only [Caches.cachedMessages, Option.mem_toList, Option.map_eq_some_iff] at mem
    obtain ⟨v, -, rfl⟩ := mem
    simp [Msg.ofData]
  | pointer i =>
    simp only [Caches.cachedMessages, Option.mem_toList, Option.map_eq_some_iff] at mem
    obtain ⟨v, -, rfl⟩ := mem
    simp [Msg.ofPointer]
  | shared i =>
    simp only [Caches.cachedMessages, Option.mem_toList, Option.map_eq_some_iff] at mem
    obtain ⟨v, -, rfl⟩ := mem
    simp [Msg.ofShared]
  | mapping i =>
    simp only [Caches.cachedMessages, List.mem_map] at mem
    obtain ⟨entry, -, rfl⟩ := mem
    simp [Msg.ofMapping]

section Streams

variable [DecidableEq δ] [DecidableEq π] [DecidableEq σ] [DecidableEq μ]

instance [DecidableEq V] (server client : Caches δ π σ μ V) (n : Name δ π σ μ) :
    Decidable (ConnectsFilled server client n) :=
  match n with
  | .pointer i => inferInstanceAs (Decidable (server.pointer i ≠ some none ∧ (_ → _)))
  | .shared i => inferInstanceAs (Decidable ((server.shared i).isNone → (client.shared i).isNone))
  | .data _ | .mapping _ => inferInstanceAs (Decidable True)

instance [DecidableEq V] (h : List (Event δ π σ μ V)) (s : Link δ π σ μ V) (a : Action δ π σ μ V) :
    Decidable (Filled h s a) :=
  match a with
  | .emitPointer i none => inferInstanceAs (Decidable (∀ st ∈ s.stream, .pointer i ∉ st.connected))
  | .emitShared i none => inferInstanceAs (Decidable (∀ st ∈ s.stream, .shared i ∉ st.connected))
  | .connect _ => inferInstanceAs (Decidable (∀ n ∈ s.next, ConnectsFilled s.server s.client n))
  | .emitData .. | .emitPointer _ (some _) | .emitShared _ (some _) | .emitMapping .. | .watch | .complete | .deliver
  | .disconnect => inferInstanceAs (Decidable True)

variable {s s' : Link δ π σ μ V} {st : Stream δ π σ μ V} {watched : Watched δ π σ μ} {h : List (Event δ π σ μ V)}

omit [DecidableEq δ] [DecidableEq π] [DecidableEq σ] [DecidableEq μ] in
theorem Filled.told_shared {a : Action δ π σ μ V} (filled : Filled h s a) (i : σ) : Told (.shared i) s a := by
  cases a with
  | connect entries =>
    intro next x name
    cases x with
    | data | pointer | mapping => cases name
    | shared j =>
      obtain rfl : j = i := by simpa [Cell.name] using name
      refine ⟨by simp [Caches.cell], fun gone => ?_⟩
      have gone : s.server.shared j = none := Option.map_eq_none_iff.mp gone
      have empty := filled (.shared j) next (by simp [gone])
      exact Option.map_eq_none_iff.mpr (Option.isNone_iff_eq_none.mp empty)
  | emitShared j value =>
    cases value with
    | none =>
      intro same st stream
      obtain rfl : i = j := by simpa using same
      exact filled st stream
    | some value => trivial
  | emitPointer j value =>
    cases value with
    | none => intro e; cases e
    | some value => trivial
  | _ => trivial

omit [DecidableEq δ] [DecidableEq π] [DecidableEq σ] [DecidableEq μ] in
theorem Filled.told_pointer {a : Action δ π σ μ V} (filled : Filled h s a) (i : π) : Told (.pointer i) s a := by
  cases a with
  | connect entries =>
    intro next x name
    cases x with
    | data | shared | mapping => cases name
    | pointer j =>
      obtain rfl : j = i := by simpa [Cell.name] using name
      have ready := filled (.pointer j) next
      exact ⟨ready.1, fun gone => Option.isNone_iff_eq_none.mp (ready.2 (Option.isNone_iff_eq_none.mpr gone))⟩
  | emitPointer j value =>
    cases value with
    | none =>
      intro same st stream
      obtain rfl : i = j := by simpa using same
      exact filled st stream
    | some value => trivial
  | emitShared j value =>
    cases value with
    | none => intro e; cases e
    | some value => trivial
  | _ => trivial

/-! ## Steps -/

def InOrder (s : Link δ π σ μ V) : Prop := ∀ st, s.stream = some st → Ordered st

theorem InOrder.forward (ordered : InOrder s) (server : Caches δ π σ μ V) {n : Name δ π σ μ} {msg : Msg δ π σ μ V}
    (encoded : ∀ st ∈ s.stream, n ∈ st.connected → msg.signal ≠ none) :
    InOrder ({ s with server := server }.forward n msg) := by
  intro st e
  obtain ⟨st, stream, rfl⟩ := Option.map_eq_some_iff.mp e
  split
  next connected =>
    apply (ordered st stream).append
    · intro e mem
      obtain rfl := List.mem_singleton.mp mem
      exact ⟨encoded st stream connected, by simp⟩
    · right
      intro e mem
      obtain rfl := List.mem_singleton.mp mem
      simp
  next => exact ordered st stream

theorem InOrder.step [DecidableEq V] [Inhabited V] (sound : Sound watched s) (ordered : InOrder s) {a : Action δ π σ μ V}
    (filled : Filled h s a) (stepped : s.step watched a = some s') : InOrder s' := by
  cases a with
  | emitData i value =>
    obtain rfl := Option.some.inj stepped
    exact ordered.forward _ fun _ _ _ => by simp [Msg.ofData]
  | emitPointer i value =>
    obtain rfl := Option.some.inj stepped
    exact ordered.forward _ fun _ _ _ => by simp [Msg.ofPointer]
  | emitShared i value =>
    obtain rfl := Option.some.inj stepped
    apply ordered.forward
    intro st stream connected
    cases value with
    | none => exact absurd connected (filled st stream)
    | some value => simp [Msg.ofShared]
  | emitMapping i action key value =>
    obtain rfl := Option.some.inj stepped
    exact ordered.forward _ fun _ _ _ => by simp [Msg.ofMapping]
  | watch =>
    obtain ⟨-, rfl⟩ := Link.step_watch stepped
    intro st e
    obtain rfl := Option.some.inj e
    exact { unset := by simp, pending := by simp, sorted := .nil }
  | connect entries =>
    obtain ⟨st, n, rest, stream, next, -, rfl⟩ := Link.step_connect stepped
    intro st' e
    obtain rfl := Option.some.inj e
    have starting : st.initialized = false := by
      by_contra initialized
      simp [(sound st stream).initialized (by simpa using initialized)] at next
    have appended := (ordered st stream).append ((s.server.cachedMessages entries n).map (Prod.mk .replayed))
      (by
        intro e mem
        obtain ⟨msg, cached, rfl⟩ := List.mem_map.mp mem
        exact ⟨cachedMessages_set cached, by simp⟩)
      (.inl starting)
    exact { unset := appended.unset, pending := appended.pending, sorted := appended.sorted }
  | complete =>
    obtain ⟨st, stream, -, starting, rfl⟩ := Link.step_complete stepped
    have before := ordered st stream
    intro st' e
    obtain rfl := Option.some.inj e
    refine { unset := ?_, pending := by simp, sorted := ?_ }
    · intro e mem unset
      rcases List.mem_append.mp mem with mem | mem
      · exact before.unset e mem unset
      · obtain rfl := List.mem_singleton.mp mem
        rfl
    · refine List.pairwise_append.mpr ⟨before.sorted, List.pairwise_singleton _ _, ?_⟩
      intro e mem e' mem' ended
      exact absurd ended (before.pending starting e mem)
  | deliver =>
    obtain ⟨st, origin, msg, rest, stream, initialized, queue, rfl⟩ := Link.step_deliver stepped
    have before := ordered st stream
    intro st' e
    obtain rfl := Option.some.inj e
    refine { unset := ?_, pending := ?_, sorted := ?_ }
    · intro e mem
      exact before.unset e (by simp [queue, mem])
    · intro starting
      simp [initialized] at starting
    · have sorted := before.sorted
      rw [queue] at sorted
      exact (List.pairwise_cons.mp sorted).2
  | disconnect =>
    obtain ⟨st, -, rfl⟩ := Option.map_eq_some_iff.mp stepped
    intro st' e
    cases e

omit [DecidableEq δ] [DecidableEq π] [DecidableEq σ] [DecidableEq μ] in
/-- What ends the cache for the client, in a queue that is in order. -/
theorem InOrder.initComplete (ordered : InOrder s) {a : Action δ π σ μ V} {origin : Origin} {left : Queue δ π σ μ V}
    (e : s.event a = some (.initComplete origin left)) : origin = .completion ∧ left = [] := by
  cases a with
  | deliver =>
    simp only [Link.event] at e
    cases stream : s.stream with
    | none => simp [stream] at e
    | some st =>
      simp only [stream] at e
      split at e
      next origin' msg rest initialized queue =>
        split at e
        next unset =>
          obtain ⟨rfl, rfl⟩ := Event.initComplete.inj (Option.some.inj e)
          have ended := (ordered st stream).unset (origin', msg) (by simp [queue]) (by simpa using unset)
          have sorted := (ordered st stream).sorted
          rw [queue] at sorted
          refine ⟨ended, List.filter_eq_nil_iff.mpr ?_⟩
          intro e mem
          simpa using (List.pairwise_cons.mp sorted).1 e mem ended
        next => cases e
      next => cases e
  | _ => cases e

/-! ## Streams without empty pointers -/

/-- The run is of a client that starts with whatever signals it has. -/
theorem synchronized_of_filled [DecidableEq V] [Inhabited V] (watched : Watched δ π σ μ)
    (server client : Caches δ π σ μ V) (h : List (Event δ π σ μ V)) (s : Link δ π σ μ V)
    (run : (watch watched).Run Filled { server := server, client := client } h s) : Synchronized watched h s where
  initComplete := by
    have all : Sound watched s ∧ InOrder s ∧
        ∀ origin left, .initComplete origin left ∈ h → origin = .completion ∧ left = [] := by
      refine run.invariant (I := fun h s => Sound watched s ∧ InOrder s ∧
        ∀ origin left, .initComplete origin left ∈ h → origin = .completion ∧ left = []) ⟨?_, ?_, ?_⟩ ?_
      · intro st e
        cases e
      · intro st e
        cases e
      · intro origin left mem
        cases mem
      · rintro h s a s' ⟨sound, ordered, known⟩ filled stepped
        refine ⟨sound.step a stepped, ordered.step sound filled stepped, ?_⟩
        intro origin left mem
        rcases List.mem_append.mp mem with mem | mem
        · exact ordered.initComplete (Option.mem_toList.mp mem)
        · exact known origin left mem
    exact all.2.2
  sharedPointers settled i mem := by
    have mirrors : Mirrors (.shared i) s := mirrors_of_run (fun h s a filled => filled.told_shared i) run
    exact Option.map_injective (Option.some_injective V)
      (mirrors.settled (sound_of_run run) settled mem (x := .shared i) rfl)
  pointers settled i mem := by
    have mirrors : Mirrors (.pointer i) s := mirrors_of_run (fun h s a filled => filled.told_pointer i) run
    exact mirrors.settled (sound_of_run run) settled mem (x := .pointer i) rfl

end Streams

/-! ## An empty pointer among the replayed -/

/-- Two shared data signals, and one with pointers for its data. -/
def threePointers : Watched Empty Unit Bool Empty :=
  { names := [.shared false, .shared true, .pointer ()], nodup := by decide }

/-- All are cached, and the client is connected to the first. -/
def connecting : List (Action Empty Unit Bool Empty Bool) :=
  [.emitShared false (some true), .emitShared true (some true), .emitPointer () none, .emitPointer () (some true),
    .watch, .connect []]

theorem pointer_synchronized : ∃ s : Link Empty Unit Bool Empty Bool,
    s.client.shared false = some false ∧ s.client.pointer () = some (some false) ∧
      Synchronized threePointers [.initComplete .completion []] s :=
  ⟨_, rfl, rfl, synchronized_of_filled threePointers {} {} _ _
    (Machine.Run.exec .start (show (watch threePointers).exec Filled
      (connecting ++ [.emitShared false (some false), .connect [], .connect [], .complete, .emitPointer () (some false),
        .deliver, .deliver, .deliver, .deliver, .deliver, .deliver]) ([], {}) = some (_, _) from rfl))⟩

theorem empty_pointer_not_synchronized :
    ¬ ∀ (h : List (Event Empty Unit Bool Empty Bool)) (s : Link Empty Unit Bool Empty Bool),
      (watch threePointers).Run Machine.anyStep {} h s → Synchronized threePointers h s := by
  intro all
  have run := Machine.Run.exec .start (show (watch threePointers).exec Machine.anyStep
    (connecting ++ [.emitShared false none, .connect [], .connect [], .complete, .deliver, .deliver])
    ([], ({} : Link Empty Unit Bool Empty Bool)) = some (_, _) from rfl)
  have ended := (all _ _ run).initComplete .emitted
    [(.replayed, .ofShared true (some true)), (.replayed, .ofPointer () (some true))] List.mem_cons_self
  cases ended.1

end SignalStream

end CommonCore
