import Mathlib.Logic.Function.Basic
import Mathlib.Data.List.Basic
import Mathlib.Tactic.Common

/-!
# Replicas behind a queue

A replica of a store of cells is told of the writes to them through a queue of
messages, each of which writes one cell at most. What counts is what the replica
will hold when it has caught up.
-/

namespace CommonCore

namespace QueuedReplica

variable {C V M : Type} [DecidableEq C]

/-- What the write of a cell makes of a store. -/
def write : Option (C × Option V) → (C → Option V) → C → Option V
  | some w, f => Function.update f w.1 w.2
  | none, f => f

variable (effect : M → Option (C × Option V))

/-- The replica when it has caught up with the queue. -/
def caughtUp (queue : List M) (replica : C → Option V) : C → Option V :=
  queue.foldl (fun f m => write (effect m) f) replica

@[simp] theorem caughtUp_nil (replica : C → Option V) : caughtUp effect [] replica = replica := rfl

@[simp] theorem caughtUp_cons (m : M) (queue : List M) (replica : C → Option V) :
    caughtUp effect (m :: queue) replica = caughtUp effect queue (write (effect m) replica) := rfl

theorem caughtUp_append (queue queue' : List M) (replica : C → Option V) :
    caughtUp effect (queue ++ queue') replica = caughtUp effect queue' (caughtUp effect queue replica) := by
  simp [caughtUp]

/-- The message writes this cell. -/
def Writes (c : C) (m : M) : Prop := ∃ v, effect m = some (c, v)

variable {effect}

theorem write_of_not_writes {c : C} {m : M} (other : ¬ Writes effect c m) (f : C → Option V) :
    write (effect m) f c = f c := by
  cases e : effect m with
  | none => rfl
  | some w =>
    have ne : c ≠ w.1 := by
      rintro rfl
      exact other ⟨w.2, e⟩
    simp [write, ne]

theorem write_of_eq {c : C} {m : M} {v : Option V} (e : effect m = some (c, v)) (f : C → Option V) :
    write (effect m) f c = v := by
  simp [write, e]

/-- Messages that do not write the cell do not matter. -/
theorem caughtUp_of_not_writes {c : C} {queue : List M} (others : ∀ m ∈ queue, ¬ Writes effect c m)
    (replica : C → Option V) : caughtUp effect queue replica c = replica c := by
  induction queue generalizing replica with
  | nil => rfl
  | cons m queue ih =>
    rw [caughtUp_cons, ih (fun m mem => others m (List.mem_cons_of_mem _ mem)),
      write_of_not_writes (others m List.mem_cons_self)]

/-- Messages that write what the store holds leave the replica with that, in
the cells they write. -/
theorem caughtUp_faithful {store : C → Option V} {queue : List M}
    (faithful : ∀ m ∈ queue, ∀ w, effect m = some w → w.2 = store w.1) {c : C} {replica : C → Option V}
    (covered : (∃ m ∈ queue, Writes effect c m) ∨ replica c = store c) :
    caughtUp effect queue replica c = store c := by
  induction queue generalizing replica with
  | nil => simpa using covered
  | cons m queue ih =>
    rw [caughtUp_cons]
    apply ih (fun m mem => faithful m (List.mem_cons_of_mem _ mem))
    by_cases later : ∃ m ∈ queue, Writes effect c m
    · exact .inl later
    · right
      by_cases here : Writes effect c m
      · obtain ⟨v, e⟩ := here
        rw [write_of_eq e]
        exact faithful m List.mem_cons_self _ e
      · rw [write_of_not_writes here]
        rcases covered with ⟨m', mem, writes⟩ | same
        · rcases List.mem_cons.mp mem with rfl | mem
          · exact absurd writes here
          · exact absurd ⟨m', mem, writes⟩ later
        · exact same

end QueuedReplica

end CommonCore
