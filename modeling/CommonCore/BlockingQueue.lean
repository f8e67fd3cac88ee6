import Mathlib

/-!
# Blocking queues

`put` decides whether an item may be pushed in `pushable`, which depends on the
overflow disposition, and returns `true` whatever the decision was. Apart from
that the queue does as it says: it is bounded, keeps the order, and with
`DISCARD_OLDEST` holds the newest items.
-/

namespace CommonCore

/-- `BlockingQueueBase::OverflowDisposition`. -/
inductive OverflowDisposition
  | block | discardItem | discardOldest
  deriving DecidableEq

structure BlockingQueue (T : Type) where
  maxsize : ℕ
  overflowDisposition : OverflowDisposition
  closed : Bool := false
  queue : List T := []

namespace BlockingQueue

variable {T : Type}

def empty (q : BlockingQueue T) : Bool := q.queue.isEmpty

def discardOldest (q : BlockingQueue T) : BlockingQueue T := { q with queue := q.queue.tail }

def push (q : BlockingQueue T) (value : T) : BlockingQueue T := { q with queue := q.queue ++ [value] }

def clear (q : BlockingQueue T) : BlockingQueue T := { q with queue := [] }

def close (q : BlockingQueue T) : BlockingQueue T := { q with closed := true }

def reopen (q : BlockingQueue T) : BlockingQueue T := { q with closed := false }

/-- There is space in the queue. -/
def HasSpace (q : BlockingQueue T) : Prop := q.maxsize = 0 ∨ q.queue.length < q.maxsize

instance (q : BlockingQueue T) : Decidable q.HasSpace := inferInstanceAs (Decidable (_ ∨ _))

/-- `pushable`, or `none` where it waits for space. -/
def pushable (q : BlockingQueue T) : Option (Bool × BlockingQueue T) :=
  if q.HasSpace then some (!q.closed, q)
  else
    match q.overflowDisposition with
    | .block => if q.closed then some (!q.closed, q) else none
    | .discardItem => some (false, q)
    | .discardOldest => some (true, q.discardOldest)

/-- The locked section of `put`: was the item pushed, and the queue afterwards. -/
def putLocked (q : BlockingQueue T) (value : T) : Option (Bool × BlockingQueue T) :=
  q.reopen.pushable.map fun r => (r.1, if r.1 then r.2.push value else r.2)

/-- What comes of a `put`. -/
structure PutResult (T : Type) where
  returned : Bool
  pushed : Bool
  after : BlockingQueue T

/-- `put`, or `none` where it does not return. -/
def put (q : BlockingQueue T) (value : T) (reopen : Bool) : Option (PutResult T) :=
  if reopen || !q.closed then (q.putLocked value).map fun r => ⟨true, r.1, r.2⟩
  else some ⟨false, false, q⟩

/-- The end of `get`. -/
def take (q : BlockingQueue T) : Option T × BlockingQueue T := (q.queue.head?, q.discardOldest)

/-- `get` without a deadline, or `none` where it does not return. -/
def get (q : BlockingQueue T) (shutdown : Bool) : Option (Option T × BlockingQueue T) :=
  if q.empty && !q.closed && !shutdown then none else some q.take

/-- A `put` is refused, pushes its item, drops it, or drops the oldest. -/
theorem put_cases {q : BlockingQueue T} {value : T} {reopen : Bool} {r : PutResult T}
    (h : q.put value reopen = some r) :
    (reopen = false ∧ q.closed = true ∧ r = ⟨false, false, q⟩) ∨
    ((reopen = true ∨ q.closed = false) ∧
      (q.HasSpace ∧ r = ⟨true, true, q.reopen.push value⟩ ∨
        ¬ q.HasSpace ∧ q.overflowDisposition = .discardItem ∧ r = ⟨true, false, q.reopen⟩ ∨
        ¬ q.HasSpace ∧ q.overflowDisposition = .discardOldest ∧
          r = ⟨true, true, q.reopen.discardOldest.push value⟩)) := by
  unfold put at h
  split_ifs at h with ho
  · right
    have hspace : q.reopen.HasSpace ↔ q.HasSpace := Iff.rfl
    refine ⟨by simpa using ho, ?_⟩
    unfold putLocked pushable at h
    by_cases hs : q.HasSpace
    · left
      rw [if_pos (hspace.mpr hs)] at h
      exact ⟨hs, (Option.some.inj h).symm⟩
    · right
      rw [if_neg (mt hspace.mp hs)] at h
      have hsame : q.reopen.overflowDisposition = q.overflowDisposition := rfl
      have hopen : q.reopen.closed = false := rfl
      cases hd : q.overflowDisposition with
      | block => simp [hsame, hopen, hd] at h
      | discardItem =>
        left
        simp only [hsame, hd] at h
        exact ⟨hs, rfl, (Option.some.inj h).symm⟩
      | discardOldest =>
        right
        simp only [hsame, hd] at h
        exact ⟨hs, rfl, (Option.some.inj h).symm⟩
  · left
    have hc : reopen = false ∧ q.closed = true := by simpa using ho
    exact ⟨hc.1, hc.2, (Option.some.inj h).symm⟩

/-! ## Histories -/

/-- An item with its place among the accepted ones, which the queue does not
look at. -/
structure Item (T : Type) where
  place : ℕ
  value : T
  deriving DecidableEq

/-- A queue, the items it has accepted and those it has given out, and how many
of the accepted ones came no later than the last that was given out or cleared. -/
structure History (T : Type) where
  q : BlockingQueue (Item T)
  accepted : List (Item T) := []
  fetched : List (Item T) := []
  gone : ℕ := 0

namespace History

/-- The number that the next accepted item gets. -/
def next (h : History T) (value : T) : Item T := ⟨h.accepted.length, value⟩

def afterPut (h : History T) (value : T) (r : PutResult (Item T)) : History T :=
  { h with q := r.after, accepted := if r.pushed then h.accepted ++ [h.next value] else h.accepted }

def afterGet (h : History T) (r : Option (Item T) × BlockingQueue (Item T)) : History T :=
  match r.1 with
  | some item => { h with q := r.2, fetched := h.fetched ++ [item], gone := item.place + 1 }
  | none => { h with q := r.2 }

/-- One operation after the other. A `get` with a deadline that has passed takes
what there is. -/
inductive Step : History T → History T → Prop
  | put {h value reopen r} : h.q.put (h.next value) reopen = some r → Step h (h.afterPut value r)
  | get {h shutdown r} : h.q.get shutdown = some r → Step h (h.afterGet r)
  | getDeadline {h} : Step h (h.afterGet h.q.take)
  | clear {h} : Step h { h with q := h.q.clear, gone := h.accepted.length }
  | close {h} : Step h { h with q := h.q.close }
  | reopen {h} : Step h { h with q := h.q.reopen }

/-- The queue is what is left of the accepted items after the first `k`. -/
structure Suffix (h : History T) (k : ℕ) : Prop where
  gone : h.gone ≤ k
  length : k ≤ h.accepted.length
  queue : h.q.queue = h.accepted.drop k
  bounded : h.q.maxsize ≠ 0 → h.accepted.length ≤ k + h.q.maxsize
  newest : h.q.overflowDisposition = .discardOldest →
    k = h.gone ∨ h.q.maxsize ≠ 0 ∧ h.accepted.length = k + h.q.maxsize

structure Accounted (h : History T) : Prop where
  places : ∀ i (hi : i < h.accepted.length), h.accepted[i].place = i
  fetched : h.fetched.Sublist (h.accepted.take h.gone)
  suffix : ∃ k, h.Suffix k

theorem Suffix.queue_length {h : History T} {k : ℕ} (hs : h.Suffix k) : h.q.queue.length = h.accepted.length - k := by
  rw [hs.queue, List.length_drop]

variable {h : History T}

theorem Accounted.accept (ha : h.Accounted) {q : BlockingQueue (Item T)} {k : ℕ} {value : T}
    (hs : { h with q, accepted := h.accepted ++ [h.next value] }.Suffix k) :
    { h with q, accepted := h.accepted ++ [h.next value] }.Accounted := by
  obtain ⟨k₀, hk₀⟩ := ha.suffix
  refine ⟨fun i hi => ?_, ?_, k, hs⟩
  · by_cases hlt : i < h.accepted.length
    · simpa [List.getElem_append_left hlt] using ha.places i hlt
    · have hlen : i = h.accepted.length := by
        simp only [List.length_append, List.length_singleton] at hi
        omega
      subst hlen
      simp [next]
  · have hle : h.gone ≤ h.accepted.length := le_trans hk₀.gone hk₀.length
    simpa [List.take_append_of_le_length hle] using ha.fetched

theorem Accounted.put (ha : h.Accounted) {value : T} {reopen : Bool} {r : PutResult (Item T)}
    (hp : h.q.put (h.next value) reopen = some r) : (h.afterPut value r).Accounted := by
  obtain ⟨k, hk⟩ := ha.suffix
  have hlen := hk.queue_length
  rcases put_cases hp with ⟨-, -, rfl⟩ | ⟨-, ⟨hs, rfl⟩ | ⟨-, -, rfl⟩ | ⟨hs, hd, rfl⟩⟩
  · exact ha
  · apply ha.accept (k := k)
    refine ⟨hk.gone, ?_, ?_, fun hm => ?_, fun hd => ?_⟩
    · simpa using le_trans hk.length (Nat.le_succ _)
    · simp [push, BlockingQueue.reopen, hk.queue, List.drop_append_of_le_length hk.length]
    · have := hs.resolve_left hm
      simp only [push, BlockingQueue.reopen, List.length_append, List.length_singleton]
      omega
    · -- a queue with space has dropped nothing since the last fetch
      rcases hk.newest hd with h' | ⟨hm, h'⟩
      · exact .inl h'
      · have := hs.resolve_left hm
        omega
  · exact ⟨ha.places, ha.fetched, k, hk.gone, hk.length, hk.queue, hk.bounded, hk.newest⟩
  · obtain ⟨hm, hfull⟩ := not_or.mp hs
    have hb := hk.bounded hm
    apply ha.accept (k := k + 1)
    refine ⟨le_trans hk.gone (Nat.le_succ k), ?_, ?_, fun _ => ?_, fun _ => .inr ⟨hm, ?_⟩⟩
    · simpa using hk.length
    · have hlt : k + 1 ≤ h.accepted.length := by omega
      simp [push, BlockingQueue.reopen, discardOldest, hk.queue, List.drop_append_of_le_length hlt]
    all_goals
      simp only [push, BlockingQueue.reopen, discardOldest, List.length_append, List.length_singleton]
      omega

theorem Accounted.take (ha : h.Accounted) : (h.afterGet h.q.take).Accounted := by
  obtain ⟨k, hk⟩ := ha.suffix
  unfold afterGet BlockingQueue.take
  by_cases hlt : k < h.accepted.length
  · have hq : h.q.queue = h.accepted[k] :: h.accepted.drop (k + 1) := by
      rw [hk.queue, List.drop_eq_getElem_cons hlt]
    simp only [hq, List.head?_cons]
    refine ⟨ha.places, ?_, k + 1, ?_, hlt, ?_, fun hm => ?_, fun _ => .inl ?_⟩
    · rw [ha.places k hlt]
      have htake : h.accepted.take (k + 1) = h.accepted.take k ++ [h.accepted[k]] := by
        rw [List.take_succ_eq_append_getElem hlt]
      show (h.fetched ++ [h.accepted[k]]).Sublist (h.accepted.take (k + 1))
      rw [htake]
      apply List.Sublist.append_right
      exact ha.fetched.trans (List.take_sublist_take_left hk.gone)
    · show h.accepted[k].place + 1 ≤ k + 1
      rw [ha.places k hlt]
    · simp [discardOldest, hq]
    · exact le_trans (hk.bounded hm) (by simp only [discardOldest]; omega)
    · show k + 1 = h.accepted[k].place + 1
      rw [ha.places k hlt]
  · have hq : h.q.queue = [] := by
      rw [hk.queue, List.drop_eq_nil_of_le (Nat.le_of_not_lt hlt)]
    simp only [hq, List.head?_nil]
    refine ⟨ha.places, ha.fetched, k, hk.gone, hk.length, ?_, hk.bounded, hk.newest⟩
    show h.q.queue.tail = _
    rw [hq, ← hk.queue, hq]
    rfl

theorem Accounted.step {h' : History T} (ha : h.Accounted) (hs : Step h h') : h'.Accounted := by
  cases hs with
  | put hp => exact ha.put hp
  | get hg =>
    unfold BlockingQueue.get at hg
    split_ifs at hg
    cases hg
    exact ha.take
  | getDeadline => exact ha.take
  | clear =>
    obtain ⟨k, hk⟩ := ha.suffix
    refine ⟨ha.places, ?_, h.accepted.length, le_refl _, le_refl _, ?_, fun _ => Nat.le_add_right .., fun _ => .inl rfl⟩
    · exact ha.fetched.trans (List.take_sublist_take_left (le_trans hk.gone hk.length))
    · simp [BlockingQueue.clear]
  | close => exact ⟨ha.places, ha.fetched, ha.suffix.imp fun _ hk => ⟨hk.gone, hk.length, hk.queue, hk.bounded, hk.newest⟩⟩
  | reopen => exact ⟨ha.places, ha.fetched, ha.suffix.imp fun _ hk => ⟨hk.gone, hk.length, hk.queue, hk.bounded, hk.newest⟩⟩

theorem Step.same {h' : History T} (hs : Step h h') :
    h'.q.maxsize = h.q.maxsize ∧ h'.q.overflowDisposition = h.q.overflowDisposition := by
  have htake : (h.afterGet h.q.take).q = h.q.discardOldest := by
    unfold afterGet BlockingQueue.take
    cases h.q.queue.head? <;> rfl
  cases hs with
  | put hp =>
    rcases put_cases hp with ⟨-, -, rfl⟩ | ⟨-, ⟨-, rfl⟩ | ⟨-, -, rfl⟩ | ⟨-, -, rfl⟩⟩ <;> exact ⟨rfl, rfl⟩
  | get hg =>
    unfold BlockingQueue.get at hg
    split_ifs at hg
    cases hg
    rw [htake]
    exact ⟨rfl, rfl⟩
  | getDeadline =>
    rw [htake]
    exact ⟨rfl, rfl⟩
  | _ => exact ⟨rfl, rfl⟩

/-! ## What holds after any operations -/

def start (maxsize : ℕ) (d : OverflowDisposition) : History T := { q := { maxsize, overflowDisposition := d } }

theorem accounted_start (maxsize : ℕ) (d : OverflowDisposition) : (start maxsize d : History T).Accounted := by
  refine ⟨fun i hi => ?_, List.Sublist.refl _, 0, le_refl _, le_refl _, rfl, fun _ => ?_, fun _ => .inl rfl⟩
  · exact absurd hi (Nat.not_lt_zero i)
  · exact Nat.zero_le _

/-- The newest `maxsize` of the items, or all where there is no bound. -/
def newest (maxsize : ℕ) (items : List (Item T)) : List (Item T) :=
  if maxsize = 0 then items else items.drop (items.length - maxsize)

theorem run {maxsize : ℕ} {d : OverflowDisposition} (hr : Relation.ReflTransGen Step (start maxsize d) h) :
    h.Accounted ∧ h.q.maxsize = maxsize ∧ h.q.overflowDisposition = d := by
  induction hr with
  | refl => exact ⟨accounted_start maxsize d, rfl, rfl⟩
  | tail _ hs ih =>
    obtain ⟨ha, hm, hd⟩ := ih
    exact ⟨ha.step hs, hs.same.1.trans hm, hs.same.2.trans hd⟩

theorem Accounted.sublist (ha : h.Accounted) : (h.fetched ++ h.q.queue).Sublist h.accepted := by
  obtain ⟨k, hk⟩ := ha.suffix
  rw [hk.queue]
  have hf := ha.fetched.trans (List.take_sublist_take_left hk.gone)
  calc (h.fetched ++ h.accepted.drop k).Sublist (h.accepted.take k ++ h.accepted.drop k) := hf.append_right _
    _ = h.accepted := List.take_append_drop k h.accepted

theorem Accounted.nodup (ha : h.Accounted) : h.accepted.Nodup := by
  rw [List.nodup_iff_injective_get]
  intro i j hij
  apply Fin.ext
  rw [← ha.places i i.2, ← ha.places j j.2]
  exact congrArg Item.place hij

theorem Accounted.next_not_mem (ha : h.Accounted) (value : T) : h.next value ∉ h.accepted := by
  intro hmem
  obtain ⟨i, hi, he⟩ := List.getElem_of_mem hmem
  have := ha.places i hi
  rw [he] at this
  exact absurd this (Nat.ne_of_gt hi)

theorem Accounted.bounded (ha : h.Accounted) (hm : h.q.maxsize ≠ 0) : h.q.queue.length ≤ h.q.maxsize := by
  obtain ⟨k, hk⟩ := ha.suffix
  have := hk.bounded hm
  rw [hk.queue_length]
  omega

theorem Accounted.newest (ha : h.Accounted) (hd : h.q.overflowDisposition = .discardOldest) :
    h.q.queue = History.newest h.q.maxsize (h.accepted.drop h.gone) := by
  obtain ⟨k, hk⟩ := ha.suffix
  have hle := hk.gone
  have hlen := hk.length
  rw [hk.queue, History.newest, List.drop_drop, List.length_drop]
  split_ifs with hm
  · rcases hk.newest hd with h' | ⟨h', -⟩
    · rw [h']
    · exact absurd hm h'
  · have hb := hk.bounded hm
    have : k = h.gone + (h.accepted.length - h.gone - h.q.maxsize) := by
      rcases hk.newest hd with h' | ⟨-, h'⟩ <;> omega
    rw [← this]

/-- `put` does as documented except where it drops its item. -/
theorem Accounted.put_returned (ha : h.Accounted) {value : T} {reopen : Bool} {r : PutResult (Item T)}
    (hp : h.q.put (h.next value) reopen = some r) :
    (r.returned = true ↔ h.next value ∈ r.after.queue) ↔
      ¬ (h.q.overflowDisposition = .discardItem ∧ ¬ h.q.HasSpace ∧ (reopen = true ∨ h.q.closed = false)) := by
  have hnew : h.next value ∉ h.q.queue := by
    obtain ⟨k, hk⟩ := ha.suffix
    rw [hk.queue]
    exact fun hmem => ha.next_not_mem value (List.mem_of_mem_drop hmem)
  rcases put_cases hp with ⟨hr, hc, rfl⟩ | ⟨ho, ⟨hs, rfl⟩ | ⟨hs, hd, rfl⟩ | ⟨-, hd, rfl⟩⟩
  · simp [hnew, hr, hc]
  · simp [push, hs]
  · simp only [BlockingQueue.reopen, hnew, hd, hs, ho]
    simp
  · simp [push, hd]

/-- Over any operations the queue is bounded, in order and, when it drops the
oldest, holds the newest of what came after the last item fetched or cleared.
`put` tells whether it has pushed its item, unless it drops it. -/
theorem accounting {maxsize : ℕ} {d : OverflowDisposition} (hr : Relation.ReflTransGen Step (start maxsize d) h) :
    (maxsize ≠ 0 → h.q.queue.length ≤ maxsize) ∧
      (h.fetched ++ h.q.queue).Sublist h.accepted ∧
      (h.fetched ++ h.q.queue).Nodup ∧
      (d = .discardOldest → h.q.queue = newest maxsize (h.accepted.drop h.gone)) ∧
      ∀ (value : T) (reopen : Bool) (r : PutResult (Item T)), h.q.put (h.next value) reopen = some r →
        ((r.returned = true ↔ h.next value ∈ r.after.queue) ↔
          ¬ (d = .discardItem ∧ ¬ h.q.HasSpace ∧ (reopen = true ∨ h.q.closed = false))) := by
  obtain ⟨ha, rfl, rfl⟩ := run hr
  refine ⟨ha.bounded, ha.sublist, ?_, ha.newest, fun value reopen r hp => ha.put_returned hp⟩
  exact ha.sublist.nodup ha.nodup

/-- A queue for one item that holds it. -/
def holding : History ℕ where
  q := { maxsize := 1, overflowDisposition := .discardItem, queue := [⟨0, 7⟩] }
  accepted := [⟨0, 7⟩]

theorem holding_reached : Relation.ReflTransGen Step (start 1 .discardItem) holding := by
  have hs : Step (start 1 .discardItem) ((start 1 .discardItem).afterPut 7 ⟨true, true, holding.q⟩) := by
    apply Step.put
    show (start 1 .discardItem).q.put _ false = _
    rfl
  exact .single hs

theorem accounting_of_holding :
    holding.q.queue.length ≤ 1 ∧
      ∀ (value : ℕ) (reopen : Bool) (r : PutResult (Item ℕ)), holding.q.put (holding.next value) reopen = some r →
        ¬ (r.returned = true ↔ holding.next value ∈ r.after.queue) := by
  obtain ⟨hb, -, -, -, hput⟩ := accounting holding_reached
  refine ⟨hb (by decide), fun value reopen r hp => ?_⟩
  rw [hput value reopen r hp, not_not]
  exact ⟨rfl, by decide, .inr rfl⟩

/-- The second item does not fit and is dropped, and `put` returns `true`. -/
theorem put_returned_of_dropped :
    ¬ ∀ h : History ℕ, Relation.ReflTransGen Step (start 1 .discardItem) h →
      ∀ value reopen r, h.q.put (h.next value) reopen = some r →
        (r.returned = true ↔ h.next value ∈ r.after.queue) := by
  intro hall
  have hput : holding.q.put (holding.next 8) false = some ⟨true, false, holding.q⟩ := rfl
  have hmem := (hall holding holding_reached 8 false _ hput).mp rfl
  exact absurd hmem (by decide)

end History

end BlockingQueue

end CommonCore
