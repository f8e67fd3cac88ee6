import CommonCore.Signal
import CommonCore.Variant

/-!
# Replicas of the cache

A slot that assigns what is added or updated and erases what is removed holds a
replica of the cache of a caching signal, from the moment it is connected.

Seven operations change the cache and notify the slots. All but `connect` come
down to `sendall` with a cache that has changed as the slots will change, and
`connect` replays the cache to the new slot. `synchronize` compares values with
`==`, which need not be reflexive: a NaN is emitted each time.
-/

namespace CommonCore

variable {K V : Type} [DecidableEq K]

/-- What a slot makes of a notification. -/
def MappingAction.on (action : MappingAction) (key : K) (value : V) (f : K → Option V) : K → Option V :=
  match action with
  | .addition | .update => Function.update f key (some value)
  | .removal => Function.update f key Option.none
  | .none => f

def replica : Received K V → K → Option V
  | [] => fun _ => none
  | (action, key, value) :: earlier => action.on key value (replica earlier)

/-- A slot is told of additions of what it does not hold, and of updates of
what it holds. -/
def Truthful (known : Received K V) : Received K V → Prop
  | [] => True
  | (action, key, _) :: earlier =>
    (action = .addition → replica (earlier ++ known) key = none) ∧
      (action = .update → (replica (earlier ++ known) key).isSome = true) ∧ Truthful known earlier

theorem Truthful.append {known : Received K V} : ∀ {news news' : Received K V}, Truthful known news →
    Truthful (news ++ known) news' → Truthful known (news' ++ news)
  | _, [], h, _ => h
  | news, (action, key, value) :: news', h, ⟨h₁, h₂, h₃⟩ => by
    rw [← List.append_assoc] at h₁ h₂
    exact ⟨h₁, h₂, Truthful.append h h₃⟩

namespace MappingSignal

/-! ## One notification -/

structure Replicates (s : MappingSignal K V) : Prop where
  caching : s.caching = true
  slots : ∀ slot ∈ s.slots, replica slot.2 = fun key => s.cached.lookup key

/-- All slots of `s` receive the same, and it is true. -/
def Announces (s s' : MappingSignal K V) : Prop :=
  ∃ news, s'.slots = s.slots.map (fun slot => (slot.1, news ++ slot.2)) ∧ ∀ slot ∈ s.slots, Truthful slot.2 news

theorem Announces.refl (s : MappingSignal K V) : s.Announces s := ⟨[], by simp, fun _ _ => trivial⟩

theorem Announces.trans {s s' s'' : MappingSignal K V} (h : s.Announces s') (h' : s'.Announces s'') :
    s.Announces s'' := by
  obtain ⟨news, hs, ht⟩ := h
  obtain ⟨news', hs', ht'⟩ := h'
  refine ⟨news' ++ news, by simp [hs', hs], fun slot hslot => ?_⟩
  apply Truthful.append (ht slot hslot)
  exact ht' (slot.1, news ++ slot.2) (by rw [hs]; exact List.mem_map_of_mem hslot)

variable {s : MappingSignal K V}

theorem Replicates.sendall (h : s.Replicates) {c : AList fun _ : K => V} {action : MappingAction} {key : K} {value : V}
    (hc : (fun k => c.lookup k) = action.on key value fun k => s.cached.lookup k) :
    ({ s with cached := c }.sendall action key value).Replicates := by
  refine ⟨h.caching, fun slot hslot => ?_⟩
  simp only [MappingSignal.sendall, List.mem_map] at hslot
  obtain ⟨slot₀, hslot₀, rfl⟩ := hslot
  show action.on key value (replica slot₀.2) = _
  rw [h.slots slot₀ hslot₀, ← hc]
  rfl

theorem Replicates.announces (h : s.Replicates) (c : AList fun _ : K => V) {action : MappingAction} {key : K} (value : V)
    (ha : action = .addition → s.cached.lookup key = none)
    (hu : action = .update → (s.cached.lookup key).isSome = true) :
    s.Announces ({ s with cached := c }.sendall action key value) := by
  refine ⟨[(action, key, value)], rfl, fun slot hslot => ?_⟩
  simp only [Truthful, List.nil_append, h.slots slot hslot]
  exact ⟨ha, hu, trivial⟩

theorem lookup_insert_eq (c : AList fun _ : K => V) (key : K) (value : V) :
    (fun k => (c.insert key value).lookup k) = Function.update (fun k => c.lookup k) key (some value) := by
  funext k
  by_cases hk : k = key
  · subst hk; simp
  · simp [AList.lookup_insert_ne hk, hk]

theorem lookup_erase_eq (c : AList fun _ : K => V) (key : K) :
    (fun k => (c.erase key).lookup k) = Function.update (fun k => c.lookup k) key none := by
  funext k
  by_cases hk : k = key
  · subst hk; simp
  · simp [AList.lookup_erase_ne hk, hk]

/-- The cache changes as the slots do. -/
theorem emitAction_eq (hc : s.caching = true) (action : MappingAction) (key : K) (value : V) :
    ∃ c, (fun k => AList.lookup k c) = action.on key value (fun k => s.cached.lookup k) ∧
      s.emitAction action key value = { s with cached := c }.sendall action key value := by
  unfold emitAction
  rw [if_pos hc]
  cases action with
  | none => exact ⟨s.cached, rfl, rfl⟩
  | addition => exact ⟨_, lookup_insert_eq .., rfl⟩
  | update => exact ⟨_, lookup_insert_eq .., rfl⟩
  | removal => exact ⟨_, lookup_erase_eq .., rfl⟩

theorem emitAction_lookup (hc : s.caching = true) (action : MappingAction) (key : K) (value : V) (k : K) :
    (s.emitAction action key value).cached.lookup k = action.on key value (fun k => s.cached.lookup k) k := by
  obtain ⟨c, hc', h⟩ := emitAction_eq hc action key value
  rw [h, ← hc']
  rfl

theorem Replicates.emitAction (h : s.Replicates) (action : MappingAction) (key : K) (value : V) :
    (s.emitAction action key value).Replicates := by
  obtain ⟨c, hc, he⟩ := emitAction_eq h.caching action key value
  rw [he]
  exact h.sendall hc

theorem Replicates.emitAction_announces (h : s.Replicates) {action : MappingAction} {key : K} (value : V)
    (ha : action = .addition → s.cached.lookup key = none)
    (hu : action = .update → (s.cached.lookup key).isSome = true) :
    s.Announces (s.emitAction action key value) := by
  obtain ⟨c, -, he⟩ := emitAction_eq h.caching action key value
  rw [he]
  exact h.announces c value ha hu

theorem Replicates.emit (h : s.Replicates) (key : K) (value : V) :
    (s.emit key value).Replicates ∧ s.Announces (s.emit key value) := by
  refine ⟨h.emitAction _ key value, h.emitAction_announces value ?_ ?_⟩
  all_goals
    rw [h.caching]
    by_cases hk : key ∈ s.cached
    · simp [hk, AList.lookup_isSome]
    · simp [hk, AList.lookup_eq_none]

theorem Replicates.emitIfChanged [BEq V] (h : s.Replicates) (key : K) (value : V) :
    (s.emitIfChanged key value).2.Replicates ∧ s.Announces (s.emitIfChanged key value).2 := by
  rcases s.emitIfChanged_cases key value h.caching with ⟨_, _, _, he⟩ | ⟨action, ha, he⟩
  · rw [he]
    exact ⟨h, .refl s⟩
  · rw [he]
    have hon : action.on key value (fun k => s.cached.lookup k) =
        Function.update (fun k => s.cached.lookup k) key (some value) := by
      rcases ha with ⟨rfl, _⟩ | ⟨rfl, _⟩ <;> rfl
    refine ⟨h.sendall (by rw [hon]; exact lookup_insert_eq ..), h.announces _ value ?_ ?_⟩
    · rintro rfl
      simpa using ha
    · rintro rfl
      simpa using ha

theorem Replicates.clearIfCached (h : s.Replicates) (key : K) : (s.clearIfCached key).Replicates := by
  unfold MappingSignal.clearIfCached
  cases s.cached.lookup key with
  | none => exact h
  | some value => exact h.sendall (lookup_erase_eq ..)

/-! ## Many notifications -/

def additions (entries : List (Sigma fun _ : K => V)) (r : Received K V) : Received K V :=
  entries.foldl (fun r e => (.addition, e.1, e.2) :: r) r

omit [DecidableEq K] in
theorem emitCachedTo_eq (handle : Handle) (entries : List (Sigma fun _ : K => V)) (s : MappingSignal K V) :
    s.emitCachedTo handle entries = { s with
      slots := s.slots.map fun slot => if slot.1 = handle then (slot.1, additions entries slot.2) else slot } := by
  induction entries generalizing s with
  | nil => simp [emitCachedTo, additions]
  | cons e entries ih =>
    show emitCachedTo _ handle entries = _
    rw [ih]
    simp only [List.map_map, MappingSignal.mk.injEq, true_and]
    apply List.map_congr_left
    intro slot _
    by_cases hs : slot.1 = handle
    · simp [callback, hs, additions]
    · simp [callback, hs]

theorem replica_additions {entries : List (Sigma fun _ : K => V)} (hn : entries.NodupKeys) (r : Received K V) (key : K) :
    replica (additions entries r) key = (entries.dlookup key).or (replica r key) := by
  induction entries generalizing r with
  | nil => simp [additions]
  | cons e entries ih =>
    obtain ⟨k, v⟩ := e
    rw [List.nodupKeys_cons] at hn
    show replica (additions entries ((.addition, k, v) :: r)) key = _
    rw [ih hn.2]
    by_cases hk : key = k
    · subst hk
      rw [List.dlookup_eq_none.mpr hn.1, List.dlookup_cons_eq]
      simp [replica, MappingAction.on]
    · rw [List.dlookup_cons_ne _ _ hk]
      simp [replica, MappingAction.on, hk]

/-- A new slot starts with a replay of the cache. -/
theorem Replicates.connect (h : s.Replicates) (handle : Handle) {entries : List (Sigma fun _ : K => V)}
    (he : entries.Perm s.cached.entries) : (s.connect handle entries).Replicates := by
  have hn : entries.NodupKeys := (List.perm_nodupKeys he).mpr s.cached.nodupKeys
  unfold MappingSignal.connect
  rw [emitCachedTo_eq]
  refine ⟨h.caching, fun slot hslot => ?_⟩
  simp only [List.map_cons, List.mem_cons, List.mem_map, List.mem_filter] at hslot
  rcases hslot with rfl | ⟨slot₀, ⟨hslot₀, hne⟩, rfl⟩
  · funext key
    rw [if_pos trivial, replica_additions hn]
    simp only [replica, Option.or_none]
    exact List.perm_dlookup key hn he
  · rw [if_neg (by simpa using hne)]
    exact h.slots slot₀ hslot₀

theorem Replicates.disconnect (h : s.Replicates) (handle : Handle) : (s.disconnect handle).Replicates :=
  ⟨h.caching, fun slot hslot => h.slots slot (List.mem_of_mem_filter hslot)⟩

theorem sendall_removals [Inhabited V] (entries : List (Sigma fun _ : K => V)) :
    ∀ {s : MappingSignal K V} {f : K → Option V}, (∀ slot ∈ s.slots, replica slot.2 = f) →
      let s' := entries.foldl (fun s e => s.sendall .removal e.1 default) s
      s'.caching = s.caching ∧
        ∀ slot ∈ s'.slots, replica slot.2 = fun key => if key ∈ entries.keys then none else f key := by
  induction entries with
  | nil => exact fun h => ⟨rfl, by simpa using h⟩
  | cons e entries ih =>
    intro s f h
    have hs : ∀ slot ∈ (s.sendall .removal e.1 default).slots, replica slot.2 = Function.update f e.1 none := by
      intro slot hslot
      simp only [sendall, List.mem_map] at hslot
      obtain ⟨slot₀, hslot₀, rfl⟩ := hslot
      simp only [replica, MappingAction.on, h slot₀ hslot₀]
    obtain ⟨hc, hsl⟩ := ih hs
    refine ⟨hc, fun slot hslot => ?_⟩
    rw [hsl slot hslot]
    funext key
    by_cases hk : key = e.1
    · subst hk; simp
    · simp [hk]

theorem Replicates.clearAllCached [Inhabited V] (h : s.Replicates) {entries : List (Sigma fun _ : K => V)}
    (he : entries.Perm s.cached.entries) : (s.clearAllCached entries).Replicates := by
  obtain ⟨hc, hs⟩ := sendall_removals entries h.slots
  refine ⟨hc.trans h.caching, fun slot hslot => ?_⟩
  rw [hs slot hslot]
  funext key
  by_cases hk : key ∈ entries.keys
  · simp [MappingSignal.clearAllCached, hk]
  · have hkey : key ∉ s.cached := by
      rw [AList.mem_keys]
      exact fun hmem => hk ((he.map Sigma.fst).mem_iff.mpr hmem)
    simp [MappingSignal.clearAllCached, hk, AList.lookup_eq_none.mpr hkey]

/-! ## Synchronization -/

section
variable [BEq V]

/-- What the first loop of `synchronize` leaves of the previous cache. -/
def unvisited (s : MappingSignal K V) (visited : List (Sigma fun _ : K => V)) : AList fun _ : K => V :=
  (visited.foldl syncUpdate (s, s.cached, 0)).2.1

/-- `synchronize(m)`, which visits the entries of each map in some order. -/
def Synchronizes (s : MappingSignal K V) (m : AList fun _ : K => V) (n : ℕ) (s' : MappingSignal K V) : Prop :=
  ∃ visited left, visited.Perm m.entries ∧ left.Perm (s.unvisited visited).entries ∧ s.synchronize visited left = (n, s')

/-- The value is the one it was to be, or compares equal to it. -/
def Matches (v w : V) : Prop := v = w ∨ (v == w) = true

theorem syncUpdate_spec {c : MappingSignal K V × (AList fun _ : K => V) × ℕ} (h : c.1.Replicates)
    {e : Sigma fun _ : K => V} (he : c.2.1.lookup e.1 = c.1.cached.lookup e.1) :
    ((syncUpdate c e).1.Replicates ∧ c.1.Announces (syncUpdate c e).1) ∧
      (∀ key, key ≠ e.1 → (syncUpdate c e).2.1.lookup key = c.2.1.lookup key ∧
        (syncUpdate c e).1.cached.lookup key = c.1.cached.lookup key) ∧
      (syncUpdate c e).2.1.lookup e.1 = none ∧
      ∃ v, (syncUpdate c e).1.cached.lookup e.1 = some v ∧ Matches v e.2 := by
  have changed : ∀ action : MappingAction, action = .addition ∨ action = .update → ∀ key,
      (c.1.emitAction action e.1 e.2).cached.lookup key =
        if key = e.1 then some e.2 else c.1.cached.lookup key := by
    intro action ha key
    rw [emitAction_lookup h.caching]
    rcases ha with rfl | rfl <;> simp [MappingAction.on, Function.update_apply]
  unfold syncUpdate
  cases hp : c.2.1.lookup e.1 with
  | none =>
    refine ⟨⟨h.emitAction .addition e.1 e.2, h.emitAction_announces e.2 (fun _ => he ▸ hp) nofun⟩,
      fun key hkey => ⟨rfl, ?_⟩, hp, e.2, ?_, .inl rfl⟩
    · rw [changed .addition (.inl rfl), if_neg hkey]
    · rw [changed .addition (.inl rfl), if_pos rfl]
  | some v =>
    have hv : c.1.cached.lookup e.1 = some v := he ▸ hp
    simp only
    split_ifs with heq
    · exact ⟨⟨h, .refl c.1⟩, fun key hkey => ⟨AList.lookup_erase_ne hkey, rfl⟩, AList.lookup_erase .., v, hv, .inr heq⟩
    · refine ⟨⟨h.emitAction .update e.1 e.2, h.emitAction_announces e.2 nofun fun _ => by rw [hv]; rfl⟩,
        fun key hkey => ⟨AList.lookup_erase_ne hkey, ?_⟩, AList.lookup_erase .., e.2, ?_, .inl rfl⟩
      · rw [changed .update (.inr rfl), if_neg hkey]
      · rw [changed .update (.inr rfl), if_pos rfl]

/-- What has been visited is in the cache and no longer in the previous one;
about the rest the two agree with what they were. -/
theorem syncUpdates_spec {visited : List (Sigma fun _ : K => V)} :
    visited.NodupKeys → ∀ {c : MappingSignal K V × (AList fun _ : K => V) × ℕ}, c.1.Replicates →
      (∀ e ∈ visited, c.2.1.lookup e.1 = c.1.cached.lookup e.1) →
      let c' := visited.foldl syncUpdate c
      (c'.1.Replicates ∧ c.1.Announces c'.1) ∧
        (∀ key, key ∉ visited.keys → c'.2.1.lookup key = c.2.1.lookup key ∧
          c'.1.cached.lookup key = c.1.cached.lookup key) ∧
        ∀ e ∈ visited, c'.2.1.lookup e.1 = none ∧ ∃ v, c'.1.cached.lookup e.1 = some v ∧ Matches v e.2 := by
  induction visited with
  | nil => exact fun _ _ h _ => ⟨⟨h, .refl _⟩, fun _ _ => ⟨rfl, rfl⟩, by simp⟩
  | cons e visited ih =>
    intro hn c h he
    rw [List.nodupKeys_cons] at hn
    obtain ⟨⟨h₁, ha₁⟩, hrest, hnone, hsome⟩ := syncUpdate_spec h (he e List.mem_cons_self)
    have hne : ∀ e' ∈ visited, e'.1 ≠ e.1 := fun e' he' heq => hn.1 (heq ▸ List.mem_map_of_mem he')
    obtain ⟨⟨h₂, ha₂⟩, hrest₂, hvis₂⟩ := ih hn.2 h₁ fun e' he' => by
      obtain ⟨hp, hc⟩ := hrest e'.1 (hne e' he')
      rw [hp, hc]
      exact he e' (List.mem_cons_of_mem _ he')
    refine ⟨⟨h₂, ha₁.trans ha₂⟩, fun key hkey => ?_, fun e' he' => ?_⟩
    · simp only [List.keys_cons, List.mem_cons, not_or] at hkey
      obtain ⟨hp, hc⟩ := hrest₂ key hkey.2
      obtain ⟨hp', hc'⟩ := hrest key hkey.1
      exact ⟨hp.trans hp', hc.trans hc'⟩
    · rcases List.mem_cons.mp he' with rfl | he'
      · obtain ⟨hp, hc⟩ := hrest₂ e'.1 hn.1
        exact ⟨hp.trans hnone, hsome.imp fun v hv => ⟨hc.trans hv.1, hv.2⟩⟩
      · exact hvis₂ e' he'

omit [BEq V] in
theorem removals_spec (left : List (Sigma fun _ : K => V)) : ∀ {s : MappingSignal K V}, s.Replicates →
    let s' := left.foldl (fun s e => s.emitAction .removal e.1 e.2) s
    (s'.Replicates ∧ s.Announces s') ∧
      ∀ key, s'.cached.lookup key = if key ∈ left.keys then none else s.cached.lookup key := by
  induction left with
  | nil => exact fun h => ⟨⟨h, .refl _⟩, by simp⟩
  | cons e left ih =>
    intro s h
    obtain ⟨⟨h', ha⟩, hl⟩ := ih (h.emitAction .removal e.1 e.2)
    have hr : s.Announces (s.emitAction .removal e.1 e.2) := h.emitAction_announces e.2 nofun nofun
    refine ⟨⟨h', hr.trans ha⟩, fun key => ?_⟩
    show AList.lookup key (List.foldl _ (s.emitAction .removal e.1 e.2) left).cached = _
    rw [hl, emitAction_lookup h.caching]
    by_cases hk : key = e.1
    · subst hk; simp [MappingAction.on]
    · simp [MappingAction.on, hk]

/-- The cache afterwards is the map, up to the comparison of values. -/
theorem Synchronizes.spec (h : s.Replicates) {m : AList fun _ : K => V} {n : ℕ} {s' : MappingSignal K V}
    (hs : s.Synchronizes m n s') :
    (s'.Replicates ∧ s.Announces s') ∧
      ∀ key, Option.Rel Matches (s'.cached.lookup key) (m.lookup key) := by
  obtain ⟨visited, left, hv, hl, heq⟩ := hs
  have hn : visited.NodupKeys := (List.perm_nodupKeys hv).mpr m.nodupKeys
  obtain ⟨⟨h₁, ha₁⟩, hrest, hvis⟩ := syncUpdates_spec hn (c := (s, s.cached, 0)) h fun _ _ => rfl
  obtain ⟨⟨h₂, ha₂⟩, hlook⟩ := removals_spec left h₁
  obtain ⟨rfl, rfl⟩ := Prod.mk.inj heq
  refine ⟨⟨h₂, ha₁.trans ha₂⟩, fun key => ?_⟩
  have hleft : key ∈ left.keys ↔ ((s.unvisited visited).lookup key).isSome = true := by
    rw [AList.lookup_isSome, AList.mem_keys]
    exact (hl.map Sigma.fst).mem_iff
  rw [hlook]
  by_cases hkey : key ∈ visited.keys
  · obtain ⟨e, he, rfl⟩ := List.mem_map.mp hkey
    obtain ⟨hnone, v, hsome, hveq⟩ := hvis e he
    have hm : m.lookup e.1 = some e.2 := by
      apply AList.mem_lookup_iff.mpr
      exact hv.mem_iff.mp he
    rw [if_neg, hsome, hm]
    · exact .some hveq
    · rw [hleft, show (s.unvisited visited).lookup e.1 = none from hnone]
      simp
  · have hm : m.lookup key = none := by
      rw [AList.lookup_eq_none, AList.mem_keys]
      exact fun hmem => hkey ((hv.map Sigma.fst).mem_iff.mpr hmem)
    obtain ⟨hp, hc⟩ := hrest key hkey
    have hu : (s.unvisited visited).lookup key = s.cached.lookup key := hp
    have hgone : (if key ∈ left.keys then none else s.cached.lookup key) = none := by
      split_ifs with hmem
      · rfl
      · rw [hleft, hu] at hmem
        simpa using hmem
    rw [hm, hc]
    rw [hgone]
    exact .none

theorem foldl_syncUpdate_of_rel {visited : List (Sigma fun _ : K => V)} : visited.NodupKeys →
    ∀ {c : MappingSignal K V × (AList fun _ : K => V) × ℕ},
      (∀ e ∈ visited, ∃ v, c.2.1.lookup e.1 = some v ∧ (v == e.2) = true) →
      let c' := visited.foldl syncUpdate c
      c'.1 = c.1 ∧ c'.2.2 = c.2.2 ∧
        ∀ key, c'.2.1.lookup key = if key ∈ visited.keys then none else c.2.1.lookup key := by
  induction visited with
  | nil => exact fun _ _ _ => ⟨rfl, rfl, by simp⟩
  | cons e visited ih =>
    intro hn c he
    rw [List.nodupKeys_cons] at hn
    obtain ⟨v, hv, heq⟩ := he e List.mem_cons_self
    have hstep : syncUpdate c e = (c.1, c.2.1.erase e.1, c.2.2) := by
      simp [syncUpdate, hv, heq]
    have hne : ∀ e' ∈ visited, e'.1 ≠ e.1 := fun e' he' h => hn.1 (h ▸ List.mem_map_of_mem he')
    obtain ⟨h₁, h₂, h₃⟩ := ih hn.2 (c := (c.1, c.2.1.erase e.1, c.2.2)) fun e' he' => by
      obtain ⟨v', hv'⟩ := he e' (List.mem_cons_of_mem _ he')
      refine ⟨v', ?_, hv'.2⟩
      rw [AList.lookup_erase_ne (hne e' he'), hv'.1]
    simp only [List.foldl_cons, hstep]
    refine ⟨h₁, h₂, fun key => ?_⟩
    rw [h₃]
    by_cases hk : key = e.1
    · subst hk; simp
    · simp [hk, AList.lookup_erase_ne hk]

/-- Synchronizing with a map that the cache agrees with emits nothing. -/
theorem Synchronizes.again {m : AList fun _ : K => V} {n : ℕ} {s' : MappingSignal K V}
    (hm : ∀ key, Option.Rel (fun v w => (v == w) = true) (s.cached.lookup key) (m.lookup key))
    (hs : s.Synchronizes m n s') : n = 0 ∧ s' = s := by
  obtain ⟨visited, left, hv, hl, heq⟩ := hs
  have hn : visited.NodupKeys := (List.perm_nodupKeys hv).mpr m.nodupKeys
  obtain ⟨h₁, h₂, h₃⟩ := foldl_syncUpdate_of_rel hn (c := (s, s.cached, 0)) fun e he => by
    have hlook : m.lookup e.1 = some e.2 := AList.mem_lookup_iff.mpr (hv.mem_iff.mp he)
    have hrel := hm e.1
    rw [hlook] at hrel
    cases hcache : s.cached.lookup e.1 with
    | none => rw [hcache] at hrel; cases hrel
    | some v =>
      rw [hcache] at hrel
      cases hrel with
      | some hveq => exact ⟨v, rfl, hveq⟩
  have hleft : left = [] := by
    apply List.eq_nil_iff_forall_not_mem.mpr
    intro e he
    have hmem : e.1 ∈ s.unvisited visited := by
      rw [AList.mem_keys]
      exact List.mem_map_of_mem (hl.mem_iff.mp he)
    rw [← AList.lookup_isSome, show (s.unvisited visited).lookup e.1 = _ from h₃ e.1] at hmem
    split_ifs at hmem with hkey
    · simp at hmem
    · -- what the map does not have is not in the cache either
      have hnone : m.lookup e.1 = none := by
        rw [AList.lookup_eq_none, AList.mem_keys]
        exact fun h => hkey ((hv.map Sigma.fst).mem_iff.mpr h)
      have hrel := hm e.1
      rw [hnone] at hrel
      rw [Option.isSome_iff_exists] at hmem
      obtain ⟨v, hcache⟩ := hmem
      rw [show s.cached.lookup e.1 = some v from hcache] at hrel
      cases hrel
  obtain ⟨rfl, rfl⟩ := Prod.mk.inj heq
  rw [hleft]
  exact ⟨by simpa using h₂, h₁⟩

end

/-! ## Runs -/

inductive Step [BEq V] [Inhabited V] : MappingSignal K V → MappingSignal K V → Prop
  | emitAction {s action key value} : Step s (s.emitAction action key value)
  | emit {s key value} : Step s (s.emit key value)
  | emitIfChanged {s key value} : Step s (s.emitIfChanged key value).2
  | clear {s key value} : Step s (s.clear key value)
  | clearIfCached {s key} : Step s (s.clearIfCached key)
  | clearAllCached {s entries} : entries.Perm s.cached.entries → Step s (s.clearAllCached entries)
  | synchronize {s m n s'} : s.Synchronizes m n s' → Step s s'
  | connect {s handle entries} : entries.Perm s.cached.entries → Step s (s.connect handle entries)
  | disconnect {s handle} : Step s (s.disconnect handle)

theorem Replicates.step [BEq V] [Inhabited V] {s' : MappingSignal K V} (h : s.Replicates)
    (hs : Step s s') : s'.Replicates := by
  cases hs with
  | emitAction => exact h.emitAction ..
  | emit => exact (h.emit ..).1
  | emitIfChanged => exact (h.emitIfChanged ..).1
  | clear => exact h.emitAction ..
  | clearIfCached => exact h.clearIfCached _
  | clearAllCached he => exact h.clearAllCached he
  | synchronize hs => exact (hs.spec h).1.1
  | connect he => exact h.connect _ he
  | disconnect => exact h.disconnect _

/-- A signal that has emitted, with a slot that was connected after that. -/
def late : MappingSignal String ℕ := (({ caching := true } : MappingSignal String ℕ).emit "k" 1).connect "h" [⟨"k", 1⟩]

def update : AList fun _ : String => ℕ := (AList.singleton "k" 2).insert "l" 3

def updated : MappingSignal String ℕ := (late.synchronize [⟨"k", 2⟩, ⟨"l", 3⟩] []).2

theorem synchronizes_update : late.Synchronizes update 2 updated :=
  ⟨[⟨"k", 2⟩, ⟨"l", 3⟩], [], by decide, by decide, rfl⟩

instance : BEq Value := ⟨Value.eqv⟩

instance : Inhabited Value := ⟨.none⟩

end MappingSignal

end CommonCore
