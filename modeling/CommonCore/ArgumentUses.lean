import CommonCore.Argparse

/-!
# What the parser makes of the arguments

When parsing succeeds, the arguments are what the uses spell, and every
occurrence has its one value exactly when no value is missing. The options that
must occur more often than they may are the ones whose defaults are too many.
-/

namespace CommonCore

namespace Argparse

variable {ι V : Type}

theorem bind_ok {ε α β : Type} {x : Except ε α} {f : α → Except ε β} {r : β} (h : (x >>= f) = .ok r) :
    ∃ a, x = .ok a ∧ f a = .ok r := by
  cases x with
  | error e => cases h
  | ok a => exact ⟨a, rfl, h⟩

variable {options : List ι} {option : ι → BaseOption V}

/-! ## One occurrence -/

theorem assignArgument_ok {opt : ι} {arg : Bytes} {values : List V} (h : assignArgument option opt arg = .ok values) :
    ∃ v, (option opt).convertTo arg = some v ∧ values = [v] := by
  unfold assignArgument at h
  split at h
  · rename_i v hv
    cases h
    exact ⟨v, hv, rfl⟩
  · cases h

theorem assigned_of_text {o : Occurrence ι V} {arg : Bytes} (hg : o.given.text = some arg)
    (h : assignArgument option o.option arg = .ok o.assigned) : o.Assigned option := by
  obtain ⟨v, hv, hvalues⟩ := assignArgument_ok h
  refine ⟨v, hvalues, ?_⟩
  rw [hg]
  exact hv

theorem toList_eq_singleton {x : Option V} : (∃ v, x.toList = [v] ∧ x = some v) ↔ x.isSome := by
  cases x <;> simp

theorem assigned_fixed {opt : ι} (ht : (option opt).takesArgument = false) :
    Occurrence.Assigned option ⟨opt, .absent, assignFixed option opt⟩ ↔ (option opt).constValue.isSome := by
  unfold Occurrence.Assigned assignFixed
  simp only [Given.text, ht, Bool.false_eq_true, if_false]
  exact toList_eq_singleton

theorem assigned_default {opt : ι} (ht : (option opt).takesArgument = true) :
    Occurrence.Assigned option ⟨opt, .absent, assignDefault option opt⟩ ↔ (option opt).hasDefault := by
  unfold Occurrence.Assigned assignDefault
  simp only [Given.text, ht, if_true]
  exact toList_eq_singleton

/-- A value that is assigned after the default is one too many. -/
theorem not_assigned_twice {opt : ι} {v : V} (hd : (option opt).hasDefault = true) :
    ¬ Occurrence.Assigned option ⟨opt, .absent, assignDefault option opt ++ [v]⟩ := by
  rintro ⟨v', hv, -⟩
  obtain ⟨d, hd⟩ := Option.isSome_iff_exists.mp hd
  unfold assignDefault at hv
  rw [hd] at hv
  cases hv

/-! ## Counting -/

section
variable [DecidableEq ι]

theorem occurs_append (l l' : List (Occurrence ι V)) (opt : ι) : occurs (l ++ l') opt = occurs l opt + occurs l' opt :=
  List.countP_append

theorem occurs_cons (o : Occurrence ι V) (l : List (Occurrence ι V)) (opt : ι) :
    occurs (o :: l) opt = occurs l opt + if o.option = opt then 1 else 0 := by
  unfold occurs
  rw [List.countP_cons]
  simp

def Bounded (option : ι → BaseOption V) (state : ParseState ι) : Prop :=
  ∀ opt, (option opt).repeats.2 = 0 ∨ state.encounters opt ≤ (option opt).repeats.2

/-- These occurrences are the ones between two states. -/
structure Counts (option : ι → BaseOption V) (state state' : ParseState ι) (l : List (Occurrence ι V)) : Prop where
  encounters : ∀ opt, state'.encounters opt = state.encounters opt + occurs l opt
  bounded : Bounded option state → Bounded option state'

theorem Counts.trans {state state' state'' : ParseState ι} {l l' : List (Occurrence ι V)}
    (h : Counts option state state' l) (h' : Counts option state' state'' l') :
    Counts option state state'' (l ++ l') := by
  refine ⟨fun opt => ?_, fun hb => h'.bounded (h.bounded hb)⟩
  rw [h'.encounters, h.encounters, occurs_append, Nat.add_assoc]

theorem counts_nil (state : ParseState ι) : Counts option state state [] := ⟨fun _ => rfl, id⟩

theorem counts_addEncounter {state state' : ParseState ι} {opt : ι} (h : state.addEncounter option opt = some state')
    (given : Given) (assigned : List V) (k : ℕ) :
    Counts option state { state' with currentUnnamed := k } [⟨opt, given, assigned⟩] := by
  unfold ParseState.addEncounter at h
  split_ifs at h with hroom
  cases h
  refine ⟨fun opt' => ?_, fun hb opt' => ?_⟩
  · rw [occurs_cons]
    by_cases he : opt = opt'
    · subst he
      simp [occurs]
    · simp [occurs, he, Function.update_of_ne (Ne.symm he)]
  · by_cases he : opt' = opt
    · subst he
      show _ ∨ Function.update state.encounters opt' _ opt' ≤ _
      rw [Function.update_self]
      omega
    · show _ ∨ Function.update state.encounters opt _ opt' ≤ _
      rw [Function.update_of_ne he]
      exact hb opt'

theorem counts_encounter {state state' : ParseState ι} {opt : ι} (h : encounter option state opt = .ok state')
    (given : Given) (assigned : List V) : Counts option state state' [⟨opt, given, assigned⟩] := by
  unfold encounter at h
  split at h
  · rename_i state'' hadd
    cases h
    exact counts_addEncounter hadd given assigned _
  · cases h

/-! ## One argument -/

structure ShortSpec (options : List ι) (option : ι → BaseOption V) (chars : Bytes) (next : Option Bytes)
    (state state' : ParseState ι) (os : List (UInt8 × Occurrence ι V)) (taken : Bool) : Prop where
  counts : Counts option state state' (os.map Prod.snd)
  spelled : (os.flatMap fun o => o.1 :: o.2.given.suffix) = chars
  elements : (os.flatMap fun o => o.2.given.elements) = if taken then next.toList else []
  opens : taken = (openShort options option chars && next.isSome)
  assigned : (∀ o ∈ os, o.2.Assigned option) ↔ completeShort options option next.isSome chars

theorem parseShort_spec {chars : Bytes} {next : Option Bytes} {state state' : ParseState ι}
    {os : List (UInt8 × Occurrence ι V)} {taken : Bool}
    (h : parseShort options option chars next state = .ok (state', os, taken)) :
    ShortSpec options option chars next state state' os taken := by
  induction chars generalizing state os with
  | nil =>
    cases h
    exact ⟨counts_nil _, rfl, rfl, rfl, by simp [completeShort]⟩
  | cons optkey chars ih =>
    unfold parseShort at h
    cases hopt : getShortopt options option optkey with
    | none =>
      rw [hopt] at h
      cases h
    | some opt =>
      rw [hopt] at h
      obtain ⟨state₁, hstate, h⟩ := bind_ok h
      have hcomplete : completeShort options option next.isSome (optkey :: chars) ↔
          if (option opt).takesArgument then chars ≠ [] ∨ next.isSome = true
          else (option opt).constValue.isSome = true ∧ completeShort options option next.isSome chars := by
        rw [completeShort, hopt]
      have hopen : openShort options option (optkey :: chars) =
          if (option opt).takesArgument then decide (chars = []) else openShort options option chars := by
        rw [openShort, hopt]
      cases ht : (option opt).takesArgument with
      | true =>
        simp only [ht, if_true] at h hcomplete hopen
        by_cases hchars : chars = []
        · subst hchars
          simp only [ne_eq, not_true_eq_false, if_false] at h
          cases next with
          | some optarg =>
            obtain ⟨values, hvalues, h⟩ := bind_ok h
            cases h
            refine ⟨counts_encounter hstate _ _, rfl, rfl, ?_, ?_⟩
            · rw [hopen]
              rfl
            · rw [hcomplete]
              simpa using assigned_of_text (o := ⟨opt, .element optarg, values⟩) rfl hvalues
          | none =>
            cases hd : (option opt).hasDefault with
            | false =>
              simp only [hd] at h
              cases h
            | true =>
              simp only [hd, if_true] at h
              obtain ⟨values, hvalues, h⟩ := bind_ok h
              obtain ⟨v, -, rfl⟩ := assignArgument_ok hvalues
              cases h
              refine ⟨counts_encounter hstate _ _, rfl, rfl, ?_, ?_⟩
              · rw [hopen]
                rfl
              · rw [hcomplete]
                simpa using not_assigned_twice hd
        · rw [if_pos hchars] at h
          obtain ⟨values, hvalues, h⟩ := bind_ok h
          cases h
          refine ⟨counts_encounter hstate _ _, ?_, rfl, ?_, ?_⟩
          · simp [Given.suffix]
          · rw [hopen, decide_eq_false hchars]
            rfl
          · rw [hcomplete]
            simpa [hchars] using assigned_of_text (o := ⟨opt, .attached chars, values⟩) rfl hvalues
      | false =>
        simp only [ht, Bool.false_eq_true, if_false] at h hcomplete hopen
        obtain ⟨⟨state₂, os', taken'⟩, hrest, h⟩ := bind_ok h
        cases h
        have hspec := ih hrest
        refine ⟨?_, ?_, ?_, ?_, ?_⟩
        · exact (counts_encounter hstate _ _).trans hspec.counts
        · rw [List.flatMap_cons, hspec.spelled]
          rfl
        · rw [List.flatMap_cons, hspec.elements]
          rfl
        · rw [hspec.opens, hopen]
        · rw [hcomplete, ← hspec.assigned, List.forall_mem_cons]
          exact and_congr (assigned_fixed ht) Iff.rfl

structure LongSpec (options : List ι) (option : ι → BaseOption V) (optkey : Bytes) (optarg next : Option Bytes)
    (state state' : ParseState ι) (o : Occurrence ι V) (taken : Bool) : Prop where
  counts : Counts option state state' [o]
  spelled : o.given.longSuffix = (optarg.map (equalSign :: ·)).getD []
  elements : o.given.elements = if taken then next.toList else []
  opens : taken = ((optarg.isNone && (getLongopt options option optkey).any fun opt => (option opt).takesArgument) &&
    next.isSome)
  assigned : o.Assigned option ↔ completeLong options option next.isSome optkey optarg

theorem parseLong_spec {optkey : Bytes} {optarg next : Option Bytes} {state state' : ParseState ι}
    {o : Occurrence ι V} {taken : Bool}
    (h : parseLong options option optkey optarg next state = .ok (state', o, taken)) :
    LongSpec options option optkey optarg next state state' o taken := by
  unfold parseLong at h
  cases hopt : getLongopt options option optkey with
  | none =>
    rw [hopt] at h
    cases h
  | some opt =>
    rw [hopt] at h
    obtain ⟨state₁, hstate, h⟩ := bind_ok h
    have hcomplete : completeLong options option next.isSome optkey optarg ↔
        optarg.isSome = true ∨
          if (option opt).takesArgument then next.isSome = true ∨ (option opt).hasDefault = true
          else (option opt).constValue.isSome = true := by
      rw [completeLong, hopt]
    cases optarg with
    | some optval =>
      obtain ⟨values, hvalues, h⟩ := bind_ok h
      cases h
      refine ⟨counts_encounter hstate _ _, rfl, rfl, rfl, ?_⟩
      rw [hcomplete]
      exact iff_of_true (assigned_of_text (o := ⟨opt, .attached optval, values⟩) rfl hvalues) (.inl rfl)
    | none =>
      cases ht : (option opt).takesArgument with
      | true =>
        simp only [ht, if_true] at h hcomplete
        cases next with
        | some optval =>
          obtain ⟨values, hvalues, h⟩ := bind_ok h
          cases h
          refine ⟨counts_encounter hstate _ _, rfl, rfl, ?_, ?_⟩
          · simp [hopt, ht]
          · rw [hcomplete]
            exact iff_of_true (assigned_of_text (o := ⟨opt, .element optval, values⟩) rfl hvalues) (.inr (.inl rfl))
        | none =>
          cases hd : (option opt).hasDefault with
          | true =>
            simp only [hd, if_true] at h
            cases h
            refine ⟨counts_encounter hstate _ _, rfl, rfl, by simp, ?_⟩
            rw [hcomplete]
            exact iff_of_true ((assigned_default ht).mpr hd) (.inr (.inr hd))
          | false =>
            simp only [hd, Bool.false_eq_true, if_false] at h
            split_ifs at h
            cases h
            refine ⟨counts_encounter hstate _ _, rfl, rfl, by simp, ?_⟩
            rw [hcomplete]
            refine iff_of_false ?_ (by simp [hd])
            rintro ⟨v, hv, -⟩
            cases hv
      | false =>
        simp only [ht, Bool.false_eq_true, if_false] at h hcomplete
        cases h
        refine ⟨counts_encounter hstate _ _, rfl, rfl, by simp [hopt, ht], ?_⟩
        rw [hcomplete, assigned_fixed ht]
        simp

theorem nextUnnamed_counts {state state' : ParseState ι} {k : ℕ} {l : List ι} {opt : ι}
    (h : nextUnnamed option state k l = .ok (state', opt)) (given : Given) (assigned : List V) :
    Counts option state state' [⟨opt, given, assigned⟩] := by
  induction l generalizing k with
  | nil => cases h
  | cons opt' l ih =>
    unfold nextUnnamed at h
    split_ifs at h
    · exact ih h
    · split at h
      · rename_i state'' hadd
        cases h
        exact counts_addEncounter hadd given assigned k
      · exact ih h

theorem nextPositional_counts {state state' : ParseState ι} {opt : ι}
    (h : nextPositional options option state = .ok (state', opt)) (given : Given) (assigned : List V) :
    Counts option state state' [⟨opt, given, assigned⟩] := by
  unfold nextPositional at h
  split at h
  · exact nextUnnamed_counts h given assigned
  · split at h
    · rename_i state'' hadd
      cases h
      exact counts_addEncounter hadd given assigned _
    · exact nextUnnamed_counts h given assigned

theorem matchShort_some {arg optstring : Bytes} (h : matchShort arg = some optstring) : arg = dash :: optstring := by
  unfold matchShort at h
  split at h
  · split_ifs at h with hd
    cases h
    rw [hd.1]
  · cases h

theorem matchLong_some {arg optkey : Bytes} {optarg : Option Bytes} (h : matchLong arg = some (optkey, optarg)) :
    arg = dash :: dash :: (optkey ++ (optarg.map (equalSign :: ·)).getD []) := by
  unfold matchLong at h
  split at h
  · rename_i d d' text
    split_ifs at h with hd
    have hsplit := List.takeWhile_append_dropWhile (p := fun c => c ≠ equalSign && !isSpace c) (l := text)
    rw [List.span_eq_takeWhile_dropWhile] at h
    generalize text.takeWhile _ = key at h hsplit
    generalize text.dropWhile _ = rest at h hsplit
    rw [hd.1, hd.2, ← hsplit]
    split at h
    · cases h
    · rename_i heq
      cases heq
      cases h
      rfl
    · rename_i heq
      cases heq
      split_ifs at h with he
      cases h
      rw [he.1]
      rfl
  · cases h

structure UseSpec (options : List ι) (option : ι → BaseOption V) (arg : Bytes) (next : Option Bytes)
    (state state' : ParseState ι) (use : Use ι V) (taken : Bool) : Prop where
  counts : Counts option state state' use.occurrences
  spelled : use.spelling = arg :: if taken then next.toList else []
  opens : taken = (opens options option arg && next.isSome)
  assigned : (∀ o ∈ use.occurrences, o.Assigned option) ↔ complete options option next.isSome arg

theorem parseOne_spec {arg : Bytes} {next : Option Bytes} {state state' : ParseState ι} {use : Use ι V} {taken : Bool}
    (h : parseOne options option arg next state = .ok (state', use, taken)) :
    UseSpec options option arg next state state' use taken := by
  unfold parseOne at h
  cases hs : matchShort arg with
  | some optstring =>
    rw [hs] at h
    obtain ⟨⟨state₁, os, taken'⟩, hparse, h⟩ := bind_ok h
    cases h
    have hspec := parseShort_spec hparse
    refine ⟨hspec.counts, ?_, ?_, ?_⟩
    · rw [matchShort_some hs, ← hspec.elements, ← hspec.spelled]
      rfl
    · rw [hspec.opens, opens, hs]
    · rw [complete, hs]
      refine Iff.trans ?_ hspec.assigned
      exact List.forall_mem_map
  | none =>
    rw [hs] at h
    cases hl : matchLong arg with
    | some m =>
      obtain ⟨optkey, optarg⟩ := m
      rw [hl] at h
      obtain ⟨⟨state₁, o, taken'⟩, hparse, h⟩ := bind_ok h
      cases h
      have hspec := parseLong_spec hparse
      refine ⟨hspec.counts, ?_, ?_, ?_⟩
      · rw [matchLong_some hl, ← hspec.elements, ← hspec.spelled]
        rfl
      · rw [hspec.opens, opens, hs, hl]
      · rw [complete, hs, hl]
        refine Iff.trans ?_ hspec.assigned
        exact List.forall_mem_singleton
    | none =>
      rw [hl] at h
      obtain ⟨⟨state₁, o⟩, hparse, h⟩ := bind_ok h
      cases h
      obtain ⟨⟨state₂, opt⟩, hnext, hparse⟩ := bind_ok hparse
      obtain ⟨values, hvalues, hparse⟩ := bind_ok hparse
      cases hparse
      refine ⟨nextPositional_counts hnext _ _, rfl, ?_, ?_⟩
      · rw [opens, hs, hl]
        rfl
      · rw [complete, hs, hl]
        refine iff_of_true (List.forall_mem_singleton.mpr ?_) trivial
        exact assigned_of_text (o := ⟨opt, .element arg, values⟩) rfl hvalues

/-! ## All arguments -/

structure EachSpec (options : List ι) (option : ι → BaseOption V) (args : List Bytes) (state state' : ParseState ι)
    (uses : List (Use ι V)) : Prop where
  counts : Counts option state state' (uses.flatMap Use.occurrences)
  spelled : uses.flatMap Use.spelling = args
  assigned : (∀ use ∈ uses, ∀ o ∈ use.occurrences, o.Assigned option) ↔ Complete options option args

/-- One more argument, with the one it takes. -/
theorem EachSpec.cons {arg next : Bytes} {rest : List Bytes} {state state₁ state' : ParseState ι} {use : Use ι V}
    {uses : List (Use ι V)} {taken : Bool} (h : UseSpec options option arg (some next) state state₁ use taken)
    (h' : EachSpec options option (if taken then rest else next :: rest) state₁ state' uses) :
    EachSpec options option (arg :: next :: rest) state state' (use :: uses) := by
  have hopens : taken = opens options option arg := by simpa using h.opens
  refine ⟨h.counts.trans h'.counts, ?_, ?_⟩
  · rw [List.flatMap_cons, h.spelled, h'.spelled]
    cases taken <;> rfl
  · rw [List.forall_mem_cons, h.assigned, h'.assigned, Complete, ← hopens]
    cases taken <;> exact Iff.rfl

theorem parseEach_spec {args : List Bytes} {state state' : ParseState ι} {uses : List (Use ι V)}
    (h : parseEach options option args state = .ok (state', uses)) :
    EachSpec options option args state state' uses := by
  induction args, state using parseEach.induct generalizing state' uses with
  | case1 state =>
    cases h
    exact ⟨counts_nil state, rfl, by simp [Complete]⟩
  | case2 arg state =>
    obtain ⟨⟨state₁, use, taken⟩, hone, h⟩ := bind_ok h
    cases h
    have hspec := parseOne_spec hone
    refine ⟨?_, ?_, ?_⟩
    · simpa using hspec.counts.trans (counts_nil _)
    · rw [List.flatMap_cons, hspec.spelled]
      cases taken <;> rfl
    · rw [List.forall_mem_singleton, hspec.assigned, Complete]
      exact Iff.rfl
  | case3 arg next rest state ih ih' =>
    obtain ⟨⟨state₁, use, taken⟩, hone, h⟩ := bind_ok h
    cases taken with
    | true =>
      obtain ⟨⟨state₂, uses'⟩, hrest, h⟩ := bind_ok h
      cases h
      exact .cons (parseOne_spec hone) (ih _ hrest)
    | false =>
      obtain ⟨⟨state₂, uses'⟩, hrest, h⟩ := bind_ok h
      cases h
      exact .cons (parseOne_spec hone) (ih' _ hrest)

/-! ## Defaults for what is missing -/

structure DefaultsSpec (option : ι → BaseOption V) (l : List ι) (state state' : ParseState ι)
    (defaults : List (Occurrence ι V)) : Prop where
  encounters : ∀ opt, state'.encounters opt = state.encounters opt + occurs defaults opt
  assigned : ∀ o ∈ defaults, ∃ v, o.assigned = [v] ∧ (option o.option).defaultValue = some v
  reached : ∀ opt ∈ l, (option opt).repeats.1 ≤ state'.encounters opt
  filled : ∀ opt, state'.encounters opt = state.encounters opt ∨
    opt ∈ l ∧ (option opt).isNamed = true ∧ (option opt).hasDefault = true ∧
      state'.encounters opt = (option opt).repeats.1

theorem occurs_replicate (k : ℕ) (o : Occurrence ι V) (opt : ι) :
    occurs (List.replicate k o) opt = if o.option = opt then k else 0 := by
  unfold occurs
  rw [List.countP_replicate]
  simp

theorem assignDefaults_spec {l : List ι} {state state' : ParseState ι} {defaults : List (Occurrence ι V)}
    (h : assignDefaults option l state = .ok (state', defaults)) : DefaultsSpec option l state state' defaults := by
  induction l generalizing state state' defaults with
  | nil =>
    cases h
    exact ⟨fun _ => rfl, nofun, nofun, fun _ => .inl rfl⟩
  | cons opt l ih =>
    unfold assignDefaults at h
    dsimp only at h
    by_cases hn : (option opt).isNamed = true ∧ (option opt).hasDefault = true
    · rw [if_pos hn] at h
      obtain ⟨⟨state₁, defaults'⟩, hrest, h⟩ := bind_ok h
      simp only [Except.ok.injEq, Prod.mk.injEq] at h
      obtain ⟨rfl, rfl⟩ := h
      have hspec := ih hrest
      have hencounters : ∀ opt', Function.update state.encounters opt (state.encounters opt +
          ((option opt).repeats.1 - state.encounters opt)) opt' =
          state.encounters opt' + if opt = opt' then (option opt).repeats.1 - state.encounters opt else 0 := by
        intro opt'
        by_cases he : opt = opt'
        · subst he
          rw [Function.update_self, if_pos rfl]
        · rw [Function.update_of_ne (Ne.symm he), if_neg he, Nat.add_zero]
      have henc := fun opt' => (hspec.encounters opt').trans (congrArg (· + _) (hencounters opt'))
      obtain ⟨d, hd⟩ := Option.isSome_iff_exists.mp hn.2
      refine ⟨fun opt' => ?_, fun o ho => ?_, fun opt' hm => ?_, fun opt' => ?_⟩
      · rw [henc, occurs_append, occurs_replicate, Nat.add_assoc]
      · rcases List.mem_append.mp ho with ho | ho
        · rw [List.eq_of_mem_replicate ho]
          refine ⟨d, ?_, hd⟩
          unfold assignDefault
          rw [hd]
          rfl
        · exact hspec.assigned o ho
      · rcases List.mem_cons.mp hm with rfl | hm
        · have := henc opt'
          rw [if_pos rfl] at this
          omega
        · exact hspec.reached opt' hm
      · rcases hspec.filled opt' with he | ⟨hm, hfill⟩
        · dsimp only at he
          rw [hencounters] at he
          by_cases ho : opt = opt'
          · subst ho
            rw [if_pos rfl] at he
            by_cases hlt : state.encounters opt < (option opt).repeats.1
            · exact .inr ⟨List.mem_cons_self, hn.1, hn.2, by omega⟩
            · exact .inl (by omega)
          · rw [if_neg ho] at he
            exact .inl he
        · exact .inr ⟨List.mem_cons_of_mem _ hm, hfill⟩
    · rw [if_neg hn] at h
      split_ifs at h with hmissing
      have hspec := ih h
      refine ⟨hspec.encounters, hspec.assigned, fun opt' hm => ?_, fun opt' => ?_⟩
      · rcases List.mem_cons.mp hm with rfl | hm
        · have := hspec.encounters opt'
          omega
        · exact hspec.reached opt' hm
      · exact (hspec.filled opt').imp_right fun hfill => ⟨List.mem_cons_of_mem _ hfill.1, hfill.2⟩

/-- When parsing succeeds: every argument is accounted for if and only if no
value is missing, and no option with a default must occur more often than it
may. -/
theorem accounted_iff {args : List Bytes} {p : Parsed ι V} (h : parseArgs options option args = .ok p) :
    Accounted options option args p ↔ Complete options option args ∧
      ∀ opt ∈ options, (option opt).isNamed = true → (option opt).hasDefault = true →
        (option opt).repeats.2 = 0 ∨ (option opt).repeats.1 ≤ (option opt).repeats.2 := by
  obtain ⟨⟨state, uses⟩, heach, h⟩ := bind_ok h
  obtain ⟨⟨state', defaults⟩, hdefaults, h⟩ := bind_ok h
  cases h
  have hspec := parseEach_spec heach
  have hfill := assignDefaults_spec hdefaults
  have hbounded := hspec.counts.bounded fun _ => .inr (Nat.zero_le _)
  have hcount : ∀ opt, occurs (Parsed.occurrences ⟨uses, defaults⟩) opt = state'.encounters opt := by
    intro opt
    rw [hfill.encounters, hspec.counts.encounters, Nat.zero_add, ← occurs_append]
    rfl
  constructor
  · intro hacc
    refine ⟨hspec.assigned.mp hacc.assigned, fun opt hm _ _ => ?_⟩
    obtain ⟨hmin, hmax⟩ := hacc.repeats opt hm
    exact hmax.imp_right hmin.trans
  · intro hclean
    obtain ⟨hcomplete, hrepeats⟩ := hclean
    refine ⟨hspec.spelled, hspec.assigned.mpr hcomplete, hfill.assigned, fun opt hm => ?_⟩
    rw [hcount]
    refine ⟨hfill.reached opt hm, ?_⟩
    rcases hfill.filled opt with he | ⟨-, hnamed, hdefault, he⟩
    · rw [he]
      exact hbounded opt
    · rw [he]
      exact hrepeats opt hm hnamed hdefault

end

/-! ## A value assigned twice -/

/-- `-o`, whose value is a text that may be left out. -/
def output : BaseOption Bytes where
  argname := some [70]
  shortopts := [111]
  longopts := []
  repeats := (0, 1)
  constValue := none
  defaultValue := some [45]
  convertTo := some

theorem accounted_output : Accounted [0] (fun _ : ℕ => output) [[45, 111], [97]]
      ⟨[.cluster [(111, ⟨0, .element [97], [[97]]⟩)]], []⟩ ↔
    Complete [0] (fun _ : ℕ => output) [[45, 111], [97]] ∧
      ∀ opt ∈ [0], output.isNamed = true → output.hasDefault = true → output.repeats.2 = 0 ∨ output.repeats.1 ≤ output.repeats.2 :=
  accounted_iff (by decide)

/-- At the end of the arguments, the default and then the empty text. -/
theorem assigned_twice : ¬ ∀ (options : List ℕ) (option : ℕ → BaseOption Bytes) args p,
    parseArgs options option args = .ok p → Accounted options option args p := by
  intro hall
  have hparsed : parseArgs [0] (fun _ : ℕ => output) [[45, 111]] =
      .ok ⟨[.cluster [(111, ⟨0, .absent, [[45], []]⟩)]], []⟩ := by decide
  obtain ⟨v, hv, -⟩ := (hall _ _ _ _ hparsed).assigned _ List.mem_cons_self _ List.mem_cons_self
  cases hv

end Argparse

end CommonCore
