import CommonCore.Variant

/-!
# Capturing the output of a child process

`pipe_capture` polls the three pipes to a child in a loop that ends when the
child has exited, or when it has closed all its ends of them. A pipe keeps what
was written until it is read, also after the writer has exited; a write to a
child that has closed its end ends the program or throws, and is no step here.
-/

namespace CommonCore

namespace PipeCapture

open Relation

inductive Stream
  | stdout | stderr
  deriving DecidableEq

/-- What `poll` reports of a pipe that is read from. -/
inductive Events
  | quiet | readable | hangup
  deriving DecidableEq

/-- Where `pipe_capture` is in its loop. -/
inductive Phase
  | waiting
  | polling
  | polled (pollout pollerr : Bool) (events : Stream → Events)
  | served (events : Stream → Events)
  | checked (events : Stream → Events)
  | returned (wstatus : ℕ)

/-- What is to be checked in a phase. -/
def Phase.pending : Phase → Stream → Events
  | .polled _ _ events, stream => events stream
  | .served events, stream => events stream
  | .checked events, .stderr => events .stderr
  | _, _ => .quiet

/-- Whether the pipe is read before the child's exit is looked for again, as far
as the phase tells. -/
def Phase.reads : Phase → Stream → Bool
  | .polling, _ => true
  | phase, stream => phase.pending stream = .readable

def chunksize : ℕ := 4096

structure Capture where
  exited : Option ℕ := none
  stdinOpen : Bool := true
  outputOpen : Stream → Bool := fun _ => true
  /-- All that the child has written. -/
  written : Stream → Bytes := fun _ => []
  stdinPipe : Bytes := []
  pipes : Stream → Bytes := fun _ => []
  fdin : Bool := true
  fds : Stream → Bool := fun _ => true
  instream : Bytes
  /-- What was read from the input stream while the child could take it, and did not go into the pipe. -/
  refused : Bytes := []
  result : Stream → Bytes := fun _ => []
  phase : Phase := .waiting

namespace Capture

/-- A closed descriptor is not polled. -/
def poll (s : Capture) (stream : Stream) : Events :=
  if s.fds stream then
    if s.pipes stream ≠ [] then .readable else if s.outputOpen stream then .quiet else .hangup
  else .quiet

/-- `check_poll` of one pipe. -/
inductive CheckPoll (stream : Stream) : Events → Capture → Capture → Prop
  | read {s} : CheckPoll stream .readable s
      { s with
        result := Function.update s.result stream (s.result stream ++ (s.pipes stream).take chunksize)
        pipes := Function.update s.pipes stream ((s.pipes stream).drop chunksize) }
  | close {s} : CheckPoll stream .hangup s { s with fds := Function.update s.fds stream false }
  | quiet {s} : CheckPoll stream .quiet s s

/-- A write to the child finds this much room in the pipe. -/
inductive Act
  | child
  | exits
  | parent
  | reaped
  | finished
  | sent (nbytes room : ℕ)

inductive Step : Act → Capture → Capture → Prop
  | childWrites {s stream bytes} : s.exited = none → s.outputOpen stream = true →
      Step .child s
        { s with
          written := Function.update s.written stream (s.written stream ++ bytes)
          pipes := Function.update s.pipes stream (s.pipes stream ++ bytes) }
  | childReads {s k} : s.exited = none → s.stdinOpen = true → Step .child s { s with stdinPipe := s.stdinPipe.drop k }
  | childClosesInput {s} : s.exited = none → Step .child s { s with stdinOpen := false }
  | childCloses {s stream} : s.exited = none →
      Step .child s { s with outputOpen := Function.update s.outputOpen stream false }
  | childExits {s wstatus} : s.exited = none →
      Step .exits s { s with exited := some wstatus, stdinOpen := false, outputOpen := fun _ => false }
  | reaped {s wstatus} : s.phase = .waiting → s.exited = some wstatus →
      Step .reaped s { s with phase := .returned wstatus }
  | finished {s} : s.phase = .waiting → s.exited = none → s.fdin = false → (∀ stream, s.fds stream = false) →
      Step .finished s { s with phase := .returned 0 }
  | waited {s} : s.phase = .waiting → s.exited = none → (s.fdin = true ∨ ∃ stream, s.fds stream = true) →
      Step .parent s { s with phase := .polling }
  | polled {s pollout pollerr} : s.phase = .polling →
      (pollout = true → s.fdin = true) → (pollerr = true ↔ s.fdin = true ∧ s.stdinOpen = false) →
      (pollout = true ∨ pollerr = true ∨ ∃ stream, s.poll stream ≠ .quiet) →
      Step .parent s { s with phase := .polled pollout pollerr s.poll }
  | sent {s pollerr events room} : s.phase = .polled true pollerr events → s.stdinOpen = true → s.instream ≠ [] → 0 < room →
      Step (.sent (s.instream.take chunksize).length room) s
        { s with
          instream := s.instream.drop chunksize
          stdinPipe := s.stdinPipe ++ (s.instream.take chunksize).take room
          refused := s.refused ++ (s.instream.take chunksize).drop room
          phase := .served events }
  | closedInput {s pollout pollerr events} : s.phase = .polled pollout pollerr events → (pollout = true ∨ pollerr = true) →
      (pollout = true → s.instream = []) → Step .parent s { s with fdin := false, phase := .served events }
  | quietInput {s events} : s.phase = .polled false false events → Step .parent s { s with phase := .served events }
  | checkedOutput {s s' events} : s.phase = .served events → CheckPoll .stdout (events .stdout) s s' →
      Step .parent s { s' with phase := .checked events }
  | checkedError {s s' events} : s.phase = .checked events → CheckPoll .stderr (events .stderr) s s' →
      Step .parent s { s' with phase := .waiting }

/-- Nothing is lost when `pipe_capture` returns. -/
structure Complete (s : Capture) (wstatus : ℕ) : Prop where
  output : ∀ stream, s.result stream = s.written stream
  input : s.refused = []
  status : s.exited = some wstatus

/-- What is in the pipe will be read before the child's exit is looked for. -/
def Drains (s : Capture) (stream : Stream) : Prop :=
  s.pipes stream = [] ∨ s.phase.reads stream = true ∧ (s.pipes stream).length ≤ chunksize

/-- The child does not leave more behind when it exits, the loop does not run out
of pipes before that, and there is room for what is sent. -/
def Orderly (s : Capture) : Act → Prop
  | .exits => ∀ stream, s.Drains stream
  | .finished => False
  | .sent nbytes room => nbytes ≤ room
  | _ => True

instance (s : Capture) (stream : Stream) : Decidable (s.Drains stream) := inferInstanceAs (Decidable (_ ∨ _))

/-! ## What goes through the pipes -/

/-- What `poll` has reported stays true until the pipe is read. -/
def Reported (s : Capture) (stream : Stream) : Events → Prop
  | .quiet => True
  | .readable => s.pipes stream ≠ []
  | .hangup => s.pipes stream = [] ∧ s.outputOpen stream = false

/-- What was written is what has been read and what is in the pipe, and a pipe
is closed when nothing more comes. -/
structure Flowing (s : Capture) : Prop where
  kept : ∀ stream, s.written stream = s.result stream ++ s.pipes stream
  input : s.refused = []
  done : ∀ stream, s.fds stream = false → s.pipes stream = [] ∧ s.outputOpen stream = false

variable {s s' : Capture}

theorem reported_poll (s : Capture) (stream : Stream) : s.Reported stream (s.poll stream) := by
  unfold poll
  split_ifs with hfd hpipe hopen
  · exact hpipe
  · trivial
  · exact ⟨not_not.mp hpipe, Bool.eq_false_iff.mpr hopen⟩
  · trivial

theorem CheckPoll.flowing {stream : Stream} {events : Events} (h : CheckPoll stream events s s') (hf : s.Flowing)
    (hr : s.Reported stream events) : s'.Flowing := by
  cases h with
  | @read s =>
    refine ⟨fun stream' => ?_, hf.input, fun stream' hfd => ?_⟩
    · by_cases hs : stream' = stream
      · subst hs
        show s.written stream' = Function.update s.result stream' _ stream' ++ Function.update s.pipes stream' _ stream'
        rw [Function.update_self, Function.update_self, List.append_assoc, List.take_append_drop]
        exact hf.kept stream'
      · show s.written stream' = Function.update s.result stream _ stream' ++ Function.update s.pipes stream _ stream'
        rw [Function.update_of_ne hs, Function.update_of_ne hs]
        exact hf.kept stream'
    · obtain ⟨hnil, hclosed⟩ := hf.done stream' hfd
      refine ⟨?_, hclosed⟩
      by_cases hs : stream' = stream
      · subst hs
        exact absurd hnil hr
      · show Function.update s.pipes stream _ stream' = []
        rw [Function.update_of_ne hs]
        exact hnil
  | close =>
    refine ⟨hf.kept, hf.input, fun stream' hfd => ?_⟩
    by_cases hs : stream' = stream
    · subst hs
      exact hr
    · change Function.update s.fds stream false stream' = false at hfd
      rw [Function.update_of_ne hs] at hfd
      exact hf.done stream' hfd
  | quiet => exact hf

/-- The other pipe is left alone. -/
theorem CheckPoll.reported {stream other : Stream} {events events' : Events} (h : CheckPoll stream events s s')
    (hne : other ≠ stream) (hr : s.Reported other events') : s'.Reported other events' := by
  cases h with
  | @read s =>
    cases events' with
    | quiet => trivial
    | readable =>
      show Function.update s.pipes stream _ other ≠ []
      rw [Function.update_of_ne hne]
      exact hr
    | hangup =>
      refine ⟨?_, hr.2⟩
      show Function.update s.pipes stream _ other = []
      rw [Function.update_of_ne hne]
      exact hr.1
  | close => cases events' <;> exact hr
  | quiet => exact hr

/-! ## What the child does -/

/-- The child has written more, or closed an end. -/
structure Further (s s' : Capture) : Prop where
  added : ∀ stream, ∃ bytes, s'.written stream = s.written stream ++ bytes ∧ s'.pipes stream = s.pipes stream ++ bytes ∧
    (s.outputOpen stream = false → bytes = [])
  closed : ∀ stream, s.outputOpen stream = false → s'.outputOpen stream = false
  result : s'.result = s.result
  fds : s'.fds = s.fds
  refused : s'.refused = s.refused
  phase : s'.phase = s.phase

theorem further_of_output (hw : s'.written = s.written) (hp : s'.pipes = s.pipes)
    (hc : ∀ stream, s.outputOpen stream = false → s'.outputOpen stream = false) (hr : s'.result = s.result)
    (hf : s'.fds = s.fds) (hi : s'.refused = s.refused) (hph : s'.phase = s.phase) : Further s s' :=
  ⟨fun stream => ⟨[], by rw [hw, List.append_nil], by rw [hp, List.append_nil], fun _ => rfl⟩, hc, hr, hf, hi, hph⟩

theorem further_of_child (h : Step .child s s') : Further s s' ∧ s.exited = none ∧ s'.exited = none := by
  cases h with
  | @childWrites s stream bytes he ho =>
    refine ⟨⟨fun stream' => ?_, fun _ hc => hc, rfl, rfl, rfl, rfl⟩, he, he⟩
    by_cases hs : stream' = stream
    · subst hs
      refine ⟨bytes, ?_, ?_, fun hc => ?_⟩
      · exact Function.update_self ..
      · exact Function.update_self ..
      · rw [ho] at hc
        cases hc
    · refine ⟨[], ?_, ?_, fun _ => rfl⟩
      · rw [List.append_nil]
        exact Function.update_of_ne hs ..
      · rw [List.append_nil]
        exact Function.update_of_ne hs ..
  | childReads he ho => exact ⟨further_of_output rfl rfl (fun _ hc => hc) rfl rfl rfl rfl, he, he⟩
  | childClosesInput he => exact ⟨further_of_output rfl rfl (fun _ hc => hc) rfl rfl rfl rfl, he, he⟩
  | @childCloses s stream he =>
    refine ⟨further_of_output rfl rfl (fun stream' hc => ?_) rfl rfl rfl rfl, he, he⟩
    show Function.update s.outputOpen stream false stream' = false
    by_cases hs : stream' = stream
    · subst hs
      exact Function.update_self ..
    · rw [Function.update_of_ne hs]
      exact hc

theorem further_of_exits (h : Step .exits s s') : Further s s' ∧ s.exited = none := by
  cases h with
  | childExits he => exact ⟨further_of_output rfl rfl (fun _ _ => rfl) rfl rfl rfl rfl, he⟩

theorem Further.flowing (h : Further s s') (hf : s.Flowing) : s'.Flowing := by
  refine ⟨fun stream => ?_, h.refused.trans hf.input, fun stream hfd => ?_⟩
  · obtain ⟨bytes, hw, hp, -⟩ := h.added stream
    rw [hw, hp, h.result, hf.kept, List.append_assoc]
  · rw [h.fds] at hfd
    obtain ⟨hnil, hclosed⟩ := hf.done stream hfd
    obtain ⟨bytes, -, hp, hb⟩ := h.added stream
    refine ⟨?_, h.closed stream hclosed⟩
    rw [hp, hnil, hb hclosed]
    rfl

theorem Further.reported (h : Further s s') {stream : Stream} {events : Events} (hr : s.Reported stream events) :
    s'.Reported stream events := by
  obtain ⟨bytes, -, hp, hb⟩ := h.added stream
  cases events with
  | quiet => trivial
  | readable =>
    intro hnil
    rw [hp] at hnil
    exact hr (List.append_eq_nil_iff.mp hnil).1
  | hangup =>
    refine ⟨?_, h.closed stream hr.2⟩
    rw [hp, hr.1, hb hr.2]
    rfl

/-! ## Every step -/

structure Sound (s : Capture) : Prop where
  flowing : s.Flowing
  reported : ∀ stream, s.Reported stream (s.phase.pending stream)
  drains : s.exited ≠ none → ∀ stream, s.Drains stream
  returned : ∀ wstatus, s.phase = .returned wstatus → s.exited = some wstatus

theorem Sound.further (h : s.Sound) (hf : Further s s') (he : s.exited = none) (hd : s'.exited ≠ none → ∀ stream, s'.Drains stream) :
    s'.Sound := by
  refine ⟨hf.flowing h.flowing, fun stream => ?_, hd, fun wstatus hph => ?_⟩
  · rw [hf.phase]
    exact hf.reported (h.reported stream)
  · rw [hf.phase] at hph
    rw [h.returned wstatus hph] at he
    cases he

theorem Sound.child (h : s.Sound) (hs : Step .child s s') : s'.Sound := by
  obtain ⟨hf, he, he'⟩ := further_of_child hs
  exact h.further hf he fun hne => absurd he' hne

theorem Sound.exits (h : s.Sound) (hs : Step .exits s s') (ho : s.Orderly .exits) : s'.Sound := by
  obtain ⟨hf, he⟩ := further_of_exits hs
  refine h.further hf he fun _ stream => ?_
  cases hs
  exact ho stream

/-- What is to be read is a chunk at most. -/
theorem CheckPoll.emptied {stream : Stream} {events : Events} (h : CheckPoll stream events s s')
    (hd : s.pipes stream = [] ∨ decide (events = .readable) = true ∧ (s.pipes stream).length ≤ chunksize) : s'.pipes stream = [] := by
  cases h with
  | read =>
    show Function.update s.pipes stream _ stream = []
    rw [Function.update_self, List.drop_eq_nil_iff]
    rcases hd with hnil | ⟨-, hlen⟩
    · rw [hnil]
      exact Nat.zero_le _
    · exact hlen
  | close => exact hd.resolve_right fun h => absurd (of_decide_eq_true h.1) nofun
  | quiet => exact hd.resolve_right fun h => absurd (of_decide_eq_true h.1) nofun

theorem CheckPoll.others {stream other : Stream} {events : Events} (h : CheckPoll stream events s s') (hne : other ≠ stream) :
    s'.pipes other = s.pipes other := by
  cases h with
  | read => exact Function.update_of_ne hne ..
  | close => rfl
  | quiet => rfl

theorem CheckPoll.exited {stream : Stream} {events : Events} (h : CheckPoll stream events s s') : s'.exited = s.exited := by
  cases h <;> rfl

theorem Sound.pending (h : s.Sound) {phase : Phase} (hph : s.phase = phase) :
    (∀ stream, s.Reported stream (phase.pending stream)) ∧
      (s.exited ≠ none → ∀ stream, s.pipes stream = [] ∨ phase.reads stream = true ∧ (s.pipes stream).length ≤ chunksize) := by
  subst hph
  exact ⟨h.reported, h.drains⟩

theorem Sound.step {a : Act} (h : s.Sound) (hs : Step a s s') (ho : s.Orderly a) : s'.Sound := by
  have hf := h.flowing
  cases hs with
  | childWrites he hopen => exact h.child (.childWrites he hopen)
  | childReads he hopen => exact h.child (.childReads he hopen)
  | childClosesInput he => exact h.child (.childClosesInput he)
  | childCloses he => exact h.child (.childCloses he)
  | childExits he => exact h.exits (.childExits he) ho
  | reaped hph he =>
    refine ⟨⟨hf.kept, hf.input, hf.done⟩, fun _ => trivial, (h.pending hph).2, fun wstatus hw => ?_⟩
    cases hw
    exact he
  | finished => exact ho.elim
  | waited hph he => exact ⟨⟨hf.kept, hf.input, hf.done⟩, fun _ => trivial, fun hne => absurd he hne, nofun⟩
  | polled hph =>
    refine ⟨⟨hf.kept, hf.input, hf.done⟩, fun stream => reported_poll s stream, fun hne stream => ?_, nofun⟩
    rcases h.drains hne stream with hnil | ⟨-, hlen⟩
    · exact .inl hnil
    · by_cases hnil : s.pipes stream = []
      · exact .inl hnil
      · -- What is in a pipe is reported, and its descriptor is open.
        have hfd : s.fds stream = true := by
          by_contra hclosed
          exact hnil (hf.done stream (Bool.eq_false_iff.mpr hclosed)).1
        have hpoll : s.poll stream = .readable := by
          rw [poll, if_pos hfd, if_pos hnil]
        exact .inr ⟨decide_eq_true hpoll, hlen⟩
  | @sent s pollerr events room hph hopen hne hpos =>
    obtain ⟨hr, hd⟩ := h.pending hph
    refine ⟨⟨hf.kept, ?_, hf.done⟩, hr, hd, nofun⟩
    show s.refused ++ (s.instream.take chunksize).drop room = []
    rw [List.drop_of_length_le ho, List.append_nil]
    exact hf.input
  | closedInput hph =>
    obtain ⟨hr, hd⟩ := h.pending hph
    exact ⟨⟨hf.kept, hf.input, hf.done⟩, hr, hd, nofun⟩
  | quietInput hph =>
    obtain ⟨hr, hd⟩ := h.pending hph
    exact ⟨⟨hf.kept, hf.input, hf.done⟩, hr, hd, nofun⟩
  | @checkedOutput _ s' events hph hc =>
    obtain ⟨hr, hd⟩ := h.pending hph
    have hf' := hc.flowing hf (hr .stdout)
    refine ⟨⟨hf'.kept, hf'.input, hf'.done⟩, fun stream => ?_, fun hne stream => ?_, nofun⟩
    · cases stream with
      | stdout => trivial
      | stderr => exact hc.reported (by decide) (hr .stderr)
    · replace hd := hd (hc.exited ▸ hne)
      cases stream with
      | stdout => exact .inl (hc.emptied (hd .stdout))
      | stderr =>
        have hsame : s'.pipes .stderr = s.pipes .stderr := hc.others (by decide)
        have hrest := hd .stderr
        rw [← hsame] at hrest
        exact hrest
  | @checkedError _ s' events hph hc =>
    obtain ⟨hr, hd⟩ := h.pending hph
    have hf' := hc.flowing hf (hr .stderr)
    refine ⟨⟨hf'.kept, hf'.input, hf'.done⟩, fun _ => trivial, fun hne stream => ?_, nofun⟩
    replace hd := hd (hc.exited ▸ hne)
    cases stream with
    | stdout =>
      have hnil : s.pipes .stdout = [] := (hd .stdout).resolve_right fun hread => Bool.false_ne_true hread.1
      exact .inl ((hc.others (by decide)).trans hnil)
    | stderr => exact .inl (hc.emptied (hd .stderr))

/-- The child is running, nothing has been written or read. -/
def start (instream : Bytes) : Capture := { instream }

def OrderlyStep (s s' : Capture) : Prop := ∃ a, Step a s s' ∧ s.Orderly a

def AnyStep (s s' : Capture) : Prop := ∃ a, Step a s s'

theorem sound_run {instream : Bytes} (hr : ReflTransGen OrderlyStep (start instream) s) : s.Sound := by
  induction hr with
  | refl => exact ⟨⟨fun _ => rfl, rfl, nofun⟩, fun _ => trivial, fun hne => absurd rfl hne, nofun⟩
  | tail _ hs ih =>
    obtain ⟨a, hs, ho⟩ := hs
    exact ih.step hs ho

theorem complete_of_orderly {instream : Bytes} (hr : ReflTransGen OrderlyStep (start instream) s) {wstatus : ℕ}
    (hph : s.phase = .returned wstatus) : s.Complete wstatus := by
  have h := sound_run hr
  have he := h.returned wstatus hph
  refine ⟨fun stream => ?_, h.flowing.input, he⟩
  have hnil : s.pipes stream = [] := by
    have hd := h.drains (by rw [he]; exact Option.some_ne_none _) stream
    unfold Drains at hd
    rw [hph] at hd
    exact hd.resolve_right fun hread => Bool.false_ne_true hread.1
  rw [h.flowing.kept, hnil, List.append_nil]

/-! ## A child that writes and exits -/

/-- It writes a byte, and exits when it has been sent one, before its own is read. -/
theorem conversed_reached : ∃ s, ReflTransGen OrderlyStep (start [105]) s ∧ s.phase = .returned 3 ∧
    s.written .stdout = [104] ∧ s.stdinPipe = [105] := by
  have hstart : ReflTransGen OrderlyStep (start [105]) (start [105]) := .refl
  have hwritten := hstart.tail ⟨.child, @Step.childWrites _ .stdout [104] rfl rfl, trivial⟩
  have hwaited := hwritten.tail ⟨.parent, .waited rfl rfl (.inl rfl), trivial⟩
  have hpolled := hwaited.tail ⟨.parent, @Step.polled _ true false rfl (fun _ => rfl) (by decide) (.inl rfl), trivial⟩
  have hsent := hpolled.tail ⟨_, @Step.sent _ _ _ 1 rfl rfl (by decide) (by decide), Nat.le_refl 1⟩
  have hexited := hsent.tail ⟨.exits, @Step.childExits _ 3 rfl, fun stream => by cases stream <;> decide⟩
  have hread := hexited.tail ⟨.parent, .checkedOutput rfl .read, trivial⟩
  have hchecked := hread.tail ⟨.parent, .checkedError rfl .quiet, trivial⟩
  have hreaped := hchecked.tail ⟨.reaped, .reaped rfl rfl, trivial⟩
  exact ⟨_, hreaped, rfl, rfl, rfl⟩

theorem complete_of_conversed : ∃ s : Capture, s.Complete 3 ∧ s.result .stdout = [104] ∧ s.stdinPipe = [105] := by
  obtain ⟨s, hr, hph, hout, hin⟩ := conversed_reached
  have hcomplete := complete_of_orderly hr hph
  exact ⟨s, hcomplete, (hcomplete.output .stdout).trans hout, hin⟩

/-- It exits with nothing written. -/
def silent : Capture := { exited := some 0, stdinOpen := false, outputOpen := fun _ => false, instream := [], phase := .returned 0 }

/-- It writes a byte, which is still in the pipe when its exit is seen. -/
def spoken : Capture :=
  { silent with
    written := Function.update (fun _ => []) .stdout [104]
    pipes := Function.update (fun _ => []) .stdout [104] }

theorem spoken_reached : ReflTransGen AnyStep (start []) spoken := by
  let running : Capture := { start [] with written := spoken.written, pipes := spoken.pipes }
  calc ReflTransGen AnyStep (start []) running := .single ⟨.child, .childWrites rfl rfl⟩
    ReflTransGen AnyStep _ { spoken with phase := .waiting } := .single ⟨.exits, .childExits rfl⟩
    ReflTransGen AnyStep _ spoken := .single ⟨.reaped, .reaped rfl rfl⟩

theorem output_lost : ¬ ∀ instream s wstatus, ReflTransGen AnyStep (start instream) s → s.phase = .returned wstatus →
    s.Complete wstatus := by
  intro hall
  have hkept := (hall [] spoken 0 spoken_reached rfl).output .stdout
  revert hkept
  decide

end Capture

end PipeCapture

end CommonCore
