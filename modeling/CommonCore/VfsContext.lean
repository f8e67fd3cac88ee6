import Mathlib.Data.List.Basic
import Mathlib.Data.List.Chain
import Mathlib.Data.List.Perm.Basic

/-!
# References to a file context

`vfs::local::LocalContext` calls its open hook with the first reference and its
close hook after the last. A `ContextProxy` is a reference while it lives, and
`open_context` takes one until `close_context`.
-/

namespace CommonCore

namespace Vfs

/-- A call of `on_open`, which may throw, or of `on_close`. -/
inductive HookCall
  | opened
  | openFailed
  | closed
  deriving DecidableEq

def HookCall.isOpen : HookCall → Bool
  | .opened | .openFailed => true
  | .closed => false

/-- `LocalContext`, with the hook calls so far, last first. -/
structure LocalContext where
  writable : Bool
  refcount : ℕ := 0
  calls : List HookCall := []

/-- What happens where the context is opened: its root folder cannot be
created, or the hook throws. -/
inductive Opening
  | done
  | noFolder
  | hookThrows
  deriving DecidableEq

namespace LocalContext

/-- `open`. Does it return? -/
def «open» (c : LocalContext) : Opening → Bool × LocalContext
  | .done => (true, { c with calls := .opened :: c.calls })
  | .noFolder => (false, c)
  | .hookThrows => (false, { c with calls := .openFailed :: c.calls })

/-- `close`, which catches what the hook throws. -/
def close (c : LocalContext) : LocalContext := { c with calls := .closed :: c.calls }

def addRef (c : LocalContext) (o : Opening) : Bool × LocalContext :=
  if c.refcount = 0 then
    let (returns, c) := c.open o
    (returns, if returns then { c with refcount := c.refcount + 1 } else c)
  else (true, { c with refcount := c.refcount + 1 })

def delRef (c : LocalContext) : LocalContext :=
  if 0 < c.refcount then
    let c := { c with refcount := c.refcount - 1 }
    if c.refcount = 0 then c.close else c
  else c

/-- The hooks have been called by turns, `on_open` first. -/
def Alternating (c : LocalContext) : Prop :=
  c.calls.IsChain (fun a b => a.isOpen ≠ b.isOpen) ∧ ∀ h ∈ c.calls.getLast?, h.isOpen = true

/-- The last hook that did not fail is the open hook. -/
def isOpen (c : LocalContext) : Prop := c.calls.find? (· ≠ .openFailed) = some .opened

end LocalContext

/-- `ContextProxy`, or a `Location`. It has no context, or this one. -/
structure Proxy where
  attached : Bool
  modify : Bool

/-- The context, whether the provider has it, the proxies that live, and the
`open_context` calls that have not been undone. -/
structure Provider where
  context : LocalContext
  present : Bool := true
  proxies : List Proxy := []
  opens : ℕ := 0

inductive Op
  | emptyProxy
  | proxy (modify : Bool) (o : Opening)
  | location (absolute modify : Bool) (o : Opening)
  | copy (i : ℕ) (o : Opening)
  | assign (i j : ℕ)
  | destroy (i : ℕ)
  | openContext (o : Opening)
  | closeContext
  | closePointer
  | addContext
  | removeContext

namespace Provider

/-- `check_access` -/
def allows (p : Provider) (modify : Bool) : Bool := !modify || p.context.writable

/-- A constructor adds its reference. What throws there leaves no proxy. -/
def construct (p : Provider) (modify : Bool) (o : Opening) : Provider :=
  if p.allows modify then
    let (returns, context) := p.context.addRef o
    { p with context, proxies := if returns then ⟨true, modify⟩ :: p.proxies else p.proxies }
  else p

def destroy (p : Provider) (i : ℕ) : Provider :=
  match p.proxies[i]? with
  | none => p
  | some proxy =>
    { p with
      context := if proxy.attached then p.context.delRef else p.context
      proxies := p.proxies.eraseIdx i }

/-- The constructor of `Location`. Where the path is not relative it throws, and
its base is destroyed. -/
def locate (p : Provider) (absolute modify : Bool) (o : Opening) : Provider :=
  let p' := p.construct modify o
  if absolute ∧ p.proxies.length < p'.proxies.length then p'.destroy 0 else p'

def copy (p : Provider) (i : ℕ) (o : Opening) : Provider :=
  match p.proxies[i]? with
  | none => p
  | some proxy => if proxy.attached then p.construct proxy.modify o else { p with proxies := proxy :: p.proxies }

/-- The assignment that the compiler makes, member by member. -/
def assign (p : Provider) (i j : ℕ) : Provider :=
  match p.proxies[j]? with
  | none => p
  | some proxy => { p with proxies := p.proxies.set i proxy }

def openContext (p : Provider) (o : Opening) : Provider :=
  if p.present then
    let (returns, context) := p.context.addRef o
    { p with context, opens := if returns then p.opens + 1 else p.opens }
  else p

/-- `close_context` of the context itself. -/
def closePointer (p : Provider) : Provider := { p with context := p.context.delRef, opens := p.opens - 1 }

def closeContext (p : Provider) : Provider := if p.present then p.closePointer else p

def removeContext (p : Provider) : Provider :=
  if p.present then
    { p with present := false, context := if 0 < p.context.refcount then p.context.close else p.context }
  else p

def step (p : Provider) : Op → Provider
  | .emptyProxy => { p with proxies := ⟨false, false⟩ :: p.proxies }
  | .proxy modify o => p.construct modify o
  | .location absolute modify o => p.locate absolute modify o
  | .copy i o => p.copy i o
  | .assign i j => p.assign i j
  | .destroy i => p.destroy i
  | .openContext o => p.openContext o
  | .closeContext => p.closeContext
  | .closePointer => p.closePointer
  | .addContext => { p with present := true }
  | .removeContext => p.removeContext

/-- The proxies that have added a reference. -/
def references (p : Provider) : ℕ := p.proxies.countP (·.attached)

/-- Hooks alternate, the context is open while it is referred to, and its count is right. -/
structure Sound (p : Provider) : Prop where
  alternating : p.context.Alternating
  opened : p.context.isOpen ↔ 0 < p.context.refcount
  counted : p.context.refcount = p.references + p.opens

/-! ## When it stays so -/

/-- `add_ref` does not call an open hook that has failed the last time. -/
def CarefulAdd (p : Provider) (o : Opening) : Prop :=
  p.context.refcount = 0 → p.context.calls.head? = some .openFailed → o = .noFolder

def Careful (p : Provider) : Op → Prop
  | .emptyProxy | .destroy _ | .addContext => True
  | .proxy modify o => p.allows modify → p.CarefulAdd o
  | .location _ modify o => p.allows modify → p.CarefulAdd o
  | .copy i o => ∀ proxy ∈ p.proxies[i]?, proxy.attached = true → p.allows proxy.modify → p.CarefulAdd o
  | .assign i j => ∀ a ∈ p.proxies[i]?, ∀ b ∈ p.proxies[j]?, a.attached = b.attached
  | .openContext o => p.present → p.CarefulAdd o
  | .closeContext => p.present → 0 < p.context.refcount → 0 < p.opens
  | .closePointer => 0 < p.context.refcount → 0 < p.opens
  | .removeContext => p.present → p.context.refcount = 0

/-- Each step of a run is careful in the state it is taken in. -/
def CarefulRun : Provider → List Op → Prop
  | _, [] => True
  | p, op :: ops => p.Careful op ∧ CarefulRun (p.step op) ops

end Provider

/-! ## One reference -/

namespace LocalContext

variable {c : LocalContext}

/-- Hooks alternate, and the context is open while its count is positive. -/
def Ok (c : LocalContext) : Prop := c.Alternating ∧ (c.isOpen ↔ 0 < c.refcount)

theorem alternating_cons {h : HookCall} {calls : List HookCall} {writable : Bool} {n m : ℕ} :
    Alternating ⟨writable, n, h :: calls⟩ ↔
      Alternating ⟨writable, m, calls⟩ ∧ (∀ h' ∈ calls.head?, h.isOpen ≠ h'.isOpen) ∧
        (calls.head? = none → h.isOpen = true) := by
  unfold Alternating
  cases calls with
  | nil => simp
  | cons h' calls =>
    simp only [List.isChain_cons_cons, List.getLast?_cons_cons, List.head?_cons]
    constructor
    · rintro ⟨⟨hne, hchain⟩, hlast⟩
      exact ⟨⟨hchain, hlast⟩, by simpa using hne, nofun⟩
    · rintro ⟨⟨hchain, hlast⟩, hne, -⟩
      exact ⟨⟨hne h' rfl, hchain⟩, hlast⟩

/-- Which hook call was the last, of a context that is open. -/
theorem head_of_positive (h : c.Ok) (hpos : 0 < c.refcount) : c.calls.head? = some .opened := by
  obtain ⟨halt, hopen⟩ := h
  have hfind := hopen.mpr hpos
  unfold isOpen at hfind
  unfold Alternating at halt
  match hcalls : c.calls with
  | [] =>
    rw [hcalls] at hfind
    cases hfind
  | .opened :: _ => rfl
  | .closed :: _ =>
    rw [hcalls] at hfind
    cases hfind
  | [.openFailed] =>
    rw [hcalls] at hfind
    cases hfind
  | .openFailed :: h' :: calls =>
    rw [hcalls] at hfind halt
    have hne := (List.isChain_cons_cons.mp halt.1).1
    cases h' with
    | opened | openFailed => exact absurd rfl hne
    | closed => cases hfind

theorem head_of_zero (h : c.Ok) (hzero : c.refcount = 0) : c.calls.head? ≠ some .opened := by
  intro hhead
  have hopen : c.isOpen := by
    unfold isOpen
    rw [List.head?_eq_some_iff] at hhead
    obtain ⟨calls, hcalls⟩ := hhead
    rw [hcalls]
    rfl
  exact absurd (h.2.mp hopen) (by omega)

/-- Calling a hook keeps them alternating if the last one was the other one. -/
theorem alternating_call (h : c.Ok) (hzero : c.refcount = 0) {call : HookCall} (hcall : call.isOpen = true) :
    Alternating ⟨c.writable, c.refcount, call :: c.calls⟩ ↔ c.calls.head? ≠ some .openFailed := by
  rw [alternating_cons (m := c.refcount)]
  have hhead := head_of_zero h hzero
  constructor
  · rintro ⟨-, hne, -⟩ hfailed
    exact hne _ hfailed hcall
  · intro hfailed
    refine ⟨h.1, fun h' hh' => ?_, fun _ => hcall⟩
    rw [hh'] at hhead hfailed
    cases h' with
    | opened => exact absurd rfl hhead
    | openFailed => exact absurd rfl hfailed
    | closed =>
      rw [hcall]
      nofun

theorem addRef_ok (h : c.Ok) {o : Opening}
    (ho : c.refcount = 0 → c.calls.head? = some .openFailed → o = .noFolder) : (c.addRef o).2.Ok := by
  unfold addRef
  by_cases hzero : c.refcount = 0
  · rw [if_pos hzero]
    cases o with
    | noFolder => exact h
    | done =>
      have hfailed : c.calls.head? ≠ some .openFailed := fun hf => nomatch ho hzero hf
      refine ⟨(alternating_call h hzero (show HookCall.isOpen .opened = true from rfl)).mpr hfailed, ?_⟩
      exact ⟨fun _ => Nat.succ_pos _, fun _ => rfl⟩
    | hookThrows =>
      have hfailed : c.calls.head? ≠ some .openFailed := fun hf => nomatch ho hzero hf
      exact ⟨(alternating_call h hzero (show HookCall.isOpen .openFailed = true from rfl)).mpr hfailed, h.2⟩
  · rw [if_neg hzero]
    refine ⟨h.1, ?_⟩
    exact ⟨fun _ => Nat.succ_pos _, fun _ => h.2.mpr (Nat.pos_of_ne_zero hzero)⟩

theorem addRef_not_alternating (h : c.Ok) (hzero : c.refcount = 0) (hfailed : c.calls.head? = some .openFailed)
    {o : Opening} (ho : o ≠ .noFolder) : ¬ (c.addRef o).2.Alternating := by
  unfold addRef
  rw [if_pos hzero]
  cases o with
  | noFolder => exact absurd rfl ho
  | done => exact fun halt => (alternating_call h hzero (show HookCall.isOpen .opened = true from rfl)).mp halt hfailed
  | hookThrows => exact fun halt => (alternating_call h hzero (show HookCall.isOpen .openFailed = true from rfl)).mp halt hfailed

theorem addRef_refcount (c : LocalContext) (o : Opening) :
    (c.addRef o).2.refcount = c.refcount + (if (c.addRef o).1 then 1 else 0) := by
  unfold addRef
  by_cases hzero : c.refcount = 0
  · rw [if_pos hzero]
    cases o <;> rfl
  · rw [if_neg hzero]
    rfl

theorem delRef_refcount (c : LocalContext) : c.delRef.refcount = c.refcount - 1 := by
  unfold delRef close
  dsimp only
  split_ifs
  · rfl
  · rfl
  · omega

theorem delRef_ok (h : c.Ok) : c.delRef.Ok := by
  unfold delRef
  by_cases hpos : 0 < c.refcount
  · rw [if_pos hpos]
    have hhead := head_of_positive h hpos
    by_cases hlast : c.refcount - 1 = 0
    · simp only [if_pos hlast]
      refine ⟨?_, ?_⟩
      · unfold close
        rw [alternating_cons (m := c.refcount), hhead]
        refine ⟨h.1, ?_, nofun⟩
        rintro _ ⟨⟩
        nofun
      · have hzero : ¬ 0 < c.refcount - 1 := by omega
        exact ⟨nofun, fun h => absurd h hzero⟩
    · simp only [if_neg hlast]
      refine ⟨h.1, ?_⟩
      exact ⟨fun _ => Nat.pos_of_ne_zero hlast, fun _ => h.2.mpr hpos⟩
  · rw [if_neg hpos]
    exact h

/-- A context that is closed while it is in use is not open any more. -/
theorem close_not_ok (hpos : 0 < c.refcount) : ¬ c.close.Ok := fun h => nomatch h.2.mpr hpos

end LocalContext

/-! ## One step -/

namespace Provider

variable {p : Provider}

theorem Sound.ok (h : p.Sound) : p.context.Ok := ⟨h.alternating, h.opened⟩

theorem sound_iff : p.Sound ↔ p.context.Ok ∧ p.context.refcount = p.references + p.opens :=
  ⟨fun h => ⟨h.ok, h.counted⟩, fun h => ⟨h.1.1, h.1.2, h.2⟩⟩

theorem construct_sound_iff (h : p.Sound) (modify : Bool) (o : Opening) :
    (p.construct modify o).Sound ↔ (p.allows modify → p.CarefulAdd o) := by
  unfold construct
  by_cases hallows : p.allows modify = true
  · rw [if_pos hallows]
    constructor
    · intro hsound _ hzero hfailed
      by_contra ho
      exact LocalContext.addRef_not_alternating h.ok hzero hfailed ho hsound.alternating
    · intro ho
      refine sound_iff.mpr ⟨LocalContext.addRef_ok h.ok (ho hallows), ?_⟩
      show (p.context.addRef o).2.refcount = _
      rw [LocalContext.addRef_refcount, h.counted]
      show _ = (if _ then _ else _ : List Proxy).countP (·.attached) + p.opens
      unfold references
      split_ifs
      · rw [List.countP_cons_of_pos rfl]
        omega
      · omega
  · rw [if_neg hallows]
    exact ⟨fun _ hpos => absurd hpos hallows, fun _ => h⟩

theorem references_eraseIdx {i : ℕ} {proxy : Proxy} (hi : p.proxies[i]? = some proxy) :
    (p.proxies.eraseIdx i).countP (·.attached) + (if proxy.attached then 1 else 0) = p.references := by
  obtain ⟨hlt, hget⟩ := List.getElem?_eq_some_iff.mp hi
  have hperm : (proxy :: p.proxies.eraseIdx i).Perm p.proxies := by
    rw [← hget]
    exact List.getElem_cons_eraseIdx_perm hlt
  unfold references
  rw [← hperm.countP_eq, List.countP_cons]

theorem destroy_sound (h : p.Sound) (i : ℕ) : (p.destroy i).Sound := by
  unfold destroy
  cases hi : p.proxies[i]? with
  | none => exact h
  | some proxy =>
    have hcount := references_eraseIdx hi
    have hcounted := h.counted
    by_cases hattached : proxy.attached = true
    · simp only [if_pos hattached] at hcount ⊢
      refine sound_iff.mpr ⟨LocalContext.delRef_ok h.ok, ?_⟩
      show p.context.delRef.refcount = (p.proxies.eraseIdx i).countP (·.attached) + p.opens
      rw [LocalContext.delRef_refcount]
      omega
    · simp only [if_neg hattached] at hcount ⊢
      refine sound_iff.mpr ⟨h.ok, ?_⟩
      show p.context.refcount = (p.proxies.eraseIdx i).countP (·.attached) + p.opens
      omega

theorem alternating_of_delRef {c : LocalContext} (h : c.delRef.Alternating) : c.Alternating := by
  unfold LocalContext.delRef LocalContext.close at h
  by_cases hpos : 0 < c.refcount
  · rw [if_pos hpos] at h
    by_cases hlast : c.refcount - 1 = 0
    · simp only [if_pos hlast] at h
      exact (LocalContext.alternating_cons.mp h).1
    · simp only [if_neg hlast] at h
      exact h
  · rwa [if_neg hpos] at h

theorem alternating_of_destroy {i : ℕ} (h : (p.destroy i).context.Alternating) : p.context.Alternating := by
  unfold destroy at h
  cases hi : p.proxies[i]? with
  | none => rwa [hi] at h
  | some proxy =>
    rw [hi] at h
    dsimp only at h
    split_ifs at h
    · exact alternating_of_delRef h
    · exact h

theorem locate_sound_iff (h : p.Sound) (absolute modify : Bool) (o : Opening) :
    (p.locate absolute modify o).Sound ↔ (p.allows modify → p.CarefulAdd o) := by
  rw [← construct_sound_iff h]
  unfold locate
  dsimp only
  split_ifs
  · refine ⟨fun hsound => (construct_sound_iff h modify o).mpr fun hallows hzero hfailed => ?_,
      fun hsound => destroy_sound hsound 0⟩
    have halt := alternating_of_destroy hsound.alternating
    unfold construct at halt
    rw [if_pos hallows] at halt
    by_contra ho
    exact LocalContext.addRef_not_alternating h.ok hzero hfailed ho halt
  · exact Iff.rfl

theorem copy_sound_iff (h : p.Sound) (i : ℕ) (o : Opening) :
    (p.copy i o).Sound ↔
      ∀ proxy ∈ p.proxies[i]?, proxy.attached = true → p.allows proxy.modify → p.CarefulAdd o := by
  unfold copy
  cases p.proxies[i]? with
  | none => exact ⟨fun _ => nofun, fun _ => h⟩
  | some proxy =>
    simp only [Option.mem_some_iff, forall_eq']
    cases hattached : proxy.attached with
    | false =>
      refine ⟨fun _ => nofun, fun _ => sound_iff.mpr ⟨h.ok, ?_⟩⟩
      show p.context.refcount = (proxy :: p.proxies).countP (·.attached) + p.opens
      rw [List.countP_cons_of_neg (by simp [hattached])]
      exact h.counted
    | true =>
      simp only [if_true, forall_const]
      exact construct_sound_iff h proxy.modify o

theorem references_set {i : ℕ} {a : Proxy} (hi : p.proxies[i]? = some a) (b : Proxy) :
    (p.proxies.set i b).countP (·.attached) + (if a.attached then 1 else 0) =
      p.references + (if b.attached then 1 else 0) := by
  obtain ⟨hlt, hget⟩ := List.getElem?_eq_some_iff.mp hi
  have hperm : (a :: p.proxies.eraseIdx i).Perm p.proxies := by
    rw [← hget]
    exact List.getElem_cons_eraseIdx_perm hlt
  have hlt' : i < (p.proxies.set i b).length := by rwa [List.length_set]
  have hperm' : (b :: p.proxies.eraseIdx i).Perm (p.proxies.set i b) := by
    have := List.getElem_cons_eraseIdx_perm hlt'
    rwa [List.getElem_set_self, List.eraseIdx_set_eq] at this
  unfold references
  rw [← hperm.countP_eq, ← hperm'.countP_eq, List.countP_cons, List.countP_cons]
  omega

theorem assign_sound_iff (h : p.Sound) (i j : ℕ) :
    (p.assign i j).Sound ↔ ∀ a ∈ p.proxies[i]?, ∀ b ∈ p.proxies[j]?, a.attached = b.attached := by
  unfold assign
  cases p.proxies[j]? with
  | none => exact ⟨fun _ _ _ _ => nofun, fun _ => h⟩
  | some b =>
    simp only [Option.mem_some_iff, forall_eq']
    cases hi : p.proxies[i]? with
    | none =>
      have hle : p.proxies.length ≤ i := List.getElem?_eq_none_iff.mp hi
      rw [List.set_eq_of_length_le hle]
      exact ⟨fun _ => nofun, fun _ => h⟩
    | some a =>
      simp only [Option.mem_some_iff, forall_eq']
      have hcount := references_set hi b
      have hcounted := h.counted
      have hset : ({ p with proxies := p.proxies.set i b } : Provider).Sound ↔
          p.context.refcount = (p.proxies.set i b).countP (·.attached) + p.opens := by
        rw [sound_iff]
        exact and_iff_right h.ok
      rw [hset]
      cases ha : a.attached <;> cases hb : b.attached <;> simp only [ha, hb, if_true] at hcount <;> simp at hcount ⊢ <;>
        omega

theorem openContext_sound_iff (h : p.Sound) (o : Opening) :
    (p.openContext o).Sound ↔ (p.present → p.CarefulAdd o) := by
  unfold openContext
  by_cases hpresent : p.present = true
  · rw [if_pos hpresent]
    constructor
    · intro hsound _ hzero hfailed
      by_contra ho
      exact LocalContext.addRef_not_alternating h.ok hzero hfailed ho hsound.alternating
    · intro ho
      refine sound_iff.mpr ⟨LocalContext.addRef_ok h.ok (ho hpresent), ?_⟩
      show (p.context.addRef o).2.refcount = p.references + if (p.context.addRef o).1 then p.opens + 1 else p.opens
      rw [LocalContext.addRef_refcount, h.counted]
      split_ifs <;> omega
  · rw [if_neg hpresent]
    exact ⟨fun _ hpos => absurd hpos hpresent, fun _ => h⟩

theorem closePointer_sound_iff (h : p.Sound) :
    p.closePointer.Sound ↔ (0 < p.context.refcount → 0 < p.opens) := by
  have hcounted := h.counted
  unfold closePointer
  rw [sound_iff, and_iff_right (LocalContext.delRef_ok h.ok)]
  show p.context.delRef.refcount = p.references + (p.opens - 1) ↔ _
  rw [LocalContext.delRef_refcount]
  omega

theorem closeContext_sound_iff (h : p.Sound) :
    p.closeContext.Sound ↔ (p.present → 0 < p.context.refcount → 0 < p.opens) := by
  unfold closeContext
  by_cases hpresent : p.present = true
  · rw [if_pos hpresent, closePointer_sound_iff h, forall_prop_of_true hpresent]
  · rw [if_neg hpresent]
    exact ⟨fun _ hpos => absurd hpos hpresent, fun _ => h⟩

theorem removeContext_sound_iff (h : p.Sound) :
    p.removeContext.Sound ↔ (p.present → p.context.refcount = 0) := by
  unfold removeContext
  by_cases hpresent : p.present = true
  · rw [if_pos hpresent, forall_prop_of_true hpresent]
    constructor
    · intro hsound
      by_contra hzero
      have hok := hsound.ok
      rw [if_pos (Nat.pos_of_ne_zero hzero)] at hok
      exact LocalContext.close_not_ok (Nat.pos_of_ne_zero hzero) hok
    · intro hzero
      rw [if_neg (by omega)]
      exact sound_iff.mpr ⟨h.ok, h.counted⟩
  · rw [if_neg hpresent]
    exact ⟨fun _ hpos => absurd hpos hpresent, fun _ => h⟩

/-- A step keeps things sound if and only if it is careful. -/
theorem step_sound_iff (h : p.Sound) (op : Op) : (p.step op).Sound ↔ p.Careful op := by
  cases op with
  | emptyProxy =>
    refine ⟨fun _ => trivial, fun _ => sound_iff.mpr ⟨h.ok, ?_⟩⟩
    exact h.counted
  | proxy modify o => exact construct_sound_iff h modify o
  | location absolute modify o => exact locate_sound_iff h absolute modify o
  | copy i o => exact copy_sound_iff h i o
  | assign i j => exact assign_sound_iff h i j
  | destroy i => exact ⟨fun _ => trivial, fun _ => destroy_sound h i⟩
  | openContext o => exact openContext_sound_iff h o
  | closeContext => exact closeContext_sound_iff h
  | closePointer => exact closePointer_sound_iff h
  | addContext => exact ⟨fun _ => trivial, fun _ => ⟨h.alternating, h.opened, h.counted⟩⟩
  | removeContext => exact removeContext_sound_iff h

/-! ## Runs -/

theorem run_sound_iff (h : p.Sound) (ops : List Op) :
    (∀ q ∈ ops.scanl step p, q.Sound) ↔ p.CarefulRun ops := by
  induction ops generalizing p with
  | nil =>
    rw [List.scanl_nil]
    exact ⟨fun _ => trivial, fun _ q hq => (List.mem_singleton.mp hq) ▸ h⟩
  | cons op ops ih =>
    rw [List.scanl_cons]
    constructor
    · intro hall
      have hrest : ∀ q ∈ ops.scanl step (p.step op), q.Sound := fun q hq => hall q (List.mem_cons_of_mem _ hq)
      have hnext : (p.step op).Sound := by
        apply hrest
        cases ops with
        | nil => exact List.mem_singleton_self _
        | cons => exact List.scanl_cons ▸ List.mem_cons_self
      exact ⟨(step_sound_iff h op).mp hnext, (ih hnext).mp hrest⟩
    · rintro ⟨hcareful, hrun⟩ q hq
      rcases List.mem_cons.mp hq with rfl | hq
      · exact h
      · have hnext := (step_sound_iff h op).mpr hcareful
        exact (ih hnext).mpr hrun q hq

/-- A context that nobody has referred to. -/
def new (writable : Bool) : Provider := { context := { writable } }

theorem new_sound (writable : Bool) : (new writable).Sound :=
  ⟨⟨List.isChain_nil, nofun⟩, ⟨nofun, nofun⟩, rfl⟩

/-- In a run the hooks of a context alternate, it is open while it is referred
to, and its references are counted right, if and only if each step is careful. -/
theorem hooks_alternate_iff (writable : Bool) (ops : List Op) :
    (∀ q ∈ ops.scanl step (new writable), q.Sound) ↔ (new writable).CarefulRun ops :=
  run_sound_iff (new_sound writable) ops

/-- The context is removed while a proxy refers to it. -/
theorem closed_twice :
    ([Op.proxy false .done, .removeContext, .destroy 0].foldl step (new true)).context.calls =
        [.closed, .closed, .opened] ∧
      ¬ ∀ q ∈ [Op.proxy false .done, .removeContext, .destroy 0].scanl step (new true), q.Sound := by
  refine ⟨rfl, fun hall => ?_⟩
  have hcareful := ((hooks_alternate_iff true _).mp hall).2.1 rfl
  exact absurd hcareful (by decide)

end Provider

end Vfs

end CommonCore
