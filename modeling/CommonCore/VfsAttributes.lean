import CommonCore.SettingsDelta
import CommonCore.VfsContainment

/-!
# Attributes of files

The attributes of a file are kept in a settings store beside it, and those of a
directory in one within. `AttributeStore` reads its file with `load_from_file`,
which does not make it the file that the store is saved to.
-/

namespace CommonCore

/-- `TaggedValueList::as_kvmap`: of the values with one tag, the first. -/
def tvlistAsKvmap (l : List (Option Bytes × Value)) : KeyValueMap :=
  l.foldl (fun m e =>
    match e.1 with
    | some tag => if (Keyed.find tag m).isSome then m else Keyed.put tag e.2 m
    | none => m) []

/-- `Value::as_kvmap` -/
def Value.asKvmap : Value → KeyValueMap
  | .kvmap m => m
  | .tvlist l => tvlistAsKvmap l
  | .complex re im => [(ascii "imag", .real im), (ascii "real", .real re)]
  | _ => []

namespace Vfs

open FileTree

inductive FileType
  | regular | directory | not_found
  deriving DecidableEq

inductive Refusal
  | permissionDenied
  | fault (f : Fault)
  deriving DecidableEq

structure Files (δ : Type) where
  tree : Tree Name δ
  listing : Listing tree

structure Context where
  root : List (Elem Name)
  writable : Bool

structure RelPath where
  absolute : Bool
  elems : List (Elem Name)

def refuse {α : Type} : Except Fault α → Except Refusal α
  | .ok a => .ok a
  | .error f => .error (.fault f)

section
variable {δ σ : Type}

/-- Go on with what is there, or let an exception through. -/
def attempt {α : Type} (x : Except Refusal α) (w : Files δ) (k : α → Except Refusal Unit × Files δ) :
    Except Refusal Unit × Files δ :=
  match x with
  | .ok a => k a
  | .error e => (.error e, w)

/-! ## Settings stores -/

/-- What is written to the files: by `SettingsStore::save_to`, and by `fs::remove`.
Paths that are not there are empty. -/
structure Writer (δ : Type) where
  saveTo : Option (List Name) → KeyValueMap → Files δ → Except Refusal Unit × Files δ
  remove : Option (List Name) → Files δ → Files δ

structure SettingsStore where
  filenames : List (List Name) := []
  filepaths : List (List Name) := []
  entries : KeyValueMap := []

namespace SettingsStore

def loaded (s : SettingsStore) : Bool := !s.filenames.isEmpty

def filename (s : SettingsStore) : Option (List Name) := s.filenames.head?

def appendPath (path : List Name) (list : List (List Name)) : List (List Name) :=
  if path ∈ list then list else list ++ [path]

variable (parse : δ → Option Value)

def readFile (w : Files δ) (path : List Name) : Option Value :=
  match w.tree.status (plain path) with
  | .ok (some (.file data)) => parse data
  | _ => none

def loadFromFile (s : SettingsStore) (w : Files δ) (abspath : List Name) : Bool × SettingsStore :=
  match (readFile parse w abspath).bind Value.getIfMap with
  | some kvmap =>
    (true, { s with
      entries := KeyValueMap.recursiveMerge s.entries kvmap
      filepaths := appendPath abspath s.filepaths })
  | none => (false, s)

def save (W : Writer δ) (s : SettingsStore) (w : Files δ) : Except Refusal Unit × Files δ :=
  if s.loaded then W.saveTo s.filename s.entries w else (.ok (), w)

/-- `KeyValueMap::get` -/
def get (s : SettingsStore) (key : Bytes) : Value := (Keyed.find key s.entries).getD .none

end SettingsStore

/-! ## Attribute stores -/

/-- `.attributes` -/
def attributeStore : Name where
  bytes := ascii ".attributes"
  ne_nil := by decide
  noSlash := by decide
  noNul := by decide
  ne_dot := by decide
  ne_dotdot := by decide

def directoryEntry : Bytes := ascii "."

structure AttributeStore extends SettingsStore where
  filetype : FileType
  filepath : List Name
  loaded : Bool

namespace AttributeStore

variable (parse : δ → Option Value)

def fileType (w : Files δ) (path : List Name) (hint : Option FileType) : Except Refusal FileType :=
  match hint with
  | some type => .ok type
  | none => refuse do
    match ← lift (w.tree.status (plain path)) with
    | some .dir => .ok .directory
    | some _ => .ok .regular
    | none => .ok .not_found

def path (filetype : FileType) (path : List Name) : List Name :=
  if filetype = .directory then path ++ [attributeStore] else path.dropLast ++ [attributeStore]

def new (w : Files δ) (path : List Name) (typeHint : Option FileType) : Except Refusal AttributeStore := do
  let filetype ← fileType w path typeHint
  let (loaded, store) := SettingsStore.loadFromFile parse {} w (AttributeStore.path filetype path)
  .ok { store with filetype, filepath := path, loaded }

def key (s : AttributeStore) (basename : Option Name) : Bytes :=
  match basename with
  | some name => name.bytes
  | none =>
    if s.filetype = .directory then directoryEntry
    else (s.filepath.getLast?.map Name.bytes).getD []

def getAttributes (s : AttributeStore) (basename : Option Name) : KeyValueMap := (s.get (s.key basename)).asKvmap

/-- Nothing but `.` is kept that is not in the directory of the file the store is
saved to. -/
def prune (s : AttributeStore) (w : Files δ) : Except Refusal AttributeStore := do
  let names ←
    match s.filename.map List.dropLast with
    | some parent => refuse (directoryIterator w.listing parent)
    | none => .error (.fault (.errno .noEntry))
  .ok { s with entries := s.entries.filter fun e => e.1 = directoryEntry || (names.map Name.bytes).contains e.1 }

variable (W : Writer δ)

def save (s : AttributeStore) (w : Files δ) : Except Refusal Unit × Files δ :=
  attempt (s.prune w) w fun s =>
    if !s.entries.isEmpty then s.toSettingsStore.save W w
    else if s.loaded then (.ok (), W.remove s.filename w)
    else (.ok (), w)

def setAttributes (s : AttributeStore) (basename : Option Name) (map : KeyValueMap) (save : Bool) (w : Files δ) :
    Except Refusal Unit × Files δ :=
  let attrs :=
    match (s.get (s.key basename)).getIfMap with
    | some attrs => Keyed.putAll attrs map
    | none => map
  let s := { s with entries := Keyed.put (s.key basename) (.kvmap attrs) s.entries }
  if save then s.save W w else (.ok (), w)

def clearAttributes (s : AttributeStore) (basename : Option Name) (save : Bool) (w : Files δ) :
    Except Refusal Unit × Files δ :=
  if (Keyed.find (s.key basename) s.entries).isSome then
    let s := { s with entries := s.entries.filter fun e => e.1 ≠ s.key basename }
    if save then s.save W w else (.ok (), w)
  else (.ok (), w)

end AttributeStore

/-! ## The provider -/

structure OperationFlags where
  withAttributes : Bool
  includeHidden : Bool
  dereference : Bool

structure FileInfo (σ : Type) where
  stats : σ
  attributes : KeyValueMap

namespace LocalProvider

variable (parse : δ → Option Value)

/-- `location(vpath, modify).localPath()` -/
def location (c : Context) (w : Files δ) (p : RelPath) (modify : Bool) : Except Refusal (List Name) :=
  if modify && !c.writable then .error .permissionDenied
  else refuse (Vfs.localPath w.tree c.root p.absolute p.elems)

def getAttributes (c : Context) (w : Files δ) (p : RelPath) : Except Refusal KeyValueMap := do
  let lpath ← location c w p false
  let store ← AttributeStore.new parse w lpath none
  .ok (store.getAttributes none)

/-- `get_directory`, given what `get_stats` tells of a path. -/
def getDirectory (getStats : Files δ → List Name → Bool → Except Refusal σ) (c : Context) (w : Files δ) (p : RelPath)
    (flags : OperationFlags) : Except Refusal (List (Name × FileInfo σ)) := do
  let lpath ← location c w p false
  let names ← refuse (directoryIterator w.listing lpath)
  let shown := names.filter fun n => flags.includeHidden || n.bytes.head? != some 0x2e
  let dir ← shown.mapM fun n => do
    let stats ← getStats w (lpath ++ [n]) flags.dereference
    .ok (n, { stats, attributes := [] })
  if flags.withAttributes then
    let store ← AttributeStore.new parse w lpath (some .directory)
    if store.entries.isEmpty then .ok dir
    else .ok (dir.map fun e => (e.1, { e.2 with attributes := (store.get e.1.bytes).asKvmap }))
  else .ok dir

variable (W : Writer δ)

def setAttributes (c : Context) (w : Files δ) (p : RelPath) (attributes : KeyValueMap) : Except Refusal Unit × Files δ :=
  attempt (location c w p true) w fun lpath =>
    attempt (AttributeStore.new parse w lpath none) w fun store => store.setAttributes W none attributes true w

def clearAttributes (c : Context) (w : Files δ) (p : RelPath) : Except Refusal Unit × Files δ :=
  attempt (location c w p true) w fun lpath =>
    attempt (AttributeStore.new parse w lpath none) w fun store => store.clearAttributes W none true w

end LocalProvider

/-! ## What is kept -/

variable (parse : δ → Option Value) (W : Writer δ)
  (getStats : Files δ → List Name → Bool → Except Refusal σ)

open LocalProvider

/-- Attributes that are set are there afterwards, those of other paths as they
were, and a directory lists the same. Attributes that are cleared are gone. -/
structure Kept (c : Context) (w : Files δ) (p : RelPath) (m : KeyValueMap) : Prop where
  updated : ∀ w', LocalProvider.setAttributes parse W c w p m = (.ok (), w') →
    ∀ before, LocalProvider.getAttributes parse c w p = .ok before →
      LocalProvider.getAttributes parse c w' p = .ok (Keyed.putAll before m)
  others : ∀ w', LocalProvider.setAttributes parse W c w p m = (.ok (), w') →
    ∀ q, location c w q false ≠ location c w p false →
      LocalProvider.getAttributes parse c w' q = LocalProvider.getAttributes parse c w q
  listed : ∀ w', LocalProvider.setAttributes parse W c w p m = (.ok (), w') →
    ∀ parent n, p = { p with elems := parent ++ [.name n] } → ∀ flags : OperationFlags, flags.withAttributes = true →
      ∀ dir, getDirectory parse getStats c w' { p with elems := parent } flags = .ok dir → ∀ info, (n, info) ∈ dir →
        LocalProvider.getAttributes parse c w' p = .ok info.attributes
  cleared : LocalProvider.getAttributes parse c (LocalProvider.clearAttributes parse W c w p).2 p = .ok []

/-- No attributes are stored for a path. -/
def Bare (w : Files δ) (lpath : List Name) : Prop :=
  ∀ store, AttributeStore.new parse w lpath none = .ok store → (store.get (store.key none)).asKvmap = []

section
variable {parse} {W} {getStats} {c : Context} {w : Files δ} {p : RelPath} {lpath : List Name}

theorem AttributeStore.new_eq {typeHint : Option FileType} {s : AttributeStore}
    (h : AttributeStore.new parse w lpath typeHint = .ok s) : s.filenames = [] := by
  unfold AttributeStore.new at h
  cases ht : AttributeStore.fileType w lpath typeHint with
  | error e => rw [ht] at h; cases h
  | ok type =>
    rw [ht] at h
    simp only [SettingsStore.loadFromFile, bind, Except.bind] at h
    split at h <;> (cases h; rfl)

/-- There is no file that an attribute store is saved to. -/
theorem AttributeStore.save_refused {s : AttributeStore} (h : s.filenames = []) :
    s.save W w = (.error (.fault (.errno .noEntry)), w) := by
  have : s.prune w = .error (.fault (.errno .noEntry)) := by
    simp only [AttributeStore.prune, SettingsStore.filename, h, List.head?_nil]
    rfl
  rw [AttributeStore.save, this]
  rfl

theorem location_of_writable (hc : c.writable = true) (modify : Bool) : location c w p modify = location c w p false := by
  simp [location, hc]

theorem exists_store (parse : δ → Option Value) {node : Node Name δ} (hn : w.tree.status (plain lpath) = .ok (some node)) :
    ∃ store, AttributeStore.new parse w lpath none = .ok store := by
  unfold AttributeStore.new AttributeStore.fileType
  rw [hn]
  cases node <;> exact ⟨_, rfl⟩

variable {store : AttributeStore}

theorem getAttributes_eq (hp : location c w p false = .ok lpath) (hs : AttributeStore.new parse w lpath none = .ok store) :
    LocalProvider.getAttributes parse c w p = .ok (store.getAttributes none) := by
  rw [LocalProvider.getAttributes, hp]
  show (AttributeStore.new parse w lpath none >>= _) = _
  rw [hs]
  rfl

theorem setAttributes_refused (hc : c.writable = true) (hp : location c w p false = .ok lpath)
    (hs : AttributeStore.new parse w lpath none = .ok store) (m : KeyValueMap) :
    LocalProvider.setAttributes parse W c w p m = (.error (.fault (.errno .noEntry)), w) := by
  have hf := AttributeStore.new_eq hs
  rw [LocalProvider.setAttributes, location_of_writable hc, hp, attempt, hs]
  exact AttributeStore.save_refused hf

theorem clearAttributes_eq (hc : c.writable = true) (hp : location c w p false = .ok lpath)
    (hs : AttributeStore.new parse w lpath none = .ok store) :
    LocalProvider.clearAttributes parse W c w p =
      (if (Keyed.find (store.key none) store.entries).isSome then .error (.fault (.errno .noEntry)) else .ok (), w) := by
  have hf := AttributeStore.new_eq hs
  rw [LocalProvider.clearAttributes, location_of_writable hc, hp, attempt, hs, attempt, AttributeStore.clearAttributes]
  split
  · exact AttributeStore.save_refused hf
  · rfl

/-- Attributes are never set: there is no file to save them to. What clears them
is right if and only if there are none. -/
theorem attributes_kept_iff (hc : c.writable = true) (hp : location c w p false = .ok lpath) {node : Node Name δ}
    (hn : w.tree.status (plain lpath) = .ok (some node)) (m : KeyValueMap) :
    (∃ e, LocalProvider.setAttributes parse W c w p m = (.error e, w)) ∧
      (Kept parse W getStats c w p m ↔ Bare parse w lpath) := by
  obtain ⟨store, hs⟩ := exists_store parse hn
  have hset := setAttributes_refused (W := W) hc hp hs m
  have hclear : LocalProvider.getAttributes parse c (LocalProvider.clearAttributes parse W c w p).2 p =
      .ok (store.getAttributes none) := by
    rw [clearAttributes_eq hc hp hs]
    exact getAttributes_eq hp hs
  refine ⟨⟨_, hset⟩, fun h store' hs' => ?_, fun h => ⟨?_, ?_, ?_, ?_⟩⟩
  · cases hs.symm.trans hs'
    exact Except.ok.inj (hclear.symm.trans h.cleared)
  · intro w' h'
    cases hset.symm.trans h'
  · intro w' h'
    cases hset.symm.trans h'
  · intro w' h'
    cases hset.symm.trans h'
  · rw [hclear, AttributeStore.getAttributes, h store hs]

/-! ## Listed attributes -/

theorem of_mapM_ok {α β ε : Type} {f : α → Except ε β} {P : β → Prop} (hf : ∀ a b, f a = .ok b → P b) {l : List α}
    {r : List β} (h : l.mapM f = .ok r) : ∀ b ∈ r, P b := by
  induction l generalizing r with
  | nil =>
    cases h
    simp
  | cons a l ih =>
    rw [List.mapM_cons] at h
    cases ha : f a with
    | error e => rw [ha] at h; cases h
    | ok b =>
      rw [ha] at h
      cases hl : l.mapM f with
      | error e => rw [hl] at h; cases h
      | ok bs =>
        rw [hl] at h
        cases h
        exact List.forall_mem_cons.2 ⟨hf a b ha, ih hl⟩

theorem SettingsStore.get_of_isEmpty {s : SettingsStore} (h : s.entries.isEmpty = true) (key : Bytes) : s.get key = .none := by
  rw [SettingsStore.get, List.isEmpty_iff.1 h]
  rfl

/-- A directory lists what is stored for a file in it. What is stored for a
directory is kept elsewhere. -/
theorem listed_of_file {n : Name} {q : RelPath} (hp : location c w p false = .ok lpath)
    (hq : location c w q false = .ok (lpath ++ [n])) {data : δ}
    (hn : w.tree.status (plain (lpath ++ [n])) = .ok (some (.file data))) {flags : OperationFlags}
    (hf : flags.withAttributes = true) {dir : List (Name × FileInfo σ)}
    (hdir : getDirectory parse getStats c w p flags = .ok dir) {info : FileInfo σ} (hi : (n, info) ∈ dir) :
    LocalProvider.getAttributes parse c w q = .ok info.attributes := by
  have hstore : AttributeStore.new parse w (lpath ++ [n]) none =
      .ok { (SettingsStore.loadFromFile parse {} w (lpath ++ [attributeStore])).2 with
        filetype := .regular
        filepath := lpath ++ [n]
        loaded := (SettingsStore.loadFromFile parse {} w (lpath ++ [attributeStore])).1 } := by
    unfold AttributeStore.new AttributeStore.fileType
    rw [hn]
    simp [lift, refuse, bind, Except.bind, AttributeStore.path]
  have hkey : LocalProvider.getAttributes parse c w q = .ok
      ((SettingsStore.loadFromFile parse {} w (lpath ++ [attributeStore])).2.get n.bytes).asKvmap := by
    rw [getAttributes_eq hq hstore, AttributeStore.getAttributes, AttributeStore.key]
    simp [SettingsStore.get]
  rw [hkey]
  unfold getDirectory at hdir
  rw [hp] at hdir
  simp only [bind, Except.bind, hf, if_true] at hdir
  split at hdir
  · cases hdir
  · split at hdir
    · cases hdir
    · rename_i names _ _ dir' hdir'
      have hnone : ∀ e ∈ dir', e.2.attributes = [] := by
        refine of_mapM_ok (fun a b hb => ?_) hdir'
        split at hb
        · cases hb
        · cases hb
          rfl
      have hdirectory : AttributeStore.new parse w lpath (some .directory) =
          .ok { (SettingsStore.loadFromFile parse {} w (lpath ++ [attributeStore])).2 with
            filetype := .directory
            filepath := lpath
            loaded := (SettingsStore.loadFromFile parse {} w (lpath ++ [attributeStore])).1 } := rfl
      rw [hdirectory] at hdir
      dsimp only at hdir
      split at hdir
      · cases hdir
        rw [SettingsStore.get_of_isEmpty ‹_›]
        exact congrArg Except.ok (hnone _ hi).symm
      · cases hdir
        obtain ⟨e, he, heq⟩ := List.mem_map.1 hi
        cases heq
        rfl

end

end

/-! ## A directory of two files -/

def notedName : Name := .ofLength 0

def bareName : Name := .ofLength 1

def notes : KeyValueMap := [(notedName.bytes, .kvmap [(ascii "color", .bool true)])]

/-- Attributes are stored for the one and not for the other. -/
def notedNode (p : List Name) : Option (Node Name Value) :=
  if p = [] then some .dir
  else if p = [notedName] ∨ p = [bareName] then some (.file .none)
  else if p = [attributeStore] then some (.file (.kvmap notes))
  else none

theorem eq_singleton_of_notedNode {p : List Name} (h : notedNode p ≠ none) (hp : p ≠ []) :
    ∃ n ∈ [notedName, bareName, attributeStore], p = [n] := by
  unfold notedNode at h
  split_ifs at h with h₀ h₁ h₂
  · exact absurd h₀ hp
  · rcases h₁ with rfl | rfl <;> simp
  · simp [h₂]
  · exact absurd rfl h

def notedTree : Tree Name Value where
  node := notedNode
  root := rfl
  parent p n h := by
    obtain ⟨m, -, heq⟩ := eq_singleton_of_notedNode h (by simp)
    rw [(List.append_inj' (show p ++ [n] = [] ++ [m] from heq) rfl).1]
    rfl

def notedFiles : Files Value where
  tree := notedTree
  listing :=
    { entries := fun p => [notedName, bareName, attributeStore].filter fun n => (notedNode (p ++ [n])).isSome
      mem_entries := by
        intro p n _
        have hmem : notedNode (p ++ [n]) ≠ none → n ∈ [notedName, bareName, attributeStore] := by
          intro h
          obtain ⟨m, hm, heq⟩ := eq_singleton_of_notedNode h (by simp)
          rw [List.singleton_inj.1 (List.append_inj' (show p ++ [n] = [] ++ [m] from heq) rfl).2]
          exact hm
        rw [List.mem_filter, Option.isSome_iff_ne_none]
        exact ⟨fun h => h.2, fun h => ⟨hmem h, h⟩⟩
      depth := 1
      length_le := by
        intro p h
        rcases eq_or_ne p [] with rfl | hp
        · simp
        · obtain ⟨n, -, rfl⟩ := eq_singleton_of_notedNode h hp
          simp }

/-- Neither is called. -/
def idleWriter : Writer Value where
  saveTo _ _ w := (.ok (), w)
  remove _ w := w

def rootContext : Context where
  root := []
  writable := true

def fileAt (n : Name) : RelPath where
  absolute := false
  elems := [.name n]

section
variable {n : Name} {v : Value} (hn : notedNode [n] = some (.file v))
include hn

theorem location_fileAt : LocalProvider.location rootContext notedFiles (fileAt n) false = .ok [n] := by
  have hw : notedTree.weaklyCanonical (plain [n]) = .ok [n] := Tree.weaklyCanonical_plain (.inr ⟨v, hn⟩)
  have hr : notedTree.weaklyCanonical [] = .ok [] := Tree.weaklyCanonical_of_ok Tree.canonical_nil
  have := localPath_ok.mpr ⟨rfl, hw, [], hr, List.nil_prefix⟩
  exact congrArg refuse this

theorem status_fileAt : notedFiles.tree.status (plain [n]) = .ok (some (.file v)) := by
  have hc : notedTree.canonical (plain [n]) = .ok [n] := Tree.canonical_plain (.inr ⟨v, hn⟩)
  show notedTree.status (plain [n]) = _
  rw [Tree.status, hc]
  exact congrArg Except.ok hn

end

theorem loadFromFile_notes : (SettingsStore.loadFromFile some {} notedFiles [attributeStore]).2.entries = notes := by
  have hread : SettingsStore.readFile some notedFiles [attributeStore] = some (.kvmap notes) := by
    rw [SettingsStore.readFile, status_fileAt (v := .kvmap notes) rfl]
  rw [SettingsStore.loadFromFile, hread]
  exact kvmaps.merge_nil _ (List.pairwise_singleton _ _)

theorem new_fileAt {n : Name} {v : Value} (hn : notedNode [n] = some (.file v)) :
    ∃ store, AttributeStore.new some notedFiles [n] none = .ok store ∧ store.entries = notes ∧ store.key none = n.bytes := by
  unfold AttributeStore.new AttributeStore.fileType
  rw [status_fileAt hn]
  exact ⟨_, rfl, loadFromFile_notes, rfl⟩

/-- Nothing has to be cleared. -/
theorem bare_kept : Kept some idleWriter (fun _ _ _ => .ok ()) rootContext notedFiles (fileAt bareName) notes := by
  have hn : notedNode [bareName] = some (.file .none) := rfl
  refine ((attributes_kept_iff rfl (location_fileAt hn) (status_fileAt hn) notes).2).2 fun store hs => ?_
  obtain ⟨store', hs', he, hk⟩ := new_fileAt hn
  cases hs.symm.trans hs'
  rw [SettingsStore.get, he, hk]
  decide

/-- The attributes of a file are still there when they have been cleared. -/
theorem noted_not_kept : ¬ ∀ (w : Files Value) (c : Context) (p : RelPath) (lpath : List Name) (node : Node Name Value),
    c.writable = true → LocalProvider.location c w p false = .ok lpath → w.tree.status (plain lpath) = .ok (some node) →
      ∀ m, Kept some idleWriter (fun _ _ _ => .ok ()) c w p m := by
  intro h
  have hn : notedNode [notedName] = some (.file .none) := rfl
  have hkept := h notedFiles rootContext (fileAt notedName) _ _ rfl (location_fileAt hn) (status_fileAt hn) notes
  obtain ⟨store, hs, he, hk⟩ := new_fileAt hn
  have hcleared := hkept.cleared
  rw [clearAttributes_eq rfl (location_fileAt hn) hs] at hcleared
  have := (getAttributes_eq (location_fileAt hn) hs).symm.trans hcleared
  rw [AttributeStore.getAttributes, SettingsStore.get, he, hk] at this
  exact absurd (congrArg List.length (Except.ok.inj this)) (by decide)

end Vfs

end CommonCore
