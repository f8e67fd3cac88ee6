import CommonCore.DateTime
import Mathlib.Data.List.AList

/-!
# Rotating sinks

A rotating sink names its file after the time for which it is opened, and opens
another one once an item is of a later period.
-/

namespace CommonCore.Logging

/-! ## Paths -/

/-- `fs::path::filename`. -/
def filename (path : Bytes) : Bytes := (path.reverse.takeWhile (· ≠ 0x2f)).reverse

/-- `fs::path::extension`. -/
def extension (path : Bytes) : Bytes :=
  let name := filename path
  match name.reverse.dropWhile (· ≠ 0x2e) with
  | [] | [_] => []
  | _ => if name = ascii ".." then [] else 0x2e :: (name.reverse.takeWhile (· ≠ 0x2e)).reverse

def extendedFilename (pathname defaultSuffix : Bytes) (acceptAnySuffix : Bool) : Bytes :=
  if filename pathname ≠ [] ∧
      (extension pathname = [] ∨ (acceptAnySuffix = false ∧ extension pathname ≠ defaultSuffix)) then
    pathname ++ defaultSuffix
  else pathname

/-- `operator/` of `fs::path`. -/
def join (folder file : Bytes) : Bytes :=
  if file.head? = some 0x2f ∨ folder = [] then file
  else if folder.getLast? = some 0x2f then folder ++ file
  else folder ++ 0x2f :: file

def compressionSuffix : Bytes := ascii ".gz"

/-- The file into which a log file is compressed. -/
def outfile (logfile : Bytes) : Bytes := logfile ++ compressionSuffix

/-! ## Name templates -/

/-- `\w`. -/
def isWord (b : UInt8) : Bool :=
  (0x30 ≤ b && b ≤ 0x39) || (0x41 ≤ b && b ≤ 0x5a) || b == 0x5f || (0x61 ≤ b && b ≤ 0x7a)

/-- What the regular expression captures after an opening brace. -/
def expansionKey (s : Bytes) : Option Bytes :=
  let key := s.takeWhile isWord
  if key ≠ [] ∧ (s.drop key.length).head? = some 0x7d then some key else none

/-- With as many steps as there are characters. -/
def expandSteps (kvmap : List (Bytes × Bytes)) : ℕ → Bytes → Bytes
  | 0, s => s
  | _, [] => []
  | n + 1, b :: s =>
    match (if b = 0x7b then expansionKey s else none) with
    | some key => (kvmap.lookup key).getD [] ++ expandSteps kvmap n (s.drop (key.length + 1))
    | none => b :: expandSteps kvmap n s

def expand (format : Bytes) (kvmap : List (Bytes × Bytes)) : Bytes := expandSteps kvmap format.length format

/-! ## Sinks -/

inductive Kind
  | logFileSink | csvFileSink | jsonFileSink | sqliteSink
  deriving DecidableEq

def Kind.defaultSuffix : Kind → Bytes
  | .logFileSink => ascii ".log"
  | .csvFileSink => ascii ".csv"
  | .jsonFileSink => ascii ".jsonlog"
  | .sqliteSink => ascii ".db"

/-- Its stream is opened for output, which truncates the file. -/
def Kind.truncates : Kind → Bool
  | .sqliteSink => false
  | _ => true

structure Platform where
  lib : CLibrary
  execName : Bytes := []
  hostName : Bytes := []
  weaklyCanonical : Bytes → Bytes
  /-- Whether a path matches a mask. -/
  filenameMatch : Bytes → Bytes → Bool

/-- A sink of items of type `α` as it is configured. The log folder is canonical. -/
structure RotatingPath (α : Type) where
  platform : Platform
  kind : Kind
  sinkName : Bytes
  nameTemplate : Bytes := ascii "{executable}-{isodate}-{hour}{minute}{zoneoffset}"
  logFolder : Bytes
  useLocalTime : Bool := true
  compressAfterUse : Bool := true
  rotationInterval : DateTimeInterval := { unit := .day, count := 1 }
  expirationInterval : DateTimeInterval := { unit := .year, count := 1 }
  timepoint : α → Int

inductive Line (α : Type)
  | header
  | item (item : α)
  deriving DecidableEq

abbrev Files (α : Type) := AList fun _ : Bytes => List (Line α)

def Files.content {α : Type} (files : Files α) (path : Bytes) : List (Line α) := (files.lookup path).getD []

structure Sink (α : Type) where
  files : Files α := ∅
  currentPath : Bytes := []
  currentRotation : Int := 0
  /-- The file that is open. -/
  out : Option Bytes := none
  /-- The stream of a CSV sink is not good. -/
  bad : Bool := false
  pendingRows : List α := []

namespace RotatingPath

variable {α : Type} (c : RotatingPath α)

def expansions : List (Bytes × Bytes) :=
  [(ascii "executable", c.platform.execName), (ascii "hostname", c.platform.hostName), (ascii "sink_id", c.sinkName),
    (ascii "isodate", ascii "%F"), (ascii "isotime", ascii "%T"), (ascii "year", ascii "%Y"), (ascii "month", ascii "%m"),
    (ascii "week", ascii "%U"), (ascii "day", ascii "%d"), (ascii "hour", ascii "%H"), (ascii "minute", ascii "%M"),
    (ascii "second", ascii "%S"), (ascii "zonename", ascii "%Z"), (ascii "zoneoffset", ascii "%z")]

/-- The name is of the local time, also where the sink uses UTC. -/
def constructPath (starttime : Int) : Bytes :=
  let lib := c.platform.lib
  let logName := lib.putTime (lib.localtime (starttime / Dt.second)) (expand c.nameTemplate c.expansions)
  let logFile := extendedFilename logName c.kind.defaultSuffix true
  c.platform.weaklyCanonical (join c.logFolder logFile)

def lastAligned (tp : Int) (interval : DateTimeInterval) : Int := Dt.lastAligned c.platform.lib tp interval c.useLocalTime

/-- A directory lists entries that have a name. -/
def locate (masks : List Bytes) (files : Files α) : List Bytes :=
  files.keys.filter fun path =>
    filename path ≠ [] && (join c.logFolder []).isPrefixOf path && masks.any fun mask => c.platform.filenameMatch mask path

def plainPattern (current : Bytes) : Bytes := ascii "*" ++ extension current

/-- Given the time at which each file was modified. -/
def checkExpiration (modifyTime : Bytes → Int) (tp : Int) (current : Bytes) (files : Files α) : Files α :=
  if c.expirationInterval.nonempty then
    let expirationTime := c.lastAligned tp c.expirationInterval
    let plain := plainPattern current
    (c.locate [plain, outfile plain] files).foldl
      (fun files path => if modifyTime path < expirationTime then files.erase path else files) files
  else files

def compress (files : Files α) (logfile : Bytes) : Files α :=
  match files.lookup logfile with
  | some content =>
    if extension logfile ≠ compressionSuffix then (files.insert (outfile logfile) content).erase logfile else files
  | none => files

def compressAllAfterUse (current : Bytes) (files : Files α) : Files α :=
  if c.compressAfterUse then
    (c.locate [plainPattern current] files).foldl
      (fun files path => if path ≠ current then compress files path else files) files
  else files

/-- `RotatingPath::open_file`, which waits for its asynchronous part, and the
opening of the output. -/
def openFile (modifyTime : Bytes → Int) (tp : Int) (s : Sink α) : Sink α :=
  let path := c.constructPath tp
  let files := c.compressAllAfterUse path (c.checkExpiration modifyTime tp path s.files)
  let s := { s with currentPath := path, currentRotation := tp, files := files }
  match c.kind with
  | .logFileSink | .jsonFileSink => { s with files := files.insert path [], out := some path }
  | .csvFileSink =>
    match s.out with
    | none => { s with files := files.insert path [.header], out := some path, bad := false }
    | some _ => { s with bad := true }
  | .sqliteSink => { s with files := files.insert path (files.content path), out := some path }

def closeFile (s : Sink α) : Sink α := { s with out := none }

def rotate (modifyTime : Bytes → Int) (tp : Int) (s : Sink α) : Sink α := c.openFile modifyTime tp (closeFile s)

/-- Whether an item of that time makes the sink rotate. -/
def rotates (tp : Int) (s : Sink α) : Bool :=
  c.rotationInterval.nonempty && s.currentRotation < c.lastAligned tp c.rotationInterval

def checkRotation (modifyTime : Bytes → Int) (tp : Int) (s : Sink α) : Sink α :=
  if c.rotates tp s then c.rotate modifyTime (c.lastAligned tp c.rotationInterval) s else s

def write (lines : List (Line α)) (s : Sink α) : Sink α :=
  match s.out with
  | some path => { s with files := s.files.insert path (s.files.content path ++ lines) }
  | none => { s with bad := true }

def handleItem (modifyTime : Bytes → Int) (a : α) (s : Sink α) : Bool × Sink α :=
  match c.kind with
  | .logFileSink | .jsonFileSink =>
    if s.out.isSome then (true, write [.item a] (c.checkRotation modifyTime (c.timepoint a) s)) else (false, s)
  | .csvFileSink =>
    if s.bad then (false, s) else (true, write [.item a] (c.checkRotation modifyTime (c.timepoint a) s))
  | .sqliteSink =>
    let s := c.checkRotation modifyTime (c.timepoint a) s
    (true, { s with pendingRows := s.pendingRows ++ [a] })

/-- Of the worker of a database sink. Rows that cannot be inserted are given up. -/
def flush (s : Sink α) : Sink α :=
  if s.pendingRows = [] then s
  else
    match s.out with
    | some path => { s with files := s.files.insert path (s.files.content path ++ s.pendingRows.map .item), pendingRows := [] }
    | none => { s with pendingRows := [] }

/-- The time for which a sink is opened. -/
def openingTime (now : Int) : Int :=
  match c.kind with
  | .sqliteSink => c.lastAligned now c.rotationInterval
  | _ => now

inductive Event (α : Type)
  | open (now : Int) (modifyTime : Bytes → Int)
  | handle (a : α) (modifyTime : Bytes → Int)
  | flush
  | close

def step (s : Sink α) : Event α → Sink α
  | .open now modifyTime => c.openFile modifyTime (c.openingTime now) s
  | .handle a modifyTime => (c.handleItem modifyTime a s).2
  | .flush => flush s
  | .close => closeFile s

def run (s : Sink α) (events : List (Event α)) : Sink α := events.foldl c.step s

end RotatingPath

/-! ## What files hold -/

section
variable {α : Type}

/-- Compression leaves the others as they are. -/
def Compressible (path : Bytes) : Prop := filename path ≠ [] ∧ extension path ≠ compressionSuffix

/-- The content of a file, or of what it was compressed to. -/
def Holds (files : Files α) (path : Bytes) (P : List (Line α) → Prop) : Prop :=
  ∃ content, P content ∧
    (files.lookup path = some content ∨ (Compressible path ∧ files.lookup (outfile path) = some content))

/-- No content is lost. -/
def Kept (files files' : Files α) : Prop :=
  ∀ path content, files.lookup path = some content → content ≠ [] → Holds files' path (content <+: ·)

theorem filename_append {p s : Bytes} (hs : (0x2f : UInt8) ∉ s) : filename (p ++ s) = filename p ++ s := by
  rw [filename, filename, List.reverse_append, List.takeWhile_append_of_pos]
  · simp
  · intro b hb
    have := fun h : b = 0x2f => hs (h ▸ List.mem_reverse.mp hb)
    simpa using this

theorem extension_outfile {path : Bytes} (h : filename path ≠ []) : extension (outfile path) = compressionSuffix := by
  obtain ⟨b, name, hname⟩ := List.exists_cons_of_ne_nil (mt List.reverse_eq_nil_iff.mp h)
  have hfile : filename (outfile path) = filename path ++ compressionSuffix := filename_append (by decide)
  have hrev : (filename path ++ compressionSuffix).reverse = 0x7a :: 0x67 :: 0x2e :: b :: name := by
    rw [List.reverse_append, hname]
    rfl
  have hne : filename path ++ compressionSuffix ≠ ascii ".." := by
    intro heq
    have := congrArg List.reverse heq
    rw [hrev] at this
    exact absurd (List.cons.inj this).1 (by decide)
  simp only [extension, hfile, hrev, hne]
  rfl

theorem not_compressible_outfile {path : Bytes} (h : Compressible path) : ¬ Compressible (outfile path) :=
  fun h' => h'.2 (extension_outfile h.1)

theorem Holds.imp {files : Files α} {path : Bytes} {P Q : List (Line α) → Prop} (h : Holds files path P)
    (hPQ : ∀ content, P content → Q content) : Holds files path Q := by
  obtain ⟨content, hP, hat⟩ := h
  exact ⟨content, hPQ content hP, hat⟩

/-- What is compressed once stays where it is. -/
theorem Kept.holds {files files' : Files α} (hkept : Kept files files') {path : Bytes} {P : List (Line α) → Prop}
    (hmono : ∀ content content', content <+: content' → P content → P content') (hne : ∀ content, P content → content ≠ [])
    (h : Holds files path P) : Holds files' path P := by
  obtain ⟨content, hP, hat | ⟨hcomp, hat⟩⟩ := h
  · exact (hkept path content hat (hne content hP)).imp fun content' hpre => hmono content content' hpre hP
  · obtain ⟨content', hpre, hat' | ⟨hcomp', _⟩⟩ := hkept (outfile path) content hat (hne content hP)
    · exact ⟨content', hmono content content' hpre hP, .inr ⟨hcomp, hat'⟩⟩
    · exact absurd hcomp' (not_compressible_outfile hcomp)

theorem Kept.refl (files : Files α) : Kept files files := fun _ content hat _ => ⟨content, List.prefix_refl _, .inl hat⟩

theorem Kept.trans {files₁ files₂ files₃ : Files α} (h₁ : Kept files₁ files₂) (h₂ : Kept files₂ files₃) :
    Kept files₁ files₃ := by
  intro path content hat hne
  refine h₂.holds (fun a b hab hpre => hpre.trans hab) (fun a hpre hnil => ?_) (h₁ path content hat hne)
  subst hnil
  exact hne (List.prefix_nil.mp hpre)

/-- A file is removed only when it is empty. -/
theorem kept_erase {files : Files α} {path : Bytes} (h : files.content path = []) : Kept files (files.erase path) := by
  intro q content hat hne
  have hq : q ≠ path := by
    rintro rfl
    exact hne (by simpa [Files.content, hat] using h)
  exact ⟨content, List.prefix_refl _, .inl (by rw [AList.lookup_erase_ne hq, hat])⟩

theorem kept_insert {files : Files α} {path : Bytes} {lines : List (Line α)} (h : files.content path <+: lines) :
    Kept files (files.insert path lines) := by
  intro q content hat _
  by_cases hq : q = path
  · subst hq
    refine ⟨lines, ?_, .inl (AList.lookup_insert _)⟩
    simpa [Files.content, hat] using h
  · exact ⟨content, List.prefix_refl _, .inl (by rw [AList.lookup_insert_ne hq, hat])⟩

theorem kept_compress {files : Files α} {path : Bytes} (hname : filename path ≠ [])
    (h : extension path ≠ compressionSuffix → files.lookup path ≠ none → files.content (outfile path) = []) :
    Kept files (RotatingPath.compress files path) := by
  intro q content hat hne
  unfold RotatingPath.compress
  cases hpath : files.lookup path with
  | none => exact Kept.refl files q content hat hne
  | some lines =>
    dsimp only
    split_ifs with hext
    · have hout : outfile path ≠ path := by simp [outfile, compressionSuffix, ascii]
      by_cases hq : q = path
      · subst hq
        obtain rfl := Option.some.inj (hpath.symm.trans hat)
        refine ⟨lines, List.prefix_refl _, .inr ⟨⟨hname, hext⟩, ?_⟩⟩
        rw [AList.lookup_erase_ne hout, AList.lookup_insert]
      · have hq' : q ≠ outfile path := by
          rintro rfl
          have hempty := h hext (by simp [hpath])
          exact hne (by simpa [Files.content, hat] using hempty)
        exact ⟨content, List.prefix_refl _, .inl (by rw [AList.lookup_erase_ne hq, AList.lookup_insert_ne hq', hat])⟩
    · exact Kept.refl files q content hat hne

/-- Steps over the files of a directory, each of which keeps what the later ones need. -/
theorem kept_foldl {f : Files α → Bytes → Files α} {Q : Bytes → Files α → Prop} (hkept : ∀ files p, Q p files → Kept files (f files p))
    (hstep : ∀ files p q, Q p files → Q q files → Q q (f files p)) :
    ∀ (l : List Bytes) (files : Files α), (∀ p ∈ l, Q p files) → Kept files (l.foldl f files)
  | [], files, _ => Kept.refl files
  | p :: l, files, h => by
    rw [List.forall_mem_cons] at h
    exact (hkept files p h.1).trans (kept_foldl hkept hstep l _ fun q hq => hstep files p q h.1 (h.2 q hq))

theorem content_erase {files : Files α} {path q : Bytes} (h : files.content q = []) : Files.content (files.erase path) q = [] := by
  by_cases hq : q = path
  · subst hq
    simp [Files.content, AList.lookup_erase]
  · rw [Files.content, AList.lookup_erase_ne hq]
    exact h

/-- A file that is compressed takes the place of an empty one only. -/
theorem kept_compress_all {current : Bytes} {l : List Bytes} {files : Files α} (hname : ∀ p ∈ l, filename p ≠ [])
    (h : ∀ p ∈ l, p ≠ current → extension p ≠ compressionSuffix → files.content (outfile p) = []) :
    Kept files (l.foldl (fun files path => if path ≠ current then RotatingPath.compress files path else files) files) := by
  refine kept_foldl (Q := fun p files => filename p ≠ [] ∧
    (p ≠ current → extension p ≠ compressionSuffix → files.lookup p ≠ none → files.content (outfile p) = [])) ?_ ?_ l files
    fun p hp => ⟨hname p hp, fun hcur hext _ => h p hp hcur hext⟩
  · intro files p hp
    split_ifs with hcur
    · exact kept_compress hp.1 (hp.2 hcur)
    · exact Kept.refl files
  · intro files p q hp hq
    refine ⟨hq.1, fun hcur hext => ?_⟩
    have hq := hq.2 hcur hext
    split_ifs with hpcur
    · unfold RotatingPath.compress
      cases hpath : files.lookup p with
      | none => exact hq
      | some lines =>
        dsimp only
        split_ifs with hpext
        · intro hsome
          by_cases heq : q = p
          · subst heq
            simp at hsome
          · have hqout : q ≠ outfile p := by
              rintro rfl
              exact hext (extension_outfile hp.1)
            have hout : outfile q ≠ outfile p := fun h => heq (List.append_cancel_right h)
            rw [AList.lookup_erase_ne heq, AList.lookup_insert_ne hqout] at hsome
            refine content_erase ?_
            rw [Files.content, AList.lookup_insert_ne hout]
            exact hq hsome
        · exact hq
    · exact hq

theorem content_compress_all {current : Bytes} :
    ∀ (l : List Bytes) (files : Files α), (∀ p ∈ l, p ≠ current → extension p ≠ compressionSuffix → outfile p ≠ current) →
      Files.content (l.foldl (fun files path => if path ≠ current then RotatingPath.compress files path else files) files) current =
        files.content current
  | [], _, _ => rfl
  | p :: l, files, h => by
    rw [List.forall_mem_cons] at h
    refine (content_compress_all l _ h.2).trans ?_
    dsimp only
    split_ifs with hcur
    · unfold RotatingPath.compress
      cases hpath : files.lookup p with
      | none => rfl
      | some lines =>
        dsimp only
        split_ifs with hext
        · rw [Files.content, AList.lookup_erase_ne (Ne.symm hcur), AList.lookup_insert_ne (Ne.symm (h.1 hcur hext))]
          rfl
        · rfl
    · rfl

theorem kept_expire {expired : Bytes → Prop} [DecidablePred expired] {l : List Bytes} {files : Files α}
    (h : ∀ p ∈ l, expired p → files.content p = []) :
    Kept files (l.foldl (fun files path => if expired path then files.erase path else files) files) := by
  refine kept_foldl (Q := fun p files => expired p → files.content p = []) ?_ ?_ l files h
  · intro files p hp
    split_ifs with hexp
    · exact kept_erase (hp hexp)
    · exact Kept.refl files
  · intro files p q _ hq hexp
    split_ifs with hexp'
    · exact content_erase (hq hexp)
    · exact hq hexp

/-- What is not there does not come back. -/
theorem content_expire {expired : Bytes → Prop} [DecidablePred expired] {q : Bytes} :
    ∀ (l : List Bytes) (files : Files α), files.content q = [] →
      Files.content (l.foldl (fun files path => if expired path then files.erase path else files) files) q = []
  | [], _, h => h
  | p :: l, files, h => by
    refine content_expire l _ ?_
    dsimp only
    split_ifs with hexp
    · exact content_erase h
    · exact h

theorem mem_keys_of_expire {expired : Bytes → Prop} [DecidablePred expired] {q : Bytes} :
    ∀ (l : List Bytes) (files : Files α),
      q ∈ (l.foldl (fun files path => if expired path then files.erase path else files) files).keys → q ∈ files.keys
  | [], _, h => h
  | p :: l, files, h => by
    have h := mem_keys_of_expire l _ h
    dsimp only at h
    split_ifs at h with hexp
    · exact (AList.mem_erase.mp h).2
    · exact h

end

/-! ## Runs -/

namespace RotatingPath

section
variable {α : Type} (c : RotatingPath α)

/-- The name of the period that an item belongs to. -/
def period (a : α) : Bytes := c.constructPath (c.lastAligned (c.timepoint a) c.rotationInterval)

/-- Opening a file for that time removes no content, and overwrites none. -/
structure OpensSafely (modifyTime : Bytes → Int) (tp : Int) (files : Files α) : Prop where
  unexpired : c.expirationInterval.nonempty = true →
    ∀ path ∈ c.locate [plainPattern (c.constructPath tp), outfile (plainPattern (c.constructPath tp))] files,
      modifyTime path < c.lastAligned tp c.expirationInterval → files.content path = []
  uncompressed : c.compressAfterUse = true →
    ∀ path ∈ c.locate [plainPattern (c.constructPath tp)] files, path ≠ c.constructPath tp →
      extension path ≠ compressionSuffix → files.content (outfile path) = [] ∧ outfile path ≠ c.constructPath tp
  fresh : c.kind.truncates = true → files.content (c.constructPath tp) = []

/-- The condition of one step. -/
def Admissible (s : Sink α) : Event α → Prop
  | .open now modifyTime => s.out = none ∧ c.OpensSafely modifyTime (c.openingTime now) s.files
  | .handle a modifyTime =>
    let tp := c.lastAligned (c.timepoint a) c.rotationInterval
    s.out.isSome = true ∧
      if c.rotates (c.timepoint a) s then
        (∀ row ∈ s.pendingRows, c.period row = c.period a) ∧ c.OpensSafely modifyTime tp s.files
      else
        tp = s.currentRotation ∨
          (tp = c.lastAligned s.currentRotation c.rotationInterval ∧
            c.constructPath s.currentRotation = c.constructPath (c.lastAligned s.currentRotation c.rotationInterval))
  | .flush => True
  | .close => s.pendingRows = []

def AdmissibleRun : Sink α → List (Event α) → Prop
  | _, [] => True
  | s, e :: events => c.Admissible s e ∧ AdmissibleRun (c.step s e) events

def Event.items : Event α → List α
  | .handle a _ => [a]
  | .open _ _ | .flush | .close => []

/-- The items that are handled in the course of a run. -/
def handled (events : List (Event α)) : List α := events.flatMap Event.items

/-- The item is in the file of its period, or about to be written to it. -/
def Filed (s : Sink α) (a : α) : Prop :=
  Holds s.files (c.period a) (Line.item a ∈ ·) ∨ (a ∈ s.pendingRows ∧ s.out = some (c.period a))

structure Inv (files₀ : Files α) (s : Sink α) (handled : List α) : Prop where
  kept : Kept files₀ s.files
  path : s.out.isSome = true → s.out = some (c.constructPath s.currentRotation)
  good : s.bad = false
  filed : ∀ a ∈ handled, c.Filed s a

theorem mem_locate {masks masks' : List Bytes} {files files' : Files α} (hmasks : masks ⊆ masks')
    (hkeys : ∀ q, q ∈ files.keys → q ∈ files'.keys) {p : Bytes} (h : p ∈ c.locate masks files) : p ∈ c.locate masks' files' := by
  simp only [locate, List.mem_filter, Bool.and_eq_true, List.any_eq_true] at h ⊢
  obtain ⟨hkey, hname, mask, hmask, hmatch⟩ := h
  exact ⟨hkeys p hkey, hname, mask, hmasks hmask, hmatch⟩

theorem filename_of_mem_locate {masks : List Bytes} {files : Files α} {p : Bytes} (h : p ∈ c.locate masks files) :
    filename p ≠ [] := by
  simp only [locate, List.mem_filter, Bool.and_eq_true] at h
  simpa using h.2.1.1

theorem check_expiration_spec {modifyTime : Bytes → Int} {tp : Int} {files : Files α}
    (h : c.OpensSafely modifyTime tp files) :
    let files' := c.checkExpiration modifyTime tp (c.constructPath tp) files
    Kept files files' ∧ (∀ q, files.content q = [] → Files.content files' q = []) ∧ ∀ q, q ∈ files'.keys → q ∈ files.keys := by
  simp only [checkExpiration]
  split_ifs with hexp
  · exact ⟨kept_expire (h.unexpired hexp), fun q => content_expire _ _, fun q => mem_keys_of_expire _ _⟩
  · exact ⟨Kept.refl _, fun _ hq => hq, fun _ hq => hq⟩

theorem housekeeping_spec {modifyTime : Bytes → Int} {tp : Int} {files : Files α} (h : c.OpensSafely modifyTime tp files) :
    let path := c.constructPath tp
    let files' := c.compressAllAfterUse path (c.checkExpiration modifyTime tp path files)
    Kept files files' ∧ (files.content path = [] → Files.content files' path = []) := by
  obtain ⟨hkept, hempty, hkeys⟩ := c.check_expiration_spec h
  dsimp only at hkept hempty hkeys ⊢
  generalize c.checkExpiration modifyTime tp (c.constructPath tp) files = files₁ at hkept hempty hkeys
  simp only [compressAllAfterUse]
  split_ifs with hcomp
  · have hsafe := fun p (hp : p ∈ c.locate [plainPattern (c.constructPath tp)] files₁) =>
      h.uncompressed hcomp p (c.mem_locate (List.Subset.refl _) hkeys hp)
    refine ⟨hkept.trans (kept_compress_all (fun p hp => c.filename_of_mem_locate hp) fun p hp hcur hext => hempty _ (hsafe p hp hcur hext).1),
      fun hpath => ?_⟩
    rw [content_compress_all _ _ fun p hp hcur hext => (hsafe p hp hcur hext).2]
    exact hempty _ hpath
  · exact ⟨hkept, hempty _⟩

/-- The sink has been opened for that time. -/
structure Opened (tp : Int) (s s' : Sink α) : Prop where
  kept : Kept s.files s'.files
  out : s'.out = some (c.constructPath tp)
  rotation : s'.currentRotation = tp
  good : s'.bad = false
  rows : s'.pendingRows = s.pendingRows

theorem open_file_spec {modifyTime : Bytes → Int} {tp : Int} {s : Sink α} (hout : s.out = none) (hgood : s.bad = false)
    (h : c.OpensSafely modifyTime tp s.files) : c.Opened tp s (c.openFile modifyTime tp s) := by
  obtain ⟨hkept, hempty⟩ := c.housekeeping_spec h
  unfold openFile
  cases hkind : c.kind with
  | sqliteSink => exact ⟨hkept.trans (kept_insert (List.prefix_refl _)), rfl, rfl, hgood, rfl⟩
  | csvFileSink =>
    have hnil := hempty (h.fresh (by rw [hkind]; rfl))
    dsimp only
    rw [hout]
    exact ⟨hkept.trans (kept_insert (by rw [hnil]; exact List.nil_prefix)), rfl, rfl, rfl, rfl⟩
  | _ =>
    have hnil := hempty (h.fresh (by rw [hkind]; rfl))
    exact ⟨hkept.trans (kept_insert (by rw [hnil])), rfl, rfl, hgood, rfl⟩

theorem Inv.filed_of_kept {s : Sink α} {files : Files α} (hkept : Kept s.files files) {a : α} (h : Holds s.files (c.period a) (Line.item a ∈ ·)) :
    Holds files (c.period a) (Line.item a ∈ ·) :=
  hkept.holds (fun _ _ hpre hmem => hpre.subset hmem) (fun _ hmem hnil => List.not_mem_nil (hnil ▸ hmem)) h

/-- Opening keeps what is filed, where the rows that are pending belong to the
file that is opened. -/
theorem Inv.opened {files₀ : Files α} {s s' : Sink α} {handled : List α} {tp : Int} (hs : c.Inv files₀ s handled)
    (h : c.Opened tp s s') (hrows : ∀ a, c.Filed s a → a ∈ s.pendingRows → s.out = some (c.period a) → c.period a = c.constructPath tp) :
    c.Inv files₀ s' handled := by
  refine ⟨hs.kept.trans h.kept, fun _ => h.rotation ▸ h.out, h.good, fun a ha => ?_⟩
  rcases hs.filed a ha with hin | ⟨hrow, hout⟩
  · exact .inl (Inv.filed_of_kept c h.kept hin)
  · exact .inr ⟨h.rows ▸ hrow, by rw [h.out, hrows a (hs.filed a ha) hrow hout]⟩

theorem Inv.close {files₀ : Files α} {s : Sink α} {handled : List α} (hs : c.Inv files₀ s handled) (hrows : s.pendingRows = []) :
    c.Inv files₀ (closeFile s) handled := by
  refine ⟨hs.kept, fun h => absurd h (by simp [closeFile]), hs.good, fun a ha => ?_⟩
  rcases hs.filed a ha with hin | ⟨hrow, _⟩
  · exact .inl hin
  · exact absurd (hrows ▸ hrow) List.not_mem_nil

/-- After the check the file of the item's period is open. -/
theorem Inv.checkRotation {files₀ : Files α} {s : Sink α} {handled : List α} {a : α} {modifyTime : Bytes → Int}
    (hs : c.Inv files₀ s handled) (h : c.Admissible s (.handle a modifyTime)) :
    let s' := c.checkRotation modifyTime (c.timepoint a) s
    c.Inv files₀ s' handled ∧ s'.out = some (c.period a) := by
  obtain ⟨hopen, h⟩ := h
  have hpath := hs.path hopen
  unfold RotatingPath.checkRotation
  split_ifs at h ⊢ with hrot
  · obtain ⟨hrows, hsafe⟩ := h
    have hopened := c.open_file_spec (s := closeFile s) rfl hs.good hsafe
    have hopened : c.Opened (c.lastAligned (c.timepoint a) c.rotationInterval) s _ :=
      ⟨hopened.kept, hopened.out, hopened.rotation, hopened.good, hopened.rows⟩
    exact ⟨hs.opened c hopened fun row _ hrow _ => hrows row hrow, hopened.out⟩
  · refine ⟨hs, hpath.trans (congrArg some ?_)⟩
    rcases h with heq | ⟨heq, hname⟩
    · rw [period, heq]
    · rw [period, hname, heq]

theorem Inv.write {files₀ : Files α} {s : Sink α} {handled : List α} {a : α} (hs : c.Inv files₀ s handled)
    (hout : s.out = some (c.period a)) : c.Inv files₀ (write [.item a] s) (handled ++ [a]) := by
  have heq : RotatingPath.write [.item a] s =
      { s with files := s.files.insert (c.period a) (s.files.content (c.period a) ++ [.item a]) } := by
    simp [RotatingPath.write, hout]
  have hkept : Kept s.files (s.files.insert (c.period a) (s.files.content (c.period a) ++ [.item a])) :=
    kept_insert (List.prefix_append _ _)
  rw [heq]
  refine ⟨hs.kept.trans hkept, hs.path, hs.good, List.forall_mem_append.mpr ⟨fun b hb => ?_, ?_⟩⟩
  · rcases hs.filed b hb with hin | ⟨hrow, hout'⟩
    · exact .inl (Inv.filed_of_kept c hkept hin)
    · exact .inr ⟨hrow, hout'⟩
  · exact List.forall_mem_singleton.mpr (.inl ⟨_, by simp, .inl (AList.lookup_insert _)⟩)

theorem Inv.push {files₀ : Files α} {s : Sink α} {handled : List α} {a : α} (hs : c.Inv files₀ s handled)
    (hout : s.out = some (c.period a)) : c.Inv files₀ { s with pendingRows := s.pendingRows ++ [a] } (handled ++ [a]) := by
  refine ⟨hs.kept, hs.path, hs.good, List.forall_mem_append.mpr ⟨fun b hb => ?_, ?_⟩⟩
  · rcases hs.filed b hb with hin | ⟨hrow, hout'⟩
    · exact .inl hin
    · exact .inr ⟨List.mem_append_left _ hrow, hout'⟩
  · exact List.forall_mem_singleton.mpr (.inr ⟨by simp, hout⟩)

theorem Inv.flush {files₀ : Files α} {s : Sink α} {handled : List α} (hs : c.Inv files₀ s handled) :
    c.Inv files₀ (flush s) handled := by
  unfold RotatingPath.flush
  split_ifs with hnil
  · exact hs
  · have hpath := hs.path
    cases hout : s.out with
    | none =>
      rw [hout] at hpath
      refine ⟨hs.kept, hpath, hs.good, fun a ha => ?_⟩
      rcases hs.filed a ha with hin | ⟨_, hout'⟩
      · exact .inl hin
      · exact absurd (hout'.symm.trans hout) (by simp)
    | some path =>
      have hkept : Kept s.files (s.files.insert path (s.files.content path ++ s.pendingRows.map .item)) :=
        kept_insert (List.prefix_append _ _)
      rw [hout] at hpath
      refine ⟨hs.kept.trans hkept, hpath, hs.good, fun a ha => ?_⟩
      rcases hs.filed a ha with hin | ⟨hrow, hout'⟩
      · exact .inl (Inv.filed_of_kept c hkept hin)
      · obtain rfl := Option.some.inj (hout.symm.trans hout')
        exact .inl ⟨_, by simp [hrow], .inl (AList.lookup_insert _)⟩

/-- What one step preserves. -/
theorem Inv.step {files₀ : Files α} {s : Sink α} {handled : List α} {e : Event α} (hs : c.Inv files₀ s handled)
    (h : c.Admissible s e) : c.Inv files₀ (c.step s e) (handled ++ e.items) := by
  cases e with
  | «open» now modifyTime =>
    obtain ⟨hout, hsafe⟩ := h
    rw [Event.items, List.append_nil]
    exact hs.opened c (c.open_file_spec hout hs.good hsafe) fun a _ _ hout' => absurd (hout'.symm.trans hout) (by simp)
  | handle a modifyTime =>
    have hopen := h.1
    obtain ⟨hs', hout'⟩ := hs.checkRotation c h
    simp only [RotatingPath.step, handleItem]
    cases hkind : c.kind with
    | sqliteSink => exact hs'.push c hout'
    | csvFileSink =>
      simp only [hs.good, Bool.false_eq_true, if_false]
      exact hs'.write c hout'
    | _ =>
      simp only [hopen, if_true]
      exact hs'.write c hout'
  | flush =>
    rw [Event.items, List.append_nil]
    exact hs.flush c
  | close =>
    rw [Event.items, List.append_nil]
    exact hs.close c h

theorem Inv.run {files₀ : Files α} {events : List (Event α)} {s : Sink α} {handled : List α} (hs : c.Inv files₀ s handled)
    (h : c.AdmissibleRun s events) : c.Inv files₀ (c.run s events) (handled ++ RotatingPath.handled events) := by
  induction events generalizing s handled with
  | nil => rwa [RotatingPath.handled, List.flatMap_nil, List.append_nil]
  | cons e events ih =>
    have := ih (hs.step c h.1) h.2
    rwa [List.append_assoc] at this

/-- In a run whose steps meet the condition, each item is filed under its own
period, and no content is lost. -/
theorem filed_of_admissible {files : Files α} {events : List (Event α)} (h : c.AdmissibleRun { files := files } events) :
    Kept files (c.run { files := files } events).files ∧
      ∀ a ∈ handled events, c.Filed (c.run { files := files } events) a := by
  have hstart : c.Inv files { files := files } [] :=
    ⟨Kept.refl files, fun hopen => absurd hopen (by simp), rfl, fun _ ha => absurd ha List.not_mem_nil⟩
  have hend := hstart.run c h
  exact ⟨hend.kept, hend.filed⟩

instance (modifyTime : Bytes → Int) (tp : Int) (files : Files α) : Decidable (c.OpensSafely modifyTime tp files) :=
  decidable_of_iff (_ ∧ _ ∧ _) ⟨fun h => ⟨h.1, h.2.1, h.2.2⟩, fun h => ⟨h.unexpired, h.uncompressed, h.fresh⟩⟩

instance [DecidableEq α] (s : Sink α) : (e : Event α) → Decidable (c.Admissible s e)
  | .open now modifyTime => inferInstanceAs (Decidable (s.out = none ∧ c.OpensSafely modifyTime (c.openingTime now) s.files))
  | .handle _ _ => by unfold Admissible; infer_instance
  | .flush => isTrue trivial
  | .close => inferInstanceAs (Decidable (s.pendingRows = []))

instance decidableAdmissibleRun [DecidableEq α] : (s : Sink α) → (events : List (Event α)) → Decidable (c.AdmissibleRun s events)
  | _, [] => isTrue trivial
  | s, e :: events =>
    have := decidableAdmissibleRun (c.step s e) events
    inferInstanceAs (Decidable (c.Admissible s e ∧ c.AdmissibleRun (c.step s e) events))

/-! ## Runs in order -/

/-- A file for that time has the name of the period that the time belongs to. -/
def Named (tp : Int) : Prop := c.constructPath tp = c.constructPath (c.lastAligned tp c.rotationInterval)

/-- The sink is opened for a time that has the name of its period, and items are
not earlier than the current rotation. -/
def Orderly (s : Sink α) : Event α → Prop
  | .open now modifyTime =>
    s.out = none ∧ c.Named (c.openingTime now) ∧ c.OpensSafely modifyTime (c.openingTime now) s.files
  | .handle a modifyTime =>
    s.out.isSome = true ∧ s.currentRotation ≤ c.timepoint a ∧
      (c.rotates (c.timepoint a) s = true →
        (∀ row ∈ s.pendingRows, c.period row = c.period a) ∧
          c.OpensSafely modifyTime (c.lastAligned (c.timepoint a) c.rotationInterval) s.files)
  | .flush => True
  | .close => s.pendingRows = []

def OrderlyRun : Sink α → List (Event α) → Prop
  | _, [] => True
  | s, e :: events => c.Orderly s e ∧ OrderlyRun (c.step s e) events

theorem open_file_rotation (modifyTime : Bytes → Int) (tp : Int) (s : Sink α) :
    (c.openFile modifyTime tp s).currentRotation = tp := by
  unfold openFile
  cases c.kind with
  | csvFileSink => cases s.out <;> rfl
  | _ => rfl

theorem write_rotation (lines : List (Line α)) (s : Sink α) : (write lines s).currentRotation = s.currentRotation := by
  cases h : s.out <;> simp [write, h]

theorem flush_spec (s : Sink α) : (flush s).currentRotation = s.currentRotation ∧ (flush s).out = s.out := by
  unfold flush
  split_ifs
  · exact ⟨rfl, rfl⟩
  · cases s.out <;> exact ⟨rfl, rfl⟩

variable {c}

theorem named_check_rotation (hal : Alignment fun tp => c.lastAligned tp c.rotationInterval) {s : Sink α}
    (hs : c.Named s.currentRotation) (modifyTime : Bytes → Int) (tp : Int) :
    c.Named (c.checkRotation modifyTime tp s).currentRotation := by
  unfold checkRotation
  split_ifs
  · rw [rotate, open_file_rotation, Named, hal.idem tp]
  · exact hs

theorem named_step (hal : Alignment fun tp => c.lastAligned tp c.rotationInterval) {s : Sink α} {e : Event α}
    (hs : s.out.isSome = true → c.Named s.currentRotation) (h : c.Orderly s e) :
    (c.step s e).out.isSome = true → c.Named (c.step s e).currentRotation := by
  cases e with
  | «open» now modifyTime =>
    rw [step, open_file_rotation]
    exact fun _ => h.2.1
  | handle a modifyTime =>
    have hs := hs h.1
    have hrot := named_check_rotation hal hs modifyTime (c.timepoint a)
    simp only [step, handleItem]
    intro _
    cases c.kind with
    | sqliteSink => exact hrot
    | csvFileSink =>
      dsimp only
      split_ifs
      · exact hs
      · rwa [write_rotation]
    | _ =>
      dsimp only
      split_ifs
      · rwa [write_rotation]
      · exact hs
  | flush =>
    rw [step, (flush_spec s).1, (flush_spec s).2]
    exact hs
  | close => exact fun hopen => absurd hopen (by simp [step, closeFile])

theorem admissible_of_orderly (hne : c.rotationInterval.nonempty = true)
    (hal : Alignment fun tp => c.lastAligned tp c.rotationInterval) {s : Sink α} {e : Event α}
    (hs : s.out.isSome = true → c.Named s.currentRotation) (h : c.Orderly s e) : c.Admissible s e := by
  cases e with
  | «open» now modifyTime => exact ⟨h.1, h.2.2⟩
  | handle a modifyTime =>
    obtain ⟨hopen, hle, hrot⟩ := h
    refine ⟨hopen, ?_⟩
    split_ifs with hr
    · exact hrot hr
    · have hdue : c.lastAligned (c.timepoint a) c.rotationInterval ≤ s.currentRotation := by
        simpa [rotates, hne] using hr
      exact .inr ⟨(hal.eq_of_between hdue hle).symm, hs hopen⟩
  | flush => trivial
  | close => exact h

/-- With an alignment, what is left of the condition is about how files are
opened. -/
theorem admissibleRun_of_orderly (hne : c.rotationInterval.nonempty = true)
    (hal : Alignment fun tp => c.lastAligned tp c.rotationInterval) {s : Sink α} {events : List (Event α)}
    (hs : s.out.isSome = true → c.Named s.currentRotation) (h : c.OrderlyRun s events) : c.AdmissibleRun s events := by
  induction events generalizing s with
  | nil => trivial
  | cons e events ih => exact ⟨admissible_of_orderly hne hal hs h.1, ih (named_step hal hs h.1) h.2⟩

end

/-! ## An hourly log -/

/-- Of the first days of 1970, in UTC. -/
def epochLibrary : CLibrary where
  gmtime t := { tmSec := t % 60, tmMin := t / 60 % 60, tmHour := t / 3600 % 24, tmMday := 1 + t / 86400 }
  localtime t := { tmSec := t % 60, tmMin := t / 60 % 60, tmHour := t / 3600 % 24, tmMday := 1 + t / 86400 }
  mktime tm := (((tm.tmMday - 1) * 24 + tm.tmHour) * 60 + tm.tmMin) * 60 + tm.tmSec
  tzoffset _ := 0
  putTime := go
where
  digits (n : Int) : Bytes := [0x30 + UInt8.ofInt (n / 10), 0x30 + UInt8.ofInt (n % 10)]
  go (tm : Tm) : Bytes → Bytes
    | 0x25 :: 0x48 :: s => digits tm.tmHour ++ go tm s
    | 0x25 :: 0x4d :: s => digits tm.tmMin ++ go tm s
    | b :: s => b :: go tm s
    | [] => []

/-- Items that are times, in a log file for each hour. -/
def hourlyLog : RotatingPath Int where
  platform := {
    lib := epochLibrary
    weaklyCanonical := id
    filenameMatch := fun mask path => mask.tail.isSuffixOf path }
  kind := .logFileSink
  sinkName := ascii "log"
  nameTemplate := ascii "{hour}{minute}"
  logFolder := ascii "/log"
  useLocalTime := false
  rotationInterval := { unit := .hour, count := 1 }
  timepoint := id

/-- In nanoseconds. -/
def clock (hours minutes : Int) : Int := (hours * 60 + minutes) * Dt.minute

/-- Opened at the start of an hour. -/
def onTheHour : List (Event Int) :=
  [.open (clock 10 0) fun _ => clock 9 0, .handle (clock 10 40) fun _ => clock 9 0, .handle (clock 11 5) fun _ => clock 10 40, .close]

theorem hourlyLog_filed :
    Kept ∅ (hourlyLog.run {} onTheHour).files ∧ ∀ a ∈ handled onTheHour, hourlyLog.Filed (hourlyLog.run {} onTheHour) a :=
  hourlyLog.filed_of_admissible (by decide +kernel)

/-- Opened in the course of an hour. -/
def withinTheHour : List (Event Int) :=
  [.open (clock 10 37) fun _ => clock 9 0, .handle (clock 10 40) fun _ => clock 9 0]

/-- The item is in the file that is named for the opening, and that file is
emptied when the sink is opened again within the same minute. -/
theorem hourlyLog_not_filed :
    hourlyLog.rotationInterval.nonempty = true ∧ clock 10 37 ≤ hourlyLog.timepoint (clock 10 40) ∧
      ¬ hourlyLog.Filed (hourlyLog.run {} withinTheHour) (clock 10 40) ∧
      ¬ Kept (hourlyLog.run {} withinTheHour).files
        (hourlyLog.run {} (withinTheHour ++ [.close, .open (clock 10 37) fun _ => clock 10 37])).files := by
  have hperiod : (hourlyLog.run {} withinTheHour).files.lookup (hourlyLog.period (clock 10 40)) = none ∧
      (hourlyLog.run {} withinTheHour).files.lookup (outfile (hourlyLog.period (clock 10 40))) = none ∧
      (hourlyLog.run {} withinTheHour).pendingRows = [] := by decide +kernel
  have hfile : (hourlyLog.run {} withinTheHour).files.lookup (ascii "/log/1037.log") = some [.item (clock 10 40)] ∧
      (hourlyLog.run {} (withinTheHour ++ [.close, .open (clock 10 37) fun _ => clock 10 37])).files.lookup
        (ascii "/log/1037.log") = some [] ∧
      (hourlyLog.run {} (withinTheHour ++ [.close, .open (clock 10 37) fun _ => clock 10 37])).files.lookup
        (outfile (ascii "/log/1037.log")) = none := by decide +kernel
  refine ⟨rfl, by decide, ?_, fun hkept => ?_⟩
  · rintro (⟨content, _, hat | ⟨_, hat⟩⟩ | ⟨hrow, _⟩)
    · exact absurd (hperiod.1.symm.trans hat) (by simp)
    · exact absurd (hperiod.2.1.symm.trans hat) (by simp)
    · exact absurd (hperiod.2.2 ▸ hrow) List.not_mem_nil
  · obtain ⟨content, hpre, hat | ⟨_, hat⟩⟩ := hkept _ _ hfile.1 (by simp)
    · obtain rfl := Option.some.inj (hfile.2.1.symm.trans hat)
      exact absurd (List.prefix_nil.mp hpre) (by simp)
    · exact absurd (hfile.2.2.symm.trans hat) (by simp)

end RotatingPath

end CommonCore.Logging
