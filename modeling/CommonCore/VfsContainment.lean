import CommonCore.FileTree
import CommonCore.Dicts
import CommonCore.Variant

/-!
# Containment of a file context

`Context::localPath` compares a path with the root of its context once both are
canonical, and `LocalProvider::locate` walks the tree on its own from there. What
is missing of a path is not resolved any further, so that its `..` may uncover a
link, and a walk goes through links. Nothing leads out of a root if no link below
it does.
-/

namespace CommonCore.Vfs

open FileTree

/-- The name of a file. -/
structure Name where
  bytes : Bytes
  ne_nil : bytes ≠ []
  noSlash : 0x2f ∉ bytes
  noNul : 0 ∉ bytes
  ne_dot : bytes ≠ [0x2e]
  ne_dotdot : bytes ≠ [0x2e, 0x2e]
  deriving DecidableEq

/-- A name of so many letters, and one more. -/
def Name.ofLength (n : ℕ) : Name where
  bytes := List.replicate (n + 1) 0x61
  ne_nil := List.cons_ne_nil _ _
  noSlash h := absurd (List.eq_of_mem_replicate h) (by decide)
  noNul h := absurd (List.eq_of_mem_replicate h) (by decide)
  ne_dot h := absurd (List.cons.inj h).1 (by decide)
  ne_dotdot h := absurd (List.cons.inj h).1 (by decide)

instance : Infinite Name :=
  Infinite.of_injective Name.ofLength fun m n h => by
    have h := congrArg (fun name => name.bytes.length) h
    simpa [Name.ofLength] using h

/-! ## Local paths -/

inductive Fault
  | absolutePath
  | outsideRoot
  | errno (e : Errno)
  /-- The model has given up. The code does not. -/
  | exhausted
  deriving DecidableEq

def lift {α : Type} : Except Errno α → Except Fault α
  | .ok a => .ok a
  | .error e => .error (.errno e)

section
variable {δ σ : Type} (T : Tree Name δ) (root : List (Elem Name))

def checkRelative (absolute : Bool) : Except Fault Unit := if absolute then .error .absolutePath else .ok ()

/-- Are all the components of the root also those of a path, in order? -/
def extendsPath : List Name → List Name → Bool
  | [], _ => true
  | _ :: _, [] => false
  | a :: jail, b :: provided => if a = b then extendsPath jail provided else false

def checkJail (relpath : List (Elem Name)) : Except Fault Unit := do
  let jail ← lift (T.weaklyCanonical root)
  let provided ← lift (T.weaklyCanonical (root ++ relpath))
  if extendsPath jail provided then .ok () else .error .outsideRoot

def localPath (absolute : Bool) (relpath : List (Elem Name)) : Except Fault (List Name) := do
  checkRelative absolute
  checkJail T root relpath
  lift (T.weaklyCanonical (root ++ relpath))

/-! ## Locating files -/

variable {T} (L : Listing T)

def isDirectory : Option (Node Name δ) → Bool
  | some .dir => true
  | _ => false

def directoryIterator (d : List Name) : Except Fault (List Name) :=
  match T.canonical (plain d) with
  | .ok c => if isDirectory (T.node c) then .ok (L.entries c) else .error (.errno .notDirectory)
  | .error e => .error (.errno e)

/-- One entry of a directory: a hit if its name matches, and a directory to be
searched in turn, where links are followed. -/
def visit (search : List Name → Except Fault (List (List Name))) (filenameMatch : List Name → Bool) (d : List Name)
    (hits : List (List Name)) (n : Name) : Except Fault (List (List Name)) := do
  let path := d ++ [n]
  let hits := if filenameMatch path then hits ++ [path] else hits
  let found ← lift (T.status (plain path))
  if isDirectory found then
    let more ← search path
    .ok (hits ++ more)
  else .ok hits

def locateInside (filenameMatch : List Name → Bool) : ℕ → List Name → Except Fault (List (List Name))
  | 0, _ => .error .exhausted
  | fuel + 1, d => do
    let names ← directoryIterator L d
    names.foldlM (visit (T := T) (locateInside filenameMatch fuel) filenameMatch d) []

/-- As deep as any walk is: at most `maxLinks` links, and between them
directories. -/
def enough : ℕ := (Tree.maxLinks + 1) * (L.depth + 1)

/-- `fs::relative` -/
def relative (p base : List Name) : Except Fault (List (Elem Name)) := do
  let p ← lift (T.weaklyCanonical (plain p))
  let base ← lift (T.weaklyCanonical (plain base))
  .ok (lexicallyRelative base p)

/-- The relative paths of the entries whose names match and whose attributes
pass, with what `get_stats` says about them. -/
def locate (absolute : Bool) (relpath : List (Elem Name)) (filenameMatch attributeMatch : List Name → Bool)
    (getStats : List Name → Except Errno σ) : Except Fault (Dict (List (Elem Name)) σ) := do
  let localDir ← localPath T root absolute relpath
  let entries ← locateInside L filenameMatch (enough L) localDir
  entries.foldlM (fun dir entry => do
    if attributeMatch entry then
      let stats ← lift (getStats entry)
      let key ← relative (T := T) entry localDir
      .ok (dir.set key stats)
    else .ok dir) Dict.empty

end

/-! ## What a run does to a list -/

section
variable {α β : Type}

/-- What holds at the start, and after each element if it did before, holds in the end. -/
theorem of_foldlM_ok {f : β → α → Except Fault β} {P : β → Prop} {l : List α} {b r : β}
    (hf : ∀ b a r, a ∈ l → P b → f b a = .ok r → P r) (hb : P b) (h : l.foldlM f b = .ok r) : P r := by
  induction l generalizing b with
  | nil =>
    cases h
    exact hb
  | cons a l ih =>
    rw [List.foldlM_cons] at h
    cases ha : f b a with
    | error e => rw [ha] at h; cases h
    | ok b' =>
      rw [ha] at h
      exact ih (fun b a r hmem => hf b a r (List.mem_cons_of_mem _ hmem)) (hf b a b' List.mem_cons_self hb ha) h

theorem foldlM_ne_error {f : β → α → Except Fault β} {e : Fault} {l : List α} {b : β}
    (hf : ∀ b a, a ∈ l → f b a ≠ .error e) : l.foldlM f b ≠ .error e := by
  induction l generalizing b with
  | nil => exact nofun
  | cons a l ih =>
    rw [List.foldlM_cons]
    cases ha : f b a with
    | error e' =>
      intro h
      cases h
      exact hf b a List.mem_cons_self ha
    | ok b' => exact ih fun b a hmem => hf b a (List.mem_cons_of_mem _ hmem)

end

section
variable {δ σ : Type} {T : Tree Name δ} {root : List (Elem Name)} {L : Listing T}

theorem isDirectory_eq_true {found : Option (Node Name δ)} : isDirectory found = true ↔ found = some .dir := by
  unfold isDirectory
  split <;> simp_all

theorem extends_eq_true {jail p : List Name} : extendsPath jail p = true ↔ jail <+: p := by
  induction jail generalizing p with
  | nil => simp [extendsPath]
  | cons a jail ih =>
    cases p with
    | nil => simp [extendsPath]
    | cons b p =>
      unfold extendsPath
      split_ifs with h
      · rw [ih, h, List.cons_prefix_cons, and_iff_right rfl]
      · rw [List.cons_prefix_cons]
        simp [h]

/-! ## Local paths -/

theorem localPath_ok {absolute : Bool} {relpath : List (Elem Name)} {p : List Name} :
    localPath T root absolute relpath = .ok p ↔ absolute = false ∧ T.weaklyCanonical (root ++ relpath) = .ok p ∧
      ∃ jail, T.weaklyCanonical root = .ok jail ∧ jail <+: p := by
  unfold localPath checkRelative checkJail
  cases absolute with
  | true => exact ⟨nofun, nofun⟩
  | false =>
    cases hroot : T.weaklyCanonical root with
    | error e => exact ⟨nofun, fun ⟨_, _, jail, hjail, _⟩ => by cases hjail⟩
    | ok jail =>
      cases hp : T.weaklyCanonical (root ++ relpath) with
      | error e => exact ⟨nofun, fun ⟨_, h, _⟩ => by cases h⟩
      | ok q =>
        by_cases hx : jail <+: q
        · have hext := extends_eq_true.mpr hx
          simp [lift, hext, bind, Except.bind]
          rintro rfl
          exact hx
        · have hext : extendsPath jail q = false := by rw [← Bool.not_eq_true, extends_eq_true]; exact hx
          simp [lift, hext, bind, Except.bind]
          rintro rfl
          exact hx

/-- If local paths are contained, no link leads out of the root. -/
theorem closed_of_localPath {jail : List Name} (hroot : T.weaklyCanonical root = .ok jail) (L : Listing T)
    (h : ∀ absolute relpath p, localPath T root absolute relpath = .ok p → ∀ q, T.weaklyCanonical (plain p) = .ok q → jail <+: q) :
    T.Closed jail := by
  have reached : ∀ relpath {p}, T.weaklyCanonical (root ++ relpath) = .ok p → jail <+: p →
      ∀ q, T.weaklyCanonical (plain p) = .ok q → jail <+: q :=
    fun _ _ hp hx => h false _ _ (localPath_ok.mpr ⟨rfl, hp, jail, hroot, hx⟩)
  have hself : ∀ q, T.weaklyCanonical (plain jail) = .ok q → jail <+: q :=
    reached [] (by rwa [List.append_nil]) List.prefix_rfl
  refine ⟨hself, ?_⟩
  rintro _ ⟨r, rfl⟩ hlink
  rcases eq_or_ne r [] with rfl | hr
  · rwa [List.append_nil]
  · have hdir : T.node jail = some .dir := by
      obtain ⟨absolute, target, hnode⟩ := hlink
      exact Tree.node_of_append (by rw [hnode]; exact Option.some_ne_none _) hr
    rcases Tree.weaklyCanonical_cases hroot with hcan | ⟨done, e, rest, q', rfl, hq', hmissing, hjail⟩
    · -- a name that is missing, and the way back
      obtain ⟨n, hn⟩ := L.exists_missing hdir
      exact reached _ (Tree.weaklyCanonical_detour hcan hdir hn r) (List.prefix_append jail r)
    · have hroot' : T.Missing (done ++ e :: rest) := by
        rw [List.append_cons]
        exact hmissing.append rest
      exact reached _ (Tree.weaklyCanonical_append_of_missing hroot' hroot r) (List.prefix_append jail r)

/-! ## Located files -/

/-- An entry adds itself, and what the search below it adds. -/
theorem visit_ok {search : List Name → Except Fault (List (List Name))} {filenameMatch : List Name → Bool} {d : List Name}
    {hits r : List (List Name)} {n : Name} (h : visit (T := T) search filenameMatch d hits n = .ok r) :
    ∃ more, r = (if filenameMatch (d ++ [n]) then hits ++ [d ++ [n]] else hits) ++ more ∧
      (more = [] ∨ search (d ++ [n]) = .ok more) := by
  unfold visit at h
  dsimp only at h
  cases hs : lift (T.status (plain (d ++ [n]))) with
  | error e => rw [hs] at h; cases h
  | ok found =>
    rw [hs] at h
    replace h : (if isDirectory found then (search (d ++ [n])).bind fun more =>
        Except.ok ((if filenameMatch (d ++ [n]) then hits ++ [d ++ [n]] else hits) ++ more)
      else Except.ok (if filenameMatch (d ++ [n]) then hits ++ [d ++ [n]] else hits)) = Except.ok r := h
    cases hdir : isDirectory found with
    | true =>
      rw [if_pos hdir] at h
      cases hm : search (d ++ [n]) with
      | error e => rw [hm] at h; cases h
      | ok more =>
        rw [hm] at h
        cases h
        exact ⟨more, rfl, .inr rfl⟩
    | false =>
      rw [if_neg (by rw [hdir]; exact Bool.false_ne_true)] at h
      cases h
      exact ⟨[], (List.append_nil _).symm, .inl rfl⟩

theorem locateInside_succ {filenameMatch : List Name → Bool} {fuel : ℕ} {d : List Name} :
    locateInside L filenameMatch (fuel + 1) d = (directoryIterator L d).bind fun names =>
      names.foldlM (visit (T := T) (locateInside L filenameMatch fuel) filenameMatch d) [] := rfl

/-- Whatever is found is found on a path below the directory that is searched. -/
theorem prefix_of_locateInside {filenameMatch : List Name → Bool} {fuel : ℕ} {d : List Name} {hits : List (List Name)}
    (h : locateInside L filenameMatch fuel d = .ok hits) : ∀ e ∈ hits, d <+: e := by
  induction fuel generalizing d hits with
  | zero => cases h
  | succ fuel ih =>
    rw [locateInside_succ] at h
    cases hd : directoryIterator L d with
    | error e => rw [hd] at h; cases h
    | ok names =>
      rw [hd] at h
      refine of_foldlM_ok (P := fun hits => ∀ e ∈ hits, d <+: e) (fun hits n r _ hhits hv => ?_) (by simp) h
      obtain ⟨more, rfl, hmore⟩ := visit_ok hv
      have hpath : d <+: d ++ [n] := List.prefix_append d [n]
      intro e he
      rcases List.mem_append.mp he with he | he
      · split_ifs at he
        · rcases List.mem_append.mp he with he | he
          · exact hhits e he
          · rwa [List.mem_singleton.mp he]
        · exact hhits e he
      · rcases hmore with rfl | hmore
        · cases he
        · exact hpath.trans (ih hmore e he)

/-- How much further a search may go from a place, with so many links that may be followed. -/
def rank (L : Listing T) (k : ℕ) (c : List Name) : ℕ := k * (L.depth + 1) + (L.depth - c.length)

/-- One directory further down, or one link further along, less is left. -/
theorem rank_lt {c c' : List Name} {n : Name} {k k' : ℕ} (hw : Tree.Walks T k c [.name n] c' k') :
    rank L k' c' < rank L k c := by
  have hlen : ∀ {q}, T.Physical q → q.length ≤ L.depth := fun hq =>
    L.length_le _ (by rcases hq with hq | ⟨data, hq⟩ <;> simp [hq])
  unfold rank
  cases hw with
  | name hdir hn hw =>
    cases hw
    have := hlen hn
    rw [List.length_append, List.length_singleton] at this ⊢
    omega
  | link hdir hn hw =>
    have hle := Nat.mul_le_mul_right (L.depth + 1) hw.le
    rw [Nat.add_mul, Nat.one_mul]
    omega

theorem directoryIterator_ne_exhausted {d : List Name} : directoryIterator L d ≠ .error .exhausted := by
  unfold directoryIterator
  cases T.canonical (plain d) with
  | error e => exact nofun
  | ok c =>
    dsimp only
    split_ifs <;> exact nofun

theorem visit_ne_exhausted {search : List Name → Except Fault (List (List Name))} {filenameMatch : List Name → Bool}
    {d : List Name} {hits : List (List Name)} {n : Name}
    (h : ∀ c, T.canonical (plain (d ++ [n])) = .ok c → search (d ++ [n]) ≠ .error .exhausted) :
    visit (T := T) search filenameMatch d hits n ≠ .error .exhausted := by
  unfold visit
  dsimp only
  cases hs : T.status (plain (d ++ [n])) with
  | error e => exact nofun
  | ok found =>
    show (if isDirectory found then (search (d ++ [n])).bind fun more => Except.ok (_ ++ more) else Except.ok _) ≠ _
    by_cases hdir : isDirectory found = true
    · rw [if_pos hdir]
      have hc : ∃ c, T.canonical (plain (d ++ [n])) = .ok c := by
        unfold Tree.status at hs
        cases hc : T.canonical (plain (d ++ [n])) with
        | ok c => exact ⟨c, rfl⟩
        | error e =>
          rw [isDirectory_eq_true.mp hdir, hc] at hs
          cases e <;> cases hs
      obtain ⟨c, hc⟩ := hc
      cases hm : search (d ++ [n]) with
      | error e =>
        intro he
        cases he
        exact h c hc hm
      | ok more => exact nofun
    · rw [if_neg hdir]
      exact nofun

/-- A search gives up neither on directories nor on links. -/
theorem locateInside_ne_exhausted {filenameMatch : List Name → Bool} {fuel k : ℕ} {d c : List Name}
    (hw : Tree.Walks T Tree.maxLinks [] (plain d) c k) (hfuel : rank L k c < fuel) :
    locateInside L filenameMatch fuel d ≠ .error .exhausted := by
  induction fuel generalizing d c k with
  | zero => exact absurd hfuel (Nat.not_lt_zero _)
  | succ fuel ih =>
    rw [locateInside_succ]
    cases hd : directoryIterator L d with
    | error e =>
      intro he
      cases he
      exact directoryIterator_ne_exhausted hd
    | ok names =>
      refine foldlM_ne_error fun hits n _ => visit_ne_exhausted fun c' hc' => ?_
      obtain ⟨k₂, hw₂⟩ := Tree.canonical_eq_ok.mp hc'
      obtain ⟨c₁, k₁, hw₁, hn⟩ := Tree.walks_append.mp (Tree.plain_append d [n] ▸ hw₂)
      -- the walk to the directory is the one it was reached by
      have hsame := hw₁.walk.symm.trans hw.walk
      cases hsame
      exact ih hw₂ (lt_of_lt_of_le (rank_lt hn) (Nat.le_of_lt_succ hfuel))

theorem locateInside_enough {filenameMatch : List Name → Bool} {d : List Name} :
    locateInside L filenameMatch (enough L) d ≠ .error .exhausted := by
  cases hc : T.canonical (plain d) with
  | ok c =>
    obtain ⟨k, hw⟩ := Tree.canonical_eq_ok.mp hc
    refine locateInside_ne_exhausted hw ?_
    have hle := Nat.mul_le_mul_right (L.depth + 1) hw.le
    unfold rank enough
    rw [Nat.add_mul, Nat.one_mul]
    omega
  | error e =>
    have hsucc : enough L = (Tree.maxLinks * (L.depth + 1) + L.depth) + 1 := by
      unfold enough
      ring
    rw [hsucc, locateInside_succ, directoryIterator, hc]
    exact nofun

theorem relative_ne_exhausted (p base : List Name) : relative (T := T) p base ≠ .error .exhausted := by
  unfold relative
  cases T.weaklyCanonical (plain p) with
  | error e => exact nofun
  | ok q =>
    cases T.weaklyCanonical (plain base) with
    | error e => exact nofun
    | ok b => exact nofun

theorem localPath_ne_exhausted {absolute : Bool} {relpath : List (Elem Name)} :
    localPath T root absolute relpath ≠ .error .exhausted := by
  unfold localPath checkRelative checkJail
  cases absolute with
  | true => exact nofun
  | false =>
    cases T.weaklyCanonical root with
    | error e => exact nofun
    | ok jail =>
      cases T.weaklyCanonical (root ++ relpath) with
      | error e => exact nofun
      | ok p =>
        cases hx : extendsPath jail p <;> simp [lift, hx, bind, Except.bind]

/-- What the entries of a search add to the directory that is returned. -/
def report (T : Tree Name δ) (localDir : List Name) (attributeMatch : List Name → Bool)
    (getStats : List Name → Except Errno σ) (dir : Dict (List (Elem Name)) σ) (entry : List Name) :
    Except Fault (Dict (List (Elem Name)) σ) :=
  if attributeMatch entry then
    (lift (getStats entry)).bind fun stats => (relative (T := T) entry localDir).bind fun key => .ok (dir.set key stats)
  else .ok dir

theorem locate_eq {absolute : Bool} {relpath : List (Elem Name)} {filenameMatch attributeMatch : List Name → Bool}
    {getStats : List Name → Except Errno σ} : locate root L absolute relpath filenameMatch attributeMatch getStats =
      (localPath T root absolute relpath).bind fun localDir =>
        (locateInside L filenameMatch (enough L) localDir).bind fun entries =>
          entries.foldlM (report T localDir attributeMatch getStats) Dict.empty := rfl

theorem report_ok {localDir : List Name} {attributeMatch : List Name → Bool} {getStats : List Name → Except Errno σ}
    {dir dir' : Dict (List (Elem Name)) σ} {entry : List Name}
    (h : report T localDir attributeMatch getStats dir entry = .ok dir') :
    dir' = dir ∨ ∃ key stats, relative (T := T) entry localDir = .ok key ∧ dir' = dir.set key stats := by
  unfold report at h
  split_ifs at h
  · cases hstats : lift (getStats entry) with
    | error e => rw [hstats] at h; cases h
    | ok stats =>
      rw [hstats] at h
      cases hkey : relative (T := T) entry localDir with
      | error e => rw [hkey] at h; cases h
      | ok key =>
        rw [hkey] at h
        cases h
        exact .inr ⟨key, stats, rfl, rfl⟩
  · cases h
    exact .inl rfl

theorem report_ne_exhausted {localDir : List Name} {attributeMatch : List Name → Bool}
    {getStats : List Name → Except Errno σ} {dir : Dict (List (Elem Name)) σ} {entry : List Name} :
    report T localDir attributeMatch getStats dir entry ≠ .error .exhausted := by
  unfold report
  split_ifs
  · cases getStats entry with
    | error e => exact nofun
    | ok stats =>
      cases hkey : relative (T := T) entry localDir with
      | error e =>
        intro h
        cases h
        exact relative_ne_exhausted _ _ hkey
      | ok key => exact nofun
  · exact nofun

/-- Every key that is reported is the relative path of something that was found. -/
theorem locate_ok {absolute : Bool} {relpath : List (Elem Name)} {filenameMatch attributeMatch : List Name → Bool}
    {getStats : List Name → Except Errno σ} {dir : Dict (List (Elem Name)) σ}
    (h : locate root L absolute relpath filenameMatch attributeMatch getStats = .ok dir) :
    ∃ localDir, localPath T root absolute relpath = .ok localDir ∧
      ∀ key ∈ dir.items.map Prod.fst, ∃ entry, localDir <+: entry ∧ relative (T := T) entry localDir = .ok key := by
  rw [locate_eq] at h
  cases hlocal : localPath T root absolute relpath with
  | error e => rw [hlocal] at h; cases h
  | ok localDir =>
    rw [hlocal] at h
    replace h : (locateInside L filenameMatch (enough L) localDir).bind _ = _ := h
    cases hentries : locateInside L filenameMatch (enough L) localDir with
    | error e => rw [hentries] at h; cases h
    | ok entries =>
      rw [hentries] at h
      refine ⟨localDir, rfl, ?_⟩
      refine of_foldlM_ok (P := fun dir => ∀ key ∈ dir.items.map Prod.fst, ∃ entry, localDir <+: entry ∧
        relative (T := T) entry localDir = .ok key) (fun dir entry dir' hmem hdir hr => ?_) (by simp [Dict.empty]) h
      rcases report_ok hr with rfl | ⟨key, stats, hkey, rfl⟩
      · exact hdir
      · intro key' hkey'
        rcases Dict.mem_keys_setItems.mp hkey' with rfl | hkey'
        · exact ⟨entry, prefix_of_locateInside hentries entry hmem, hkey⟩
        · exact hdir key' hkey'

theorem locate_ne_exhausted {absolute : Bool} {relpath : List (Elem Name)} {filenameMatch attributeMatch : List Name → Bool}
    {getStats : List Name → Except Errno σ} :
    locate root L absolute relpath filenameMatch attributeMatch getStats ≠ .error .exhausted := by
  rw [locate_eq]
  cases hlocal : localPath T root absolute relpath with
  | error e =>
    intro h
    cases h
    exact localPath_ne_exhausted hlocal
  | ok localDir =>
    show (locateInside L filenameMatch (enough L) localDir).bind _ ≠ _
    cases hentries : locateInside L filenameMatch (enough L) localDir with
    | error e =>
      intro h
      cases h
      exact locateInside_enough hentries
    | ok entries => exact foldlM_ne_error fun dir entry _ => report_ne_exhausted

end

/-! ## Containment -/

/-- Local paths lead below the root of their context. A search for files comes
to an end, and what it returns lies below the root and is returned once. -/
structure Contained {δ : Type} (σ : Type) {T : Tree Name δ} (L : Listing T) (root : List (Elem Name)) : Prop where
  localPath : ∀ absolute relpath p, localPath T root absolute relpath = .ok p →
    ∀ jail, T.weaklyCanonical root = .ok jail → ∀ q, T.weaklyCanonical (plain p) = .ok q → jail <+: q
  locate_ends : ∀ absolute relpath filenameMatch attributeMatch (getStats : List Name → Except Errno σ),
    locate root L absolute relpath filenameMatch attributeMatch getStats ≠ .error .exhausted
  locate_inside : ∀ absolute relpath filenameMatch attributeMatch (getStats : List Name → Except Errno σ) dir,
    locate root L absolute relpath filenameMatch attributeMatch getStats = .ok dir →
      ∀ localDir, Vfs.localPath T root absolute relpath = .ok localDir → ∀ base, T.weaklyCanonical (plain localDir) = .ok base →
        ∀ jail, T.weaklyCanonical root = .ok jail → ∀ key ∈ dir.items.map Prod.fst, jail <+: normal base key
  locate_once : ∀ absolute relpath filenameMatch attributeMatch (getStats : List Name → Except Errno σ) dir,
    locate root L absolute relpath filenameMatch attributeMatch getStats = .ok dir →
      ∀ localDir, Vfs.localPath T root absolute relpath = .ok localDir → ∀ base, T.weaklyCanonical (plain localDir) = .ok base →
        (dir.items.map fun e => normal base e.1).Nodup

/-- A context is contained if and only if no link leads out of its root. -/
theorem contained_iff {δ : Type} (σ : Type) {T : Tree Name δ} (L : Listing T) (root : List (Elem Name)) :
    Contained σ L root ↔ ∀ jail, T.weaklyCanonical root = .ok jail → T.Closed jail := by
  constructor
  · intro h jail hjail
    exact closed_of_localPath hjail L fun absolute relpath p hp q hq => h.localPath absolute relpath p hp jail hjail q hq
  · intro h
    have entries : ∀ {absolute relpath filenameMatch attributeMatch} {getStats : List Name → Except Errno σ} {dir},
        locate root L absolute relpath filenameMatch attributeMatch getStats = .ok dir →
          ∀ {localDir}, Vfs.localPath T root absolute relpath = .ok localDir → ∀ {base}, T.weaklyCanonical (plain localDir) = .ok base →
            ∀ key ∈ dir.items.map Prod.fst, ∃ entry q, localDir <+: entry ∧ T.weaklyCanonical (plain entry) = .ok q ∧
              normal base key = q ∧ key = lexicallyRelative base q := by
      intro absolute relpath filenameMatch attributeMatch getStats dir hdir localDir hlocal base hbase key hkey
      obtain ⟨localDir', hlocal', hfound⟩ := locate_ok hdir
      cases hlocal.symm.trans hlocal'
      obtain ⟨entry, hentry, hrel⟩ := hfound key hkey
      unfold relative at hrel
      cases hq : T.weaklyCanonical (plain entry) with
      | error e => rw [hq] at hrel; cases hrel
      | ok q =>
        rw [hq, hbase] at hrel
        cases hrel
        exact ⟨entry, q, hentry, hq, normal_lexicallyRelative base q, rfl⟩
    refine ⟨fun absolute relpath p hp jail hjail q hq => ?_, fun _ _ _ _ _ => locate_ne_exhausted, ?_, ?_⟩
    · obtain ⟨-, -, jail', hjail', hx⟩ := localPath_ok.mp hp
      cases hjail.symm.trans hjail'
      exact (h jail hjail).inside hx hq
    · intro absolute relpath filenameMatch attributeMatch getStats dir hdir localDir hlocal base hbase jail hjail key hkey
      obtain ⟨entry, q, hentry, hq, rfl, -⟩ := entries hdir hlocal hbase key hkey
      obtain ⟨-, -, jail', hjail', hx⟩ := localPath_ok.mp hlocal
      cases hjail.symm.trans hjail'
      exact (h jail hjail).inside (hx.trans hentry) hq
    · intro absolute relpath filenameMatch attributeMatch getStats dir hdir localDir hlocal base hbase
      have hkeys : dir.items.map (fun e => normal base e.1) = (dir.items.map Prod.fst).map (normal base) := by
        rw [List.map_map]
        rfl
      rw [hkeys]
      refine List.Nodup.map_on (fun key hkey key' hkey' heq => ?_) dir.nodup
      obtain ⟨_, q, -, -, hq, hrel⟩ := entries hdir hlocal hbase key hkey
      obtain ⟨_, q', -, -, hq', hrel'⟩ := entries hdir hlocal hbase key' hkey'
      rw [hrel, hrel', ← hq, ← hq', heq]

/-! ## A link out of a root -/

def jailName : Name := .ofLength 0

def outsideName : Name := .ofLength 1

def linkName : Name := .ofLength 2

/-- A root with a link to a directory beside it. -/
def linkedNode (p : List Name) : Option (Node Name Unit) :=
  if p = [] ∨ p = [jailName] ∨ p = [outsideName] then some .dir
  else if p = [jailName, linkName] then some (.link true [.name outsideName])
  else none

def linkedTree : Tree Name Unit where
  node := linkedNode
  root := rfl
  parent p n h := by
    unfold linkedNode at h ⊢
    rcases List.eq_nil_or_concat' p with rfl | ⟨q, m, rfl⟩
    · rfl
    · have hne : ∀ a : Name, q ++ [m] ++ [n] ≠ [a] := fun a he => by
        have := congrArg List.length he
        simp at this
      split_ifs at h with h₁ h₂
      · rcases h₁ with h₁ | h₁ | h₁
        · simp at h₁
        · exact absurd h₁ (hne _)
        · exact absurd h₁ (hne _)
      · have hq := (List.append_inj' (show q ++ [m] ++ [n] = [jailName] ++ [linkName] from h₂) rfl).1
        rw [hq]
        rfl
      · exact absurd rfl h

def linkedListing : Listing linkedTree where
  entries p := [jailName, outsideName, linkName].filter fun n => (linkedNode (p ++ [n])).isSome
  mem_entries p n _ := by
    have hmem : linkedNode (p ++ [n]) ≠ none → n ∈ [jailName, outsideName, linkName] := by
      intro h
      unfold linkedNode at h
      split_ifs at h with h₁ h₂
      · rcases h₁ with h₁ | h₁ | h₁
        · simp at h₁
        · rw [(List.append_inj' (show p ++ [n] = [] ++ [jailName] from h₁) rfl).2 |> List.singleton_inj.mp]
          simp
        · rw [(List.append_inj' (show p ++ [n] = [] ++ [outsideName] from h₁) rfl).2 |> List.singleton_inj.mp]
          simp
      · rw [(List.append_inj' (show p ++ [n] = [jailName] ++ [linkName] from h₂) rfl).2 |> List.singleton_inj.mp]
        simp
      · exact absurd rfl h
    rw [List.mem_filter, Option.isSome_iff_ne_none]
    exact ⟨fun h => h.2, fun h => ⟨hmem h, h⟩⟩
  depth := 2
  length_le p h := by
    unfold linkedTree linkedNode at h
    dsimp only at h
    split_ifs at h with h₁ h₂
    · rcases h₁ with rfl | rfl | rfl <;> simp
    · rw [h₂]
      simp
    · exact absurd rfl h

/-- A file that is missing, `..` and the link are taken for a path below the
root, which leads out of it. -/
theorem linked_not_contained : ¬ Contained Unit linkedListing [.name jailName] := by
  intro h
  have hcan : linkedTree.canonical (plain [jailName]) = .ok [jailName] := Tree.canonical_plain (.inl rfl)
  have hroot := Tree.weaklyCanonical_of_ok hcan
  have hdetour := Tree.weaklyCanonical_detour (n := outsideName) hcan rfl rfl [linkName]
  have hlink : linkedTree.weaklyCanonical (plain [jailName, linkName]) = .ok [outsideName] :=
    Tree.weaklyCanonical_of_ok (Tree.canonical_eq_ok.mpr ⟨39, .name rfl (.inl rfl) (.link rfl rfl
      (.name rfl (.inl rfl) .nil))⟩)
  have hprefix := h.localPath false _ _ (localPath_ok.mpr ⟨rfl, hdetour, _, hroot, List.prefix_append _ _⟩) _ hroot _ hlink
  exact absurd hprefix (by decide)

end CommonCore.Vfs
