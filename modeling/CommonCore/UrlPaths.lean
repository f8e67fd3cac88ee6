import CommonCore.FileTree
import CommonCore.Variant

/-!
# URLs joined by way of the file system

The path of a joined URL goes through `weakly_canonical`, which looks for the
path on the local disk and follows the links that it finds there.
-/

namespace CommonCore.Url

open FileTree

/-! ## Paths as texts -/

/-- A part of a path between slashes. An empty one says nothing more than `.`. -/
def element (part : Bytes) : Elem Bytes :=
  if part = [] ∨ part = ascii "." then .dot
  else if part = ascii ".." then .dotdot
  else .name part

def elements (path : Bytes) : List (Elem Bytes) := (path.splitOn slash).map element

/-- `path::operator/=` -/
def append (path rel : Bytes) : Bytes :=
  if rel.head? = some slash then rel
  else if path = [] ∨ path.getLast? = some slash then path ++ rel
  else path ++ slash :: rel

/-- The path to a place, with or without a slash at its end. -/
def pathText (names : List Bytes) (trailing : Bool) : Bytes :=
  if names = [] then [slash]
  else names.flatMap (slash :: ·) ++ if trailing then [slash] else []

/-- A normal path ends with a slash where a `.` or `..` has been dropped. -/
def endsOpen (path : List (Elem Bytes)) : Bool := path.getLast? = some .dot || path.getLast? = some .dotdot

/-- `path::lexically_normal` -/
def lexicallyNormal (path : List (Elem Bytes)) : Bytes := pathText (normal [] path) (endsOpen path)

abbrev Disk := Tree Bytes Unit

/-- `std::filesystem::weakly_canonical` -/
def weaklyCanonical (disk : Disk) (path : List (Elem Bytes)) : Except Errno Bytes :=
  match disk.exists path with
  | .error e => .error e
  | .ok true => (disk.canonical path).map fun names => pathText names false
  | .ok false => (disk.weaklyCanonical path).map fun names => pathText names (endsOpen path)

/-! ## Joining -/

/-- What is used of the URL interface of `libcurl`. Errors are by their codes, and
the path of a URL begins with a slash. -/
structure Curl where
  Handle : Type
  parse : Bytes → Except ℕ Handle
  path : Handle → Except ℕ { p : Bytes // p.head? = some slash }
  setPath : Handle → Bytes → Except ℕ Handle
  url : Handle → Except ℕ Bytes

inductive JoinError
  | curl (code : ℕ)
  | filesystem (e : Errno)
deriving DecidableEq

section
variable (C : Curl)

/-- The URL for a base, with a path made of that of the base. -/
def withPath (base : Bytes) (combine : Bytes → Except Errno Bytes) : Except JoinError Bytes := do
  let handle ← (C.parse base).mapError .curl
  let basePath ← (C.path handle).mapError .curl
  let path ← (combine basePath.1).mapError .filesystem
  let handle ← (C.setPath handle path).mapError .curl
  (C.url handle).mapError .curl

def joinUrls (disk : Disk) (base rel : Bytes) : Except JoinError Bytes :=
  if base = [] then .ok rel
  else if rel = [] then .ok base
  else withPath C base fun basePath => weaklyCanonical disk (elements (append basePath rel))

/-- A URL extended with a relative path, whose `.` and `..` are removed. -/
def lexicalJoin (base rel : Bytes) : Except JoinError Bytes :=
  if base = [] then .ok rel
  else if rel = [] then .ok base
  else withPath C base fun basePath => .ok (lexicallyNormal (elements (basePath ++ slash :: rel)))

/-- A path that stays at the root. -/
def NoNames (path : List (Elem Bytes)) : Prop := ∀ e ∈ path, ∀ n, e ≠ .name n

/-- No name is looked up: nothing is joined, or the base is no URL, or the path is
made of `.` and `..` only. -/
def Nameless (base rel : Bytes) : Prop :=
  base = [] ∨ rel = [] ∨ ∀ handle, C.parse base = .ok handle → ∀ basePath, C.path handle = .ok basePath →
    NoNames (elements (append basePath.1 rel))

end

/-! ## Two disks -/

/-- A disk with nothing but its root. -/
def bare : Disk where
  node p := if p = [] then some .dir else none
  root := rfl
  parent p n h := by simp at h

/-- A disk with a link at its root. -/
def linked (n : Bytes) (target : List (Elem Bytes)) : Disk where
  node p := if p = [] then some .dir else if p = [n] then some (.link true target) else none
  root := rfl
  parent p m h := by
    cases p with
    | nil => rfl
    | cons a p => simp at h

section
variable {disk : Disk} {path : List (Elem Bytes)}

theorem normal_noNames (h : NoNames path) : normal [] path = [] := by
  induction path with
  | nil => rfl
  | cons e path ih =>
    have hrest := ih fun e he => h e (List.mem_cons_of_mem _ he)
    cases e with
    | name n => exact absurd rfl (h _ (by simp) n)
    | dot => exact hrest
    | dotdot => exact hrest

theorem walk_noNames (h : NoNames path) (k : ℕ) (rest : List (Elem Bytes)) :
    disk.walk k [] (path ++ rest) = disk.walk k [] rest := by
  induction path with
  | nil => rfl
  | cons e path ih =>
    have hrest := ih fun e he => h e (List.mem_cons_of_mem _ he)
    cases e with
    | name n => exact absurd rfl (h _ (by simp) n)
    | dot => rw [List.cons_append, Tree.walk_dot disk.root, hrest]
    | dotdot =>
      rw [List.cons_append, Tree.walk_dotdot disk.root]
      exact hrest

/-- Without names, every disk gives the root. -/
theorem weaklyCanonical_noNames (h : NoNames path) : weaklyCanonical disk path = .ok (lexicallyNormal path) := by
  have hcanonical : disk.canonical path = .ok [] := by
    have hwalk : disk.walk Tree.maxLinks [] (path ++ []) = _ := walk_noNames h Tree.maxLinks []
    rw [List.append_nil, Tree.walk_nil] at hwalk
    rw [Tree.canonical, hwalk]
    rfl
  unfold weaklyCanonical
  rw [Tree.exists_of_ok hcanonical, hcanonical, lexicallyNormal, normal_noNames h]
  rfl

theorem exists_name (h : ¬ NoNames path) : ∃ pre n post, path = pre ++ .name n :: post ∧ NoNames pre := by
  induction path with
  | nil => exact absurd (fun e he => absurd he (by simp)) h
  | cons e path ih =>
    cases e with
    | name n => exact ⟨[], n, path, rfl, fun e he => absurd he (by simp)⟩
    | dot | dotdot =>
      obtain ⟨pre, n, post, rfl, hpre⟩ := ih fun hrest => h fun e he n => by
        rcases List.mem_cons.1 he with rfl | he
        · nofun
        · exact hrest e he n
      refine ⟨_ :: pre, n, post, rfl, fun e he n => ?_⟩
      rcases List.mem_cons.1 he with rfl | he
      · nofun
      · exact hpre e he n

/-- Where a path has a name, a disk may have a link there that leads to itself. -/
theorem weaklyCanonical_loop (h : ¬ NoNames path) :
    ∃ n, weaklyCanonical (linked n [.name n]) path = .error .loop := by
  obtain ⟨pre, n, post, rfl, hpre⟩ := exists_name h
  have hwalk : ∀ k, (linked n [.name n]).walk k [] (.name n :: post) = .error .loop := by
    intro k
    induction k with
    | zero =>
      rw [Tree.walk_name (linked n [.name n]).root]
      simp [linked]
    | succ k ih =>
      rw [Tree.walk_name (linked n [.name n]).root]
      simpa [linked] using ih
  have hcanonical : (linked n [.name n]).canonical (pre ++ .name n :: post) = .error .loop := by
    rw [Tree.canonical, walk_noNames hpre, hwalk]
    rfl
  refine ⟨n, ?_⟩
  unfold weaklyCanonical
  rw [Tree.exists_of_loop hcanonical]

theorem bare_ne_loop (k : ℕ) (cur : List Bytes) (path : List (Elem Bytes)) : bare.walk k cur path ≠ .error .loop := by
  induction path generalizing cur with
  | nil => simp [Tree.walk_nil]
  | cons e path ih =>
    by_cases hcur : bare.node cur = some .dir
    · cases e with
      | dot =>
        rw [Tree.walk_dot hcur]
        exact ih cur
      | dotdot =>
        rw [Tree.walk_dotdot hcur]
        exact ih cur.dropLast
      | name n =>
        have hnone : bare.node (cur ++ [n]) = none := by simp [bare]
        rw [Tree.walk_name hcur, hnone]
        nofun
    · rw [Tree.walk_notDirectory hcur]
      nofun

theorem weaklyCanonical_bare (path : List (Elem Bytes)) : ∃ p, weaklyCanonical bare path = .ok p := by
  unfold weaklyCanonical
  cases hpath : bare.canonical path with
  | ok q => exact ⟨pathText q false, by rw [Tree.exists_of_ok hpath]; rfl⟩
  | error e =>
    have hne : e ≠ .loop := by
      rintro rfl
      cases hwalk : bare.walk Tree.maxLinks [] path with
      | ok r =>
        rw [Tree.canonical, hwalk] at hpath
        cases hpath
      | error e =>
        rw [Tree.canonical, hwalk, Except.map, Except.error.injEq] at hpath
        exact bare_ne_loop _ _ _ (hpath ▸ hwalk)
    have hmissing : bare.Missing path := ⟨e, hpath, hne⟩
    obtain ⟨done, e, rest, q, rfl, hq, he⟩ := Tree.exists_missing (p := path) Tree.canonical_nil hmissing
    rw [List.nil_append] at hq he
    rw [hmissing.exists, Tree.weaklyCanonical_of_missing hq he]
    exact ⟨_, rfl⟩

end

/-! ## What the joined URL depends on -/

section
variable (C : Curl) (base rel : Bytes)

theorem withPath_congr {combine combine' : Bytes → Except Errno Bytes}
    (h : ∀ handle, C.parse base = .ok handle → ∀ p, C.path handle = .ok p → combine p.1 = combine' p.1) :
    withPath C base combine = withPath C base combine' := by
  unfold withPath
  cases hparse : C.parse base with
  | error code => rfl
  | ok handle =>
    cases hpath : C.path handle with
    | error code => simp [Except.mapError, bind, Except.bind, hpath]
    | ok p => simp [Except.mapError, bind, Except.bind, hpath, h handle hparse p hpath]

theorem withPath_error {combine : Bytes → Except Errno Bytes} {handle : C.Handle} {p : { p : Bytes // p.head? = some slash }}
    {e : Errno} (hparse : C.parse base = .ok handle) (hpath : C.path handle = .ok p) (h : combine p.1 = .error e) :
    withPath C base combine = .error (.filesystem e) := by
  simp [withPath, Except.mapError, bind, Except.bind, hparse, hpath, h]

theorem withPath_ok {combine : Bytes → Except Errno Bytes} {handle handle' : C.Handle}
    {p : { p : Bytes // p.head? = some slash }} {q url : Bytes} (hparse : C.parse base = .ok handle)
    (hpath : C.path handle = .ok p) (h : combine p.1 = .ok q) (hset : C.setPath handle q = .ok handle')
    (hurl : C.url handle' = .ok url) : withPath C base combine = .ok url := by
  simp [withPath, Except.mapError, bind, Except.bind, hparse, hpath, h, hset, hurl]

theorem withPath_ne_error {combine : Bytes → Except Errno Bytes} (h : ∀ p, ∃ q, combine p = .ok q) (e : Errno) :
    withPath C base combine ≠ .error (.filesystem e) := by
  unfold withPath
  cases C.parse base with
  | error code => nofun
  | ok handle =>
    cases hpath : C.path handle with
    | error code => simp [Except.mapError, bind, Except.bind, hpath]
    | ok p =>
      obtain ⟨q, hq⟩ := h p.1
      cases hset : C.setPath handle q with
      | error code => simp [Except.mapError, bind, Except.bind, hpath, hq, hset]
      | ok handle' => cases hurl : C.url handle' <;> simp [Except.mapError, bind, Except.bind, hpath, hq, hset, hurl]

theorem elements_append_slash (p q : Bytes) : elements (p ++ slash :: q) = elements p ++ elements q := by
  rw [elements, List.splitOn_append_cons_self, List.map_append]
  rfl

/-- A path extended as a text has the names that it has when extended as a path. -/
theorem noNames_extended {p rel : Bytes} (hp : p.head? = some slash) (hrel : rel.head? ≠ some slash)
    (h : NoNames (elements (append p rel))) : NoNames (elements (p ++ slash :: rel)) := by
  have hne : p ≠ [] := by
    rintro rfl
    cases hp
  unfold append at h
  rw [if_neg hrel] at h
  by_cases hlast : p.getLast? = some slash
  · obtain ⟨q, rfl⟩ := List.getLast?_eq_some_iff.1 hlast
    rw [if_pos (.inr hlast), List.append_assoc, List.singleton_append, elements_append_slash] at h
    rw [elements_append_slash, elements_append_slash]
    intro e he
    have hdot : elements [] = [.dot] := rfl
    simp only [hdot, List.mem_append, List.mem_singleton] at he h
    rcases he with (he | rfl) | he
    · exact h e (List.mem_append_left _ he)
    · nofun
    · exact h e (List.mem_append_right _ he)
  · rwa [if_neg (not_or.2 ⟨hne, hlast⟩)] at h

variable {base rel}

theorem joinUrls_nameless (h : Nameless C base rel) (disk : Disk) : joinUrls C disk base rel = joinUrls C bare base rel := by
  by_cases hbase : base = []
  · simp [joinUrls, hbase]
  by_cases hempty : rel = []
  · simp [joinUrls, hbase, hempty]
  rw [joinUrls, joinUrls, if_neg hbase, if_neg hempty, if_neg hbase, if_neg hempty]
  apply withPath_congr
  intro handle hparse p hpath
  have hnone := ((h.resolve_left hbase).resolve_left hempty) handle hparse p hpath
  simp only [weaklyCanonical_noNames hnone]

theorem joinUrls_lexical (hrel : rel.head? ≠ some slash) (h : Nameless C base rel) (disk : Disk) :
    joinUrls C disk base rel = lexicalJoin C base rel := by
  by_cases hbase : base = []
  · simp [joinUrls, lexicalJoin, hbase]
  by_cases hempty : rel = []
  · simp [joinUrls, lexicalJoin, hbase, hempty]
  rw [joinUrls, lexicalJoin, if_neg hbase, if_neg hempty, if_neg hbase, if_neg hempty]
  apply withPath_congr
  intro handle hparse p hpath
  have hnone := ((h.resolve_left hbase).resolve_left hempty) handle hparse p hpath
  have hextended := noNames_extended p.2 hrel hnone
  simp only [weaklyCanonical_noNames hnone, lexicallyNormal, normal_noNames hnone, normal_noNames hextended]
  simp [pathText]

/-- Some disk makes the URL impossible, where a name is looked up. -/
theorem joinUrls_loop (h : ¬ Nameless C base rel) : ∃ disk, joinUrls C disk base rel = .error (.filesystem .loop) := by
  unfold Nameless at h
  push Not at h
  obtain ⟨hbase, hrel, handle, hparse, p, hpath, hname⟩ := h
  obtain ⟨n, hn⟩ := weaklyCanonical_loop hname
  refine ⟨linked n [.name n], ?_⟩
  rw [joinUrls, if_neg hbase, if_neg hrel]
  exact withPath_error C base hparse hpath hn

theorem joinUrls_bare_ne (e : Errno) : joinUrls C bare base rel ≠ .error (.filesystem e) := by
  unfold joinUrls
  split_ifs
  · nofun
  · nofun
  · exact withPath_ne_error C base (fun p => weaklyCanonical_bare _) e

theorem lexicalJoin_ne (e : Errno) : lexicalJoin C base rel ≠ .error (.filesystem e) := by
  unfold lexicalJoin
  split_ifs
  · nofun
  · nofun
  · exact withPath_ne_error C base (fun p => ⟨_, rfl⟩) e

variable (base rel)

/-- A joined URL is the same on all disks just if no name is looked up, and for a
relative path it is then the one that is meant. -/
theorem joinUrls_independent_iff :
    ((∀ disk disk', joinUrls C disk base rel = joinUrls C disk' base rel) ↔ Nameless C base rel) ∧
      (rel.head? ≠ some slash →
        ((∀ disk, joinUrls C disk base rel = lexicalJoin C base rel) ↔ Nameless C base rel)) := by
  refine ⟨⟨fun h => ?_, fun h disk disk' => ?_⟩, fun hrel => ⟨fun h => ?_, fun h => joinUrls_lexical C hrel h⟩⟩
  · by_contra hnot
    obtain ⟨disk, hloop⟩ := joinUrls_loop C hnot
    exact joinUrls_bare_ne C .loop ((h bare disk).trans hloop)
  · rw [joinUrls_nameless C h disk, joinUrls_nameless C h disk']
  · by_contra hnot
    obtain ⟨disk, hloop⟩ := joinUrls_loop C hnot
    exact lexicalJoin_ne C .loop ((h disk).symm.trans hloop)

end

/-! ## A link on the disk -/

/-- URLs without queries and fragments: what comes before the path, and the path. -/
def plainCurl : Curl where
  Handle := Bytes × { p : Bytes // p.head? = some slash }
  parse url :=
    match (url.splitOn slash) with
    | scheme :: [] :: host :: path =>
      .ok (scheme ++ slash :: slash :: host, ⟨slash :: [slash].intercalate path, rfl⟩)
    | _ => .error 3
  path handle := .ok handle.2
  setPath handle path := .ok (handle.1, ⟨slash :: path.tail, rfl⟩)
  url handle := .ok (handle.1 ++ handle.2.1)

/-- At the root of a server there are no names yet. -/
theorem joinUrls_independent_at :
    ((∀ disk disk', joinUrls plainCurl disk (ascii "http://host/") (ascii ".") =
        joinUrls plainCurl disk' (ascii "http://host/") (ascii ".")) ↔
      Nameless plainCurl (ascii "http://host/") (ascii ".")) ∧
    ((∀ disk, joinUrls plainCurl disk (ascii "http://host/") (ascii ".") =
        lexicalJoin plainCurl (ascii "http://host/") (ascii ".")) ↔
      Nameless plainCurl (ascii "http://host/") (ascii ".")) :=
  have h := joinUrls_independent_iff plainCurl (ascii "http://host/") (ascii ".")
  ⟨h.1, h.2 (by decide)⟩

theorem joinUrls_pub (disk : Disk) (q : Bytes)
    (h : weaklyCanonical disk [.dot, .name (ascii "pub"), .name (ascii "x")] = .ok (slash :: q)) :
    joinUrls plainCurl disk (ascii "http://host/pub") (ascii "x") = .ok (ascii "http://host/" ++ q) := by
  have hpath : elements (append (ascii "/pub") (ascii "x")) = [.dot, .name (ascii "pub"), .name (ascii "x")] := by decide
  rw [joinUrls, if_neg (by decide), if_neg (by decide)]
  have hparse : plainCurl.parse (ascii "http://host/pub") = .ok (ascii "http://host", ⟨ascii "/pub", rfl⟩) := rfl
  apply withPath_ok plainCurl _ hparse rfl (hpath ▸ h)
  · rfl
  · rfl

/-- A link to the root, on the disk, takes the folder of that name from the URL. -/
theorem joinUrls_leaks : ¬ ∀ disk disk',
    joinUrls plainCurl disk (ascii "http://host/pub") (ascii "x") =
      joinUrls plainCurl disk' (ascii "http://host/pub") (ascii "x") := by
  intro h
  have hlink := joinUrls_pub (linked (ascii "pub") [.dot]) (ascii "x") (by decide +kernel)
  have hbare := joinUrls_pub bare (ascii "pub/x") (by decide +kernel)
  rw [h _ bare, hbare, Except.ok.injEq] at hlink
  exact absurd hlink (by decide)

end CommonCore.Url
