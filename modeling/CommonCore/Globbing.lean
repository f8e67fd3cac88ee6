import CommonCore.Escapes
import CommonCore.FromChars

/-!
# Files found by name

The search hands the path of each entry to a matcher for file names. A pattern
that matches the name alone does not, as a rule, match the path, and a leading
period is looked for where the path begins.
-/

namespace CommonCore.Globbing

/-- What `fnmatch` returns. -/
inductive Status
  | matched
  | noMatch
  | failed (status : ℤ)
deriving DecidableEq

/-- `FNM_PERIOD` and `FNM_CASEFOLD`. -/
structure Flags where
  period : Bool
  casefold : Bool

/-- `std::filesystem::filesystem_error`, by its status and its two paths. -/
structure MatchError where
  status : ℤ
  filename : Bytes
  mask : Bytes

/-- An entry as a directory iterator gives it. -/
structure DirEntry where
  folder : Bytes
  name : Bytes
deriving DecidableEq

/-- `folder / name`. -/
def join (folder name : Bytes) : Bytes :=
  if folder = [] ∨ folder.getLast? = some slash then folder ++ name else folder ++ slash :: name

def DirEntry.path (e : DirEntry) : Bytes := join e.folder e.name

/-- What is in a folder, in the order of its iterator, where nothing is a link. -/
inductive Entries
  | nil
  | file (name : Bytes) (rest : Entries)
  | folder (name : Bytes) (inside rest : Entries)

/-- A folder that is there, by the path it is known by. -/
structure Folder where
  path : Bytes
  entries : Entries
  named : path ≠ []

section
variable (fnmatch : Flags → Bytes → Bytes → Status)

/-- `PosixPathProvider::filename_match`. -/
def matchesMask (mask filename : Bytes) (matchLeadingPeriod ignoreCase : Bool) : Except MatchError Bool :=
  match fnmatch ⟨!matchLeadingPeriod, ignoreCase⟩ mask filename with
  | .matched => .ok true
  | .noMatch => .ok false
  | .failed status => .error ⟨status, filename, mask⟩

/-- `PathProvider::filename_match`. -/
def filenameMatch (masks : List Bytes) (path : Bytes) (matchLeadingPeriod ignoreCase : Bool) : Except MatchError Bool :=
  match masks with
  | [] => .ok false
  | mask :: masks => do
    if ← matchesMask fnmatch mask path matchLeadingPeriod ignoreCase then .ok true
    else filenameMatch masks path matchLeadingPeriod ignoreCase

variable (masks : List Bytes) (matchLeadingPeriod ignoreCase recursive : Bool)

/-- `PathProvider::locate_inside`, with the entries found so far. -/
def locateInside (directory : Bytes) : Entries → List DirEntry → Except MatchError (List DirEntry)
  | .nil, dir => .ok dir
  | .file name rest, dir => do
    let hit ← filenameMatch fnmatch masks (join directory name) matchLeadingPeriod ignoreCase
    locateInside directory rest (if hit then dir ++ [⟨directory, name⟩] else dir)
  | .folder name inside rest, dir => do
    let hit ← filenameMatch fnmatch masks (join directory name) matchLeadingPeriod ignoreCase
    let dir := if hit then dir ++ [⟨directory, name⟩] else dir
    let dir ← if recursive then locateInside (join directory name) inside dir else .ok dir
    locateInside directory rest dir

/-- `PathProvider::glob`. -/
def glob (directory : Folder) : Except MatchError (List DirEntry) :=
  locateInside fnmatch masks matchLeadingPeriod ignoreCase recursive directory.path directory.entries []

/-! ## What is to be found -/

/-- The entries of a folder, or those below it too. -/
def visited (directory : Bytes) : Entries → List DirEntry
  | .nil => []
  | .file name rest => ⟨directory, name⟩ :: visited directory rest
  | .folder name inside rest =>
    ⟨directory, name⟩ :: ((if recursive then visited (join directory name) inside else []) ++ visited directory rest)

/-- One of the patterns matches a file name, by the rules of the shell. -/
def NameMatches (name : Bytes) : Prop := ∃ mask ∈ masks, fnmatch ⟨!matchLeadingPeriod, ignoreCase⟩ mask name = .matched

instance (name : Bytes) : Decidable (NameMatches fnmatch masks matchLeadingPeriod ignoreCase name) :=
  inferInstanceAs (Decidable (∃ mask ∈ masks, _))

/-- The search returns the entries whose name matches, each once, and no others. -/
def Exact (directory : Folder) : Prop :=
  ∃ hits, glob fnmatch masks matchLeadingPeriod ignoreCase recursive directory = .ok hits ∧
    hits.Perm ((visited recursive directory.path directory.entries).filter
      fun e => NameMatches fnmatch masks matchLeadingPeriod ignoreCase e.name)

end

/-! ## POSIX patterns -/

def special : List UInt8 := [star, 0x3f, 0x5b, 0x5c]

/-- A pattern that is a text. -/
def Literal (mask : Bytes) : Prop := ∀ c ∈ mask, c ∉ special

instance (mask : Bytes) : Decidable (Literal mask) := inferInstanceAs (Decidable (∀ c ∈ mask, c ∉ special))

/-- A pattern that is a plain file name. -/
def FileName (mask : Bytes) : Prop := Literal mask ∧ slash ∉ mask

def folded (casefold : Bool) (s : Bytes) : Bytes := if casefold then s.map toLower else s

/-- What is documented of `fnmatch` without `FNM_PATHNAME`: a text matches
itself, and a `*` before it anything but a leading period that is protected. -/
structure Posix (fnmatch : Flags → Bytes → Bytes → Status) : Prop where
  literal : ∀ flags mask s, Literal mask →
    (fnmatch flags mask s = if folded flags.casefold mask = folded flags.casefold s then .matched else .noMatch)
  suffix : ∀ flags mask s, Literal mask →
    (fnmatch flags (star :: mask) s =
      if ¬ (flags.period = true ∧ s.head? = some dot) ∧ folded flags.casefold mask <:+ folded flags.casefold s then .matched
      else .noMatch)

/-! ## The search as a filter -/

section
variable (fnmatch : Flags → Bytes → Bytes → Status)
variable (masks : List Bytes) (matchLeadingPeriod ignoreCase recursive : Bool)

theorem locateInside_ok {p : DirEntry → Bool} {t : Entries} (directory : Bytes) (dir : List DirEntry)
    (h : ∀ e ∈ visited recursive directory t, filenameMatch fnmatch masks e.path matchLeadingPeriod ignoreCase = .ok (p e)) :
    locateInside fnmatch masks matchLeadingPeriod ignoreCase recursive directory t dir =
      .ok (dir ++ (visited recursive directory t).filter p) := by
  induction t generalizing directory dir with
  | nil => simp [locateInside, visited]
  | file name rest ih =>
    have hname := h ⟨directory, name⟩ (by simp [visited])
    have hrest := fun dir => ih directory dir fun e he => h e (by simp [visited, he])
    simp only [DirEntry.path] at hname
    cases hp : p ⟨directory, name⟩ <;> simp [locateInside, visited, hname, hrest, hp, bind, Except.bind]
  | folder name inside rest ihInside ih =>
    have hname := h ⟨directory, name⟩ (by simp [visited])
    have hrest := fun dir => ih directory dir fun e he => h e (by simp [visited, he])
    simp only [DirEntry.path] at hname
    cases recursive with
    | false => cases hp : p ⟨directory, name⟩ <;> simp [locateInside, visited, hname, hrest, hp, bind, Except.bind]
    | true =>
      have hinside := fun dir => ihInside (join directory name) dir fun e he => h e (by simp [visited, he])
      cases hp : p ⟨directory, name⟩ <;>
        simp [locateInside, visited, hname, hinside, hrest, hp, bind, Except.bind]

/-- A search that ends without an exception had none for any of the entries. -/
theorem matched_of_ok {directory : Bytes} {t : Entries} {dir hits : List DirEntry}
    (h : locateInside fnmatch masks matchLeadingPeriod ignoreCase recursive directory t dir = .ok hits) :
    ∀ e ∈ visited recursive directory t,
      ∃ hit, filenameMatch fnmatch masks e.path matchLeadingPeriod ignoreCase = .ok hit := by
  induction t generalizing directory dir hits with
  | nil => simp [visited]
  | file name rest ih =>
    intro e he
    cases hname : filenameMatch fnmatch masks (join directory name) matchLeadingPeriod ignoreCase with
    | error err => simp [locateInside, hname, bind, Except.bind] at h
    | ok hit =>
      simp only [locateInside, hname, bind, Except.bind] at h
      simp only [visited, List.mem_cons] at he
      rcases he with rfl | he
      · exact ⟨hit, hname⟩
      · exact ih h e he
  | folder name inside rest ihInside ih =>
    intro e he
    cases hname : filenameMatch fnmatch masks (join directory name) matchLeadingPeriod ignoreCase with
    | error err => simp [locateInside, hname, bind, Except.bind] at h
    | ok hit =>
      simp only [locateInside, hname, bind, Except.bind] at h
      simp only [visited, List.mem_cons, List.mem_append] at he
      cases recursive with
      | false =>
        rcases he with rfl | he | he
        · exact ⟨hit, hname⟩
        · simp at he
        · exact ih h e he
      | true =>
        simp only [if_true] at h he
        split at h
        · cases h
        · rename_i hinside
          rcases he with rfl | he | he
          · exact ⟨hit, hname⟩
          · exact ihInside hinside e he
          · exact ih h e he

/-- The search is exact just if the patterns make no difference between the path
of an entry and its name. -/
theorem exact_iff_agree (directory : Folder) :
    Exact fnmatch masks matchLeadingPeriod ignoreCase recursive directory ↔
      ∀ e ∈ visited recursive directory.path directory.entries,
        filenameMatch fnmatch masks e.path matchLeadingPeriod ignoreCase =
          .ok (decide (NameMatches fnmatch masks matchLeadingPeriod ignoreCase e.name)) := by
  constructor
  · rintro ⟨hits, hglob, hperm⟩ e he
    have hok := matched_of_ok _ _ _ _ _ hglob
    let p : DirEntry → Bool := fun e =>
      (filenameMatch fnmatch masks e.path matchLeadingPeriod ignoreCase).toOption.getD false
    have hp : ∀ e ∈ visited recursive directory.path directory.entries,
        filenameMatch fnmatch masks e.path matchLeadingPeriod ignoreCase = .ok (p e) := by
      intro e he
      obtain ⟨hit, hhit⟩ := hok e he
      simp [p, hhit, Except.toOption]
    have hhits := locateInside_ok fnmatch masks matchLeadingPeriod ignoreCase recursive _ [] hp
    rw [glob, hhits] at hglob
    cases hglob
    have hmem := hperm.mem_iff (a := e)
    simp only [List.nil_append, List.mem_filter, he, true_and] at hmem
    rw [hp e he]
    cases hpe : p e <;> simp_all
  · intro h
    exact ⟨_, locateInside_ok fnmatch masks matchLeadingPeriod ignoreCase recursive _ [] h, List.Perm.refl _⟩

end

/-! ## Paths and names -/

theorem join_eq (folder name : Bytes) (h : folder ≠ []) : ∃ head, head ≠ [] ∧ folder.head? = head.head? ∧
    head.getLast? = some slash ∧ join folder name = head ++ name := by
  unfold join
  by_cases hlast : folder.getLast? = some slash
  · exact ⟨folder, h, rfl, hlast, by simp [hlast]⟩
  · refine ⟨folder ++ [slash], by simp, ?_, by simp, by simp [h, hlast]⟩
    cases folder <;> simp_all

theorem visited_folder {recursive : Bool} {directory : Bytes} {t : Entries} (h : directory ≠ []) :
    ∀ e ∈ visited recursive directory t, e.folder ≠ [] ∧ e.folder.head? = directory.head? := by
  induction t generalizing directory with
  | nil => simp [visited]
  | file name rest ih =>
    intro e he
    simp only [visited, List.mem_cons] at he
    rcases he with rfl | he
    · exact ⟨h, rfl⟩
    · exact ih h e he
  | folder name inside rest ihInside ih =>
    intro e he
    simp only [visited, List.mem_cons, List.mem_append] at he
    rcases he with rfl | he | he
    · exact ⟨h, rfl⟩
    · cases recursive with
      | false => simp at he
      | true =>
        obtain ⟨head, hne, hhead, -, hjoin⟩ := join_eq directory name h
        have hjoined : join directory name ≠ [] := by simp [hjoin, hne]
        have hin := ihInside hjoined e (by simpa using he)
        rw [hin.2, hjoin, hhead]
        refine ⟨hin.1, ?_⟩
        cases head <;> simp_all
    · exact ih h e he

theorem toLower_eq_slash : ∀ c : UInt8, toLower c = slash ↔ c = slash := by
  apply forall_byte
  decide +kernel

theorem slash_mem_folded (casefold : Bool) (s : Bytes) : slash ∈ folded casefold s ↔ slash ∈ s := by
  cases casefold with
  | false => simp [folded]
  | true => simp [folded, toLower_eq_slash]

theorem folded_append (casefold : Bool) (s t : Bytes) : folded casefold (s ++ t) = folded casefold s ++ folded casefold t := by
  cases casefold <;> simp [folded]

/-- A text without a `/` is at the end of a path just if it is at that of the name. -/
theorem suffix_join_iff {l head name : Bytes} (casefold : Bool) (hl : slash ∉ l) (hhead : head.getLast? = some slash) :
    folded casefold l <:+ folded casefold (head ++ name) ↔ folded casefold l <:+ folded casefold name := by
  rw [folded_append]
  constructor
  · intro h
    rcases List.suffix_or_suffix_of_suffix h (List.suffix_append _ _) with h' | ⟨w, hw⟩
    · exact h'
    rw [← hw] at h ⊢
    have hw' := List.suffix_append_self_iff.1 h
    by_cases hne : w = []
    · simp [hne]
    -- what is left of the text ends where the folder's path does
    have hlast : w.getLast? = some slash := by
      have hfolded : (folded casefold head).getLast? = some slash := by
        cases casefold with
        | false => exact hhead
        | true => simp [folded, hhead, (toLower_eq_slash slash).2 rfl]
      obtain ⟨v, hv⟩ := hw'
      rw [← hv, List.getLast?_append_of_ne_nil _ hne] at hfolded
      exact hfolded
    have hmem : slash ∈ folded casefold l := by
      rw [← hw]
      exact List.mem_append_left _ (List.mem_of_getLast? hlast)
    exact absurd ((slash_mem_folded casefold l).1 hmem) hl
  · exact fun h => h.trans (List.suffix_append _ _)

theorem slash_mem_path {recursive : Bool} {directory : Folder} {e : DirEntry}
    (he : e ∈ visited recursive directory.path directory.entries) : slash ∈ e.path := by
  obtain ⟨head, -, -, hlast, hjoin⟩ := join_eq e.folder e.name (visited_folder directory.named e he).1
  rw [DirEntry.path, hjoin]
  exact List.mem_append_left _ (List.mem_of_getLast? hlast)

/-! ## Plain names and endings -/

section
variable {fnmatch : Flags → Bytes → Bytes → Status} (h : Posix fnmatch)
include h
variable (matchLeadingPeriod ignoreCase recursive : Bool) (directory : Folder)

theorem filenameMatch_names {masks : List Bytes} (hmasks : ∀ m ∈ masks, FileName m) {path : Bytes} (hpath : slash ∈ path) :
    filenameMatch fnmatch masks path matchLeadingPeriod ignoreCase = .ok false := by
  induction masks with
  | nil => rfl
  | cons mask masks ih =>
    have hmask := hmasks mask (by simp)
    have hne : folded ignoreCase mask ≠ folded ignoreCase path := by
      intro heq
      exact hmask.2 ((slash_mem_folded ignoreCase mask).1 (heq ▸ (slash_mem_folded ignoreCase path).2 hpath))
    have hfalse : matchesMask fnmatch mask path matchLeadingPeriod ignoreCase = .ok false := by
      simp [matchesMask, h.literal _ _ _ hmask.1, hne]
    have hrest := ih fun m hm => hmasks m (by simp [hm])
    simp [filenameMatch, hfalse, hrest, bind, Except.bind]

/-- Plain file names are never found. -/
theorem glob_names {masks : List Bytes} (hmasks : ∀ m ∈ masks, FileName m) :
    glob fnmatch masks matchLeadingPeriod ignoreCase recursive directory = .ok [] ∧
      (Exact fnmatch masks matchLeadingPeriod ignoreCase recursive directory ↔
        ∀ e ∈ visited recursive directory.path directory.entries, ∀ m ∈ masks,
          folded ignoreCase m ≠ folded ignoreCase e.name) := by
  have hfalse : ∀ e ∈ visited recursive directory.path directory.entries,
      filenameMatch fnmatch masks e.path matchLeadingPeriod ignoreCase = .ok false :=
    fun e he => filenameMatch_names h _ _ hmasks (slash_mem_path he)
  constructor
  · have hrun := locateInside_ok fnmatch masks matchLeadingPeriod ignoreCase recursive (p := fun _ => false) _ [] hfalse
    rw [glob, hrun]
    simp
  · rw [exact_iff_agree]
    refine forall₂_congr fun e he => ?_
    rw [hfalse e he, Except.ok.injEq, eq_comm, decide_eq_false_iff_not]
    simp only [NameMatches, not_exists, not_and]
    refine forall₂_congr fun m hm => ?_
    rw [h.literal _ _ _ (hmasks m hm).1]
    simp

theorem filenameMatch_suffix {suffix : Bytes} (hsuffix : FileName suffix) (path : Bytes) :
    filenameMatch fnmatch [star :: suffix] path matchLeadingPeriod ignoreCase =
      .ok (decide (¬ (matchLeadingPeriod = false ∧ path.head? = some dot) ∧
        folded ignoreCase suffix <:+ folded ignoreCase path)) := by
  simp only [filenameMatch, matchesMask, h.suffix _ _ _ hsuffix.1, Bool.not_eq_true']
  split_ifs with hm
  · rw [decide_eq_true hm]
    rfl
  · rw [decide_eq_false hm]
    rfl

/-- All files with an ending are found, and no others, unless a period leads the
path of the folder but not the name, or the other way round. -/
theorem exact_suffix_iff {suffix : Bytes} (hsuffix : FileName suffix) :
    Exact fnmatch [star :: suffix] matchLeadingPeriod ignoreCase recursive directory ↔
      matchLeadingPeriod = true ∨ ∀ e ∈ visited recursive directory.path directory.entries,
        folded ignoreCase suffix <:+ folded ignoreCase e.name →
          (directory.path.head? = some dot ↔ e.name.head? = some dot) := by
  have hagree : ∀ e ∈ visited recursive directory.path directory.entries,
      (filenameMatch fnmatch [star :: suffix] e.path matchLeadingPeriod ignoreCase =
          .ok (decide (NameMatches fnmatch [star :: suffix] matchLeadingPeriod ignoreCase e.name)) ↔
        (matchLeadingPeriod = false → folded ignoreCase suffix <:+ folded ignoreCase e.name →
          (directory.path.head? = some dot ↔ e.name.head? = some dot))) := by
    intro e he
    obtain ⟨hfolder, hdir⟩ := visited_folder directory.named e he
    obtain ⟨head, hne, hhead, hlast, hjoin⟩ := join_eq e.folder e.name hfolder
    have hpath : e.path.head? = directory.path.head? := by
      rw [DirEntry.path, hjoin, ← hdir, hhead]
      cases head <;> simp_all
    have hends : folded ignoreCase suffix <:+ folded ignoreCase e.path ↔
        folded ignoreCase suffix <:+ folded ignoreCase e.name := by
      rw [DirEntry.path, hjoin]
      exact suffix_join_iff ignoreCase hsuffix.2 hlast
    have hname : NameMatches fnmatch [star :: suffix] matchLeadingPeriod ignoreCase e.name ↔
        ¬ (matchLeadingPeriod = false ∧ e.name.head? = some dot) ∧ folded ignoreCase suffix <:+ folded ignoreCase e.name := by
      simp [NameMatches, h.suffix _ _ _ hsuffix.1]
    rw [filenameMatch_suffix h _ _ hsuffix, Except.ok.injEq, decide_eq_decide, hname, hends, hpath]
    by_cases hs : folded ignoreCase suffix <:+ folded ignoreCase e.name <;>
      cases matchLeadingPeriod <;> simp [hs, not_iff_not]
  rw [exact_iff_agree, forall₂_congr hagree]
  cases matchLeadingPeriod <;> simp

end

/-- The search is exact just if the patterns make no difference between the
paths of the entries and their names. Plain names make one for every file that
has them, and endings where a leading period is to be protected. -/
theorem glob_exact_iff {fnmatch : Flags → Bytes → Bytes → Status} (h : Posix fnmatch)
    (masks : List Bytes) (matchLeadingPeriod ignoreCase recursive : Bool) (directory : Folder) :
    (Exact fnmatch masks matchLeadingPeriod ignoreCase recursive directory ↔
      ∀ e ∈ visited recursive directory.path directory.entries,
        filenameMatch fnmatch masks e.path matchLeadingPeriod ignoreCase =
          .ok (decide (NameMatches fnmatch masks matchLeadingPeriod ignoreCase e.name))) ∧
    ((∀ m ∈ masks, FileName m) → glob fnmatch masks matchLeadingPeriod ignoreCase recursive directory = .ok [] ∧
      (Exact fnmatch masks matchLeadingPeriod ignoreCase recursive directory ↔
        ∀ e ∈ visited recursive directory.path directory.entries, ∀ m ∈ masks,
          folded ignoreCase m ≠ folded ignoreCase e.name)) ∧
    ∀ suffix, masks = [star :: suffix] → FileName suffix →
      (Exact fnmatch masks matchLeadingPeriod ignoreCase recursive directory ↔
        matchLeadingPeriod = true ∨ ∀ e ∈ visited recursive directory.path directory.entries,
          folded ignoreCase suffix <:+ folded ignoreCase e.name →
            (directory.path.head? = some dot ↔ e.name.head? = some dot)) := by
  refine ⟨exact_iff_agree .., fun hmasks => glob_names h _ _ _ _ hmasks, ?_⟩
  rintro suffix rfl hsuffix
  exact exact_suffix_iff h _ _ _ _ hsuffix

/-! ## A matcher -/

/-- A pattern of texts, `?` and `*`. -/
def shellMatch : Bytes → Bytes → Bool
  | [], s => s.isEmpty
  | c :: mask, s =>
    if c = star then s.tails.any fun t => shellMatch mask t
    else
      match s with
      | [] => false
      | b :: s => (c == 0x3f || c == b) && shellMatch mask s

/-- `fnmatch` for patterns without brackets and backslashes. -/
def simpleFnmatch (flags : Flags) (mask s : Bytes) : Status :=
  if flags.period = true ∧ s.head? = some dot ∧ mask.head? ≠ some dot then .noMatch
  else if shellMatch (folded flags.casefold mask) (folded flags.casefold s) then .matched
  else .noMatch

theorem shellMatch_literal {mask s : Bytes} (hmask : Literal mask) : shellMatch mask s = decide (mask = s) := by
  induction mask generalizing s with
  | nil => cases s <;> simp [shellMatch]
  | cons c mask ih =>
    have hc := hmask c (by simp)
    simp only [special, List.mem_cons, not_or] at hc
    cases s with
    | nil => simp [shellMatch, hc.1]
    | cons b s =>
      have hany : (c == 0x3f) = false := by simpa using hc.2.1
      rw [shellMatch, if_neg hc.1, hany, ih fun d hd => hmask d (by simp [hd])]
      by_cases hcb : c = b <;> simp [hcb]

theorem toLower_special : ∀ c : UInt8, (toLower c ∈ special → c ∈ special) ∧ (toLower c = dot ↔ c = dot) := by
  apply forall_byte
  decide +kernel

theorem Literal.folded {mask : Bytes} (h : Literal mask) (casefold : Bool) : Literal (folded casefold mask) := by
  cases casefold with
  | false => exact h
  | true =>
    intro c hc hs
    simp only [Globbing.folded, if_true, List.mem_map] at hc
    obtain ⟨d, hd, rfl⟩ := hc
    exact h d hd ((toLower_special d).1 hs)

theorem head?_folded (casefold : Bool) (s : Bytes) : (folded casefold s).head? = some dot ↔ s.head? = some dot := by
  cases casefold <;> cases s <;> simp [folded, (toLower_special _).2]

theorem posix_simpleFnmatch : Posix simpleFnmatch where
  literal flags mask s hmask := by
    have hmatch := shellMatch_literal (s := folded flags.casefold s) (hmask.folded flags.casefold)
    unfold simpleFnmatch
    rw [hmatch]
    by_cases hp : flags.period = true ∧ s.head? = some dot ∧ mask.head? ≠ some dot
    · have hne : folded flags.casefold mask ≠ folded flags.casefold s := by
        intro heq
        exact hp.2.2 ((head?_folded _ mask).1 (heq ▸ (head?_folded _ s).2 hp.2.1))
      rw [if_pos hp, if_neg hne]
    · rw [if_neg hp]
      simp
  suffix flags mask s hmask := by
    have hstar : folded flags.casefold (star :: mask) = star :: folded flags.casefold mask := by
      cases flags.casefold <;> simp [folded, show toLower star = star by decide]
    have hany : shellMatch (star :: folded flags.casefold mask) (folded flags.casefold s) =
        decide (folded flags.casefold mask <:+ folded flags.casefold s) := by
      simp [shellMatch, shellMatch_literal (hmask.folded flags.casefold), List.any_eq]
    unfold simpleFnmatch
    rw [hstar, hany]
    by_cases hp : flags.period = true ∧ s.head? = some dot
    · simp [hp, show star ≠ dot by decide]
    · have hp' : ¬ (flags.period = true ∧ s.head? = some dot ∧ (star :: mask).head? ≠ some dot) :=
        fun h => hp ⟨h.1, h.2.1⟩
      rw [if_neg hp']
      simp [hp]

/-- A file in the folder is not found by its name. -/
theorem own_name_not_found : ¬ Exact simpleFnmatch [ascii "notes"] false false false
    ⟨ascii "/tmp", .file (ascii "notes") .nil, by decide⟩ := by
  rintro ⟨hits, hglob, hperm⟩
  have hnone : glob simpleFnmatch [ascii "notes"] false false false ⟨ascii "/tmp", .file (ascii "notes") .nil, by decide⟩ =
      .ok [] := rfl
  rw [hnone] at hglob
  cases hglob
  revert hperm
  decide

theorem glob_exact_at : Exact simpleFnmatch [ascii "*.txt"] false false true
    ⟨ascii "/tmp", .folder (ascii "a") (.file (ascii "b.txt") .nil) .nil, by decide⟩ :=
  ((glob_exact_iff posix_simpleFnmatch [ascii "*.txt"] false false true
    ⟨ascii "/tmp", .folder (ascii "a") (.file (ascii "b.txt") .nil) .nil, by decide⟩).2.2 (ascii ".txt") rfl
      ⟨by simp [Literal, ascii, special, star], by decide⟩).2 (.inr (by decide))

end CommonCore.Globbing
