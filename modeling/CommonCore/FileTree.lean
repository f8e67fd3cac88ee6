import Mathlib.Data.List.Basic
import Mathlib.Data.List.Infix
import Mathlib.Data.Finset.Basic
import Mathlib.Data.Fintype.EquivFin
import Mathlib.Tactic.Common

/-!
# File trees with symbolic links

How the paths of a tree are resolved, and `status`, `canonical` and
`weakly_canonical` of `std::filesystem` on top of it. Paths are absolute, lists
of their elements after the root; a slash at the end says nothing more than `.`.
-/

namespace FileTree

inductive Elem (ν : Type)
  | name (n : ν)
  | dot
  | dotdot
  deriving DecidableEq

inductive Node (ν δ : Type)
  | file (data : δ)
  | dir
  | link (absolute : Bool) (target : List (Elem ν))

/-- What is found at each place. A place is the list of the names that lead
there from the root, through directories only. -/
structure Tree (ν δ : Type) where
  node : List ν → Option (Node ν δ)
  root : node [] = some .dir
  parent : ∀ p n, node (p ++ [n]) ≠ none → node p = some .dir

inductive Errno
  | noEntry
  | notDirectory
  | loop
  deriving DecidableEq

variable {ν δ : Type}

/-- A path without `.` and `..`. -/
def plain (p : List ν) : List (Elem ν) := p.map .name

/-- A path from a place on, with each `..` cancelled against the name before it. -/
def normal (p : List ν) (rest : List (Elem ν)) : List ν :=
  rest.foldl (fun p e =>
    match e with
    | .name n => p ++ [n]
    | .dot => p
    | .dotdot => p.dropLast) p

@[simp]
theorem normal_nil (p : List ν) : normal p [] = p := rfl

theorem normal_append (p : List ν) (s t : List (Elem ν)) : normal p (s ++ t) = normal (normal p s) t :=
  List.foldl_append

theorem normal_plain (p q : List ν) : normal p (plain q) = p ++ q := by
  induction q generalizing p with
  | nil => exact (List.append_nil p).symm
  | cons n q ih => exact (ih (p ++ [n])).trans (List.append_assoc p [n] q)

namespace Tree

variable (T : Tree ν δ)

/-- The walk along a path from a place, as long as it meets no link; `follow`
goes on from the target of a link. -/
def walkWith (follow : List ν → List (Elem ν) → Except Errno (List ν × ℕ)) (links : ℕ) :
    List ν → List (Elem ν) → Except Errno (List ν × ℕ)
  | cur, [] => .ok (cur, links)
  | cur, e :: rest =>
    match T.node cur with
    | some .dir =>
      match e with
      | .dot => walkWith follow links cur rest
      | .dotdot => walkWith follow links cur.dropLast rest
      | .name n =>
        match T.node (cur ++ [n]) with
        | none => .error .noEntry
        | some (.link absolute target) => follow (if absolute then [] else cur) (target ++ rest)
        | some _ => walkWith follow links (cur ++ [n]) rest
    | _ => .error .notDirectory

/-- The place a path leads to, and how many more links may be followed. -/
def walk : ℕ → List ν → List (Elem ν) → Except Errno (List ν × ℕ)
  | 0 => T.walkWith (fun _ _ => .error .loop) 0
  | links + 1 => T.walkWith (walk links) (links + 1)

/-- How many links a path may lead through. -/
def maxLinks : ℕ := 40

def canonical (p : List (Elem ν)) : Except Errno (List ν) := (T.walk maxLinks [] p).map Prod.fst

/-- What is found at a path, where nothing is found if a name on the way is not there. -/
def status (p : List (Elem ν)) : Except Errno (Option (Node ν δ)) :=
  match T.canonical p with
  | .ok q => .ok (T.node q)
  | .error .loop => .error .loop
  | .error _ => .ok none

def «exists» (p : List (Elem ν)) : Except Errno Bool := (T.status p).map Option.isSome

/-- The leading elements of a path that exist, and the others. -/
def leading : List (Elem ν) → List (Elem ν) → Except Errno (List (Elem ν) × List (Elem ν))
  | done, [] => .ok (done, [])
  | done, e :: rest =>
    (T.exists (done ++ [e])).bind fun found => if found then leading (done ++ [e]) rest else .ok (done, e :: rest)

def weaklyCanonical (p : List (Elem ν)) : Except Errno (List ν) :=
  (T.exists p).bind fun found =>
    if found then T.canonical p
    else (T.leading [] p).bind fun (done, rest) => (T.canonical done).map fun q => normal q rest

/-! ## Places -/

variable {T}

/-- What lies below a place is reached through directories. -/
theorem node_of_append {p q : List ν} (h : T.node (p ++ q) ≠ none) (hq : q ≠ []) : T.node p = some .dir := by
  induction q using List.reverseRecOn with
  | nil => exact absurd rfl hq
  | append_singleton q n ih =>
    have hdir := T.parent (p ++ q) n (by rwa [List.append_assoc])
    rcases eq_or_ne q [] with rfl | hne
    · rwa [List.append_nil] at hdir
    · exact ih (by simp [hdir]) hne

/-! ## Walks -/

theorem walk_nil (k : ℕ) (cur : List ν) : T.walk k cur [] = .ok (cur, k) := by
  cases k <;> rfl

section
variable {k : ℕ} {cur : List ν} {rest : List (Elem ν)}

theorem walk_notDirectory {e : Elem ν} (h : T.node cur ≠ some .dir) : T.walk k cur (e :: rest) = .error .notDirectory := by
  cases k <;> (unfold walk walkWith; split <;> [exact absurd ‹_› h; rfl])

theorem walk_dot (h : T.node cur = some .dir) : T.walk k cur (.dot :: rest) = T.walk k cur rest := by
  cases k <;> (unfold walk; rw [walkWith, h])

theorem walk_dotdot (h : T.node cur = some .dir) : T.walk k cur (.dotdot :: rest) = T.walk k cur.dropLast rest := by
  cases k <;> (unfold walk; rw [walkWith, h])

theorem walk_name (h : T.node cur = some .dir) (n : ν) : T.walk k cur (.name n :: rest) =
    match T.node (cur ++ [n]) with
    | none => .error .noEntry
    | some (.link absolute target) =>
      match k with
      | 0 => .error .loop
      | k + 1 => T.walk k (if absolute then [] else cur) (target ++ rest)
    | some _ => T.walk k (cur ++ [n]) rest := by
  cases k <;> (conv_lhs => unfold walk; rw [walkWith, h]) <;> rfl

end

/-- A path is walked one part after the other. -/
theorem walk_append (k : ℕ) (cur : List ν) (s t : List (Elem ν)) :
    T.walk k cur (s ++ t) = (T.walk k cur s).bind fun (c, k') => T.walk k' c t := by
  induction k using Nat.strong_induction_on generalizing cur s with
  | _ k ihk =>
    induction s generalizing cur with
    | nil => rw [walk_nil]; rfl
    | cons e s ih =>
      rw [List.cons_append]
      by_cases hdir : T.node cur = some .dir
      · cases e with
        | dot => rw [walk_dot hdir, walk_dot hdir, ih]
        | dotdot => rw [walk_dotdot hdir, walk_dotdot hdir, ih]
        | name n =>
          rw [walk_name hdir, walk_name hdir]
          cases T.node (cur ++ [n]) with
          | none => rfl
          | some node =>
            cases node with
            | file data => exact ih (cur ++ [n])
            | dir => exact ih (cur ++ [n])
            | link absolute target =>
              cases k with
              | zero => rfl
              | succ k =>
                dsimp only
                rw [← List.append_assoc]
                exact ihk k (Nat.lt_succ_self k) _ _
      · rw [walk_notDirectory hdir, walk_notDirectory hdir]
        rfl

/-- A place that can be walked to is that of a file or a directory. -/
def Physical (T : Tree ν δ) (q : List ν) : Prop := T.node q = some .dir ∨ ∃ data, T.node q = some (.file data)

theorem dir_dropLast {q : List ν} (h : T.node q = some .dir) : T.node q.dropLast = some .dir := by
  rcases List.eq_nil_or_concat' q with rfl | ⟨p, n, rfl⟩
  · exact h
  · rw [List.dropLast_concat]
    exact T.parent p n (by simp [h])

/-- The walks that arrive: from a place along a path to a place, with so many
links that may be followed before and after. -/
inductive Walks (T : Tree ν δ) : ℕ → List ν → List (Elem ν) → List ν → ℕ → Prop
  | nil {k cur} : Walks T k cur [] cur k
  | dot {k cur rest q k'} (hdir : T.node cur = some .dir) (h : Walks T k cur rest q k') : Walks T k cur (.dot :: rest) q k'
  | dotdot {k cur rest q k'} (hdir : T.node cur = some .dir) (h : Walks T k cur.dropLast rest q k') :
      Walks T k cur (.dotdot :: rest) q k'
  | name {k cur n rest q k'} (hdir : T.node cur = some .dir) (hn : T.Physical (cur ++ [n]))
      (h : Walks T k (cur ++ [n]) rest q k') : Walks T k cur (.name n :: rest) q k'
  | link {k cur n absolute target rest q k'} (hdir : T.node cur = some .dir)
      (hn : T.node (cur ++ [n]) = some (.link absolute target))
      (h : Walks T k (if absolute then [] else cur) (target ++ rest) q k') : Walks T (k + 1) cur (.name n :: rest) q k'

theorem walks_of_walk {k k' : ℕ} {cur q : List ν} {p : List (Elem ν)} (h : T.walk k cur p = .ok (q, k')) :
    Walks T k cur p q k' := by
  induction k using Nat.strong_induction_on generalizing cur p with
  | _ k ihk =>
    induction p generalizing cur with
    | nil =>
      rw [walk_nil] at h
      cases h
      exact .nil
    | cons e p ih =>
      by_cases hdir : T.node cur = some .dir
      · cases e with
        | dot => exact .dot hdir (ih (by rwa [walk_dot hdir] at h))
        | dotdot => exact .dotdot hdir (ih (by rwa [walk_dotdot hdir] at h))
        | name n =>
          rw [walk_name hdir] at h
          cases hn : T.node (cur ++ [n]) with
          | none => rw [hn] at h; cases h
          | some node =>
            rw [hn] at h
            cases node with
            | file data => exact .name hdir (.inr ⟨data, hn⟩) (ih h)
            | dir => exact .name hdir (.inl hn) (ih h)
            | link absolute target =>
              cases k with
              | zero => cases h
              | succ k => exact .link hdir hn (ihk k (Nat.lt_succ_self k) h)
      · rw [walk_notDirectory hdir] at h
        cases h

theorem Walks.walk {k k' : ℕ} {cur q : List ν} {p : List (Elem ν)} (h : Walks T k cur p q k') :
    T.walk k cur p = .ok (q, k') := by
  induction h with
  | nil => exact walk_nil _ _
  | dot hdir _ ih => rwa [walk_dot hdir]
  | dotdot hdir _ ih => rwa [walk_dotdot hdir]
  | name hdir hn _ ih =>
    rw [walk_name hdir]
    rcases hn with hn | ⟨data, hn⟩ <;> (rw [hn]; exact ih)
  | link hdir hn _ ih =>
    rw [walk_name hdir, hn]
    exact ih

theorem Walks.physical {k k' : ℕ} {cur q : List ν} {p : List (Elem ν)} (h : Walks T k cur p q k')
    (hcur : T.Physical cur) : T.Physical q := by
  induction h with
  | nil => exact hcur
  | dot _ _ ih => exact ih hcur
  | dotdot hdir _ ih => exact ih (.inl (dir_dropLast hdir))
  | name _ hn _ ih => exact ih hn
  | link hdir _ _ ih =>
    refine ih ?_
    split_ifs
    · exact .inl T.root
    · exact .inl hdir

theorem Walks.le {k k' : ℕ} {cur q : List ν} {p : List (Elem ν)} (h : Walks T k cur p q k') : k' ≤ k := by
  induction h with
  | nil => exact le_rfl
  | dot _ _ ih | dotdot _ _ ih | name _ _ _ ih => exact ih
  | link _ _ _ ih => exact Nat.le_succ_of_le ih

/-- With more links to follow, a walk leads to the same place. -/
theorem Walks.more {k k' : ℕ} {cur q : List ν} {p : List (Elem ν)} (h : Walks T k cur p q k') (m : ℕ) :
    Walks T (k + m) cur p q (k' + m) := by
  induction h with
  | nil => exact .nil
  | dot hdir _ ih => exact .dot hdir ih
  | dotdot hdir _ ih => exact .dotdot hdir ih
  | name hdir hn _ ih => exact .name hdir hn ih
  | link hdir hn _ ih =>
    rw [Nat.succ_add]
    exact .link hdir hn ih

/-- A path that can be walked is walked one part after the other. -/
theorem walks_append {k k' : ℕ} {cur q : List ν} {s t : List (Elem ν)} :
    Walks T k cur (s ++ t) q k' ↔ ∃ p k₁, Walks T k cur s p k₁ ∧ Walks T k₁ p t q k' := by
  constructor
  · intro h
    have h := (walk_append k cur s t).symm.trans h.walk
    cases hs : T.walk k cur s with
    | error e => rw [hs] at h; cases h
    | ok r =>
      rw [hs] at h
      exact ⟨r.1, r.2, walks_of_walk hs, walks_of_walk h⟩
  · rintro ⟨p, k₁, hs, ht⟩
    refine walks_of_walk ?_
    rw [walk_append, hs.walk]
    exact ht.walk

/-- Names that lead to a place through directories only are walked as they are. -/
theorem walk_plain (k : ℕ) {cur q : List ν} (h : T.Physical (cur ++ q)) : T.walk k cur (plain q) = .ok (cur ++ q, k) := by
  induction q generalizing cur with
  | nil => exact (walk_nil k cur).trans (by rw [List.append_nil])
  | cons n q ih =>
    have hne : T.node (cur ++ n :: q) ≠ none := by
      rcases h with h | ⟨data, h⟩ <;> simp [h]
    have hdir : T.node cur = some .dir := node_of_append hne (List.cons_ne_nil n q)
    have hn : T.Physical (cur ++ [n]) := by
      rcases eq_or_ne q [] with rfl | hq
      · exact h
      · rw [List.append_cons] at hne
        exact .inl (node_of_append hne hq)
    have hrest := ih (show T.Physical (cur ++ [n] ++ q) by rwa [List.append_assoc])
    rw [List.append_assoc] at hrest
    show T.walk k cur (.name n :: plain q) = _
    rw [walk_name hdir]
    rcases hn with hn | ⟨data, hn⟩ <;> (rw [hn]; exact hrest)

/-! ## Canonical paths -/

theorem canonical_eq_ok {p : List (Elem ν)} {q : List ν} : T.canonical p = .ok q ↔ ∃ k, Walks T maxLinks [] p q k := by
  unfold canonical
  constructor
  · intro h
    cases hw : T.walk maxLinks [] p with
    | error e => rw [hw] at h; cases h
    | ok r =>
      rw [hw] at h
      cases h
      exact ⟨r.2, walks_of_walk hw⟩
  · rintro ⟨k, hw⟩
    rw [hw.walk]
    rfl

theorem canonical_nil : T.canonical [] = .ok [] := canonical_eq_ok.mpr ⟨maxLinks, .nil⟩

theorem physical_of_canonical {p : List (Elem ν)} {q : List ν} (h : T.canonical p = .ok q) : T.Physical q := by
  obtain ⟨k, hw⟩ := canonical_eq_ok.mp h
  exact hw.physical (.inl T.root)

theorem walks_plain {q : List ν} (h : T.Physical q) (k : ℕ) : Walks T k [] (plain q) q k :=
  walks_of_walk (walk_plain k h)

theorem canonical_plain {q : List ν} (h : T.Physical q) : T.canonical (plain q) = .ok q :=
  canonical_eq_ok.mpr ⟨maxLinks, walks_plain h maxLinks⟩

/-- What is wrong with a path is wrong with every path that begins with it. -/
theorem canonical_append_error {p : List (Elem ν)} {e : Errno} (h : T.canonical p = .error e) (rest : List (Elem ν)) :
    T.canonical (p ++ rest) = .error e := by
  unfold canonical at h ⊢
  rw [walk_append]
  cases hw : T.walk maxLinks [] p with
  | error e' => rw [hw] at h; exact h
  | ok r => rw [hw] at h; cases h

theorem canonical_prefix {p rest : List (Elem ν)} {q : List ν} (h : T.canonical (p ++ rest) = .ok q) :
    ∃ q', T.canonical p = .ok q' := by
  cases hp : T.canonical p with
  | ok q' => exact ⟨q', rfl⟩
  | error e =>
    rw [canonical_append_error hp] at h
    cases h

/-- A path that leads nowhere, though not for too many links. -/
def Missing (T : Tree ν δ) (p : List (Elem ν)) : Prop := ∃ e, T.canonical p = .error e ∧ e ≠ .loop

theorem exists_of_ok {p : List (Elem ν)} {q : List ν} (h : T.canonical p = .ok q) : T.exists p = .ok true := by
  unfold Tree.exists status
  rw [h]
  rcases physical_of_canonical h with hq | ⟨data, hq⟩ <;> (dsimp only; rw [hq]; rfl)

theorem Missing.exists {p : List (Elem ν)} (h : T.Missing p) : T.exists p = .ok false := by
  obtain ⟨e, he, hne⟩ := h
  unfold Tree.exists status
  rw [he]
  cases e with
  | loop => exact absurd rfl hne
  | noEntry | notDirectory => rfl

theorem exists_of_loop {p : List (Elem ν)} (h : T.canonical p = .error .loop) : T.exists p = .error .loop := by
  unfold Tree.exists status
  rw [h]
  rfl

theorem Missing.append {p : List (Elem ν)} (h : T.Missing p) (rest : List (Elem ν)) : T.Missing (p ++ rest) := by
  obtain ⟨e, he, hne⟩ := h
  exact ⟨e, canonical_append_error he rest, hne⟩

theorem leading_of_missing {s : List (Elem ν)} {e : Elem ν} (rest done : List (Elem ν)) {q : List ν}
    (hq : T.canonical (done ++ s) = .ok q) (he : T.Missing (done ++ s ++ [e])) :
    T.leading done (s ++ e :: rest) = .ok (done ++ s, e :: rest) := by
  induction s generalizing done with
  | nil =>
    rw [List.append_nil] at he
    rw [List.nil_append, leading, he.exists, List.append_nil]
    rfl
  | cons a s ih =>
    rw [List.append_cons done a s] at hq he
    obtain ⟨q', hq'⟩ := canonical_prefix hq
    rw [List.cons_append, leading, exists_of_ok hq', List.append_cons done a s]
    exact ih _ hq he

/-- What is missing of a path is appended as it stands, with its `..` cancelled. -/
theorem weaklyCanonical_of_missing {done : List (Elem ν)} {e : Elem ν} {q : List ν} (hq : T.canonical done = .ok q)
    (he : T.Missing (done ++ [e])) (rest : List (Elem ν)) :
    T.weaklyCanonical (done ++ e :: rest) = .ok (normal q (e :: rest)) := by
  have hmissing : T.Missing (done ++ e :: rest) := by
    rw [List.append_cons]
    exact he.append rest
  unfold weaklyCanonical
  rw [hmissing.exists]
  show (T.leading [] (done ++ e :: rest)).bind _ = _
  rw [leading_of_missing rest [] hq he]
  show (T.canonical done).map _ = _
  rw [hq]
  rfl

theorem weaklyCanonical_of_ok {p : List (Elem ν)} {q : List ν} (h : T.canonical p = .ok q) : T.weaklyCanonical p = .ok q := by
  unfold weaklyCanonical
  rw [exists_of_ok h]
  exact h

theorem weaklyCanonical_plain {q : List ν} (h : T.Physical q) : T.weaklyCanonical (plain q) = .ok q :=
  weaklyCanonical_of_ok (canonical_plain h)

/-- A path that does not exist has a first element that is missing. -/
theorem exists_missing {p done : List (Elem ν)} {q : List ν} (hq : T.canonical done = .ok q) (h : T.Missing (done ++ p)) :
    ∃ s e rest q', p = s ++ e :: rest ∧ T.canonical (done ++ s) = .ok q' ∧ T.Missing (done ++ s ++ [e]) := by
  induction p generalizing done q with
  | nil =>
    obtain ⟨e, he, -⟩ := h
    rw [List.append_nil, hq] at he
    cases he
  | cons a p ih =>
    rw [List.append_cons] at h
    cases ha : T.canonical (done ++ [a]) with
    | ok q' =>
      obtain ⟨s, e, rest, q'', rfl, hs, he⟩ := ih ha h
      rw [← List.append_cons] at hs he
      exact ⟨a :: s, e, rest, q'', rfl, hs, he⟩
    | error e =>
      obtain ⟨e', he', hne⟩ := h
      rw [canonical_append_error ha] at he'
      cases he'
      exact ⟨[], a, p, q, rfl, by rwa [List.append_nil], e, by rwa [List.append_nil], hne⟩

theorem weaklyCanonical_cases {p : List (Elem ν)} {q : List ν} (h : T.weaklyCanonical p = .ok q) :
    T.canonical p = .ok q ∨ ∃ done e rest q', p = done ++ e :: rest ∧ T.canonical done = .ok q' ∧
      T.Missing (done ++ [e]) ∧ q = normal q' (e :: rest) := by
  cases hp : T.canonical p with
  | ok q' =>
    rw [weaklyCanonical_of_ok hp] at h
    exact .inl h
  | error e =>
    by_cases he : e = .loop
    · unfold weaklyCanonical at h
      rw [exists_of_loop (he ▸ hp)] at h
      cases h
    · obtain ⟨done, e, rest, q', rfl, hq', hmissing⟩ := exists_missing (p := p) canonical_nil ⟨e, hp, he⟩
      rw [List.nil_append] at hq' hmissing
      rw [weaklyCanonical_of_missing hq' hmissing] at h
      cases h
      exact .inr ⟨done, e, rest, q', rfl, hq', hmissing, rfl⟩

/-! ## Links that lead out of a directory -/

def IsLink (T : Tree ν δ) (p : List ν) : Prop := ∃ absolute target, T.node p = some (.link absolute target)

/-- A directory that is where its path says, and no link below it leads out of it. -/
structure Closed (T : Tree ν δ) (jail : List ν) : Prop where
  self : ∀ q, T.weaklyCanonical (plain jail) = .ok q → jail <+: q
  link : ∀ p, jail <+: p → T.IsLink p → ∀ q, T.weaklyCanonical (plain p) = .ok q → jail <+: q

theorem plain_append (p q : List ν) : plain (p ++ q) = plain p ++ plain q := List.map_append

/-- From a place below it, names lead nowhere else. -/
theorem Closed.walks {jail c q r : List ν} {k k' : ℕ} (h : T.Closed jail) (hw : Walks T k c (plain r) q k')
    (hk : k ≤ maxLinks) (hc : jail <+: c) : jail <+: q := by
  induction r generalizing c k with
  | nil =>
    cases hw
    exact hc
  | cons n r ih =>
    cases hw with
    | name hdir hn hw => exact ih hw hk (hc.trans (List.prefix_append c [n]))
    | @link k _ _ absolute target _ _ _ hdir hn hw =>
      obtain ⟨c', k₁, ht, hw⟩ := walks_append.mp hw
      have hle : k₁ ≤ maxLinks := ht.le.trans (Nat.le_of_succ_le hk)
      refine ih hw hle (h.link (c ++ [n]) (hc.trans (List.prefix_append c [n])) ⟨absolute, target, hn⟩ c' ?_)
      -- the link by itself leads to the same place
      obtain ⟨m, hm⟩ := Nat.exists_eq_add_of_le hk
      refine weaklyCanonical_of_ok (canonical_eq_ok.mpr ⟨k₁ + m, ?_⟩)
      rw [plain_append, hm, Nat.succ_add]
      refine walks_append.mpr ⟨c, _, walks_plain (.inl hdir) _, .link hdir hn ?_⟩
      show Walks T (k + m) _ (target ++ []) c' (k₁ + m)
      rw [List.append_nil]
      exact ht.more m

theorem Closed.inside {jail p q : List ν} (h : T.Closed jail) (hp : jail <+: p) (hq : T.weaklyCanonical (plain p) = .ok q) :
    jail <+: q := by
  have existing : ∀ {p q : List ν}, jail <+: p → T.canonical (plain p) = .ok q → jail <+: q := by
    rintro p q ⟨r, rfl⟩ hq
    obtain ⟨k, hw⟩ := canonical_eq_ok.mp hq
    rw [plain_append] at hw
    obtain ⟨c, k₁, hc, hw⟩ := walks_append.mp hw
    exact h.walks hw hc.le (h.self c (weaklyCanonical_of_ok (canonical_eq_ok.mpr ⟨k₁, hc⟩)))
  rcases weaklyCanonical_cases hq with hq | ⟨done, e, rest, q', hsplit, hq', hmissing, rfl⟩
  · exact existing hp hq
  · obtain ⟨d, es, rfl, rfl, hes⟩ := List.map_eq_append_iff.mp hsplit
    obtain ⟨n, s, rfl, rfl, rfl⟩ := List.map_eq_cons_iff.mp hes
    show jail <+: normal q' (plain (n :: s))
    rw [normal_plain]
    rcases List.prefix_or_prefix_of_prefix hp (List.prefix_append d (n :: s)) with hd | hd
    · exact (existing hd hq').trans (List.prefix_append q' (n :: s))
    · obtain ⟨j, rfl⟩ := hd
      cases j with
      | nil =>
        rw [List.append_nil] at existing ⊢
        exact (existing List.prefix_rfl hq').trans (List.prefix_append q' (n :: s))
      | cons n' j =>
        obtain ⟨rfl, hj⟩ := List.cons_prefix_cons.mp ((List.prefix_append_right_inj d).mp hp)
        have hself := weaklyCanonical_of_missing hq' hmissing (plain j)
        rw [show (Elem.name n' :: plain j) = plain (n' :: j) from rfl, normal_plain] at hself
        refine (h.self _ ((congrArg _ (plain_append d (n' :: j))).trans hself)).trans ?_
        exact (List.prefix_append_right_inj q').mpr (List.cons_prefix_cons.mpr ⟨rfl, hj⟩)

/-- A name that is missing, and `..` after it, leave the directory as it was. -/
theorem weaklyCanonical_detour {p : List (Elem ν)} {q : List ν} {n : ν} (hq : T.canonical p = .ok q)
    (hdir : T.node q = some .dir) (hn : T.node (q ++ [n]) = none) (r : List ν) :
    T.weaklyCanonical (p ++ .name n :: .dotdot :: plain r) = .ok (q ++ r) := by
  have hmissing : T.Missing (p ++ [.name n]) := by
    refine ⟨.noEntry, ?_, nofun⟩
    obtain ⟨k, hw⟩ := canonical_eq_ok.mp hq
    unfold canonical
    rw [walk_append, hw.walk]
    show (T.walk k q [.name n]).map _ = _
    rw [walk_name hdir, hn]
    rfl
  rw [weaklyCanonical_of_missing hq hmissing]
  show Except.ok (normal (q ++ [n]).dropLast (plain r)) = _
  rw [List.dropLast_concat, normal_plain]

/-- What is appended to a path that does not exist is appended to where it leads. -/
theorem weaklyCanonical_append_of_missing {p : List (Elem ν)} {q : List ν} (hp : T.Missing p)
    (hq : T.weaklyCanonical p = .ok q) (r : List ν) : T.weaklyCanonical (p ++ plain r) = .ok (q ++ r) := by
  rcases weaklyCanonical_cases hq with hq | ⟨done, e, rest, q', rfl, hq', hmissing, rfl⟩
  · obtain ⟨e, he, -⟩ := hp
    rw [hq] at he
    cases he
  · rw [List.append_assoc, List.cons_append, weaklyCanonical_of_missing hq' hmissing, ← List.cons_append, normal_append,
      normal_plain]

end Tree

/-! ## Relative paths -/

section
variable [DecidableEq ν]

/-- `lexically_relative`, of a path to another one. -/
def lexicallyRelative : List ν → List ν → List (Elem ν)
  | [], [] => [.dot]
  | [], p => plain p
  | base, [] => base.map fun _ => .dotdot
  | b :: base, n :: p =>
    if b = n then lexicallyRelative base p else ((b :: base).map fun _ => .dotdot) ++ plain (n :: p)

omit [DecidableEq ν] in
theorem normal_dotdots (p base : List ν) : normal (p ++ base) (base.map fun _ => .dotdot) = p := by
  induction base using List.reverseRecOn with
  | nil => exact List.append_nil p
  | append_singleton base n ih =>
    have hswap : (base ++ [n]).map (fun _ => (Elem.dotdot : Elem ν)) = .dotdot :: base.map fun _ => .dotdot := by
      rw [List.map_const', List.map_const', List.length_append, List.length_singleton, List.replicate_succ]
    rw [hswap, ← List.append_assoc]
    show normal (p ++ base ++ [n]).dropLast _ = p
    rw [List.dropLast_concat]
    exact ih

/-- From where it is relative to, a relative path leads to its path. -/
theorem normal_lexicallyRelative (base p : List ν) : normal base (lexicallyRelative base p) = p := by
  suffices h : ∀ s : List ν, normal (s ++ base) (lexicallyRelative base p) = s ++ p from h []
  intro s
  induction base generalizing s p with
  | nil =>
    cases p with
    | nil => rfl
    | cons n p => rw [lexicallyRelative, List.append_nil, normal_plain]; exact nofun
  | cons b base ih =>
    cases p with
    | nil =>
      rw [List.append_nil]
      exact normal_dotdots s (b :: base)
    | cons n p =>
      unfold lexicallyRelative
      split_ifs with h
      · rw [h, List.append_cons, List.append_cons s n p]
        exact ih p (s ++ [n])
      · rw [normal_append, normal_dotdots, normal_plain]

end

/-! ## Directories -/

/-- What the directories of a tree list, and how deep it is. -/
structure Listing (T : Tree ν δ) where
  entries : List ν → List ν
  mem_entries : ∀ p n, T.node p = some .dir → (n ∈ entries p ↔ T.node (p ++ [n]) ≠ none)
  depth : ℕ
  length_le : ∀ p, T.node p ≠ none → p.length ≤ depth

theorem Listing.exists_missing [Infinite ν] {T : Tree ν δ} (L : Listing T) {p : List ν} (hp : T.node p = some .dir) :
    ∃ n, T.node (p ++ [n]) = none := by
  classical
  obtain ⟨n, hn⟩ := Infinite.exists_notMem_finset (L.entries p).toFinset
  refine ⟨n, ?_⟩
  by_contra h
  exact hn (List.mem_toFinset.mpr ((L.mem_entries p n hp).mpr h))

end FileTree
