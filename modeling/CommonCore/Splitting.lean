import CommonCore.Escapes

/-!
# Splitting and joining texts

`split` and `splitlines` go from one delimiter to the next, until there have been
enough. A line break of two characters counts at the first of them.
-/

namespace CommonCore

namespace Str

/-- What is before the first occurrence of a delimiter, and what is after it. -/
def find (delimiter : Bytes) : Bytes → Option (Bytes × Bytes)
  | [] => if delimiter = [] then some ([], []) else none
  | b :: s =>
    if delimiter.isPrefixOf (b :: s) then some ([], (b :: s).drop delimiter.length)
    else (find delimiter s).map fun (part, rest) => (b :: part, rest)

theorem find_append {delimiter s part rest : Bytes} (h : find delimiter s = some (part, rest)) :
    s = part ++ delimiter ++ rest := by
  induction s generalizing part with
  | nil =>
    rw [find] at h
    split_ifs at h with hempty
    cases h
    simp [hempty]
  | cons b s ih =>
    rw [find] at h
    split_ifs at h with hprefix
    · cases h
      exact (List.prefix_iff_eq_append.mp (List.isPrefixOf_iff_prefix.mp hprefix)).symm
    · obtain ⟨⟨part', rest'⟩, hfind, heq⟩ := Option.map_eq_some_iff.mp h
      cases heq
      rw [List.cons_append, List.cons_append, ← ih hfind]

/-- Nothing but the end of the first part and the delimiter is an occurrence. -/
theorem not_infix_of_find {delimiter s part rest : Bytes} (hne : delimiter ≠ []) (h : find delimiter s = some (part, rest)) :
    ¬ delimiter <:+: part := by
  induction s generalizing part with
  | nil =>
    rw [find, if_neg hne] at h
    cases h
  | cons b s ih =>
    have happend := find_append h
    rw [find] at h
    split_ifs at h with hprefix
    · cases h
      exact fun hinfix => hne (List.infix_nil.mp hinfix)
    · obtain ⟨⟨part', rest'⟩, hfind, heq⟩ := Option.map_eq_some_iff.mp h
      cases heq
      intro hinfix
      rcases List.infix_cons_iff.mp hinfix with hpre | hinfix
      · apply hprefix
        rw [List.isPrefixOf_iff_prefix, happend, List.append_assoc]
        exact hpre.trans (List.prefix_append _ _)
      · exact ih hfind hinfix

/-- With an empty delimiter, the loop of `split` does not end. -/
abbrev Delimiter := { d : Bytes // d ≠ [] }

theorem length_rest {d : Delimiter} {s part rest : Bytes} (h : find d.1 s = some (part, rest)) : rest.length < s.length := by
  rw [find_append h, List.length_append, List.length_append]
  have hpos : 0 < d.1.length := List.length_pos_iff.mpr d.2
  omega

/-- The parts from `part_start` on. -/
def splitFrom (d : Delimiter) (maxsplits : ℕ) (keepEmpties : Bool) (splits : ℕ) (s : Bytes) : List Bytes :=
  match _h : find d.1 s with
  | some (part, rest) =>
    if maxsplits = 0 ∨ splits < maxsplits then
      if keepEmpties ∨ part ≠ [] then part :: splitFrom d maxsplits keepEmpties (splits + 1) rest
      else splitFrom d maxsplits keepEmpties splits rest
    else if keepEmpties ∨ s ≠ [] then [s] else []
  | none => if keepEmpties ∨ s ≠ [] then [s] else []
termination_by s.length
decreasing_by all_goals exact length_rest _h

def split (s : Bytes) (d : Delimiter) (maxsplits : ℕ) (keepEmpties : Bool) : List Bytes :=
  splitFrom d maxsplits keepEmpties 0 s

/-- The loop of `join`. -/
def joinFrom (delimiter : Bytes) (keepEmpties quote : Bool) : Bool → List Bytes → Bytes
  | _, [] => []
  | first, s :: l =>
    if keepEmpties ∨ s ≠ [] then
      (if first then [] else delimiter) ++ (if quote then quoted s else s) ++ joinFrom delimiter keepEmpties quote false l
    else joinFrom delimiter keepEmpties quote first l

def join (l : List Bytes) (delimiter : Bytes) (keepEmpties quote : Bool) : Bytes :=
  joinFrom delimiter keepEmpties quote true l

def CR : UInt8 := 0x0d

def LF : UInt8 := 0x0a

/-- The loop of `splitlines`, after the part `part` of a line. -/
def linesFrom (maxsplits : ℕ) (keepEmpties : Bool) (splits : ℕ) (last : UInt8) (part : Bytes) : Bytes → List Bytes
  | [] => if keepEmpties ∨ part ≠ [] then [part] else []
  | ch :: s =>
    if maxsplits = 0 ∨ splits < maxsplits then
      if ch = CR ∨ ch = LF then
        if (ch = CR ∨ last ≠ CR) ∧ (keepEmpties ∨ part ≠ []) then
          part :: linesFrom maxsplits keepEmpties (splits + 1) ch [] s
        else linesFrom maxsplits keepEmpties splits ch [] s
      else linesFrom maxsplits keepEmpties splits ch (part ++ [ch]) s
    else if keepEmpties ∨ part ++ ch :: s ≠ [] then [part ++ ch :: s] else []

def splitlines (s : Bytes) (maxsplits : ℕ) (keepEmpties : Bool) : List Bytes := linesFrom maxsplits keepEmpties 0 0 [] s

/-! ## Splitting and joining again -/

/-- Splitting loses nothing, splits no more than it may, and only the last part
may contain the delimiter. -/
structure Splits (s : Bytes) (d : Delimiter) (maxsplits : ℕ) (parts : List Bytes) : Prop where
  joined : join parts d.1 true false = s
  count : 0 < maxsplits → parts.length ≤ maxsplits + 1
  clean : ∀ part ∈ parts.dropLast, ¬ d.1 <:+: part

section
variable {d : Delimiter} {n k : ℕ} {s part rest : Bytes}

theorem splitFrom_stop (h : ¬ (n = 0 ∨ k < n)) (s : Bytes) : splitFrom d n true k s = [s] := by
  rw [splitFrom]
  cases find d.1 s with
  | none => simp
  | some p => simp [h]

theorem splitFrom_none (h : find d.1 s = none) (n k : ℕ) : splitFrom d n true k s = [s] := by
  rw [splitFrom]
  split
  · simp_all
  · simp

theorem splitFrom_some (h : find d.1 s = some (part, rest)) (hgo : n = 0 ∨ k < n) :
    splitFrom d n true k s = part :: splitFrom d n true (k + 1) rest := by
  rw [splitFrom]
  split
  · simp_all
  · simp_all

theorem joinFrom_cons (delimiter s : Bytes) (first : Bool) (l : List Bytes) :
    joinFrom delimiter true false first (s :: l) =
      (if first then [] else delimiter) ++ s ++ joinFrom delimiter true false false l := by
  rw [joinFrom]
  simp

theorem joinFrom_false (delimiter : Bytes) (l : List Bytes) (hl : l ≠ []) :
    joinFrom delimiter true false false l = delimiter ++ joinFrom delimiter true false true l := by
  cases l with
  | nil => exact absurd rfl hl
  | cons s l => simp [joinFrom_cons]

theorem splitFrom_splits (d : Delimiter) (n k : ℕ) (hk : n = 0 ∨ k ≤ n) (s : Bytes) :
    splitFrom d n true k s ≠ [] ∧ join (splitFrom d n true k s) d.1 true false = s ∧
      (0 < n → (splitFrom d n true k s).length + k ≤ n + 1) ∧ ∀ part ∈ (splitFrom d n true k s).dropLast, ¬ d.1 <:+: part := by
  induction hs : s.length using Nat.strong_induction_on generalizing s k with
  | _ length ih =>
    have hlast : ∀ s, [s] ≠ [] ∧ join [s] d.1 true false = s ∧ (0 < n → [s].length + k ≤ n + 1) ∧
        ∀ part ∈ [s].dropLast, ¬ d.1 <:+: part := by
      intro s
      refine ⟨List.cons_ne_nil _ _, ?_, fun hn => ?_, nofun⟩
      · unfold join
        simp [joinFrom]
      · simp only [List.length_singleton]
        omega
    by_cases hgo : n = 0 ∨ k < n
    · cases hfind : find d.1 s with
      | none =>
        rw [splitFrom_none hfind]
        exact hlast s
      | some p =>
        obtain ⟨part, rest⟩ := p
        rw [splitFrom_some hfind hgo]
        obtain ⟨hne, hjoin, hcount, hclean⟩ := ih rest.length (hs ▸ length_rest hfind) (k + 1) (by omega) rest rfl
        refine ⟨List.cons_ne_nil _ _, ?_, fun hn => ?_, ?_⟩
        · unfold join at hjoin ⊢
          rw [joinFrom_cons, joinFrom_false _ _ hne, hjoin, find_append hfind]
          simp
        · have := hcount hn
          simp only [List.length_cons]
          omega
        · rw [List.dropLast_cons_of_ne_nil hne]
          intro p hp
          rcases List.mem_cons.mp hp with rfl | hp
          · exact not_infix_of_find d.2 hfind
          · exact hclean p hp
    · rw [splitFrom_stop hgo]
      exact hlast s

end

theorem split_splits (s : Bytes) (d : Delimiter) (maxsplits : ℕ) : Splits s d maxsplits (split s d maxsplits true) := by
  obtain ⟨-, hjoin, hcount, hclean⟩ := splitFrom_splits d maxsplits 0 (by omega) s
  exact ⟨hjoin, hcount, hclean⟩

/-! ## Lines -/

/-- A line break starts: a line feed after a carriage return belongs to it. -/
def Starts (last ch : UInt8) : Prop := ch = CR ∨ ch = LF ∧ last ≠ CR

instance (last ch : UInt8) : Decidable (Starts last ch) := inferInstanceAs (Decidable (_ ∨ _))

/-- The number of line breaks. -/
def breaks (last : UInt8) : Bytes → ℕ
  | [] => 0
  | ch :: s => (if Starts last ch then 1 else 0) + breaks ch s

/-- Break number `n` has two characters. -/
def LongBreak (n : ℕ) (s : Bytes) : Prop := ∃ a b, s = a ++ CR :: LF :: b ∧ breaks 0 a + 1 = n

/-- The first parts are as without a limit, and the last part is what is left. -/
structure SplitsLines (s : Bytes) (n : ℕ) (parts : List Bytes) : Prop where
  first : parts.take n = (splitlines s 0 true).take n
  last : ∃ part, parts.getLast? = some part ∧ parts.dropLast ++ splitlines part 0 true = splitlines s 0 true
  count : parts.length ≤ n + 1
  clean : ∀ part ∈ parts.dropLast, CR ∉ part ∧ LF ∉ part

section
variable {n k : ℕ} {last ch : UInt8} {part s : Bytes}

theorem linesFrom_stop (h : ¬ (n = 0 ∨ k < n)) (last : UInt8) (part s : Bytes) : linesFrom n true k last part s = [part ++ s] := by
  cases s with
  | nil => simp [linesFrom]
  | cons ch s => simp [linesFrom, h]

theorem linesFrom_starts (hgo : n = 0 ∨ k < n) (h : Starts last ch) :
    linesFrom n true k last part (ch :: s) = part :: linesFrom n true (k + 1) ch [] s := by
  have hbreak : ch = CR ∨ ch = LF := h.imp_right And.left
  have hstart : ch = CR ∨ last ≠ CR := h.imp_right And.right
  rw [linesFrom, if_pos hgo, if_pos hbreak, if_pos ⟨hstart, .inl rfl⟩]

theorem linesFrom_second (hgo : n = 0 ∨ k < n) (part s : Bytes) :
    linesFrom n true k CR part (LF :: s) = linesFrom n true k LF [] s := by
  have hstart : ¬ ((LF = CR ∨ CR ≠ CR) ∧ (true = true ∨ part ≠ [])) := fun h => h.1.elim (by decide) fun h => h rfl
  rw [linesFrom, if_pos hgo, if_pos (.inr rfl), if_neg hstart]

theorem linesFrom_other (hgo : n = 0 ∨ k < n) (hcr : ch ≠ CR) (hlf : ch ≠ LF) :
    linesFrom n true k last part (ch :: s) = linesFrom n true k ch (part ++ [ch]) s := by
  rw [linesFrom, if_pos hgo, if_neg (not_or.mpr ⟨hcr, hlf⟩)]

/-- A character starts a break, ends one, or does neither. -/
theorem starts_cases (last ch : UInt8) : Starts last ch ∨ (last = CR ∧ ch = LF) ∨ ch ≠ CR ∧ ch ≠ LF := by
  by_cases hcr : ch = CR
  · exact .inl (.inl hcr)
  · by_cases hlf : ch = LF
    · by_cases hlast : last = CR
      · exact .inr (.inl ⟨hlast, hlf⟩)
      · exact .inl (.inr ⟨hlf, hlast⟩)
    · exact .inr (.inr ⟨hcr, hlf⟩)

theorem linesFrom_unlimited (k : ℕ) (last : UInt8) (part s : Bytes) :
    linesFrom 0 true k last part s = linesFrom 0 true 0 last part s := by
  induction s generalizing k last part with
  | nil => rfl
  | cons ch s ih =>
    rcases starts_cases last ch with h | ⟨rfl, rfl⟩ | ⟨hcr, hlf⟩
    · rw [linesFrom_starts (.inl rfl) h, linesFrom_starts (.inl rfl) h, ih, ih 1]
    · rw [linesFrom_second (.inl rfl), linesFrom_second (.inl rfl), ih]
    · rw [linesFrom_other (.inl rfl) hcr hlf, linesFrom_other (.inl rfl) hcr hlf, ih]

theorem linesFrom_clean (h : CR ∉ s ∧ LF ∉ s) (last : UInt8) (part : Bytes) : linesFrom 0 true 0 last part s = [part ++ s] := by
  induction s generalizing last part with
  | nil => simp [linesFrom]
  | cons ch s ih =>
    simp only [List.mem_cons, not_or] at h
    rw [linesFrom_other (.inl rfl) (Ne.symm h.1.1) (Ne.symm h.2.1), ih ⟨h.1.2, h.2.2⟩]
    simp

/-- What is left after a carriage return is not split alike if it starts with the
line feed. -/
theorem splitlines_eq_iff (h : Starts last ch) (s : Bytes) :
    splitlines s 0 true = linesFrom 0 true 0 ch [] s ↔ ¬ (ch = CR ∧ ∃ b, s = LF :: b) := by
  unfold splitlines
  cases s with
  | nil =>
    refine iff_of_true rfl ?_
    rintro ⟨-, b, hb⟩
    cases hb
  | cons c s =>
    by_cases hlong : ch = CR ∧ c = LF
    · obtain ⟨rfl, rfl⟩ := hlong
      rw [linesFrom_starts (.inl rfl) (.inr ⟨rfl, by decide⟩), linesFrom_second (.inl rfl), linesFrom_unlimited]
      exact ⟨fun heq => absurd (congrArg List.length heq) (by simp), fun hnot => absurd ⟨rfl, s, rfl⟩ hnot⟩
    · have hnot : ¬ (ch = CR ∧ ∃ b, c :: s = LF :: b) := fun ⟨hch, b, hb⟩ => hlong ⟨hch, (List.cons.inj hb).1⟩
      refine iff_of_true ?_ hnot
      rcases starts_cases 0 c with hc | ⟨hzero, -⟩ | ⟨hcr, hlf⟩
      · have hc' : Starts ch c := hc.imp_right fun hlf => ⟨hlf.1, fun hch => hlong ⟨hch, hlf.1⟩⟩
        rw [linesFrom_starts (.inl rfl) hc, linesFrom_starts (.inl rfl) hc']
      · exact absurd hzero (by decide)
      · rw [linesFrom_other (.inl rfl) hcr hlf, linesFrom_other (.inl rfl) hcr hlf]

/-- From here on, break number `j` has two characters. -/
def LongFrom (last : UInt8) (j : ℕ) (s : Bytes) : Prop := ∃ a b, s = a ++ CR :: LF :: b ∧ breaks last a + 1 = j

theorem longFrom_starts (h : Starts last ch) (j : ℕ) (s : Bytes) :
    LongFrom last (j + 1) (ch :: s) ↔ (j = 0 ∧ ch = CR ∧ ∃ b, s = LF :: b) ∨ LongFrom ch j s := by
  constructor
  · rintro ⟨a, b, heq, hj⟩
    cases a with
    | nil =>
      obtain ⟨rfl, rfl⟩ := List.cons.inj heq
      simp only [breaks] at hj
      exact .inl ⟨by omega, rfl, b, rfl⟩
    | cons c a =>
      obtain ⟨rfl, hs⟩ := List.cons.inj heq
      rw [breaks, if_pos h] at hj
      exact .inr ⟨a, b, hs, by omega⟩
  · rintro (⟨rfl, rfl, b, rfl⟩ | ⟨a, b, rfl, hj⟩)
    · exact ⟨[], b, rfl, rfl⟩
    · refine ⟨ch :: a, b, rfl, ?_⟩
      rw [breaks, if_pos h]
      omega

theorem longFrom_of_not (h : ¬ Starts last ch) (j : ℕ) (s : Bytes) : LongFrom last j (ch :: s) ↔ LongFrom ch j s := by
  constructor
  · rintro ⟨a, b, heq, hj⟩
    cases a with
    | nil => exact absurd (.inl (List.cons.inj heq).1) h
    | cons c a =>
      obtain ⟨rfl, hs⟩ := List.cons.inj heq
      rw [breaks, if_neg h] at hj
      exact ⟨a, b, hs, by omega⟩
  · rintro ⟨a, b, rfl, hj⟩
    refine ⟨ch :: a, b, rfl, ?_⟩
    rw [breaks, if_neg h]
    omega

theorem not_longFrom_zero (last : UInt8) (s : Bytes) : ¬ LongFrom last 0 s := by
  rintro ⟨a, b, -, hj⟩
  omega

theorem not_starts_second : ¬ Starts CR LF := fun h => h.elim (by decide) fun h => h.2 rfl

/-- The lines up to the last break, and what is left, of which `j` says how many
more breaks there may be. -/
theorem linesFrom_law (s : Bytes) (j k : ℕ) (hj : k + j + 1 = n) (last : UInt8) (part : Bytes) (hpart : CR ∉ part ∧ LF ∉ part) :
    ∃ front tail, linesFrom n true k last part s = front ++ [tail] ∧ front.length ≤ j + 1 ∧
      (∀ p ∈ front, CR ∉ p ∧ LF ∉ p) ∧
      (front ++ [tail]).take (j + 1) = (linesFrom 0 true 0 last part s).take (j + 1) ∧
      (front ++ splitlines tail 0 true = linesFrom 0 true 0 last part s ↔ ¬ LongFrom last (j + 1) s) := by
  induction s generalizing j k last part with
  | nil =>
    refine ⟨[], part, rfl, Nat.zero_le _, nofun, rfl, iff_of_true ?_ ?_⟩
    · exact linesFrom_clean hpart 0 []
    · rintro ⟨a, b, heq, -⟩
      exact absurd heq.symm (List.append_ne_nil_of_right_ne_nil _ (List.cons_ne_nil _ _))
  | cons ch s ih =>
    have hgo : n = 0 ∨ k < n := .inr (by omega)
    rcases starts_cases last ch with h | ⟨rfl, rfl⟩ | ⟨hcr, hlf⟩
    · rw [linesFrom_starts hgo h, linesFrom_starts (.inl rfl) h, linesFrom_unlimited]
      cases j with
      | zero =>
        have hstop : ¬ (n = 0 ∨ k + 1 < n) := by omega
        rw [linesFrom_stop hstop]
        refine ⟨[part], s, rfl, le_rfl, ?_, rfl, ?_⟩
        · intro p hp
          rw [List.mem_singleton.mp hp]
          exact hpart
        · rw [List.singleton_append, List.cons.injEq, eq_self, true_and, splitlines_eq_iff h, longFrom_starts h,
            or_iff_left (not_longFrom_zero _ _), eq_self, true_and]
      | succ j =>
        obtain ⟨front, tail, heq, hlength, hclean, htake, hlaw⟩ := ih j (k + 1) (by omega) ch [] ⟨nofun, nofun⟩
        refine ⟨part :: front, tail, ?_, ?_, ?_, ?_, ?_⟩
        · rw [heq]
          rfl
        · exact Nat.succ_le_succ hlength
        · intro p hp
          rcases List.mem_cons.mp hp with rfl | hp
          · exact hpart
          · exact hclean p hp
        · rw [List.cons_append, List.take_succ_cons, List.take_succ_cons, htake]
        · rw [List.cons_append, List.cons.injEq, eq_self, true_and, hlaw, longFrom_starts h, or_iff_right (by simp)]
    · rw [linesFrom_second hgo, linesFrom_second (.inl rfl), longFrom_of_not not_starts_second]
      exact ih j k hj LF [] ⟨nofun, nofun⟩
    · have hnot : ¬ Starts last ch := fun h => h.elim hcr fun h => hlf h.1
      rw [linesFrom_other hgo hcr hlf, linesFrom_other (.inl rfl) hcr hlf, longFrom_of_not hnot]
      refine ih j k hj ch (part ++ [ch]) ?_
      simp only [List.mem_append, List.mem_singleton, not_or]
      exact ⟨⟨hpart.1, Ne.symm hcr⟩, ⟨hpart.2, Ne.symm hlf⟩⟩

end

/-- Limited lines are as they shall be unless the last break that counts has two
characters. -/
theorem splitsLines_iff (s : Bytes) (n : ℕ) (hn : 0 < n) : SplitsLines s n (splitlines s n true) ↔ ¬ LongBreak n s := by
  obtain ⟨j, rfl⟩ := Nat.exists_eq_succ_of_ne_zero hn.ne'
  obtain ⟨front, tail, heq, hlength, hclean, htake, hlaw⟩ := linesFrom_law (n := j + 1) s j 0 (by omega) 0 [] ⟨nofun, nofun⟩
  have hsplit : splitlines s (j + 1) true = front ++ [tail] := heq
  rw [Nat.succ_eq_add_one, hsplit]
  constructor
  · intro h
    obtain ⟨part, hpart, hlast⟩ := h.last
    rw [List.getLast?_append_of_ne_nil _ (List.cons_ne_nil _ _)] at hpart
    cases hpart
    rw [List.dropLast_concat] at hlast
    exact hlaw.mp hlast
  · intro h
    refine ⟨htake, ⟨tail, ?_, ?_⟩, ?_, ?_⟩
    · rw [List.getLast?_append_of_ne_nil _ (List.cons_ne_nil _ _)]
      rfl
    · rw [List.dropLast_concat]
      exact hlaw.mpr h
    · simpa using hlength
    · rw [List.dropLast_concat]
      exact hclean

/-- Both kinds of splitting are as they shall be. -/
def SplittingHolds (s : Bytes) (n : ℕ) : Prop :=
  (∀ d : Delimiter, Splits s d n (split s d n true)) ∧ (0 < n → SplitsLines s n (splitlines s n true))

theorem splittingHolds_iff (s : Bytes) (n : ℕ) : SplittingHolds s n ↔ (0 < n → ¬ LongBreak n s) := by
  constructor
  · intro h hn
    exact (splitsLines_iff s n hn).mp (h.2 hn)
  · intro h
    exact ⟨fun d => split_splits s d n, fun hn => (splitsLines_iff s n hn).mpr (h hn)⟩

/-- The first line ends with both characters. -/
theorem not_splittingHolds : ¬ ∀ s n, SplittingHolds s n := by
  intro hall
  refine (splitsLines_iff (ascii "a\r\nb") 1 (by decide)).mp ((hall _ 1).2 (by decide)) ⟨ascii "a", ascii "b", ?_, ?_⟩ <;> decide

end Str

end CommonCore
