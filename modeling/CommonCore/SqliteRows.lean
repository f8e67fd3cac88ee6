import CommonCore.NumericViews

/-!
# Rows of a SQLite table

How the values of a row are bound to the parameters of a statement, and what a
query extracts. The widest signed integers are those of the database, so that an
unsigned integer is never out of their range once it has been converted to one.
-/

namespace CommonCore

namespace Sqlite

/-! ## The database -/

/-- A value with its storage class. -/
inductive Stored
  | null
  | integer (n : Int64)
  | float (r : Double)
  | text (s : Bytes)
  | blob (b : Bytes)

inductive Status
  | ok
  | tooBig
  | range
  | misuse
  deriving DecidableEq

/-- The most bytes that a text or a blob may have, which is less than 2^31 in any SQLite. -/
structure Limit where
  length : ℕ
  small : length < 2 ^ 31

/-- A `size_t` as the `int` that a bind function takes. -/
def toInt (size : ℕ) : Int := NumberType.wrap true 4 size

section
variable (limit : Limit)

/-- A text with a zero after it, of which a negative size takes all up to the first zero. -/
def bindText (data : Bytes) (n : Int) : Status × Stored :=
  let s := if n < 0 then data.takeWhile (· ≠ 0) else data.take n.toNat
  if limit.length < s.length then (.tooBig, .null) else (.ok, .text s)

/-- A negative size is a misuse. -/
def bindBlob (data : Option Bytes) (n : Int) : Status × Stored :=
  match data with
  | none => (.ok, .null)
  | some data =>
    if n < 0 then (.misuse, .null)
    else if limit.length < (data.take n.toNat).length then (.tooBig, .null)
    else (.ok, .blob (data.take n.toNat))

end

/-! ## Rows -/

/-- The values that rows are made of here. -/
def Plain : Value → Prop
  | .none | .bool _ | .uint _ | .sint _ | .string _ | .bytevector _ => True
  | _ => False

/-- A value of a row. A byte vector that has never held anything has no memory, and
`data()` is a null pointer. -/
structure Cell where
  value : Value
  plain : Plain value
  allocated : Bool := true
  filled : ∀ b, value = .bytevector b → b ≠ [] → allocated = true

/-- Conversions to `double`, and texts of other values. -/
structure Host where
  nearest : Bytes → Option Double
  round : ℚ → Double
  encoded : Value → Bytes

section
variable (limit : Limit) (host : Host)

/-- `as_largest_sint` -/
def asLargestSint (v : Value) : Int :=
  match v.numericCast host.nearest host.round (.integral true 8) 0 with
  | .ok n => n
  | .error _ => 0

def asSint32 (v : Value) : Int :=
  match v.numericCast host.nearest host.round (.integral true 4) 0 with
  | .ok n => n
  | .error _ => 0

def asDouble (v : Value) : Double :=
  match v.numericCast host.nearest host.round (.double host.nearest host.round) (.finite 0) with
  | .ok r => r
  | .error _ => .finite 0

/-- The case of integers. -/
def bindInteger (v : Value) : Status × Stored :=
  let n := asLargestSint host v
  if n < -2 ^ 63 ∨ 2 ^ 63 - 1 < n then (.ok, .float (asDouble host v))
  else if n < -2 ^ 31 ∨ 2 ^ 31 - 1 < n then (.ok, .integer (Int64.ofInt n))
  else (.ok, .integer (Int64.ofInt (asSint32 host v)))

/-- One turn of the loop in `bind_input_parameters`: `status`, and what the parameter
holds after it. The status of a text that is bound is left out. -/
def bindParameter (cell : Cell) : Status × Stored :=
  match cell.value with
  | .none => (.ok, .null)
  | .bool b => bindInteger host (.bool b)
  | .char c => bindInteger host (.char c)
  | .uint n => bindInteger host (.uint n)
  | .sint n => bindInteger host (.sint n)
  | .real r => (.ok, .float (asDouble host (.real r)))
  | .duration d => (.ok, .float (asDouble host (.duration d)))
  | .timepoint t => (.ok, .float (asDouble host (.timepoint t)))
  | .string s => (.ok, (bindText limit s (toInt s.length)).2)
  | .bytevector b => bindBlob limit (if cell.allocated then some b else none) (toInt b.length)
  | v => if host.encoded v ≠ [] then bindText limit (host.encoded v) (toInt (host.encoded v).length) else (.ok, .null)

/-- There is no parameter with that index; a text is not told. -/
def outOfRange (cell : Cell) : Status :=
  match cell.value with
  | .string _ => .ok
  | _ => .range

/-- The parameters of a statement from `index` on. -/
def bindInputParameters (bindings : List Stored) (index : ℕ) : List Cell → Except Status (List Stored)
  | [] => .ok bindings
  | cell :: cells =>
    let (status, stored) := if index < bindings.length then bindParameter limit host cell else (outOfRange cell, .null)
    if status = .ok then bindInputParameters (bindings.set index stored) (index + 1) cells else .error status

/-- `execute_multi` with a statement that inserts its parameters: the table, and the
status that has been thrown. -/
def executeMulti (columns : ℕ) (table : List (List Stored)) : List (List Cell) → List (List Stored) × Option Status
  | [] => (table, none)
  | parameters :: rows =>
    match bindInputParameters limit host (List.replicate columns .null) 0 parameters with
    | .ok bindings => executeMulti columns (table ++ [bindings]) rows
    | .error status => (table, some status)

end

/-- A column of a row that is extracted. -/
def columnValue : Stored → Value
  | .null => .none
  | .integer n => .sint n
  | .float r => .real r
  | .text s => .string s
  | .blob b => .bytevector b

def extractRow (columnNames : List Bytes) (row : List Stored) : List (Option Bytes × Value) :=
  List.zipWith (fun name stored => (some name, columnValue stored)) columnNames row

/-! ## What is expected -/

/-- The same value, of the type that the database has for it. -/
def Same (round : ℚ → Double) (v w : Value) : Prop :=
  match v with
  | .bool b => w = .sint (if b then 1 else 0)
  | .uint n => if n.toNat < 2 ^ 63 then w = .sint n.toInt64 else w = .real (round n.toNat)
  | v => w = v

/-- Rows for a table with these columns. -/
structure Rows (columnNames : List Bytes) where
  rows : List (List Cell)
  sized : ∀ row ∈ rows, row.length = columnNames.length

/-- The rows are inserted, and a query extracts the same values in the same order. -/
def Restored (limit : Limit) (host : Host) (columnNames : List Bytes) (table : List (List Stored)) (rows : Rows columnNames) : Prop :=
  ∃ inserted, executeMulti limit host columnNames.length table rows.rows = (table ++ inserted, none) ∧
    List.Forall₂ (fun row stored => List.Forall₂ (fun cell column => Same host.round cell.value column.2) row (extractRow columnNames stored))
      rows.rows inserted

/-- A value that the database can hold. -/
def Kept (limit : Limit) (cell : Cell) : Prop :=
  match cell.value with
  | .uint n => n.toNat < 2 ^ 63
  | .string s => s.length ≤ limit.length
  | .bytevector b => cell.allocated = true ∧ b.length ≤ limit.length
  | _ => True

/-! ## One value -/

section
variable {limit : Limit} {host : Host}

theorem numericCast_bool {T : Type} (N : NumberType T) (b : Bool) (fallback : T) :
    Value.numericCast host.nearest host.round N (.bool b) fallback = .ok (N.ofBool b) := rfl

theorem numericCast_uint {T : Type} (N : NumberType T) (n : UInt64) (fallback : T) :
    Value.numericCast host.nearest host.round N (.uint n) fallback = .ok (N.ofUint n) := rfl

theorem numericCast_sint {T : Type} (N : NumberType T) (n : Int64) (fallback : T) :
    Value.numericCast host.nearest host.round N (.sint n) fallback = .ok (N.ofSint n) := rfl

theorem integral_ofUint (signed : Bool) (size : ℕ) (n : UInt64) :
    (NumberType.integral signed size).ofUint n = NumberType.wrap signed size n.toNat := rfl

theorem integral_ofSint (signed : Bool) (size : ℕ) (n : Int64) :
    (NumberType.integral signed size).ofSint n = NumberType.wrap signed size n.toInt := rfl

/-- A number that fits is not changed by a conversion. -/
theorem wrap_eight {n : Int} (hlow : -2 ^ 63 ≤ n) (hhigh : n ≤ 2 ^ 63 - 1) : NumberType.wrap true 8 n = n := by
  show n.bmod (2 ^ 64) = n
  exact Int.bmod_eq_of_le (by omega) (by omega)

theorem wrap_four {n : Int} (h : ¬ (n < -2 ^ 31 ∨ 2 ^ 31 - 1 < n)) : NumberType.wrap true 4 n = n := by
  push Not at h
  show n.bmod (2 ^ 32) = n
  exact Int.bmod_eq_of_le (by omega) (by omega)

theorem bindInteger_of {v : Value} {n : Int} (hwide : asLargestSint host v = NumberType.wrap true 8 n)
    (hnarrow : asSint32 host v = NumberType.wrap true 4 n) (hlow : -2 ^ 63 ≤ n) (hhigh : n ≤ 2 ^ 63 - 1) :
    bindInteger host v = (.ok, .integer (Int64.ofInt n)) := by
  unfold bindInteger
  rw [hwide, wrap_eight hlow hhigh, hnarrow]
  dsimp only
  rw [if_neg (by omega)]
  split_ifs with h
  · rfl
  · rw [wrap_four h]

/-- Whatever has been converted to the widest signed type is in its range. -/
theorem bindInteger_integer {v : Value} (hwide : ∃ n, asLargestSint host v = NumberType.wrap true 8 n) :
    ∃ n, bindInteger host v = (.ok, .integer n) := by
  obtain ⟨n, hn⟩ := hwide
  have hlow : -2 ^ 63 ≤ NumberType.wrap true 8 n := Int.le_bmod (by decide)
  have hhigh : NumberType.wrap true 8 n < 2 ^ 63 := Int.bmod_lt (by decide)
  unfold bindInteger
  rw [hn]
  dsimp only
  rw [if_neg (by omega)]
  split_ifs
  · exact ⟨_, rfl⟩
  · exact ⟨_, rfl⟩

theorem bindInteger_bool (b : Bool) : bindInteger host (.bool b) = (.ok, .integer (if b then 1 else 0)) := by
  unfold bindInteger asLargestSint asSint32
  rw [numericCast_bool, numericCast_bool]
  cases b <;> rfl

theorem asLargestSint_uint (n : UInt64) : asLargestSint host (.uint n) = NumberType.wrap true 8 n.toNat := by
  unfold asLargestSint
  rw [numericCast_uint, integral_ofUint]

theorem bindInteger_uint {n : UInt64} (h : n.toNat < 2 ^ 63) : bindInteger host (.uint n) = (.ok, .integer n.toInt64) := by
  have hnarrow : asSint32 host (.uint n) = NumberType.wrap true 4 n.toNat := by
    unfold asSint32
    rw [numericCast_uint, integral_ofUint]
  have hvalue : Int64.ofInt n.toNat = n.toInt64 := by
    rw [Int64.ofInt_eq_ofNat, ← UInt64.toInt64_ofNat', UInt64.ofNat_toNat]
  rw [bindInteger_of (asLargestSint_uint n) hnarrow (by omega) (by omega), hvalue]

theorem bindInteger_sint (n : Int64) : bindInteger host (.sint n) = (.ok, .integer n) := by
  have hwide : asLargestSint host (.sint n) = NumberType.wrap true 8 n.toInt := by
    unfold asLargestSint
    rw [numericCast_sint, integral_ofSint]
  have hnarrow : asSint32 host (.sint n) = NumberType.wrap true 4 n.toInt := by
    unfold asSint32
    rw [numericCast_sint, integral_ofSint]
  have hlow := n.le_toInt
  have hhigh := n.toInt_lt
  rw [bindInteger_of hwide hnarrow hlow (by omega), Int64.ofInt_toInt]

theorem toInt_of_le {n : ℕ} (h : n ≤ limit.length) : toInt n = n := by
  have hlt : (n : Int) < 2 ^ 31 := by exact_mod_cast h.trans_lt limit.small
  have hrange : ¬ ((n : Int) < -2 ^ 31 ∨ 2 ^ 31 - 1 < (n : Int)) := by omega
  unfold toInt
  rw [wrap_four hrange]

theorem length_of_bindText {s t : Bytes} {n : Int} (h : (bindText limit s n).2 = .text t) : t.length ≤ limit.length := by
  unfold bindText at h
  dsimp only at h
  split_ifs at h with hneg hlong hlong
  · cases h
    exact not_lt.mp hlong
  · cases h
    exact not_lt.mp hlong

theorem bindText_length {s : Bytes} (h : s.length ≤ limit.length) : bindText limit s s.length = (.ok, .text s) := by
  have hneg : ¬ (s.length : Int) < 0 := by omega
  unfold bindText
  simp only [if_neg hneg, Int.toNat_natCast, List.take_length, if_neg (not_lt.mpr h)]

theorem bindText_iff {s : Bytes} : (bindText limit s (toInt s.length)).2 = .text s ↔ s.length ≤ limit.length := by
  constructor
  · exact length_of_bindText
  · intro h
    rw [toInt_of_le h, bindText_length h]

theorem length_of_bindBlob {data : Option Bytes} {b : Bytes} {n : Int} (h : bindBlob limit data n = (.ok, .blob b)) :
    data ≠ none ∧ b.length ≤ limit.length := by
  cases data with
  | none => cases h
  | some data =>
    unfold bindBlob at h
    dsimp only at h
    split_ifs at h with hneg hlong
    · cases h
    · cases h
    · cases h
      exact ⟨nofun, not_lt.mp hlong⟩

theorem bindBlob_length {b : Bytes} (h : b.length ≤ limit.length) : bindBlob limit (some b) b.length = (.ok, .blob b) := by
  have hneg : ¬ (b.length : Int) < 0 := by omega
  unfold bindBlob
  simp only [if_neg hneg, Int.toNat_natCast, List.take_length, if_neg (not_lt.mpr h)]

theorem bindBlob_iff {b : Bytes} {allocated : Bool} :
    bindBlob limit (if allocated = true then some b else none) (toInt b.length) = (.ok, .blob b) ↔ allocated = true ∧ b.length ≤ limit.length := by
  constructor
  · intro h
    obtain ⟨hdata, hlength⟩ := length_of_bindBlob h
    refine ⟨?_, hlength⟩
    by_contra hnot
    rw [if_neg hnot] at hdata
    exact hdata rfl
  · rintro ⟨rfl, h⟩
    rw [if_pos rfl, toInt_of_le h, bindBlob_length h]

section
variable {round : ℚ → Double} {stored : Stored}

theorem same_string {s : Bytes} : Status.ok = .ok ∧ Same round (.string s) (columnValue stored) ↔ stored = .text s := by
  cases stored <;> simp [Same, columnValue]

theorem same_bound (limit : Limit) (host : Host) (cell : Cell) {s : Bytes} (hvalue : cell.value = .string s)
    (hbind : bindParameter limit host cell = (.ok, stored)) :
    (bindParameter limit host cell).1 = .ok ∧ Same host.round cell.value (columnValue (bindParameter limit host cell).2) ↔ stored = .text s := by
  rw [hbind, hvalue]
  exact same_string

theorem same_bytevector {b : Bytes} {r : Status × Stored} :
    r.1 = .ok ∧ Same round (.bytevector b) (columnValue r.2) ↔ r = (.ok, .blob b) := by
  obtain ⟨status, stored⟩ := r
  cases stored <;> simp [Same, columnValue]

theorem same_uint {n : UInt64} (h : n.toNat < 2 ^ 63) : Same round (.uint n) (columnValue stored) ↔ stored = .integer n.toInt64 := by
  unfold Same
  simp only [if_pos h]
  cases stored <;> simp [columnValue]

theorem not_same_uint {n : UInt64} {m : Int64} (h : ¬ n.toNat < 2 ^ 63) : ¬ Same round (.uint n) (columnValue (.integer m)) := by
  unfold Same
  simp only [if_neg h]
  exact nofun

end

/-- A value that has been bound comes back when it can be held. -/
theorem same_iff (cell : Cell) : (bindParameter limit host cell).1 = .ok ∧
    Same host.round cell.value (columnValue (bindParameter limit host cell).2) ↔ Kept limit cell := by
  obtain ⟨value, plain, allocated, filled⟩ := cell
  cases value with
  | none => simp [bindParameter, Same, Kept, columnValue]
  | bool b => simp [bindParameter, bindInteger_bool, Same, Kept, columnValue]
  | sint n => simp [bindParameter, bindInteger_sint, Same, Kept, columnValue]
  | uint n =>
    have hbind : bindParameter limit host ⟨.uint n, plain, allocated, filled⟩ = bindInteger host (.uint n) := rfl
    rw [hbind]
    by_cases h : n.toNat < 2 ^ 63
    · rw [bindInteger_uint h]
      exact iff_of_true ⟨rfl, (same_uint h).mpr rfl⟩ h
    · obtain ⟨m, hm⟩ := bindInteger_integer ⟨n.toNat, @asLargestSint_uint host n⟩
      rw [hm]
      exact iff_of_false (fun hsame => not_same_uint h hsame.2) h
  | string s =>
    exact (same_bound limit host ⟨.string s, plain, allocated, filled⟩ rfl rfl).trans bindText_iff
  | bytevector b =>
    have hbind : bindParameter limit host ⟨.bytevector b, plain, allocated, filled⟩ =
      bindBlob limit (if allocated then some b else none) (toInt b.length) := rfl
    have hiff : bindBlob limit (if allocated = true then some b else none) (toInt b.length) = (.ok, .blob b) ↔ _ := bindBlob_iff
    rw [hbind]
    generalize bindBlob limit (if allocated then some b else none) (toInt b.length) = r at hiff ⊢
    exact same_bytevector.trans hiff
  | _ => exact plain.elim

/-! ## Rows -/

/-- What the parameters of a statement hold after a row. -/
def bound (limit : Limit) (host : Host) (row : List Cell) : List Stored := row.map fun cell => (bindParameter limit host cell).2

theorem bindInputParameters_iff {first last bindings : List Stored} {cells : List Cell} (h : last.length = cells.length) :
    bindInputParameters limit host (first ++ last) first.length cells = .ok bindings ↔
      (∀ cell ∈ cells, (bindParameter limit host cell).1 = .ok) ∧ bindings = first ++ bound limit host cells := by
  induction cells generalizing first last with
  | nil =>
    rw [List.length_nil, List.length_eq_zero_iff] at h
    rw [h, bindInputParameters, Except.ok.injEq]
    simp [bound, eq_comm]
  | cons cell cells ih =>
    obtain ⟨old, last, rfl⟩ := List.exists_cons_of_length_eq_add_one h
    have hindex : first.length < (first ++ old :: last).length := by simp
    have hset : (first ++ old :: last).set first.length (bindParameter limit host cell).2 =
        (first ++ [(bindParameter limit host cell).2]) ++ last := by simp
    unfold bindInputParameters
    rw [if_pos hindex]
    dsimp only
    rw [List.forall_mem_cons]
    by_cases hok : (bindParameter limit host cell).1 = .ok
    · have hlength : first.length + 1 = (first ++ [(bindParameter limit host cell).2]).length := by simp
      rw [if_pos hok, hset, hlength, ih (by simpa using h)]
      simp [bound, hok]
    · rw [if_neg hok]
      simp [hok]

theorem executeMulti_iff {columns : ℕ} {table result : List (List Stored)} {rows : List (List Cell)} (h : ∀ row ∈ rows, row.length = columns) :
    executeMulti limit host columns table rows = (result, none) ↔
      (∀ row ∈ rows, ∀ cell ∈ row, (bindParameter limit host cell).1 = .ok) ∧ result = table ++ rows.map (bound limit host) := by
  induction rows generalizing table with
  | nil =>
    rw [executeMulti, Prod.mk.injEq]
    simp [eq_comm]
  | cons row rows ih =>
    obtain ⟨hrow, h⟩ := List.forall_mem_cons.mp h
    have hlength : (List.replicate columns Stored.null).length = row.length := by rw [List.length_replicate, hrow]
    have hbind : ∀ bindings, bindInputParameters limit host ([] ++ List.replicate columns .null) ([] : List Stored).length row = .ok bindings ↔
        (∀ cell ∈ row, (bindParameter limit host cell).1 = .ok) ∧ bindings = [] ++ bound limit host row :=
      fun _ => bindInputParameters_iff hlength
    unfold executeMulti
    rw [List.forall_mem_cons]
    cases hresult : bindInputParameters limit host (List.replicate columns .null) 0 row with
    | ok bindings =>
      obtain ⟨hok, rfl⟩ := (hbind bindings).mp hresult
      simp only [ih h, List.nil_append, List.map_cons, List.append_assoc, List.singleton_append, and_assoc]
      exact (and_iff_right hok).symm
    | error status =>
      have hnot : ¬ ∀ cell ∈ row, (bindParameter limit host cell).1 = .ok := by
        intro hok
        have hback := (hbind (bound limit host row)).mpr ⟨hok, rfl⟩
        rw [List.nil_append, List.length_nil, hresult] at hback
        cases hback
      simp [hnot]

/-- Columns in order hold what their parameters did. -/
theorem forall₂_extractRow {P : Cell → Value → Prop} {columnNames : List Bytes} {row : List Cell} (h : row.length = columnNames.length) :
    List.Forall₂ (fun cell (column : Option Bytes × Value) => P cell column.2) row (extractRow columnNames (bound limit host row)) ↔
      ∀ cell ∈ row, P cell (columnValue (bindParameter limit host cell).2) := by
  induction row generalizing columnNames with
  | nil => simp [extractRow, bound]
  | cons cell row ih =>
    cases columnNames with
    | nil => cases h
    | cons name columnNames =>
      have hrest := ih (show row.length = columnNames.length by simpa using h)
      unfold extractRow bound at hrest ⊢
      rw [List.map_cons, List.zipWith_cons_cons, List.forall₂_cons, hrest, List.forall_mem_cons]

theorem restored_iff {columnNames : List Bytes} {table : List (List Stored)} {rows : Rows columnNames} :
    Restored limit host columnNames table rows ↔ ∀ row ∈ rows.rows, ∀ cell ∈ row, (bindParameter limit host cell).1 = .ok ∧
      Same host.round cell.value (columnValue (bindParameter limit host cell).2) := by
  unfold Restored
  simp only [executeMulti_iff rows.sized]
  constructor
  · rintro ⟨inserted, ⟨hok, hinserted⟩, hsame⟩ row hrow cell hcell
    rw [List.append_cancel_left hinserted, List.forall₂_map_right_iff, List.forall₂_same] at hsame
    have hrowsame := (forall₂_extractRow (rows.sized row hrow)).mp (hsame row hrow)
    exact ⟨hok row hrow cell hcell, hrowsame cell hcell⟩
  · intro h
    refine ⟨rows.rows.map (bound limit host), ⟨fun row hrow cell hcell => (h row hrow cell hcell).1, rfl⟩, ?_⟩
    rw [List.forall₂_map_right_iff, List.forall₂_same]
    intro row hrow
    rw [forall₂_extractRow (rows.sized row hrow)]
    exact fun cell hcell => (h row hrow cell hcell).2

end

/-- Rows come back exactly when each of their values can be held. -/
theorem rows_restored_iff (limit : Limit) (host : Host) (columnNames : List Bytes) (table : List (List Stored)) (rows : Rows columnNames) :
    Restored limit host columnNames table rows ↔ ∀ row ∈ rows.rows, ∀ cell ∈ row, Kept limit cell := by
  simp only [restored_iff, same_iff]

/-- One row with the least unsigned integer that is not a signed one. -/
def leastWide : Rows [ascii "n"] where
  rows := [[⟨.uint (2 ^ 63), trivial, true, nofun⟩]]
  sized := by simp

def noHost : Host := ⟨fun _ => none, fun _ => .nan, fun _ => []⟩

theorem least_wide_not_restored : ¬ Restored ⟨1000000000, by decide⟩ noHost [ascii "n"] [] leastWide := by
  rw [restored_iff]
  intro h
  have hkept : (2 ^ 63 : UInt64).toNat < 2 ^ 63 := (same_iff _).mp (h _ List.mem_cons_self _ List.mem_cons_self)
  exact absurd hkept (by decide +kernel)

end Sqlite

end CommonCore
