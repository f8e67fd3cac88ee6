import CommonCore.Base64
import CommonCore.Escapes
import Mathlib.Algebra.Order.Floor.Div

/-!
# Byte vectors and their texts

Base 64 restores every byte vector. Its decoder stops at a padding character next
to the end of the text, whatever follows there. The decoder of hexadecimal digits
fails on every text.
-/

namespace CommonCore

namespace ByteVector

/-! ## Base 64 is decoded -/

set_option maxRecDepth 4000 in
theorem sextet_codeTable : ∀ n < 64, sextet (codeTable.getD n 0) = some (UInt32.ofNat n) := by decide

theorem padChar_codeTable : ∀ n < 64, codeTable.getD n 0 ≠ padChar := by decide

/-- The six bits above the last `shift` ones. -/
def bits (temp shift : UInt32) : ℕ := temp.toNat / 2 ^ shift.toNat % 64

theorem code_eq {temp shift : UInt32} (hshift : shift.toNat < 32) : code temp shift = codeTable.getD (bits temp shift) 0 := by
  have hbits : ((temp >>> shift) &&& 0x3f).toNat = bits temp shift := by
    rw [UInt32.toNat_and, UInt32.toNat_shiftRight, Nat.mod_eq_of_lt hshift, Nat.shiftRight_eq_div_pow]
    exact Nat.and_two_pow_sub_one_eq_mod _ 6
  rw [code, hbits]

theorem sextet_code (temp : UInt32) {shift : UInt32} (hshift : shift.toNat < 32) :
    sextet (code temp shift) = some (UInt32.ofNat (bits temp shift)) ∧ code temp shift ≠ padChar := by
  have hlt : bits temp shift < 64 := Nat.mod_lt _ (by decide)
  rw [code_eq hshift]
  exact ⟨sextet_codeTable _ hlt, padChar_codeTable _ hlt⟩

/-- `temp`, with one more sextet below it. -/
def push (temp : UInt32) (n : ℕ) : UInt32 := temp <<< 6 ||| UInt32.ofNat n

theorem toNat_push {temp : UInt32} {n : ℕ} (htemp : temp.toNat < 2 ^ 26) (hn : n < 64) : (push temp n).toNat = temp.toNat * 64 + n := by
  have hshift : (temp <<< 6).toNat = temp.toNat <<< 6 := by
    rw [UInt32.toNat_shiftLeft]
    refine Nat.mod_eq_of_lt ?_
    show temp.toNat <<< 6 < 2 ^ 32
    rw [Nat.shiftLeft_eq]
    omega
  rw [push, UInt32.toNat_or, hshift, UInt32.toNat_ofNat_of_lt' (hn.trans (by decide)), ← Nat.shiftLeft_add_eq_or_of_lt (by omega), Nat.shiftLeft_eq]

theorem decodeFrom_code {temp shift t : UInt32} {i : ℕ} {s : Bytes} (hshift : shift.toNat < 32) (hi : i ≠ 3) :
    decodeFrom i t (code temp shift :: s) = decodeFrom (i + 1) (push t (bits temp shift)) s := by
  obtain ⟨hsextet, hpad⟩ := sextet_code temp hshift
  rw [decodeFrom, if_neg hpad, hsextet]
  exact if_neg hi

theorem decodeFrom_last {temp shift t : UInt32} {s : Bytes} (hshift : shift.toNat < 32) :
    decodeFrom 3 t (code temp shift :: s) = (decodeFrom 0 0 s).map fun decoded =>
      (push t (bits temp shift) >>> 16).toUInt8 :: (push t (bits temp shift) >>> 8).toUInt8 ::
        (push t (bits temp shift)).toUInt8 :: decoded := by
  obtain ⟨hsextet, hpad⟩ := sextet_code temp hshift
  rw [decodeFrom, if_neg hpad, hsextet]
  rfl

theorem toNat_shiftLeft (a : UInt8) {shift : UInt32} (hshift : shift.toNat ≤ 16) :
    (a.toUInt32 <<< shift).toNat = a.toNat * 2 ^ shift.toNat := by
  have ha := a.toNat_lt
  have hle : a.toNat * 2 ^ shift.toNat ≤ 255 * 2 ^ 16 :=
    Nat.mul_le_mul (by omega) (Nat.pow_le_pow_right (by decide) hshift)
  rw [UInt32.toNat_shiftLeft, UInt8.toNat_toUInt32, Nat.mod_eq_of_lt (show shift.toNat < 32 by omega), Nat.shiftLeft_eq]
  exact Nat.mod_eq_of_lt (by omega)

theorem toUInt8_shiftRight {temp shift : UInt32} {a : UInt8} (hshift : shift.toNat < 32)
    (h : temp.toNat / 2 ^ shift.toNat % 256 = a.toNat) : (temp >>> shift).toUInt8 = a := by
  apply UInt8.toNat_inj.mp
  rw [UInt32.toNat_toUInt8, UInt32.toNat_shiftRight, Nat.mod_eq_of_lt hshift, Nat.shiftRight_eq_div_pow]
  exact h

theorem toNat_pair (a b : UInt8) : (a.toUInt32 <<< 16 + b.toUInt32 <<< 8).toNat = a.toNat * 2 ^ 16 + b.toNat * 2 ^ 8 := by
  have ha := a.toNat_lt
  have hb := b.toNat_lt
  rw [UInt32.toNat_add, toNat_shiftLeft a (by decide), toNat_shiftLeft b (by decide)]
  exact Nat.mod_eq_of_lt (show a.toNat * 2 ^ 16 + b.toNat * 2 ^ 8 < 2 ^ 32 by omega)

theorem toNat_group (a b c : UInt8) :
    (a.toUInt32 <<< 16 + b.toUInt32 <<< 8 + c.toUInt32).toNat = a.toNat * 2 ^ 16 + b.toNat * 2 ^ 8 + c.toNat := by
  have ha := a.toNat_lt
  have hb := b.toNat_lt
  have hc := c.toNat_lt
  rw [UInt32.toNat_add, toNat_pair, UInt8.toNat_toUInt32]
  exact Nat.mod_eq_of_lt (by omega)

theorem bits_lt (temp shift : UInt32) : bits temp shift < 64 := Nat.mod_lt _ (by decide)

theorem toNat_push_two {n m : ℕ} (hn : n < 64) (hm : m < 64) : (push (push 0 n) m).toNat = n * 64 + m := by
  have hfirst : (push 0 n).toNat = 0 * 64 + n := toNat_push (by decide) hn
  rw [toNat_push (by omega) hm]
  omega

theorem toNat_push_three {n m k : ℕ} (hn : n < 64) (hm : m < 64) (hk : k < 64) :
    (push (push (push 0 n) m) k).toNat = (n * 64 + m) * 64 + k := by
  have htwo := toNat_push_two hn hm
  rw [toNat_push (by omega) hk, htwo]

theorem toNat_push_four {n m k l : ℕ} (hn : n < 64) (hm : m < 64) (hk : k < 64) (hl : l < 64) :
    (push (push (push (push 0 n) m) k) l).toNat = ((n * 64 + m) * 64 + k) * 64 + l := by
  have hthree := toNat_push_three hn hm hk
  rw [toNat_push (by omega) hl, hthree]

theorem push_zero (temp : UInt32) : push temp 0 = temp <<< 6 := by
  apply UInt32.toNat_inj.mp
  rw [push, UInt32.toNat_or]
  exact Nat.or_zero _

theorem decodeFrom_pad (i : ℕ) (t : UInt32) : decodeFrom i t [padChar] = .ok [(push t 0 >>> 16).toUInt8, (push t 0 >>> 8).toUInt8] := by
  rw [push_zero]
  rfl

theorem decodeFrom_pads (i : ℕ) (t : UInt32) (c : UInt8) : decodeFrom i t [padChar, c] = .ok [(push t 0 >>> 10).toUInt8] := by
  rw [push_zero]
  rfl

theorem decodeFrom_toBase64 (b : Bytes) : decodeFrom 0 0 (toBase64 b) = .ok b := by
  fun_induction toBase64 b with
  | case1 => rfl
  | case2 a temp =>
    have htemp : temp.toNat = a.toNat * 2 ^ 16 := toNat_shiftLeft a (by decide)
    have ha := a.toNat_lt
    have hpush := toNat_push_three (bits_lt temp 18) (bits_lt temp 12) (show 0 < 64 by decide)
    have hhigh : (push (push (push 0 (bits temp 18)) (bits temp 12)) 0).toNat = temp.toNat / 2 ^ 6 := by
      rw [hpush]
      show (temp.toNat / 2 ^ 18 % 64 * 64 + temp.toNat / 2 ^ 12 % 64) * 64 + 0 = _
      omega
    rw [decodeFrom_code (by decide) (by decide), decodeFrom_code (by decide) (by decide), decodeFrom_pads,
      toUInt8_shiftRight (a := a) (by decide) (by rw [hhigh]; show _ / 2 ^ 10 % 256 = _; omega)]
  | case3 a b temp =>
    have htemp : temp.toNat = a.toNat * 2 ^ 16 + b.toNat * 2 ^ 8 := toNat_pair a b
    have ha := a.toNat_lt
    have hb := b.toNat_lt
    have hpush := toNat_push_four (bits_lt temp 18) (bits_lt temp 12) (bits_lt temp 6) (show 0 < 64 by decide)
    have hsame : (push (push (push (push 0 (bits temp 18)) (bits temp 12)) (bits temp 6)) 0).toNat = temp.toNat := by
      rw [hpush]
      show ((temp.toNat / 2 ^ 18 % 64 * 64 + temp.toNat / 2 ^ 12 % 64) * 64 + temp.toNat / 2 ^ 6 % 64) * 64 + 0 = _
      omega
    rw [decodeFrom_code (by decide) (by decide), decodeFrom_code (by decide) (by decide), decodeFrom_code (by decide) (by decide),
      decodeFrom_pad, toUInt8_shiftRight (a := a) (by decide) (by rw [hsame]; show _ / 2 ^ 16 % 256 = _; omega),
      toUInt8_shiftRight (a := b) (by decide) (by rw [hsame]; show _ / 2 ^ 8 % 256 = _; omega)]
  | case4 a b c rest temp ih =>
    have htemp : temp.toNat = a.toNat * 2 ^ 16 + b.toNat * 2 ^ 8 + c.toNat := toNat_group a b c
    have ha := a.toNat_lt
    have hb := b.toNat_lt
    have hc := c.toNat_lt
    have hpush := toNat_push_four (bits_lt temp 18) (bits_lt temp 12) (bits_lt temp 6) (bits_lt temp 0)
    have hsame : (push (push (push (push 0 (bits temp 18)) (bits temp 12)) (bits temp 6)) (bits temp 0)).toNat = temp.toNat := by
      rw [hpush]
      show ((temp.toNat / 2 ^ 18 % 64 * 64 + temp.toNat / 2 ^ 12 % 64) * 64 + temp.toNat / 2 ^ 6 % 64) * 64 + temp.toNat / 2 ^ 0 % 64 = _
      omega
    have hlow : (push (push (push (push 0 (bits temp 18)) (bits temp 12)) (bits temp 6)) (bits temp 0)).toUInt8 = c := by
      apply UInt8.toNat_inj.mp
      rw [UInt32.toNat_toUInt8, hsame]
      omega
    simp only [List.cons_append, List.nil_append]
    rw [decodeFrom_code (by decide) (by decide), decodeFrom_code (by decide) (by decide), decodeFrom_code (by decide) (by decide),
      decodeFrom_last (by decide), ih, Except.map, hlow,
      toUInt8_shiftRight (a := a) (by decide) (by rw [hsame]; show _ / 2 ^ 16 % 256 = _; omega),
      toUInt8_shiftRight (a := b) (by decide) (by rw [hsame]; show _ / 2 ^ 8 % 256 = _; omega)]

theorem length_toBase64_eq (b : Bytes) : (toBase64 b).length = 4 * (b.length ⌈/⌉ 3) := by
  rw [Nat.ceilDiv_eq_add_pred_div]
  fun_induction toBase64 b with
  | case1 => rfl
  | case2 => simp
  | case3 => simp
  | case4 a b c rest temp ih =>
    rw [List.length_append, ih]
    simp only [List.length_cons, List.length_nil]
    omega

/-- At most two characters for padding follow on the characters of the table. -/
def Padded (s : Bytes) : Prop :=
  ∃ body pad, s = body ++ pad ∧ (∀ c ∈ body, c ∈ codeTable) ∧ pad ∈ [[], [padChar], [padChar, padChar]]

theorem padded_toBase64 (b : Bytes) : Padded (toBase64 b) := by
  by_cases hb : b = []
  · subst hb
    exact ⟨[], [], rfl, by simp, by simp⟩
  · obtain ⟨body, pad, htext, -, hbody, hpad⟩ := toBase64_shape hb
    exact ⟨body, pad, htext, hbody, hpad⟩

theorem base64_restored (b : Bytes) :
    fromBase64 (toBase64 b) = .ok b ∧ (toBase64 b).length = 4 * (b.length ⌈/⌉ 3) ∧ Padded (toBase64 b) := by
  refine ⟨?_, length_toBase64_eq b, padded_toBase64 b⟩
  rw [fromBase64, length_toBase64, if_neg (Nat.lt_irrefl 0)]
  exact decodeFrom_toBase64 b

/-! ## What base 64 is decoded from -/

/-- What is left of a text after the characters of the table. -/
def rest (s : Bytes) : Bytes := s.dropWhile codeTable.contains

theorem rest_cons_mem {c : UInt8} (hc : c ∈ codeTable) (s : Bytes) : rest (c :: s) = rest s :=
  List.dropWhile_cons_of_pos (List.contains_iff_mem.mpr hc)

theorem rest_cons_notMem {c : UInt8} (hc : c ∉ codeTable) (s : Bytes) : rest (c :: s) = c :: s :=
  List.dropWhile_cons_of_neg (mt List.contains_iff_mem.mp hc)

theorem padChar_notMem : padChar ∉ codeTable := by decide

theorem codeTable_sextet : ∀ c, (sextet c).all (fun v => v.toNat < 64 && codeTable.getD v.toNat 0 == c) = true := by
  apply forall_byte
  decide +kernel

theorem length_codeTable : codeTable.length = 64 := by decide

theorem sextet_isSome (c : UInt8) : (sextet c).isSome = true ↔ c ∈ codeTable := by
  constructor
  · intro h
    obtain ⟨v, hv⟩ := Option.isSome_iff_exists.mp h
    have hall := codeTable_sextet c
    rw [hv, Option.all_some, Bool.and_eq_true, decide_eq_true_eq, beq_iff_eq] at hall
    obtain ⟨hlt, hc⟩ := hall
    have hindex : v.toNat < codeTable.length := hlt.trans_eq length_codeTable.symm
    rw [← hc, List.getD_eq_getElem codeTable 0 hindex]
    exact List.getElem_mem hindex
  · intro h
    obtain ⟨n, hindex, rfl⟩ := List.getElem_of_mem h
    rw [← List.getD_eq_getElem codeTable 0 hindex, sextet_codeTable n (hindex.trans_eq length_codeTable)]
    rfl

/-- A text of the table's characters, and what follows on them. -/
theorem split_iff {P : Bytes → Prop} (hP : ∀ tail, P tail → rest tail = tail) (s : Bytes) :
    (∃ body tail, s = body ++ tail ∧ (∀ c ∈ body, c ∈ codeTable) ∧ P tail) ↔ P (rest s) := by
  constructor
  · rintro ⟨body, tail, rfl, hbody, htail⟩
    have hrest : rest (body ++ tail) = rest tail :=
      List.dropWhile_append_of_pos fun c hc => List.contains_iff_mem.mpr (hbody c hc)
    rw [hrest, hP tail htail]
    exact htail
  · intro h
    refine ⟨s.takeWhile codeTable.contains, rest s, List.takeWhile_append_dropWhile.symm, fun c hc => ?_, h⟩
    exact List.contains_iff_mem.mp (List.mem_takeWhile_imp hc)

/-- The decoder stops there without an error. -/
def Stops : Bytes → Prop
  | [] => True
  | c :: s => c = padChar ∧ s.length ≤ 1

theorem decodeFrom_ok_iff (i : ℕ) (t : UInt32) (s : Bytes) : (∃ decoded, decodeFrom i t s = .ok decoded) ↔ Stops (rest s) := by
  induction s generalizing i t with
  | nil => exact iff_of_true ⟨[], rfl⟩ trivial
  | cons c s ih =>
    rw [decodeFrom]
    by_cases hpad : c = padChar
    · rw [if_pos hpad, hpad, rest_cons_notMem padChar_notMem]
      match s with
      | [] => exact iff_of_true ⟨_, rfl⟩ ⟨rfl, Nat.zero_le 1⟩
      | [d] => exact iff_of_true ⟨_, rfl⟩ ⟨rfl, le_rfl⟩
      | d :: e :: s => exact iff_of_false (fun ⟨_, h⟩ => absurd h (by simp)) fun h => absurd h.2 (by simp)
    · rw [if_neg hpad]
      cases hsextet : sextet c with
      | none =>
        have hmem : c ∉ codeTable := by
          rw [← sextet_isSome, hsextet]
          simp
        rw [rest_cons_notMem hmem]
        exact iff_of_false (fun ⟨_, h⟩ => absurd h (by simp)) fun h => hpad h.1
      | some v =>
        have hmem : c ∈ codeTable := by
          rw [← sextet_isSome, hsextet]
          rfl
        rw [rest_cons_mem hmem]
        dsimp only
        split_ifs
        · rw [← ih 0 0]
          cases decodeFrom 0 0 s with
          | error e => exact iff_of_false (fun ⟨_, h⟩ => absurd h (by simp [Except.map])) fun ⟨_, h⟩ => absurd h (by simp)
          | ok decoded => exact iff_of_true ⟨_, rfl⟩ ⟨_, rfl⟩
        · exact ih (i + 1) _

def Accepted (s : Bytes) : Prop := ∃ decoded, fromBase64 s = .ok decoded

theorem accepted_iff (s : Bytes) : Accepted s ↔ s.length % 4 = 0 ∧ Stops (rest s) := by
  rw [Accepted, fromBase64]
  split_ifs with h
  · exact iff_of_false (fun ⟨_, h⟩ => absurd h (by simp)) fun h' => absurd h'.1 (by omega)
  · rw [decodeFrom_ok_iff]
    exact (and_iff_right (by omega)).symm

theorem padded_iff (s : Bytes) : Padded s ↔ rest s ∈ [[], [padChar], [padChar, padChar]] := by
  refine split_iff (fun tail htail => ?_) s
  simp only [List.mem_cons, List.not_mem_nil, or_false] at htail
  rcases htail with rfl | rfl | rfl
  · rfl
  · exact rest_cons_notMem padChar_notMem _
  · exact rest_cons_notMem padChar_notMem _

/-- Something else follows on a padding character that is next to the end. -/
def Overlooked (s : Bytes) : Prop :=
  s.length % 4 = 0 ∧ ∃ body tail, s = body ++ tail ∧ (∀ c ∈ body, c ∈ codeTable) ∧ ∃ c, c ≠ padChar ∧ tail = [padChar, c]

theorem overlooked_iff (s : Bytes) : Overlooked s ↔ s.length % 4 = 0 ∧ ∃ c, c ≠ padChar ∧ rest s = [padChar, c] := by
  refine and_congr_right fun _ => split_iff (fun tail htail => ?_) s
  obtain ⟨c, -, rfl⟩ := htail
  exact rest_cons_notMem padChar_notMem _

theorem accepted_iff_padded_iff (s : Bytes) : (Accepted s ↔ s.length % 4 = 0 ∧ Padded s) ↔ ¬ Overlooked s := by
  rw [accepted_iff, padded_iff, overlooked_iff]
  by_cases hlength : s.length % 4 = 0
  · simp only [hlength, true_and]
    match rest s with
    | [] => simp [Stops]
    | [c] => by_cases hc : c = padChar <;> simp [Stops, hc]
    | [c, d] => by_cases hc : c = padChar <;> by_cases hd : d = padChar <;> simp [Stops, hc, hd]
    | c :: d :: e :: tail => simp [Stops]
  · simp [hlength]

theorem overlooked_accepted : ¬ (Accepted (ascii "AA=A") ↔ (ascii "AA=A").length % 4 = 0 ∧ Padded (ascii "AA=A")) := by
  have haccepted : Accepted (ascii "AA=A") := ⟨[0], rfl⟩
  have hpadded : ¬ Padded (ascii "AA=A") := by
    rw [padded_iff]
    decide
  exact fun h => hpadded (h.mp haccepted).2

/-! ## Hexadecimal digits -/

inductive HexError
  | invalidArgument (message : Bytes)
  | outOfRange
  deriving DecidableEq

def xdigits (uppercase : Bool) : Bytes := ascii (if uppercase then "0123456789ABCDEF" else "0123456789abcdef")

/-- Groups of `groupsize` bytes are separated by blanks, if that is not zero. -/
def toHex (b : Bytes) (uppercase : Bool) (groupsize : ℕ) : Bytes :=
  b.zipIdx.flatMap fun (byte, i) =>
    [(xdigits uppercase).getD (byte >>> 4).toNat 0, (xdigits uppercase).getD (byte &&& 0xf).toNat 0] ++
      if groupsize ≠ 0 ∧ (i + 1) % groupsize = 0 ∧ i + 1 < b.length then [0x20] else []

/-- What the table of digits is filled with. -/
def digitValues : List (UInt8 × UInt8) :=
  ((List.range 10).map fun n => (UInt8.ofNat (0x30 + n), UInt8.ofNat n)) ++
    ((List.range 6).map fun n => (UInt8.ofNat (0x41 + n), UInt8.ofNat n)) ++
      (List.range 6).map fun n => (UInt8.ofNat (0x61 + n), UInt8.ofNat n)

/-- The loops that fill the table. An element has to be there to be assigned. -/
def fill : List UInt8 → List (UInt8 × UInt8) → Except HexError Unit × List UInt8
  | table, [] => (.ok (), table)
  | table, (c, v) :: digits =>
    if c.toNat < table.length then fill (table.set c.toNat v) digits else (.error .outOfRange, table)

/-- `digit_values.at(c)`. A negative character is no index. -/
def valueAt (table : List UInt8) (c : UInt8) : Except HexError UInt8 :=
  match if c < 0x80 then table[c.toNat]? else none with
  | some v => .ok v
  | none => .error .outOfRange

def decodeHex (table : List UInt8) : Bytes → Except HexError Bytes
  | c :: d :: s => do
    let high ← valueAt table c
    let low ← valueAt table d
    return (high <<< 4 ||| low) :: (← decodeHex table s)
  | _ => .ok []

/-- Memory is reserved for the table, and nothing is put there. -/
def fromHex (table : List UInt8) (input : Bytes) : Except HexError Bytes × List UInt8 :=
  if 0 < input.length % 2 then
    (.error (.invalidArgument (ascii "Invalid hexadecimal string length " ++ decimal input.length ++ ascii ", must be a multiple of 2")),
      table)
  else if table = [] then
    match fill table digitValues with
    | (.error e, table) => (.error e, table)
    | (.ok (), table) => (decodeHex table input, table)
  else (decodeHex table input, table)

/-- The table after these calls. -/
def tableAfter (inputs : List Bytes) : List UInt8 := inputs.foldl (fun table input => (fromHex table input).2) []

theorem fromHex_nil (input : Bytes) : ∃ e, fromHex [] input = (.error e, []) := by
  rw [fromHex, if_pos rfl]
  split_ifs
  · exact ⟨_, rfl⟩
  · exact ⟨.outOfRange, rfl⟩

theorem tableAfter_eq (inputs : List Bytes) : tableAfter inputs = [] := by
  induction inputs using List.reverseRecOn with
  | nil => rfl
  | append_singleton inputs input ih =>
    obtain ⟨e, he⟩ := fromHex_nil input
    rw [tableAfter, List.foldl_append, ← tableAfter, ih]
    exact congrArg Prod.snd he

/-- What is decoded by a call after these. -/
def hexDecoded (inputs : List Bytes) (input : Bytes) : Except HexError Bytes := (fromHex (tableAfter inputs) input).1

theorem hex_never_decoded (inputs : List Bytes) :
    (∀ b uppercase, hexDecoded inputs (toHex b uppercase 0) ≠ .ok b) ∧ ∀ s, ∃ e, hexDecoded inputs s = .error e := by
  have hfails : ∀ s, ∃ e, hexDecoded inputs s = .error e := by
    intro s
    obtain ⟨e, he⟩ := fromHex_nil s
    exact ⟨e, by rw [hexDecoded, tableAfter_eq, he]⟩
  refine ⟨fun b uppercase h => ?_, hfails⟩
  obtain ⟨e, he⟩ := hfails (toHex b uppercase 0)
  rw [he] at h
  cases h

theorem hex_not_decoded : ¬ ∀ (inputs : List Bytes) (b : Bytes) (uppercase : Bool), hexDecoded inputs (toHex b uppercase 0) = .ok b := by
  intro h
  have hfirst : hexDecoded [] (toHex [0x2a] false 0) = .error .outOfRange := rfl
  have := h [] [0x2a] false
  rw [hfirst] at this
  cases this

end ByteVector

end CommonCore
