import CommonCore.FromChars

/-!
# Byte vectors in base 64

`ByteVector::to_base64` and `from_base64`.
-/

namespace CommonCore

namespace ByteVector

def codeTable : Bytes := ascii "ABCDEFGHIJKLMNOPQRSTUVWXYZabcdefghijklmnopqrstuvwxyz0123456789+/"

def padChar : UInt8 := 0x3d

/-- The code of the six bits of `temp` above the last `shift` ones. -/
def code (temp : UInt32) (shift : UInt32) : UInt8 := codeTable.getD ((temp >>> shift) &&& 0x3f).toNat 0

def toBase64 : Bytes → Bytes
  | [] => []
  | [a] =>
    let temp := a.toUInt32 <<< 16
    [code temp 18, code temp 12, padChar, padChar]
  | [a, b] =>
    let temp := (a.toUInt32 <<< 16) + (b.toUInt32 <<< 8)
    [code temp 18, code temp 12, code temp 6, padChar]
  | a :: b :: c :: rest =>
    let temp := (a.toUInt32 <<< 16) + (b.toUInt32 <<< 8) + c.toUInt32
    [code temp 18, code temp 12, code temp 6, code temp 0] ++ toBase64 rest

/-- The six bits that a character stands for. -/
def sextet (c : UInt8) : Option UInt32 :=
  if isUpper c then some (c.toUInt32 - 0x41)
  else if isLower c then some (c.toUInt32 - 0x47)
  else if isDigit c then some (c.toUInt32 + 0x04)
  else if c = plus then some 0x3e
  else if c = 0x2f then some 0x3f
  else none

/-- What is decoded from the `i`-th character of a group on, after `temp`. -/
def decodeFrom : ℕ → UInt32 → Bytes → Except Bytes Bytes
  | _, _, [] => .ok []
  | i, temp, c :: s =>
    let temp := temp <<< 6
    if c = padChar then
      match s.length with
      | 0 => .ok [(temp >>> 16).toUInt8, (temp >>> 8).toUInt8]
      | 1 => .ok [(temp >>> 10).toUInt8]
      | n => .error (ascii "Invalid padding length " ++ decimal (n + 1) ++ ascii " in base64!")
    else
      match sextet c with
      | none => .error (ascii "Invalid character '" ++ [c] ++ ascii "' in base64!")
      | some v =>
        let temp := temp ||| v
        if i = 3 then
          (decodeFrom 0 0 s).map fun decoded =>
            (temp >>> 16).toUInt8 :: (temp >>> 8).toUInt8 :: temp.toUInt8 :: decoded
        else decodeFrom (i + 1) temp s

def fromBase64 (input : Bytes) : Except Bytes Bytes :=
  if 0 < input.length % 4 then
    .error (ascii "Invalid base64 string length " ++ decimal input.length ++ ascii ", must be a multiple of 4")
  else decodeFrom 0 0 input

/-! ## The shape of the text -/

theorem length_toBase64 (b : Bytes) : (toBase64 b).length % 4 = 0 := by
  fun_induction toBase64 b with
  | case1 => rfl
  | case2 => simp
  | case3 => simp
  | case4 a b c rest temp ih =>
    rw [List.length_append]
    simp only [List.length_cons, List.length_nil]
    omega

theorem code_mem (temp shift : UInt32) : code temp shift ∈ codeTable := by
  unfold code
  have hlt : ((temp >>> shift) &&& 0x3f).toNat < codeTable.length := by
    rw [UInt32.toNat_and]
    show _ &&& 63 < 64
    exact Nat.lt_succ_of_le Nat.and_le_right
  rw [List.getD_eq_getElem _ _ hlt]
  exact List.getElem_mem hlt

/-- One or more characters of the table, and up to two for padding. -/
theorem toBase64_shape {b : Bytes} (hb : b ≠ []) :
    ∃ body pad, toBase64 b = body ++ pad ∧ body ≠ [] ∧ (∀ c ∈ body, c ∈ codeTable) ∧
      pad ∈ [[], [padChar], [padChar, padChar]] := by
  fun_induction toBase64 b with
  | case1 => exact absurd rfl hb
  | case2 a temp =>
    exact ⟨[code temp 18, code temp 12], [padChar, padChar], rfl, by simp, by simp [code_mem], by simp⟩
  | case3 a b temp =>
    exact ⟨[code temp 18, code temp 12, code temp 6], [padChar], rfl, by simp, by simp [code_mem], by simp⟩
  | case4 a b c rest temp ih =>
    have hgroup : ∀ d ∈ [code temp 18, code temp 12, code temp 6, code temp 0], d ∈ codeTable := by
      simp [code_mem]
    by_cases hrest : rest = []
    · exact ⟨_, [], by rw [hrest]; rfl, by simp, hgroup, by simp⟩
    · obtain ⟨body, pad, htext, -, hbody, hpad⟩ := ih hrest
      refine ⟨[code temp 18, code temp 12, code temp 6, code temp 0] ++ body, pad, ?_, by simp, ?_, hpad⟩
      · rw [htext, List.append_assoc]
      · intro d hd
        rcases List.mem_append.mp hd with hd | hd
        · exact hgroup d hd
        · exact hbody d hd

end ByteVector

end CommonCore
