import CommonCore.JsonPlain
import CommonCore.Literals

/-!
# Writing JSON

`core::json::CustomWriter`. What it writes is read again, but not always as the
value that was written (`rewritten_iff`): two tables of escapes differ.
-/

namespace CommonCore

namespace Json

open Parsers Grammar

/-! ## The writer -/

/-- `infix`: the start of a line, where there are lines. -/
def lineStart (pretty : Bool) (indent : Bytes) : Bytes := if pretty then 0x0a :: indent else []

def subIndent (pretty : Bool) : Bytes := if pretty then ascii "  " else []

def kvSeparator (pretty : Bool) : Bytes := if pretty then ascii ": " else ascii ":"

/-- The loops of `to_stream`, over items that have been written. -/
def writeItems (lead : Bytes) : Bytes → List Bytes → Bytes
  | _, [] => []
  | delimiter, item :: items => delimiter ++ lead ++ item ++ writeItems lead (ascii ",") items

def enclose (pretty : Bool) (indent : Bytes) (opening closing : UInt8) (items : List Bytes) : Bytes :=
  opening :: writeItems (lineStart pretty indent ++ subIndent pretty) [] items ++ lineStart pretty indent ++ [closing]

def writeEntry (pretty : Bool) (key value : Bytes) : Bytes := quoted key ++ kvSeparator pretty ++ value

section
variable (N : Numerics) (durationToJsString : Int → Bytes) (pretty : Bool)

mutual
/-- `to_stream`. -/
def toStream (indent : Bytes) : Value → Bytes
  | .complex re im =>
    enclose pretty indent openBrace closeBrace
      [writeEntry pretty (ascii "imag") (N.realText im), writeEntry pretty (ascii "real") (N.realText re)]
  | .bytevector b => strToLiteral (ByteVector.toBase64 b)
  | .timepoint t => strToLiteral (N.timepointText t)
  | .duration d => strToLiteral (durationToJsString d)
  | .kvmap m => enclose pretty indent openBrace closeBrace (streamKeyed (indent ++ subIndent pretty) m)
  | .valuelist l => enclose pretty indent 0x5b 0x5d (streamList (indent ++ subIndent pretty) l)
  | .tvlist l => enclose pretty indent openBrace closeBrace (streamTagged (indent ++ subIndent pretty) l)
  | .none => Value.none.toLiteral N
  | .bool b => (Value.bool b).toLiteral N
  | .char c => (Value.char c).toLiteral N
  | .uint n => (Value.uint n).toLiteral N
  | .sint n => (Value.sint n).toLiteral N
  | .real r => (Value.real r).toLiteral N
  | .string s => (Value.string s).toLiteral N
termination_by structural v => v
def streamList (indent : Bytes) : List Value → List Bytes
  | [] => []
  | v :: l => toStream indent v :: streamList indent l
termination_by structural l => l
def streamTag (indent : Bytes) : Option Bytes × Value → Option Bytes
  | (none, _) => none
  | (some tag, v) => some (writeEntry pretty tag (toStream indent v))
termination_by structural p => p
/-- Values without a tag are left out. -/
def streamTagged (indent : Bytes) : List (Option Bytes × Value) → List Bytes
  | [] => []
  | p :: l => (streamTag indent p).toList ++ streamTagged indent l
termination_by structural l => l
def streamKey (indent : Bytes) : Bytes × Value → Bytes
  | (key, v) => writeEntry pretty key (toStream indent v)
termination_by structural p => p
def streamKeyed (indent : Bytes) : List (Bytes × Value) → List Bytes
  | [] => []
  | p :: m => streamKey indent p :: streamKeyed indent m
termination_by structural m => m
end

/-- `CustomWriter::encoded`. -/
def encoded (v : Value) : Bytes := toStream N durationToJsString pretty [] v

end

/-! ## Values of JSON -/

mutual
/-- Values that JSON has, with the strings that an input shows. Numbers that
are not negative have no sign. -/
def IsJson : Value → Prop
  | .none | .bool _ | .uint _ => True
  | .sint n => n.toInt < 0
  | .string s => 0xff ∉ s
  | .valuelist l => JsonList l
  | .kvmap m => Keyed.Ordered m ∧ JsonKeyed m
  | _ => False
termination_by structural v => v
def JsonList : List Value → Prop
  | [] => True
  | v :: l => IsJson v ∧ JsonList l
termination_by structural l => l
def JsonKey : Bytes × Value → Prop
  | (key, v) => 0xff ∉ key ∧ IsJson v
termination_by structural p => p
def JsonKeyed : List (Bytes × Value) → Prop
  | [] => True
  | p :: m => JsonKey p ∧ JsonKeyed m
termination_by structural m => m
end

/-- What the tokenizer reads for a character that has been escaped: it knows no
escapes with digits. -/
def rereadByte (b : UInt8) : Bytes :=
  match escapeByte [quote] b with
  | _ :: c :: s => unescape c :: s
  | s => s

mutual
/-- The value that is read for one that has been written. -/
def reread : Value → Value
  | .string s => .string (s.flatMap rereadByte)
  | .valuelist l => .valuelist (rereadList l)
  | .kvmap m => .kvmap (rereadKeyed m)
  | v => v
termination_by structural v => v
def rereadList : List Value → List Value
  | [] => []
  | v :: l => reread v :: rereadList l
termination_by structural l => l
def rereadKey : Bytes × Value → Bytes × Value
  | (key, v) => (key, reread v)
termination_by structural p => p
def rereadKeyed : List (Bytes × Value) → List (Bytes × Value)
  | [] => []
  | p :: m => rereadKey p :: rereadKeyed m
termination_by structural m => m
end

/-- Characters that print, and those from BEL to CR. -/
def Rewritable (b : UInt8) : Prop := Printable b ∨ (0x07 ≤ b ∧ b ≤ 0x0d)

instance (b : UInt8) : Decidable (Rewritable b) := inferInstanceAs (Decidable (_ ∨ _))

mutual
/-- No string in it has other characters. Keys may. -/
def IsRewritable : Value → Prop
  | .string s => ∀ b ∈ s, Rewritable b
  | .valuelist l => RewritableList l
  | .kvmap m => RewritableKeyed m
  | _ => True
termination_by structural v => v
def RewritableList : List Value → Prop
  | [] => True
  | v :: l => IsRewritable v ∧ RewritableList l
termination_by structural l => l
def RewritableKey : Bytes × Value → Prop
  | (_, v) => IsRewritable v
termination_by structural p => p
def RewritableKeyed : List (Bytes × Value) → Prop
  | [] => True
  | p :: m => RewritableKey p ∧ RewritableKeyed m
termination_by structural m => m
end

/-! ## Tokens that have been written -/

section
variable {nearest : Bytes → Option Double}

theorem takeRun_append {p : UInt8 → Bool} {t rest : Bytes} (ht : ∀ b ∈ t, p b = true)
    (hrest : ∀ b ∈ rest.head?, p b = false) : takeRun p ((t ++ rest).map some) = (t, rest.map some) := by
  induction t with
  | nil =>
    cases rest with
    | nil => rfl
    | cons b rest =>
      rw [List.nil_append, List.map_cons, takeRun, if_neg]
      rw [hrest b rfl]
      exact Bool.false_ne_true
  | cons b t ih =>
    rw [List.cons_append, List.map_cons, takeRun, if_pos (ht b List.mem_cons_self),
      ih fun c hc => ht c (List.mem_cons_of_mem b hc)]

theorem takeNumeral_append {t rest : Bytes} (ht : ∀ b ∈ t, isDigit b = true)
    (hrest : ∀ b ∈ rest.head?, ∀ last, isNumeral last b = false) (last : UInt8) :
    takeNumeral last ((t ++ rest).map some) = (t, rest.map some) := by
  induction t generalizing last with
  | nil =>
    cases rest with
    | nil => rfl
    | cons b rest =>
      rw [List.nil_append, List.map_cons, takeNumeral, if_neg]
      rw [hrest b rfl]
      exact Bool.false_ne_true
  | cons b t ih =>
    have hb : isNumeral last b = true := by
      unfold isNumeral
      rw [ht b List.mem_cons_self]
      rfl
    rw [List.cons_append, List.map_cons, takeNumeral, if_pos hb, ih fun c hc => ht c (List.mem_cons_of_mem b hc)]

/-- White space that a token may follow. -/
def Blank (ws : Bytes) : Prop := ∀ b ∈ ws, tokenIndexOf b = .space

theorem blank_nil : Blank [] := nofun

theorem lex_blank {ws rest : Bytes} (hws : Blank ws) (hrest : ∀ b ∈ rest.head?, isSpace b = false) :
    lex nearest ((ws ++ rest).map some) = lex nearest (rest.map some) := by
  have hspace : ∀ b, tokenIndexOf b = .space → isSpace b = true := forall_byte (by decide +kernel)
  cases ws with
  | nil => rfl
  | cons b ws =>
    rw [List.cons_append, List.map_cons, lex, hws b List.mem_cons_self]
    simp only
    rw [takeRun_append (fun c hc => hspace c (hws c (List.mem_cons_of_mem b hc))) hrest]

def marks : List TokenIndex := [.mapOpen, .mapClose, .listOpen, .listClose, .comma, .colon]

theorem lex_mark {b : UInt8} (hb : tokenIndexOf b ∈ marks) (l : Codes) :
    lex nearest (some b :: l) = ((tokenIndexOf b, .string [b]), l) := by
  rw [lex]
  cases h : tokenIndexOf b with
  | space | lineComment | quotedString | numeric | symbol => exact absurd (h ▸ hb) (by decide)
  | _ => rfl

/-- Punctuation after white space. -/
theorem lexes_mark {b : UInt8} {k : Token Bytes Value} {ws : Bytes} (hws : Blank ws)
    (hb : tokenIndexOf b ∈ marks ∧ isSpace b = false) (hk : ∀ v, tokenOf (tokenIndexOf b, v) = some k) (rest : Bytes) :
    (json nearest).lex ((ws ++ b :: rest).map some) k (rest.map some) := by
  have hhead : ∀ c ∈ (b :: rest).head?, isSpace c = false := by
    rintro c ⟨⟩
    exact hb.2
  show tokenOf (lex nearest _).1 = some k ∧ _
  rw [lex_blank hws hhead, List.map_cons, lex_mark hb.1]
  exact ⟨hk _, rfl⟩

theorem tokenIndexOf_quote : tokenIndexOf quote = .quotedString := by decide

/-- A text that is read as it is. -/
theorem takeBody_plain {s : Bytes} (hs : backslash ∉ s ∧ quote ∉ s) (l : Codes) :
    takeBody quote false (s.map some ++ l) =
      ((takeBody quote false l).1, s ++ (takeBody quote false l).2.1, (takeBody quote false l).2.2) := by
  induction s with
  | nil => rfl
  | cons b s ih =>
    simp only [List.mem_cons, not_or] at hs
    obtain ⟨⟨hb, hs⟩, hq, hsq⟩ := hs
    rw [List.map_cons, List.cons_append, takeBody, if_neg (Ne.symm hb), if_neg (Ne.symm hq), ih ⟨hs, hsq⟩]
    rfl

theorem takeBody_escaped (c : UInt8) {s : Bytes} (hs : backslash ∉ s ∧ quote ∉ s) (l : Codes) :
    takeBody quote false ((backslash :: c :: s).map some ++ l) =
      ((takeBody quote false l).1, unescape c :: s ++ (takeBody quote false l).2.1, (takeBody quote false l).2.2) := by
  have hbody := takeBody_plain hs l
  rw [List.map_cons, List.cons_append, takeBody, if_pos rfl, List.map_cons, List.cons_append, takeBody, hbody]
  rfl

theorem takeBody_escapeByte (b : UInt8) (l : Codes) :
    takeBody quote false ((escapeByte [quote] b).map some ++ l) =
      ((takeBody quote false l).1, rereadByte b ++ (takeBody quote false l).2.1, (takeBody quote false l).2.2) := by
  have hshape : ∀ b, (escapeByte [quote] b = [b] ∧ backslash ∉ [b] ∧ quote ∉ [b]) ∨
      ((escapeByte [quote] b).head? = some backslash ∧ 2 ≤ (escapeByte [quote] b).length ∧
        backslash ∉ (escapeByte [quote] b).drop 2 ∧ quote ∉ (escapeByte [quote] b).drop 2) :=
    forall_byte (by decide +kernel)
  unfold rereadByte
  rcases hshape b with ⟨hself, hplain⟩ | ⟨hhead, hlong, hplain⟩
  · rw [hself]
    exact takeBody_plain hplain l
  · match htext : escapeByte [quote] b with
    | [] | [_] =>
      rw [htext] at hlong
      exact absurd hlong (by simp)
    | d :: c :: s =>
      rw [htext] at hhead hplain
      cases hhead
      exact takeBody_escaped c hplain l

theorem takeBody_escape (s : Bytes) (l : Codes) :
    takeBody quote false ((escape [quote] s).map some ++ some quote :: l) = (true, s.flatMap rereadByte, l) := by
  have hne : quote ≠ backslash := by decide
  induction s with
  | nil =>
    show takeBody quote false (some quote :: l) = _
    rw [takeBody, if_neg hne, if_pos rfl]
    rfl
  | cons b s ih =>
    rw [escape_cons, List.map_append, List.append_assoc, takeBody_escapeByte, ih, List.flatMap_cons]

theorem lexes_string (s rest : Bytes) :
    (json nearest).lex ((strToLiteral s ++ rest).map some) (.text (s.flatMap rereadByte)) (rest.map some) := by
  have htext : (strToLiteral s ++ rest).map some =
      some quote :: ((escape [quote] s).map some ++ some quote :: rest.map some) := by simp [strToLiteral]
  show tokenOf (lex nearest _).1 = _ ∧ _
  rw [htext, lex, tokenIndexOf_quote]
  simp only [takeBody_escape]
  exact ⟨rfl, trivial⟩

theorem takeBody_quoted (s : Bytes) (l : Codes) :
    takeBody quote false ((s.flatMap fun b => if b = quote ∨ b = backslash then [backslash, b] else [b]).map some ++
      some quote :: l) = (true, s, l) := by
  have hne : quote ≠ backslash := by decide
  induction s with
  | nil =>
    show takeBody quote false (some quote :: l) = _
    rw [takeBody, if_neg hne, if_pos rfl]
  | cons b s ih =>
    rw [List.flatMap_cons, List.map_append, List.append_assoc]
    by_cases hb : b = quote ∨ b = backslash
    · have hself : unescape b = b := by rcases hb with rfl | rfl <;> rfl
      rw [if_pos hb, takeBody_escaped b (by simp), ih, hself]
      rfl
    · rw [if_neg hb, takeBody_plain (by simpa [eq_comm, and_comm, not_or] using hb), ih]
      rfl

theorem lexes_key {ws : Bytes} (hws : Blank ws) (key rest : Bytes) :
    (json nearest).lex ((ws ++ (quoted key ++ rest)).map some) (.text key) (rest.map some) := by
  have htext : (quoted key ++ rest).map some = some quote ::
      ((key.flatMap fun b => if b = quote ∨ b = backslash then [backslash, b] else [b]).map some ++
        some quote :: rest.map some) := by simp [quoted]
  have hhead : ∀ b ∈ (quoted key ++ rest).head?, isSpace b = false := by
    rintro b ⟨⟩
    decide
  show tokenOf (lex nearest _).1 = _ ∧ _
  rw [lex_blank hws hhead, htext, lex, tokenIndexOf_quote]
  simp only [takeBody_quoted]
  exact ⟨rfl, trivial⟩

/-- What comes after a value: no character that a number or a symbol goes on with. -/
def Delimited (rest : Bytes) : Prop := ∀ b ∈ rest.head?, b ∈ [0x2c, 0x5d, closeBrace, 0x0a]

theorem Delimited.numeral {rest : Bytes} (h : Delimited rest) :
    ∀ b ∈ rest.head?, ∀ last, isNumeral last b = false := by
  have hall : ∀ b ∈ [(0x2c : UInt8), 0x5d, closeBrace, 0x0a],
      isDigit b = false ∧ isReal b = false ∧ isHexMark b = false ∧ isSign b = false := by decide +kernel
  intro b hb last
  obtain ⟨hdigit, hreal, hhex, hsign⟩ := hall b (h b hb)
  unfold isNumeral
  rw [hdigit, hreal, hhex, hsign]
  rfl

theorem Delimited.identifier {rest : Bytes} (h : Delimited rest) : ∀ b ∈ rest.head?, isIdentifier b = false := by
  have hall : ∀ b ∈ [(0x2c : UInt8), 0x5d, closeBrace, 0x0a], isIdentifier b = false := by decide +kernel
  exact fun b hb => hall b (h b hb)

theorem digit_classes : ∀ b, isDigit b = true →
    tokenIndexOf b = .numeric ∧ isReal b = false ∧ isHexMark b = false ∧ (b == minus) = false ∧ isSpace b = false :=
  forall_byte (by decide +kernel)

theorem any_digits {p : UInt8 → Bool} (hp : ∀ b, isDigit b = true → p b = false) {t : Bytes}
    (ht : ∀ b ∈ t, isDigit b = true) : t.any p = false := by
  rw [List.any_eq_false]
  intro b hb
  rw [hp b (ht b hb)]
  nofun

theorem numeral_uint (n : UInt64) : numeral nearest (decimal n.toNat) = (.numeric, .uint n) := by
  obtain ⟨b, s, htext, hb⟩ := head_decimal n.toNat
  have hdigits : ∀ c ∈ decimal n.toNat, isDigit c = true := fun c hc => isDigit_decimal hc
  have hread := fromCharsUint_decimal n [] (by simp)
  rw [List.append_nil] at hread
  have hminus : ((decimal n.toNat).head? == some minus) = false := by
    rw [htext]
    exact (digit_classes b hb).2.2.2.1
  unfold numeral numberOf
  rw [any_digits (fun c hc => (digit_classes c hc).2.1) hdigits, any_digits (fun c hc => (digit_classes c hc).2.2.1) hdigits,
    hminus, if_neg nofun, if_neg nofun, if_neg nofun, hread]
  rfl

theorem numeral_sint {n : Int64} (hn : n.toInt < 0) : numeral nearest (decimalInt n.toInt) = (.numeric, .sint n) := by
  have htext : decimalInt n.toInt = minus :: decimal n.toInt.natAbs := if_pos hn
  have hdigits : ∀ c ∈ decimal n.toInt.natAbs, isDigit c = true := fun c hc => isDigit_decimal hc
  have hread := fromCharsSint_decimal hn [] (by simp)
  rw [List.append_nil] at hread
  have hreal : (decimalInt n.toInt).any isReal = false := by
    rw [htext, List.any_cons, any_digits (fun c hc => (digit_classes c hc).2.1) hdigits]
    rfl
  have hminus : ((decimalInt n.toInt).head? == some minus) = true := by
    rw [htext]
    rfl
  unfold numeral numberOf
  rw [hreal, hminus, if_neg nofun, if_pos rfl, hread]
  rfl

theorem lexes_number {b : UInt8} {s : Bytes} (hb : tokenIndexOf b = .numeric) (hs : ∀ c ∈ s, isDigit c = true)
    {v : Value} (hv : numeral nearest (b :: s) = (.numeric, v)) {rest : Bytes} (hrest : Delimited rest) :
    (json nearest).lex ((b :: s ++ rest).map some) (.scalar v) (rest.map some) := by
  show tokenOf (lex nearest _).1 = _ ∧ _
  rw [List.cons_append, List.map_cons, lex, hb]
  simp only [takeNumeral_append hs hrest.numeral, hv]
  exact ⟨rfl, trivial⟩

theorem lexes_symbol {b : UInt8} {s : Bytes} (hb : tokenIndexOf b = .symbol) (hs : ∀ c ∈ s, isIdentifier c = true)
    {tp : TokenPair} (htp : symbolMap.lookup (b :: s) = some tp) {v : Value} (hv : tokenOf tp = some (.scalar v))
    {rest : Bytes} (hrest : Delimited rest) :
    (json nearest).lex ((b :: s ++ rest).map some) (.scalar v) (rest.map some) := by
  show tokenOf (lex nearest _).1 = _ ∧ _
  rw [List.cons_append, List.map_cons, lex, hb]
  simp only [takeRun_append hs hrest.identifier, htp]
  exact ⟨hv, trivial⟩

end

end Json

end CommonCore
