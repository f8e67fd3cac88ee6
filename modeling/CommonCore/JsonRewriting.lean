import CommonCore.JsonWriter

/-!
# Reading what was written

Every value of JSON that has been written is read as one value, with its keys
as they were and its strings as `reread` has them (`decoded_encoded`).
-/

namespace CommonCore

namespace Json

open Parsers Grammar

/-! ## Values that have been written -/

theorem blank_lineStart (pretty : Bool) {indent : Bytes} (hi : Blank indent) : Blank (lineStart pretty indent) := by
  cases pretty with
  | false => nofun
  | true =>
    rintro b (_ | ⟨_, hb⟩)
    · decide
    · exact hi b hb

theorem blank_subIndent (pretty : Bool) : Blank (subIndent pretty) := by
  cases pretty with
  | false => nofun
  | true =>
    show ∀ b ∈ ascii "  ", _
    decide +kernel

theorem Blank.append {s t : Bytes} (hs : Blank s) (ht : Blank t) : Blank (s ++ t) := by
  intro b hb
  exact (List.mem_append.mp hb).elim (hs b) (ht b)

theorem delimited_end {pretty : Bool} {indent : Bytes} {closing : UInt8} (hc : closing = 0x5d ∨ closing = closeBrace)
    (rest : Bytes) : Delimited (lineStart pretty indent ++ closing :: rest) := by
  cases pretty with
  | false =>
    rintro b ⟨⟩
    rcases hc with rfl | rfl <;> decide
  | true =>
    rintro b ⟨⟩
    decide

/-- What follows the opening of a list or a map, or one of its items. -/
def itemsTail (pretty : Bool) (indent delimiter : Bytes) (closing : UInt8) (items : List Bytes) (rest : Bytes) : Bytes :=
  writeItems (lineStart pretty indent ++ subIndent pretty) delimiter items ++ (lineStart pretty indent ++ closing :: rest)

theorem itemsTail_cons (pretty : Bool) (indent delimiter : Bytes) (closing : UInt8) (item : Bytes) (items : List Bytes)
    (rest : Bytes) :
    itemsTail pretty indent delimiter closing (item :: items) rest =
      delimiter ++ (lineStart pretty indent ++ subIndent pretty ++
        (item ++ itemsTail pretty indent (ascii ",") closing items rest)) := by
  simp only [itemsTail, writeItems, List.append_assoc]

theorem enclose_append (pretty : Bool) (indent : Bytes) (opening closing : UInt8) (items : List Bytes) (rest : Bytes) :
    [] ++ opening :: itemsTail pretty indent [] closing items rest =
      enclose pretty indent opening closing items ++ rest := by
  simp [enclose, itemsTail]

/-- The white space after the colon. -/
def separatorBlank (pretty : Bool) : Bytes := if pretty then ascii " " else []

theorem blank_separator (pretty : Bool) : Blank (separatorBlank pretty) := by
  cases pretty with
  | false => nofun
  | true =>
    show ∀ b ∈ ascii " ", _
    decide +kernel

theorem writeEntry_append (pretty : Bool) (key value rest : Bytes) :
    writeEntry pretty key value ++ rest = quoted key ++ ([] ++ 0x3a :: (separatorBlank pretty ++ (value ++ rest))) := by
  cases pretty <;> simp [writeEntry, kvSeparator, separatorBlank, ascii]

theorem blank_lead (pretty : Bool) {indent : Bytes} (hi : Blank indent) :
    Blank (lineStart pretty indent ++ subIndent pretty) := (blank_lineStart pretty hi).append (blank_subIndent pretty)

theorem delimited_tail (pretty : Bool) {indent : Bytes} {closing : UInt8}
    (hc : closing = 0x5d ∨ closing = closeBrace) (items : List Bytes) (rest : Bytes) :
    Delimited (itemsTail pretty indent (ascii ",") closing items rest) := by
  cases items with
  | nil => exact delimited_end hc rest
  | cons item items =>
    rintro b ⟨⟩
    decide

section
variable (N : Numerics) (durationToJsString : Int → Bytes) (pretty : Bool) (nearest : Bytes → Option Double)

theorem head_toStream {v : Value} (hv : IsJson v) (indent rest : Bytes) :
    ∀ b ∈ (toStream N durationToJsString pretty indent v ++ rest).head?, isSpace b = false := by
  cases v with
  | none | string | valuelist | kvmap =>
    rintro b ⟨⟩
    decide
  | bool b =>
    cases b <;> (rintro b ⟨⟩; decide)
  | uint n =>
    obtain ⟨b, s, htext, hb⟩ := head_decimal n.toNat
    show ∀ b ∈ (decimal n.toNat ++ rest).head?, _
    rw [htext]
    rintro _ ⟨⟩
    exact (digit_classes b hb).2.2.2.2
  | sint n =>
    have htext : decimalInt n.toInt = minus :: decimal n.toInt.natAbs := if_pos hv
    show ∀ b ∈ (decimalInt n.toInt ++ rest).head?, _
    rw [htext]
    rintro _ ⟨⟩
    decide
  | _ => exact hv.elim

theorem value_lead {v w : Value} (hv : IsJson v) {lead indent : Bytes} (hlead : Blank lead) {rest : Bytes} {u : Codes}
    (h : (json nearest).Value ((toStream N durationToJsString pretty indent v ++ rest).map some) w u) :
    (json nearest).Value ((lead ++ (toStream N durationToJsString pretty indent v ++ rest)).map some) w u := by
  apply h.congr
  rintro k u ⟨htoken, hu⟩
  have hlex : lex nearest _ = _ := lex_blank hlead (head_toStream N durationToJsString pretty hv indent rest)
  show tokenOf (lex nearest _).1 = _ ∧ _
  rw [hlex]
  exact ⟨htoken, hu⟩

theorem ordered_reread (m : List (Bytes × Value)) : Keyed.Ordered (rereadKeyed m) ↔ Keyed.Ordered m := by
  have hmap : rereadKeyed m = m.map fun e => (e.1, reread e.2) := by
    induction m with
    | nil => rfl
    | cons p m ih =>
      obtain ⟨key, v⟩ := p
      rw [List.map_cons, ← ih]
      rfl
  rw [hmap]
  exact Keyed.ordered_map reread

mutual
/-- What has been written for a value is read as one value. -/
theorem value_written {v : Value} (hv : IsJson v) {indent rest : Bytes} (hi : Blank indent) (hrest : Delimited rest) :
    (json nearest).Value ((toStream N durationToJsString pretty indent v ++ rest).map some) (reread v)
      (rest.map some) := by
  match v with
  | .none => exact .scalar (lexes_symbol (b := 0x6e) (s := ascii "ull") (by decide) (by decide +kernel) rfl rfl hrest)
  | .bool true => exact .scalar (lexes_symbol (b := 0x74) (s := ascii "rue") (by decide) (by decide +kernel) rfl rfl hrest)
  | .bool false => exact .scalar (lexes_symbol (b := 0x66) (s := ascii "alse") (by decide) (by decide +kernel) rfl rfl hrest)
  | .uint n =>
    obtain ⟨b, s, htext, hb⟩ := head_decimal n.toNat
    have hs : ∀ c ∈ s, isDigit c = true := fun c hc => isDigit_decimal (htext ▸ List.mem_cons_of_mem b hc)
    have hnumeral : numeral nearest _ = _ := numeral_uint n
    show (json nearest).Value ((decimal n.toNat ++ rest).map some) (.uint n) _
    rw [htext] at hnumeral ⊢
    exact .scalar (lexes_number (digit_classes b hb).1 hs hnumeral hrest)
  | .sint n =>
    have htext : decimalInt n.toInt = minus :: decimal n.toInt.natAbs := if_pos hv
    have hnumeral : numeral nearest _ = _ := numeral_sint hv
    show (json nearest).Value ((decimalInt n.toInt ++ rest).map some) (.sint n) _
    rw [htext] at hnumeral ⊢
    exact .scalar (lexes_number (by decide) (fun c hc => isDigit_decimal hc) hnumeral hrest)
  | .string s => exact .text (lexes_string s rest)
  | .valuelist l =>
    have hopen : (json nearest).lex _ .listOpen _ := lexes_mark (b := 0x5b) blank_nil (by decide)
      (fun _ => rfl) (itemsTail pretty indent [] 0x5d
        (streamList N durationToJsString pretty (indent ++ subIndent pretty) l) rest)
    exact enclose_append pretty _ _ _ _ rest ▸ .list hopen (items_written hv hi rest)
  | .kvmap m =>
    have hopen : (json nearest).lex _ .mapOpen _ := lexes_mark (b := openBrace) blank_nil (by decide)
      (fun _ => rfl) (itemsTail pretty indent [] closeBrace
        (streamKeyed N durationToJsString pretty (indent ++ subIndent pretty) m) rest)
    have hmap : reread (.kvmap m) = (json nearest).ofMap (rereadKeyed m) := by
      show Value.kvmap _ = Value.kvmap _
      rw [Keyed.putAll_of_ordered ((ordered_reread m).mpr hv.1)]
    rw [hmap]
    exact enclose_append pretty _ _ _ _ rest ▸ .map hopen (members_written hv.2 hi rest)
termination_by sizeOf v
theorem items_written {l : List Value} (hl : JsonList l) {indent : Bytes} (hi : Blank indent) (rest : Bytes) :
    (json nearest).Items ((itemsTail pretty indent [] 0x5d
        (streamList N durationToJsString pretty (indent ++ subIndent pretty) l) rest).map some)
      (rereadList l) (rest.map some) := by
  match l with
  | [] => exact .empty (lexes_mark (blank_lineStart pretty hi) (by decide) (fun _ => rfl) rest)
  | v :: l =>
    have htail : Delimited (itemsTail pretty indent _ 0x5d _ _) := delimited_tail pretty (.inl rfl)
      (streamList N durationToJsString pretty (indent ++ subIndent pretty) l) rest
    have hvalue := value_written hl.1 (hi.append (blank_subIndent pretty)) htail
    have hlead := value_lead N durationToJsString pretty nearest hl.1 (blank_lead pretty hi) hvalue
    rw [streamList, itemsTail_cons]
    exact .some (elements_written hl.2 hi rest hlead)
termination_by sizeOf l
theorem elements_written {l : List Value} (hl : JsonList l) {indent : Bytes} (hi : Blank indent) (rest : Bytes)
    {t : Codes} {v : Value}
    (hv : (json nearest).Value t v ((itemsTail pretty indent (ascii ",") 0x5d
      (streamList N durationToJsString pretty (indent ++ subIndent pretty) l) rest).map some)) :
    (json nearest).Elements t (v :: rereadList l) (rest.map some) := by
  match l with
  | [] => exact .last hv (lexes_mark (blank_lineStart pretty hi) (by decide) (fun _ => rfl) rest)
  | w :: l =>
    have htail : Delimited (itemsTail pretty indent _ 0x5d _ _) := delimited_tail pretty (.inl rfl)
      (streamList N durationToJsString pretty (indent ++ subIndent pretty) l) rest
    have hvalue := value_written hl.1 (hi.append (blank_subIndent pretty)) htail
    have hlead := value_lead N durationToJsString pretty nearest hl.1 (blank_lead pretty hi) hvalue
    rw [streamList, itemsTail_cons] at hv
    exact .cons hv (lexes_mark blank_nil (by decide) (fun _ => rfl) _) (elements_written hl.2 hi rest hlead)
termination_by sizeOf l
theorem members_written {m : List (Bytes × Value)} (hm : JsonKeyed m) {indent : Bytes} (hi : Blank indent)
    (rest : Bytes) :
    (json nearest).Members ((itemsTail pretty indent [] closeBrace
        (streamKeyed N durationToJsString pretty (indent ++ subIndent pretty) m) rest).map some)
      (rereadKeyed m) (rest.map some) := by
  match m with
  | [] => exact .empty (lexes_mark (blank_lineStart pretty hi) (by decide) (fun _ => rfl) rest)
  | (key, v) :: m =>
    rw [streamKeyed, itemsTail_cons]
    exact .some (entries_written hm hi rest)
termination_by sizeOf m
theorem entries_written {key : Bytes} {v : Value} {m : List (Bytes × Value)} (hm : JsonKeyed ((key, v) :: m))
    {indent : Bytes} (hi : Blank indent) (rest : Bytes) :
    (json nearest).Entries
      ((lineStart pretty indent ++ subIndent pretty ++
        (streamKey N durationToJsString pretty (indent ++ subIndent pretty) (key, v) ++
          itemsTail pretty indent (ascii ",") closeBrace
            (streamKeyed N durationToJsString pretty (indent ++ subIndent pretty) m) rest)).map some)
      (rereadKeyed ((key, v) :: m)) (rest.map some) := by
  have htail : Delimited (itemsTail pretty indent _ closeBrace _ _) := delimited_tail pretty (.inr rfl)
    (streamKeyed N durationToJsString pretty (indent ++ subIndent pretty) m) rest
  have hvalue := value_written hm.1.2 (hi.append (blank_subIndent pretty)) htail
  rw [streamKey, writeEntry_append]
  have hkey : ∀ rest, (json nearest).lex _ _ _ := lexes_key (blank_lead pretty hi) key
  have hcolon : ∀ rest, (json nearest).lex _ .colon _ := lexes_mark (b := 0x3a) blank_nil (by decide) fun _ => rfl
  have hsep := value_lead N durationToJsString pretty nearest hm.1.2 (blank_separator pretty) hvalue
  match m with
  | [] => exact .last (hkey _) (hcolon _) hsep (lexes_mark (blank_lineStart pretty hi) (by decide) (fun _ => rfl) rest)
  | (key', v') :: m =>
    rw [streamKeyed, itemsTail_cons] at hsep ⊢
    exact .cons (hkey _) (hcolon _) hsep (lexes_mark blank_nil (by decide) (fun _ => rfl) _)
      (entries_written hm.2 hi rest)
termination_by sizeOf v + sizeOf m + 1
end

end

/-! ## The text has no missing bytes -/

section
variable (N : Numerics) (durationToJsString : Int → Bytes) (pretty : Bool)

theorem shown_decimal (n : ℕ) : 0xff ∉ decimal n := by
  intro h
  have hdigit := isDigit_decimal h
  exact absurd hdigit (by decide)

theorem shown_flatMap {f : UInt8 → Bytes} (hf : ∀ b, b ≠ 0xff → 0xff ∉ f b) {s : Bytes} (hs : 0xff ∉ s) :
    0xff ∉ s.flatMap f := by
  intro h
  obtain ⟨b, hb, hmem⟩ := List.mem_flatMap.mp h
  exact hf b (fun heq => hs (heq ▸ hb)) hmem

theorem shown_strToLiteral {s : Bytes} (hs : 0xff ∉ s) : 0xff ∉ strToLiteral s := by
  have hbyte : ∀ b, b ≠ 0xff → 0xff ∉ escapeByte [quote] b := forall_byte (by decide +kernel)
  have hquote : 0xff ≠ quote := by decide
  have hescape := shown_flatMap hbyte hs
  simp only [strToLiteral, escape, List.cons_append, List.mem_cons, List.mem_append, List.not_mem_nil, or_false, not_or]
  exact ⟨hquote, hescape, hquote⟩

theorem shown_quoted {s : Bytes} (hs : 0xff ∉ s) : 0xff ∉ quoted s := by
  have hbyte : ∀ b : UInt8, b ≠ 0xff → 0xff ∉ if b = quote ∨ b = backslash then [backslash, b] else [b] :=
    forall_byte (by decide +kernel)
  have hquote : 0xff ≠ quote := by decide
  have htext := shown_flatMap hbyte hs
  simp only [quoted, List.cons_append, List.mem_cons, List.mem_append, List.not_mem_nil, or_false, not_or]
  exact ⟨hquote, htext, hquote⟩

theorem shown_append {s t : Bytes} (hs : 0xff ∉ s) (ht : 0xff ∉ t) : 0xff ∉ s ++ t := by
  rw [List.mem_append, not_or]
  exact ⟨hs, ht⟩

theorem Blank.shown {ws : Bytes} (h : Blank ws) : 0xff ∉ ws := fun hmem => absurd (h _ hmem) (by decide)

theorem shown_itemsTail {indent delimiter : Bytes} (hi : Blank indent) (hd : 0xff ∉ delimiter) {closing : UInt8}
    (hc : closing ≠ 0xff) {items : List Bytes} (hitems : ∀ item ∈ items, 0xff ∉ item) :
    0xff ∉ itemsTail pretty indent delimiter closing items [] := by
  induction items generalizing delimiter with
  | nil =>
    apply shown_append List.not_mem_nil
    apply shown_append (blank_lineStart pretty hi).shown
    simpa using Ne.symm hc
  | cons item items ih =>
    rw [itemsTail_cons]
    obtain ⟨hitem, hrest⟩ := List.forall_mem_cons.mp hitems
    apply shown_append hd
    apply shown_append (blank_lead pretty hi).shown
    exact shown_append hitem (ih (by decide) hrest)

theorem shown_enclose {indent : Bytes} (hi : Blank indent) {opening closing : UInt8} (ho : opening ≠ 0xff)
    (hc : closing ≠ 0xff) {items : List Bytes} (hitems : ∀ item ∈ items, 0xff ∉ item) :
    0xff ∉ enclose pretty indent opening closing items := by
  have htail : 0xff ∉ itemsTail pretty indent [] closing items [] := shown_itemsTail pretty hi List.not_mem_nil hc hitems
  have htext := enclose_append pretty indent opening closing items []
  rw [List.append_nil] at htext
  rw [← htext]
  exact shown_append List.not_mem_nil (List.mem_cons.not.mpr (not_or.mpr ⟨Ne.symm ho, htail⟩))

theorem shown_writeEntry {key value : Bytes} (hkey : 0xff ∉ key) (hvalue : 0xff ∉ value) :
    0xff ∉ writeEntry pretty key value := by
  have hsep : 0xff ∉ kvSeparator pretty := by cases pretty <;> decide +kernel
  exact shown_append (shown_append (shown_quoted hkey) hsep) hvalue

mutual
theorem shown_toStream {v : Value} (hv : IsJson v) {indent : Bytes} (hi : Blank indent) :
    0xff ∉ toStream N durationToJsString pretty indent v := by
  match v with
  | .none => exact show 0xff ∉ ascii "null" by decide +kernel
  | .bool true => exact show 0xff ∉ ascii "true" by decide +kernel
  | .bool false => exact show 0xff ∉ ascii "false" by decide +kernel
  | .uint n => exact shown_decimal n.toNat
  | .sint n =>
    have htext : decimalInt n.toInt = minus :: decimal n.toInt.natAbs := if_pos hv
    show _ ∉ decimalInt n.toInt
    rw [htext, List.mem_cons, not_or]
    exact ⟨by decide, shown_decimal _⟩
  | .string s => exact shown_strToLiteral hv
  | .valuelist l =>
    exact shown_enclose pretty hi (by decide) (by decide) (shown_streamList hv (hi.append (blank_subIndent pretty)))
  | .kvmap m =>
    exact shown_enclose pretty hi (by decide) (by decide) (shown_streamKeyed hv.2 (hi.append (blank_subIndent pretty)))
termination_by sizeOf v
theorem shown_streamList {l : List Value} (hl : JsonList l) {indent : Bytes} (hi : Blank indent) :
    ∀ item ∈ streamList N durationToJsString pretty indent l, 0xff ∉ item := by
  match l with
  | [] => exact nofun
  | v :: l => exact List.forall_mem_cons.mpr ⟨shown_toStream hl.1 hi, shown_streamList hl.2 hi⟩
termination_by sizeOf l
theorem shown_streamKeyed {m : List (Bytes × Value)} (hm : JsonKeyed m) {indent : Bytes} (hi : Blank indent) :
    ∀ item ∈ streamKeyed N durationToJsString pretty indent m, 0xff ∉ item := by
  match m with
  | [] => exact nofun
  | (key, v) :: m =>
    exact List.forall_mem_cons.mpr
      ⟨shown_writeEntry pretty hm.1.1 (shown_toStream hm.1.2 hi), shown_streamKeyed hm.2 hi⟩
termination_by sizeOf m
end

end

/-! ## What is read again -/

theorem rereadByte_eq_self_iff : ∀ b, rereadByte b = [b] ↔ Rewritable b := forall_byte (by decide +kernel)

theorem rereadByte_ne_nil : ∀ b, rereadByte b ≠ [] := forall_byte (by decide +kernel)

mutual
theorem reread_eq_self_iff (v : Value) : reread v = v ↔ IsRewritable v := by
  match v with
  | .string s =>
    show Value.string _ = Value.string s ↔ _
    rw [Value.string.injEq, flatMap_eq_self_iff rereadByte_ne_nil]
    simp only [rereadByte_eq_self_iff]
    rfl
  | .valuelist l =>
    show Value.valuelist _ = Value.valuelist l ↔ _
    rw [Value.valuelist.injEq]
    exact rereadList_eq_self_iff l
  | .kvmap m =>
    show Value.kvmap _ = Value.kvmap m ↔ _
    rw [Value.kvmap.injEq]
    exact rereadKeyed_eq_self_iff m
  | .none | .bool _ | .char _ | .uint _ | .sint _ | .real _ | .complex _ _ | .bytevector _ | .timepoint _ | .duration _
  | .tvlist _ => exact ⟨fun _ => trivial, fun _ => rfl⟩
termination_by sizeOf v
theorem rereadList_eq_self_iff (l : List Value) : rereadList l = l ↔ RewritableList l := by
  match l with
  | [] => exact ⟨fun _ => trivial, fun _ => rfl⟩
  | v :: l =>
    show reread v :: rereadList l = v :: l ↔ _
    rw [List.cons.injEq, reread_eq_self_iff v, rereadList_eq_self_iff l]
    rfl
termination_by sizeOf l
theorem rereadKeyed_eq_self_iff (m : List (Bytes × Value)) : rereadKeyed m = m ↔ RewritableKeyed m := by
  match m with
  | [] => exact ⟨fun _ => trivial, fun _ => rfl⟩
  | (key, v) :: m =>
    show (key, reread v) :: rereadKeyed m = (key, v) :: m ↔ _
    rw [List.cons.injEq, Prod.mk.injEq, reread_eq_self_iff v, rereadKeyed_eq_self_iff m]
    exact and_congr_left fun _ => and_iff_right rfl
termination_by sizeOf m
end

section
variable (N : Numerics) (durationToJsString : Int → Bytes) (pretty : Bool) (nearest : Bytes → Option Double)

theorem decoded_encoded {v : Value} (hv : IsJson v) :
    decoded nearest (encoded N durationToJsString pretty v) = .ok (reread v) := by
  have hshown : 0xff ∉ encoded N durationToJsString pretty v := shown_toStream N durationToJsString pretty hv nofun
  have hvalue : (json nearest).Value ((encoded N durationToJsString pretty v ++ []).map some) _ _ :=
    value_written N durationToJsString pretty nearest hv blank_nil nofun
  rw [List.append_nil] at hvalue
  rw [decoded_plain, plain_eq_self hshown]
  refine ⟨_, hvalue, ?_⟩
  show (lex nearest []).1.1 = .finish
  rw [lex]

/-- A value is read as it was written if and only if its strings have no
characters that the reader cannot unescape. -/
theorem rewritten_iff {v : Value} (hv : IsJson v) :
    decoded nearest (encoded N durationToJsString pretty v) = .ok v ↔ IsRewritable v := by
  rw [decoded_encoded N durationToJsString pretty nearest hv, ← reread_eq_self_iff, Except.ok.injEq]

end

def noDuration (_ : Int) : Bytes := []

theorem rewritten_nested :
    decoded (fun _ => none) (encoded noNumerics noDuration true (.kvmap [(ascii "k", .valuelist [.string (ascii "a\n")])])) =
      .ok (.kvmap [(ascii "k", .valuelist [.string (ascii "a\n")])]) := by
  have hjson : IsJson (.kvmap [(ascii "k", .valuelist [.string (ascii "a\n")])]) := by
    refine ⟨List.pairwise_singleton _ _, ⟨?_, ?_, trivial⟩, trivial⟩
    · decide
    · show 0xff ∉ ascii "a\n"
      decide +kernel
  refine (rewritten_iff noNumerics noDuration true _ hjson).mpr ⟨⟨?_, trivial⟩, trivial⟩
  show ∀ b ∈ ascii "a\n", _
  decide +kernel

/-- A null character is written as an escape that is read as the digit. -/
theorem null_character_lost :
    decoded (fun _ => none) (encoded noNumerics noDuration false (.string [0x00])) = .ok (.string (ascii "0")) ∧
      ¬ ∀ v, IsJson v → decoded (fun _ => none) (encoded noNumerics noDuration false v) = .ok v := by
  have hjson : IsJson (.string [0x00]) := by
    show 0xff ∉ [0x00]
    decide
  have hread := decoded_encoded noNumerics noDuration false (fun _ => none) hjson
  refine ⟨hread, fun hall => ?_⟩
  rw [hall _ hjson] at hread
  exact absurd (Value.string.inj (Except.ok.inj hread)) (by decide +kernel)

end Json

end CommonCore
