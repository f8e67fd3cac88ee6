import CommonCore.AvroMessages

/-!
# The schema and the value of a message agree

With a type for each name, the schema of a message type matches the type, and a
value that visits both together is set wherever there is a conversion.
-/

namespace CommonCore.AvroProto

/-! ## The schema of a type -/

section
variable (G : List (Bytes × Schema))

/-- The schema of a variant value. -/
def MatchesVariant (schema : Schema) : Prop :=
  resolve G schema = .record typeNameVariant [(schemaFieldVariantValue, .union variantAlternates)]

def WellKnown.Matches : WellKnown → Schema → Prop
  | .doubleValue, schema => resolve G schema = .prim .double
  | .floatValue, schema => resolve G schema = .prim .float
  | .int64Value, schema | .uint64Value, schema | .duration, schema | .timestamp, schema => resolve G schema = .prim .long
  | .int32Value, schema | .uint32Value, schema => resolve G schema = .prim .int
  | .stringValue, schema => resolve G schema = .prim .string
  | .bytesValue, schema => resolve G schema = .prim .bytes
  | .boolValue, schema => resolve G schema = .prim .boolean
  | .value, schema => MatchesVariant G schema
  | .listValue, schema => ∃ items, schema = .array items ∧ MatchesVariant G items
  | .struct, schema => ∃ values, schema = .map values ∧ MatchesVariant G values

def VariantType.Matches : VariantType → Schema → Prop
  | .value, schema => MatchesVariant G schema
  | .valueList, schema => ∃ items, schema = .array items ∧ MatchesVariant G items
  | .keyValueMap, schema => ∃ values, schema = .map values ∧ MatchesVariant G values

mutual
/-- The schema is the one of that type, up to names. -/
def Ty.Matches : Ty → Schema → Prop
  | .scalar s, schema => resolve G schema = .prim s.schema
  | .enum e, schema => resolve G schema = .enum e.name (e.values.map Prod.fst)
  | .wellKnown w, schema => w.Matches G schema
  | .variant v, schema => v.Matches G schema
  | .message _ name fields, schema => ∃ fs, resolve G schema = .record name fs ∧ FieldsMatch fields fs
termination_by structural t => t
def FieldMatches : FieldInfo × Ty → Bytes × Schema → Prop
  | (info, t), field => ∃ schema, field = (info.name, wrap info.label schema) ∧ t.Matches schema
termination_by structural f => f
def FieldsMatch : List (FieldInfo × Ty) → List (Bytes × Schema) → Prop
  | [], fs => fs = []
  | f :: fields, fs => ∃ field rest, fs = field :: rest ∧ FieldMatches f field ∧ FieldsMatch fields rest
termination_by structural fields => fields
end

end

/-! ## Filling a value of that schema -/

/-- A value has been set, and its numbers fit. -/
def Good (r : Except Failure Datum) : Prop := ∃ datum, r = .ok datum ∧ datum.InRange

theorem not_good_error (f : Failure) : ¬ Good (.error f) := by
  rintro ⟨datum, h, _⟩
  exact absurd h (by simp)

theorem good_ok {datum : Datum} : Good (.ok datum) ↔ datum.InRange :=
  ⟨fun ⟨_, h, hd⟩ => Except.ok.inj h ▸ hd, fun hd => ⟨datum, rfl, hd⟩⟩

theorem exists_mapM_iff {ε α β : Type} {f : α → Except ε β} {P : β → Prop} :
    ∀ l : List α, (∃ bs, l.mapM f = .ok bs ∧ ∀ b ∈ bs, P b) ↔ ∀ a ∈ l, ∃ b, f a = .ok b ∧ P b
  | [] => iff_of_true ⟨[], rfl, by simp⟩ (by simp)
  | a :: l => by
    rw [List.forall_mem_cons, ← exists_mapM_iff l, List.mapM_cons]
    cases f a with
    | error e => exact iff_of_false (fun ⟨_, h, _⟩ => absurd h (by simp [bind, Except.bind])) fun ⟨⟨_, h, _⟩, _⟩ => absurd h (by simp)
    | ok b =>
      cases l.mapM f with
      | error e =>
        exact iff_of_false (fun ⟨_, h, _⟩ => absurd h (by simp [bind, Except.bind])) fun ⟨_, _, h, _⟩ => absurd h (by simp)
      | ok bs =>
        constructor
        · rintro ⟨_, h, hP⟩
          obtain rfl := Except.ok.inj h
          rw [List.forall_mem_cons] at hP
          exact ⟨⟨b, rfl, hP.1⟩, bs, rfl, hP.2⟩
        · rintro ⟨⟨_, h, hb⟩, _, h', hbs⟩
          obtain rfl := Except.ok.inj h
          obtain rfl := Except.ok.inj h'
          exact ⟨b :: bs, rfl, List.forall_mem_cons.mpr ⟨hb, hbs⟩⟩

theorem elementsInRange_iff : ∀ l : List Datum, elementsInRange l ↔ ∀ d ∈ l, d.InRange
  | [] => iff_of_true trivial (by simp)
  | d :: l => by rw [elementsInRange, elementsInRange_iff l, List.forall_mem_cons]

theorem entriesInRange_iff : ∀ l : List (Bytes × Datum), entriesInRange l ↔ ∀ e ∈ l, e.2.InRange
  | [] => iff_of_true trivial (by simp)
  | e :: l => by rw [entriesInRange, entriesInRange_iff l, List.forall_mem_cons, entryInRange]

/-- What is set is only wrapped. -/
theorem good_map {wrap : Datum → Datum} (hwrap : ∀ d, (wrap d).InRange ↔ d.InRange) (r : Except Failure Datum) :
    Good (r.map wrap) ↔ Good r := by
  cases r with
  | error f => exact iff_of_false (not_good_error f) (not_good_error f)
  | ok d => exact good_ok.trans ((hwrap d).trans good_ok.symm)

section
variable {charText : UInt8 → Bytes} {G : List (Bytes × Schema)}

theorem good_set {schema : Schema} {p : Prim} (h : resolve G schema = .prim p) (datum : Datum) :
    Good (Setter.set G schema ⟨p, datum⟩) ↔ datum.InRange := by
  rw [Setter.set, h]
  dsimp only
  rw [if_pos rfl]
  exact good_ok

theorem good_setArray {α : Type} {assign : Schema → α → Except Failure Datum} {items : Schema} (l : List α) :
    Good (setArray G assign (.array items) l) ↔ ∀ a ∈ l, Good (assign items a) := by
  refine Iff.trans ?_ (exists_mapM_iff l)
  show Good ((l.mapM (assign items)).map Datum.array) ↔ _
  cases l.mapM (assign items) with
  | error e => exact iff_of_false (not_good_error e) fun ⟨_, h, _⟩ => absurd h (by simp)
  | ok ds => exact good_ok.trans ((elementsInRange_iff ds).trans ⟨fun h => ⟨ds, rfl, h⟩, fun ⟨_, h, hd⟩ => Except.ok.inj h ▸ hd⟩)

theorem good_setMap {α : Type} {assign : Schema → α → Except Failure Datum} {values : Schema} (l : List (Bytes × α)) :
    Good (setMap G assign (.map values) l) ↔ ∀ e ∈ l, Good (assign values e.2) := by
  have hentry : ∀ e ∈ l, Good (assign values e.2) ↔
      ∃ d : Bytes × Datum, (assign values e.2).map (Prod.mk e.1) = .ok d ∧ d.2.InRange := by
    intro e _
    cases assign values e.2 with
    | error f => exact iff_of_false (not_good_error f) fun ⟨_, h, _⟩ => absurd h (by simp [Except.map])
    | ok d => exact good_ok.trans ⟨fun h => ⟨(e.1, d), rfl, h⟩, fun ⟨_, h, hd⟩ => by rwa [← Except.ok.inj h] at hd⟩
  rw [forall₂_congr hentry]
  refine Iff.trans ?_ (exists_mapM_iff l)
  show Good ((l.mapM fun e => (assign values e.2).map (Prod.mk e.1)).map Datum.map) ↔ _
  cases l.mapM fun e => (assign values e.2).map (Prod.mk e.1) with
  | error e => exact iff_of_false (not_good_error e) fun ⟨_, h, _⟩ => absurd h (by simp)
  | ok ds => exact good_ok.trans ((entriesInRange_iff ds).trans ⟨fun h => ⟨ds, rfl, h⟩, fun ⟨_, h, hd⟩ => Except.ok.inj h ▸ hd⟩)

theorem getFieldByIndex_eq {schema field : Schema} {name expected : Bytes} {fields : List (Bytes × Schema)} {index : ℕ}
    (h : resolve G schema = .record name fields) (hfield : fields[index]? = some (expected, field)) :
    getFieldByIndex G schema index expected = .ok field := by
  rw [getFieldByIndex, h]
  dsimp only
  rw [hfield]
  exact if_pos rfl

theorem setBranch_union {branches : List Schema} {branch : Schema} {i : ℕ} (h : branches[i]? = some branch) :
    setBranch G (.union branches) i = .ok branch := by
  unfold setBranch
  simp only [resolve, h]

theorem fitsLong_toNat (n : UInt64) : FitsLong n.toNat ↔ n.toNat < 2 ^ 63 := by
  unfold FitsLong
  omega

theorem fitsInt_toNat (n : UInt32) : FitsInt n.toNat ↔ n.toNat < 2 ^ 31 := by
  unfold FitsInt
  omega

theorem fitsLong_toInt (n : Int64) : FitsLong n.toInt := ⟨Int64.le_toInt n, Int64.toInt_lt n⟩

theorem fitsInt_toInt (n : Int32) : FitsInt n.toInt := ⟨Int32.le_toInt n, Int32.toInt_lt n⟩

theorem fitsLong_milliseconds (n : Int64) : FitsLong (milliseconds n.toInt) := by
  have := fitsLong_toInt n
  unfold FitsLong milliseconds at *
  omega

/-- The branch that is chosen is of the type that is set. -/
theorem variantSetter_spec (charText : UInt8 → Bytes) (v : Value) :
    variantAlternates[(variantSetter charText v).1]? = some (.prim (variantSetter charText v).2.prim) ∧
      ((variantSetter charText v).2.datum.InRange ↔ VariantFits v) := by
  cases v with
  | uint n => exact ⟨rfl, fitsLong_toNat n⟩
  | sint n => exact ⟨rfl, iff_of_true (fitsLong_toInt n) trivial⟩
  | timepoint t => exact ⟨rfl, Iff.rfl⟩
  | duration d => exact ⟨rfl, Iff.rfl⟩
  | _ => exact ⟨rfl, Iff.rfl⟩

theorem good_setVariant {schema : Schema} (h : MatchesVariant G schema) (v : Value) :
    Good (setVariant charText G schema v) ↔ VariantFits v := by
  obtain ⟨hbranch, hfits⟩ := variantSetter_spec charText v
  have hfield : getFieldByIndex G schema 0 schemaFieldVariantValue = .ok (.union variantAlternates) :=
    getFieldByIndex_eq h rfl
  have hwrap : ∀ d, (Datum.record [(schemaFieldVariantValue, .union (variantSetter charText v).1 d)]).InRange ↔ d.InRange :=
    fun d => and_iff_left trivial
  rw [setVariant, hfield, Except.bind, setBranch_union hbranch, Except.bind, good_map hwrap, ← hfits]
  exact good_set rfl _

theorem good_union (i : ℕ) (r : Except Failure Datum) : Good (r.map (.union i)) ↔ Good r := by
  have hwrap : ∀ d, (Datum.union i d).InRange ↔ d.InRange := fun _ => Iff.rfl
  exact good_map hwrap r

theorem good_null : Good (Setter.set G (.prim .null) ⟨.null, .null⟩) := (good_set (p := .null) rfl .null).mpr trivial

/-- A map field has the schema of an array of maps, in which no map is set. -/
theorem good_assignLabel {α : Type} {assign : Schema → α → Except Failure Datum} {schema : Schema} {convertible : α → Prop}
    (h : ∀ a, Good (assign schema a) ↔ convertible a) :
    ∀ (label : Label) (v : label.Of α), Good (assignLabel G assign label (wrap label schema) v) ↔ LabelConvertible convertible label v
  | .single, a => h a
  | .optional, none => (good_union 0 _).trans (iff_of_true (good_null (G := G)) trivial)
  | .optional, some a => (good_union 1 _).trans (h a)
  | .repeated, elements => (good_setArray (G := G) elements).trans (forall₂_congr fun a _ => h a)
  | .map key, elements => by
    refine iff_of_false ?_ id
    cases key with
    | string => exact not_good_error .assertion
    | _ => exact not_good_error .assertion

/-- All fields have been set. -/
def GoodFields (r : Except Failure (List (Bytes × Datum))) : Prop := ∃ l, r = .ok l ∧ entriesInRange l

theorem goodFields_cons {name : Bytes} (r : Except Failure Datum) (rest : Except Failure (List (Bytes × Datum))) :
    GoodFields (r.bind fun datum => rest.map ((name, datum) :: ·)) ↔ Good r ∧ GoodFields rest := by
  cases r with
  | error f => exact iff_of_false (fun ⟨_, h, _⟩ => absurd h (by simp [Except.bind])) fun h => not_good_error f h.1
  | ok datum =>
    cases rest with
    | error f =>
      exact iff_of_false (fun ⟨_, h, _⟩ => absurd h (by simp [Except.bind, Except.map])) fun ⟨_, _, h, _⟩ => absurd h (by simp)
    | ok l =>
      rw [good_ok]
      constructor
      · rintro ⟨_, h, hd⟩
        obtain rfl := Except.ok.inj h
        exact ⟨hd.1, l, rfl, hd.2⟩
      · rintro ⟨hd, _, h, hl⟩
        obtain rfl := Except.ok.inj h
        exact ⟨_, rfl, hd, hl⟩

theorem good_record (r : Except Failure (List (Bytes × Datum))) : Good (r.map .record) ↔ GoodFields r := by
  cases r with
  | error f => exact iff_of_false (not_good_error f) fun ⟨_, h, _⟩ => absurd h (by simp)
  | ok l => exact good_ok.trans ⟨fun h => ⟨l, rfl, h⟩, fun ⟨_, h, hl⟩ => Except.ok.inj h ▸ hl⟩

theorem good_setEnum {e : EnumDescriptor} {schema : Schema} (h : resolve G schema = .enum e.name (e.values.map Prod.fst))
    (number : Int32) : Good (setEnum G e schema number) ↔ number ∈ e.values.map Prod.snd := by
  rw [setEnum, h]
  dsimp only
  rw [good_ok, Datum.InRange, List.length_map]
  constructor
  · rintro ⟨i, hi, _⟩
    obtain ⟨hlt, hv, _⟩ := List.findIdx?_eq_some_iff_getElem.mp hi
    exact List.mem_map.mpr ⟨_, List.getElem_mem hlt, of_decide_eq_true hv⟩
  · intro hmem
    obtain ⟨v, hv, rfl⟩ := List.mem_map.mp hmem
    cases hi : e.values.findIdx? fun w => w.2 = v.2 with
    | none => exact absurd (List.findIdx?_eq_none_iff.mp hi v hv) (by simp)
    | some i => exact ⟨i, rfl, (List.findIdx?_eq_some_iff_getElem.mp hi).1⟩

theorem good_setVariantList {items : Schema} (h : MatchesVariant G items) (l : List Value) :
    Good (setArray G (setVariant charText G) (.array items) l) ↔ AllFit l :=
  (good_setArray l).trans (forall₂_congr fun v _ => good_setVariant h v)

theorem good_setVariantMap {values : Schema} (h : MatchesVariant G values) (m : KeyValueMap) :
    Good (setMap G (setVariant charText G) (.map values) m) ↔ EntriesFit m :=
  (good_setMap m).trans (forall₂_congr fun e _ => good_setVariant h e.2)

theorem good_wellKnown {schema : Schema} :
    ∀ (w : WellKnown) (_ : w.Matches G schema) (v : w.Val), Good (w.assign charText G schema v) ↔ w.Fits v
  | .doubleValue, h, _ | .floatValue, h, _ | .stringValue, h, _ | .bytesValue, h, _ | .boolValue, h, _ => good_set h _
  | .int64Value, h, n => (good_set h _).trans (iff_of_true (fitsLong_toInt n) trivial)
  | .uint64Value, h, n => (good_set h _).trans (fitsLong_toNat n)
  | .int32Value, h, n => (good_set h _).trans (iff_of_true (fitsInt_toInt n) trivial)
  | .uint32Value, h, n => (good_set h _).trans (fitsInt_toNat n)
  | .duration, h, n | .timestamp, h, n => (good_set h _).trans (iff_of_true (fitsLong_milliseconds n) trivial)
  | .value, h, v => good_setVariant h v
  | .listValue, h, l => by
    obtain ⟨items, rfl, hitems⟩ := h
    exact good_setVariantList hitems l
  | .struct, h, m => by
    obtain ⟨values, rfl, hvalues⟩ := h
    exact good_setVariantMap hvalues m

theorem good_variant {schema : Schema} :
    ∀ (v : VariantType) (_ : v.Matches G schema) (x : v.Val), Good (v.assign charText G schema x) ↔ v.Fits x
  | .value, h, v => good_setVariant h v
  | .valueList, h, l => by
    obtain ⟨items, rfl, hitems⟩ := h
    exact good_setVariantList hitems l
  | .keyValueMap, h, m => by
    obtain ⟨values, rfl, hvalues⟩ := h
    exact good_setVariantMap hvalues m

theorem good_scalar {schema : Schema} : ∀ (s : Scalar) (_ : resolve G schema = .prim s.schema) (v : s.Val),
    Good (Setter.set G schema (s.setter v)) ↔ s.Fits v
  | .int32, h, n | .sint32, h, n | .sfixed32, h, n => (good_set h _).trans (iff_of_true (fitsInt_toInt n) trivial)
  | .uint32, h, n | .fixed32, h, n => (good_set h _).trans (fitsInt_toNat n)
  | .int64, h, n | .sint64, h, n | .sfixed64, h, n => (good_set h _).trans (iff_of_true (fitsLong_toInt n) trivial)
  | .uint64, h, n | .fixed64, h, n => (good_set h _).trans (fitsLong_toNat n)
  | .double, h, _ | .float, h, _ | .bool, h, _ | .string, h, _ | .bytes, h, _ => good_set h _

theorem name_of_fieldMatches : ∀ (f : FieldInfo × Ty) {field : Bytes × Schema} (_ : FieldMatches G f field), field.1 = f.1.name
  | (_, _), _, ⟨_, hfield, _⟩ => congrArg Prod.fst hfield

mutual
/-- The value that is visited has the schema of the type at every step. -/
theorem good_assign : ∀ (t : Ty) (schema : Schema) (_ : t.Matches G schema) (v : t.Val),
    Good (t.assign charText G schema v) ↔ t.Convertible v
  | .scalar s, _, h, v => good_scalar s h v
  | .enum _, _, h, number => good_setEnum h number
  | .wellKnown w, _, h, v => good_wellKnown w h v
  | .variant v, _, h, x => good_variant v h x
  | .message known name fields, schema, h, v => by
    obtain ⟨fs, hrecord, hfields⟩ := h
    rw [Ty.assign, Ty.Convertible]
    cases known with
    | true =>
      refine iff_of_false ?_ (by simp)
      rw [if_pos rfl, Setter.set, hrecord]
      exact not_good_error .status
    | false =>
      rw [if_neg Bool.false_ne_true, good_record]
      exact (good_assignFields fields schema [] fs name hrecord hfields v).trans (and_iff_right rfl).symm
termination_by structural t => t
theorem good_assignField : ∀ (f : FieldInfo × Ty) (field : Bytes × Schema) (_ : FieldMatches G f field) (v : FieldVal f),
    Good (assignField charText G f field.2 v) ↔ FieldConvertible f v
  | (info, t), _, ⟨schema, hfield, ht⟩, v => by
    subst hfield
    exact good_assignLabel (good_assign t schema ht) info.label v
termination_by structural f => f
theorem good_assignFields : ∀ (fields : List (FieldInfo × Ty)) (schema : Schema) (before fs : List (Bytes × Schema)) (name : Bytes)
    (_ : resolve G schema = .record name (before ++ fs)) (_ : FieldsMatch G fields fs) (v : FieldsVal fields),
    GoodFields (assignFields charText G fields schema before.length v) ↔ FieldsConvertible fields v
  | [], _, _, _, _, _, _, _ => iff_of_true ⟨[], rfl, trivial⟩ trivial
  | f :: fields, schema, before, fs, name, h, ⟨field, rest, hfs, hf, hrest⟩, v => by
    subst hfs
    have hget : getFieldByIndex G schema before.length f.1.name = .ok field.2 := by
      refine getFieldByIndex_eq h ?_
      rw [List.getElem?_append_right le_rfl, Nat.sub_self, ← name_of_fieldMatches f hf]
      rfl
    have hnext := good_assignFields fields schema (before ++ [field]) rest name (by rw [h, List.append_assoc]; rfl) hrest v.2
    rw [List.length_append] at hnext
    rw [assignFields, hget, Except.bind, goodFields_cons, FieldsConvertible]
    exact and_congr (good_assignField f field hf v.1) hnext
termination_by structural fields => fields
end

end

/-! ## What is defined -/

/-- A name is defined once. -/
def define (defined : List Bytes) (name : Bytes) : List Bytes :=
  if defined.any fun n => n = name then defined else name :: defined

theorem any_iff {defined : List Bytes} {name : Bytes} : (defined.any fun n => n = name) = true ↔ name ∈ defined := by
  simp

theorem build_snd (defined : List Bytes) (name : Bytes) (schema : Schema) :
    (build defined name schema).2 = define defined name := by
  unfold build define
  by_cases h : name ∈ defined
  · rw [if_pos (any_iff.mpr h), if_pos (any_iff.mpr h)]
  · rw [if_neg (mt any_iff.mp h), if_neg (mt any_iff.mp h)]

theorem mem_define {defined : List Bytes} {name n : Bytes} : n ∈ define defined name ↔ n ∈ defined ∨ n = name := by
  unfold define
  split
  · next h => exact ⟨Or.inl, fun hn => hn.elim id fun hn => hn ▸ any_iff.mp h⟩
  · exact List.mem_cons.trans or_comm

theorem mem_foldl_define {n : Bytes} : ∀ (names defined : List Bytes), n ∈ names.foldl define defined ↔ n ∈ defined ∨ n ∈ names
  | [], _ => by simp
  | name :: names, defined => by
    rw [List.foldl_cons, mem_foldl_define names, mem_define, List.mem_cons, or_assoc]

theorem foldl_define_self : ∀ (names : List Bytes) {defined : List Bytes} (_ : ∀ n ∈ names, n ∈ defined),
    names.foldl define defined = defined
  | [], _, _ => rfl
  | name :: names, _, h => by
    rw [List.foldl_cons, define, if_pos (any_iff.mpr (h name List.mem_cons_self))]
    exact foldl_define_self names fun n hn => h n (List.mem_cons_of_mem _ hn)

theorem nodup_foldl_define : ∀ (names : List Bytes) {defined : List Bytes} (_ : defined.Nodup), (names.foldl define defined).Nodup
  | [], _, h => h
  | name :: names, defined, h => by
    refine nodup_foldl_define names ?_
    unfold define
    split
    · exact h
    · next hname => exact List.nodup_cons.mpr ⟨mt any_iff.mpr hname, h⟩

/-- The names that a type gives. -/
def names (named : List (Bytes × Ty)) : List Bytes := named.map Prod.fst

theorem wellKnown_schema_snd (defined : List Bytes) :
    ∀ w : WellKnown, (w.schema defined).2 = (names (Ty.wellKnown w).named).foldl define defined
  | .value | .listValue | .struct => build_snd ..
  | .doubleValue | .floatValue | .int64Value | .uint64Value | .int32Value | .uint32Value | .stringValue | .bytesValue | .boolValue
  | .duration | .timestamp => rfl

theorem variant_schema_snd (defined : List Bytes) :
    ∀ v : VariantType, (v.schema defined).2 = (names (Ty.variant v).named).foldl define defined
  | .value | .valueList | .keyValueMap => build_snd ..

mutual
theorem schema_snd : ∀ (t : Ty) (defined : List Bytes), (t.schema defined).2 = (names t.named).foldl define defined
  | .scalar _, _ => rfl
  | .enum _, _ => build_snd ..
  | .wellKnown w, defined => wellKnown_schema_snd defined w
  | .variant v, defined => variant_schema_snd defined v
  | .message _ name fields, defined => by
    rw [Ty.schema, Ty.named, names, List.map_cons, List.foldl_cons, define]
    by_cases h : name ∈ defined
    · rw [if_pos (any_iff.mpr h), if_pos (any_iff.mpr h)]
      exact fieldsSchema_snd fields defined
    · rw [if_neg (mt any_iff.mp h), if_neg (mt any_iff.mp h)]
      exact fieldsSchema_snd fields (name :: defined)
termination_by structural t => t
theorem fieldSchema_snd : ∀ (f : FieldInfo × Ty) (defined : List Bytes),
    (fieldSchema f defined).2 = (names (fieldNamed f)).foldl define defined
  | (_, t), defined => schema_snd t defined
termination_by structural f => f
theorem fieldsSchema_snd : ∀ (fields : List (FieldInfo × Ty)) (defined : List Bytes),
    (fieldsSchema fields defined).2 = (names (fieldsNamed fields)).foldl define defined
  | [], _ => rfl
  | f :: fields, defined => by
    rw [fieldsNamed, names, List.map_append, List.foldl_append, fieldsSchema]
    exact (fieldsSchema_snd fields _).trans (by rw [fieldSchema_snd f defined]; rfl)
termination_by structural fields => fields
end

mutual
/-- What is named in a type names itself, and all else that is named in it. -/
theorem named_trans : ∀ (t : Ty) {n : Bytes} {u : Ty} (_ : (n, u) ∈ t.named), (n, u) ∈ u.named ∧ u.named ⊆ t.named
  | .scalar _, _, _, h => absurd h List.not_mem_nil
  | .enum e, _, _, h => by
    obtain ⟨rfl, rfl⟩ := Prod.mk.inj (List.mem_singleton.mp h)
    exact ⟨h, List.Subset.refl _⟩
  | .wellKnown w, _, _, h => by
    cases w with
    | value | listValue | struct =>
      obtain ⟨rfl, rfl⟩ := Prod.mk.inj (List.mem_singleton.mp h)
      exact ⟨h, List.Subset.refl _⟩
    | _ => exact absurd h List.not_mem_nil
  | .variant _, _, _, h => by
    obtain ⟨rfl, rfl⟩ := Prod.mk.inj (List.mem_singleton.mp h)
    exact ⟨h, List.Subset.refl _⟩
  | .message known name fields, n, u, h => by
    cases List.mem_cons.mp h with
    | inl hself =>
      obtain ⟨rfl, rfl⟩ := Prod.mk.inj hself
      exact ⟨h, List.Subset.refl _⟩
    | inr h =>
      obtain ⟨hself, hsub⟩ := fieldsNamed_trans fields h
      exact ⟨hself, List.subset_cons_of_subset _ hsub⟩
termination_by structural t => t
theorem fieldNamed_trans : ∀ (f : FieldInfo × Ty) {n : Bytes} {u : Ty} (_ : (n, u) ∈ fieldNamed f),
    (n, u) ∈ u.named ∧ u.named ⊆ fieldNamed f
  | (_, t), _, _, h => named_trans t h
termination_by structural f => f
theorem fieldsNamed_trans : ∀ (fields : List (FieldInfo × Ty)) {n : Bytes} {u : Ty} (_ : (n, u) ∈ fieldsNamed fields),
    (n, u) ∈ u.named ∧ u.named ⊆ fieldsNamed fields
  | [], _, _, h => absurd h List.not_mem_nil
  | f :: fields, n, u, h => by
    cases List.mem_append.mp h with
    | inl h =>
      obtain ⟨hself, hsub⟩ := fieldNamed_trans f h
      exact ⟨hself, List.subset_append_of_subset_left _ hsub⟩
    | inr h =>
      obtain ⟨hself, hsub⟩ := fieldsNamed_trans fields h
      exact ⟨hself, List.subset_append_of_subset_right _ hsub⟩
termination_by structural fields => fields
end

mutual
theorem sizeOf_named : ∀ (t : Ty) {n : Bytes} {u : Ty} (_ : (n, u) ∈ t.named), sizeOf u ≤ sizeOf t
  | .scalar _, _, _, h => absurd h List.not_mem_nil
  | .enum e, _, _, h => by
    obtain ⟨-, rfl⟩ := Prod.mk.inj (List.mem_singleton.mp h)
    exact le_rfl
  | .wellKnown w, _, _, h => by
    cases w with
    | value | listValue | struct =>
      obtain ⟨-, rfl⟩ := Prod.mk.inj (List.mem_singleton.mp h)
      simp
    | _ => exact absurd h List.not_mem_nil
  | .variant v, _, _, h => by
    obtain ⟨-, rfl⟩ := Prod.mk.inj (List.mem_singleton.mp h)
    cases v <;> simp
  | .message known name fields, n, u, h => by
    cases List.mem_cons.mp h with
    | inl h =>
      obtain ⟨-, rfl⟩ := Prod.mk.inj h
      exact le_rfl
    | inr h =>
      have := sizeOf_fieldsNamed fields h
      simp only [Ty.message.sizeOf_spec]
      omega
termination_by structural t => t
theorem sizeOf_fieldNamed : ∀ (f : FieldInfo × Ty) {n : Bytes} {u : Ty} (_ : (n, u) ∈ fieldNamed f), sizeOf u ≤ sizeOf f
  | (_, t), _, _, h => by
    have := sizeOf_named t h
    simp only [Prod.mk.sizeOf_spec]
    omega
termination_by structural f => f
theorem sizeOf_fieldsNamed : ∀ (fields : List (FieldInfo × Ty)) {n : Bytes} {u : Ty} (_ : (n, u) ∈ fieldsNamed fields),
    sizeOf u ≤ sizeOf fields
  | [], _, _, h => absurd h List.not_mem_nil
  | f :: fields, n, u, h => by
    simp only [List.cons.sizeOf_spec]
    cases List.mem_append.mp h with
    | inl h =>
      have := sizeOf_fieldNamed f h
      omega
    | inr h =>
      have := sizeOf_fieldsNamed fields h
      omega
termination_by structural fields => fields
end

/-! ## The schema is well formed -/

theorem ofName_eq {name : Bytes} (h : name ∉ Prim.all.map Prim.name) : ofName name = .ref name := by
  have hnone : Prim.all.find? (fun p => p.name = name) = none :=
    List.find?_eq_none.mpr fun p hp hname => h (List.mem_map.mpr ⟨p, hp, of_decide_eq_true hname⟩)
  rw [ofName, hnone]

theorem declare_ref {name : Bytes} {known : List Bytes} (h : name ∈ known) : (Schema.ref name).declare known = some known :=
  if_pos (any_iff.mpr h)

theorem declare_wrap (known : List Bytes) (s : Schema) : ∀ label, (wrap label s).declare known = s.declare known
  | .single | .repeated | .map _ => rfl
  | .optional => Option.bind_fun_some (s.declare known)

theorem declare_build {name : Bytes} (hname : name ∉ Prim.all.map Prim.name) {schema : Schema} {defined : List Bytes}
    (h : schema.declare defined = some (name :: defined)) :
    (build defined name schema).1.declare defined = some (build defined name schema).2 := by
  unfold build
  by_cases hmem : name ∈ defined
  · rw [if_pos (any_iff.mpr hmem), ofName_eq hname]
    exact declare_ref hmem
  · rw [if_neg (mt any_iff.mp hmem)]
    exact h

theorem variant_unreserved : typeNameVariant ∉ Prim.all.map Prim.name := by decide

theorem declare_variantSchema (defined : List Bytes) : (variantSchema defined).1.declare defined = some (variantSchema defined).2 :=
  declare_build variant_unreserved rfl

/-- With a name, all that is named in its type has been defined. -/
def Closed (defined : List Bytes) (named : List (Bytes × Ty)) : Prop :=
  ∀ n u, (n, u) ∈ named → n ∈ defined → names u.named ⊆ defined

theorem mem_names {n : Bytes} {u : Ty} {named : List (Bytes × Ty)} (h : (n, u) ∈ named) : n ∈ names named :=
  List.mem_map.mpr ⟨_, h, rfl⟩

theorem exists_of_mem_names {n : Bytes} {named : List (Bytes × Ty)} (h : n ∈ names named) : ∃ u, (n, u) ∈ named := by
  obtain ⟨⟨_, u⟩, hu, rfl⟩ := List.mem_map.mp h
  exact ⟨u, hu⟩

theorem Unambiguous.mono {part named : List (Bytes × Ty)} (h : Unambiguous named) (hpart : part ⊆ named) : Unambiguous part :=
  ⟨fun n t u ht hu => h.unique n t u (hpart ht) (hpart hu), fun n t ht => h.unreserved n t (hpart ht)⟩

/-- No type is named among its own fields. -/
theorem closed_fields {known : Bool} {name : Bytes} {fields : List (FieldInfo × Ty)} {defined : List Bytes}
    (hnames : Unambiguous (Ty.message known name fields).named) (h : Closed defined (Ty.message known name fields).named) :
    Closed (name :: defined) (fieldsNamed fields) := by
  intro n u hu hn
  cases List.mem_cons.mp hn with
  | inl hname =>
    have hself := hnames.unique n u _ (List.mem_cons_of_mem _ hu) (by rw [hname]; exact List.mem_cons_self)
    have hsize := sizeOf_fieldsNamed fields hu
    rw [hself, Ty.message.sizeOf_spec] at hsize
    omega
  | inr hmem => exact List.subset_cons_of_subset _ (h n u (List.mem_cons_of_mem _ hu) hmem)

theorem closed_rest {f : FieldInfo × Ty} {fields : List (FieldInfo × Ty)} {defined : List Bytes}
    (hnames : Unambiguous (fieldsNamed (f :: fields))) (h : Closed defined (fieldsNamed (f :: fields))) :
    Closed (fieldSchema f defined).2 (fieldsNamed fields) := by
  intro n u hu hn k hk
  rw [fieldSchema_snd, mem_foldl_define] at hn ⊢
  have hright : (n, u) ∈ fieldsNamed (f :: fields) := List.mem_append_right _ hu
  cases hn with
  | inl hmem => exact Or.inl (h n u hright hmem hk)
  | inr hmem =>
    obtain ⟨u', hu'⟩ := exists_of_mem_names hmem
    obtain rfl := hnames.unique n u u' hright (List.mem_append_left _ hu')
    obtain ⟨w, hw⟩ := exists_of_mem_names hk
    exact Or.inr (mem_names ((fieldNamed_trans f hu').2 hw))

mutual
/-- Each name is defined before it is used, and once. -/
theorem declare_schema : ∀ (t : Ty) (defined : List Bytes) (_ : Unambiguous t.named) (_ : Closed defined t.named),
    (t.schema defined).1.declare defined = some (t.schema defined).2
  | .scalar _, _, _, _ => rfl
  | .enum _, _, hnames, _ => declare_build (hnames.unreserved _ _ List.mem_cons_self) rfl
  | .wellKnown w, defined, _, _ => by
    cases w with
    | value | listValue | struct => exact declare_variantSchema defined
    | _ => rfl
  | .variant v, defined, _, _ => by
    cases v with
    | value | valueList | keyValueMap => exact declare_variantSchema defined
  | .message known name fields, defined, hnames, h => by
    rw [Ty.schema]
    by_cases hmem : name ∈ defined
    · have hself : names (fieldsNamed fields) ⊆ defined :=
        fun n hn => h name _ List.mem_cons_self hmem (List.mem_cons_of_mem _ hn)
      rw [if_pos (any_iff.mpr hmem), ofName_eq (hnames.unreserved _ _ List.mem_cons_self), fieldsSchema_snd,
        foldl_define_self _ hself]
      exact declare_ref hmem
    · rw [if_neg (mt any_iff.mp hmem)]
      exact declare_fieldsSchema fields (name :: defined) (hnames.mono (List.subset_cons_self ..)) (closed_fields hnames h)
termination_by structural t => t
theorem declare_fieldSchema : ∀ (f : FieldInfo × Ty) (defined : List Bytes) (_ : Unambiguous (fieldNamed f))
    (_ : Closed defined (fieldNamed f)), declareField (fieldSchema f defined).1 defined = some (fieldSchema f defined).2
  | (info, t), defined, hnames, h => (declare_wrap defined _ info.label).trans (declare_schema t defined hnames h)
termination_by structural f => f
theorem declare_fieldsSchema : ∀ (fields : List (FieldInfo × Ty)) (defined : List Bytes) (_ : Unambiguous (fieldsNamed fields))
    (_ : Closed defined (fieldsNamed fields)),
    declareFields (fieldsSchema fields defined).1 defined = some (fieldsSchema fields defined).2
  | [], _, _, _ => rfl
  | f :: fields, defined, hnames, h => by
    have hf := declare_fieldSchema f defined (hnames.mono (List.subset_append_left ..))
      fun n u hu => h n u (List.mem_append_left _ hu)
    rw [fieldsSchema, declareFields, hf, Option.bind_some]
    exact declare_fieldsSchema fields _ (hnames.mono (List.subset_append_right ..)) (closed_rest hnames h)
termination_by structural fields => fields
end

mutual
/-- What has been declared are the definitions, in their order. -/
theorem declare_eq : ∀ (s : Schema) {known after : List Bytes} (_ : s.declare known = some after),
    after = (s.defs.map Prod.fst).reverse ++ known
  | .prim _, _, _, h => (Option.some.inj h).symm
  | .ref name, known, after, h => by
    rw [Schema.declare] at h
    split at h
    · exact (Option.some.inj h).symm
    · cases h
  | .enum _ _, _, _, h => (Option.some.inj h).symm
  | .array items, _, _, h => declare_eq items h
  | .map values, _, _, h => declare_eq values h
  | .record name fields, known, after, h => by
    rw [declareFields_eq fields h, Schema.defs, List.map_cons, List.reverse_cons, List.append_assoc]
    rfl
  | .union branches, _, _, h => declareBranches_eq branches h
termination_by structural s => s
theorem declareField_eq : ∀ (f : Bytes × Schema) {known after : List Bytes} (_ : declareField f known = some after),
    after = ((fieldDefs f).map Prod.fst).reverse ++ known
  | (_, s), _, _, h => declare_eq s h
termination_by structural f => f
theorem declareFields_eq : ∀ (fields : List (Bytes × Schema)) {known after : List Bytes} (_ : declareFields fields known = some after),
    after = ((fieldsDefs fields).map Prod.fst).reverse ++ known
  | [], _, _, h => (Option.some.inj h).symm
  | f :: fields, known, after, h => by
    obtain ⟨between, hf, hfields⟩ := Option.bind_eq_some_iff.mp h
    rw [declareFields_eq fields hfields, declareField_eq f hf, fieldsDefs, List.map_append, List.reverse_append, List.append_assoc]
termination_by structural fields => fields
theorem declareBranches_eq : ∀ (branches : List Schema) {known after : List Bytes} (_ : declareBranches branches known = some after),
    after = ((branchesDefs branches).map Prod.fst).reverse ++ known
  | [], _, _, h => (Option.some.inj h).symm
  | b :: branches, known, after, h => by
    obtain ⟨between, hb, hbranches⟩ := Option.bind_eq_some_iff.mp h
    rw [declareBranches_eq branches hbranches, declare_eq b hb, branchesDefs, List.map_append, List.reverse_append, List.append_assoc]
termination_by structural branches => branches
end

/-! ## The schema matches the type -/

theorem defs_ofName (name : Bytes) : (ofName name).defs = [] := by
  unfold ofName
  split <;> rfl

theorem defs_wrap (s : Schema) : ∀ label, (wrap label s).defs = s.defs
  | .single | .repeated | .map _ => rfl
  | .optional => List.append_nil s.defs

theorem mem_defs_build {defined : List Bytes} {name n : Bytes} {schema D : Schema} (hdefs : schema.defs = [(name, schema)])
    (h : (n, D) ∈ (build defined name schema).1.defs) : n = name ∧ name ∉ defined ∧ (build defined name schema).1 = D := by
  unfold build at h ⊢
  by_cases hmem : name ∈ defined
  · rw [if_pos (any_iff.mpr hmem), defs_ofName] at h
    exact absurd h List.not_mem_nil
  · rw [if_neg (mt any_iff.mp hmem)] at h ⊢
    rw [hdefs] at h
    obtain ⟨rfl, rfl⟩ := Prod.mk.inj (List.mem_singleton.mp h)
    exact ⟨rfl, hmem, rfl⟩

/-- The name is defined by the schema of its type, where that is first visited. -/
def DefinedBy (named : List (Bytes × Ty)) (n : Bytes) (D : Schema) : Prop :=
  ∃ u defined, (n, u) ∈ named ∧ n ∉ defined ∧ (u.schema defined).1 = D

theorem DefinedBy.mono {part named : List (Bytes × Ty)} {n : Bytes} {D : Schema} (h : DefinedBy part n D) (hpart : part ⊆ named) :
    DefinedBy named n D := by
  obtain ⟨u, defined, hu, hn, hD⟩ := h
  exact ⟨u, defined, hpart hu, hn, hD⟩

theorem definedBy_variantSchema {defined : List Bytes} {n : Bytes} {D : Schema} (h : (n, D) ∈ (variantSchema defined).1.defs) :
    DefinedBy [(typeNameVariant, .variant .value)] n D := by
  obtain ⟨rfl, hn, hD⟩ := mem_defs_build rfl h
  exact ⟨.variant .value, defined, List.mem_cons_self, hn, hD⟩

mutual
theorem definedBy_schema : ∀ (t : Ty) (defined : List Bytes) {n : Bytes} {D : Schema} (_ : (n, D) ∈ (t.schema defined).1.defs),
    DefinedBy t.named n D
  | .scalar _, _, _, _, h => absurd h List.not_mem_nil
  | .enum e, defined, n, D, h => by
    obtain ⟨rfl, hn, hD⟩ := mem_defs_build rfl h
    exact ⟨.enum e, defined, List.mem_cons_self, hn, hD⟩
  | .wellKnown w, _, _, _, h => by
    cases w with
    | value | listValue | struct => exact definedBy_variantSchema h
    | _ => exact absurd h List.not_mem_nil
  | .variant v, _, _, _, h => by
    cases v with
    | value | valueList | keyValueMap => exact definedBy_variantSchema h
  | .message known name fields, defined, n, D, h => by
    by_cases hmem : name ∈ defined
    · rw [Ty.schema, if_pos (any_iff.mpr hmem), defs_ofName] at h
      exact absurd h List.not_mem_nil
    · have heq : ((Ty.message known name fields).schema defined).1 = .record name (fieldsSchema fields (name :: defined)).1 := by
        rw [Ty.schema, if_neg (mt any_iff.mp hmem)]
      rw [heq] at h
      cases List.mem_cons.mp h with
      | inl h =>
        obtain ⟨rfl, rfl⟩ := Prod.mk.inj h
        exact ⟨_, defined, List.mem_cons_self, hmem, heq⟩
      | inr h => exact (definedBy_fieldsSchema fields _ h).mono (List.subset_cons_self ..)
termination_by structural t => t
theorem definedBy_fieldSchema : ∀ (f : FieldInfo × Ty) (defined : List Bytes) {n : Bytes} {D : Schema}
    (_ : (n, D) ∈ fieldDefs (fieldSchema f defined).1), DefinedBy (fieldNamed f) n D
  | (info, t), defined, n, D, h => by
    refine definedBy_schema t defined ?_
    rw [← defs_wrap _ info.label]
    exact h
termination_by structural f => f
theorem definedBy_fieldsSchema : ∀ (fields : List (FieldInfo × Ty)) (defined : List Bytes) {n : Bytes} {D : Schema}
    (_ : (n, D) ∈ fieldsDefs (fieldsSchema fields defined).1), DefinedBy (fieldsNamed fields) n D
  | [], _, _, _, h => absurd h List.not_mem_nil
  | f :: fields, defined, n, D, h => by
    cases List.mem_append.mp h with
    | inl h => exact (definedBy_fieldSchema f defined h).mono (List.subset_append_left ..)
    | inr h => exact (definedBy_fieldsSchema fields _ h).mono (List.subset_append_right ..)
termination_by structural fields => fields
end

section
variable {G : List (Bytes × Schema)}

/-- Each name stands for a schema that matches its type. -/
def NamesMatch (G : List (Bytes × Schema)) (named : List (Bytes × Ty)) : Prop := ∀ n u, (n, u) ∈ named → u.Matches G (.ref n)

theorem matches_variantSchema (defined : List Bytes) (h : MatchesVariant G (.ref typeNameVariant)) :
    MatchesVariant G (variantSchema defined).1 := by
  unfold variantSchema build
  by_cases hmem : typeNameVariant ∈ defined
  · rw [if_pos (any_iff.mpr hmem), ofName_eq variant_unreserved]
    exact h
  · rw [if_neg (mt any_iff.mp hmem)]
    rfl

mutual
theorem matches_schema : ∀ (t : Ty) (defined : List Bytes) (_ : Unambiguous t.named) (_ : NamesMatch G t.named),
    t.Matches G (t.schema defined).1
  | .scalar _, _, _, _ => rfl
  | .enum e, defined, hnames, h => by
    rw [Ty.schema, build]
    by_cases hmem : e.name ∈ defined
    · rw [if_pos (any_iff.mpr hmem), ofName_eq (hnames.unreserved _ _ List.mem_cons_self)]
      exact h _ _ List.mem_cons_self
    · rw [if_neg (mt any_iff.mp hmem)]
      rfl
  | .wellKnown w, defined, _, h => by
    cases w with
    | value => exact matches_variantSchema defined (h _ _ List.mem_cons_self)
    | listValue | struct => exact ⟨_, rfl, matches_variantSchema defined (h _ _ List.mem_cons_self)⟩
    | _ => rfl
  | .variant v, defined, _, h => by
    cases v with
    | value => exact matches_variantSchema defined (h _ _ List.mem_cons_self)
    | valueList | keyValueMap => exact ⟨_, rfl, matches_variantSchema defined (h _ _ List.mem_cons_self)⟩
  | .message known name fields, defined, hnames, h => by
    rw [Ty.schema]
    by_cases hmem : name ∈ defined
    · rw [if_pos (any_iff.mpr hmem), ofName_eq (hnames.unreserved _ _ List.mem_cons_self)]
      exact h _ _ List.mem_cons_self
    · rw [if_neg (mt any_iff.mp hmem)]
      exact ⟨_, rfl, matches_fieldsSchema fields _ (hnames.mono (List.subset_cons_self ..))
        fun n u hu => h n u (List.mem_cons_of_mem _ hu)⟩
termination_by structural t => t
theorem matches_fieldSchema : ∀ (f : FieldInfo × Ty) (defined : List Bytes) (_ : Unambiguous (fieldNamed f))
    (_ : NamesMatch G (fieldNamed f)), FieldMatches G f (fieldSchema f defined).1
  | (_, t), defined, hnames, h => ⟨_, rfl, matches_schema t defined hnames h⟩
termination_by structural f => f
theorem matches_fieldsSchema : ∀ (fields : List (FieldInfo × Ty)) (defined : List Bytes) (_ : Unambiguous (fieldsNamed fields))
    (_ : NamesMatch G (fieldsNamed fields)), FieldsMatch G fields (fieldsSchema fields defined).1
  | [], _, _, _ => rfl
  | f :: fields, defined, hnames, h =>
    ⟨_, _, rfl, matches_fieldSchema f defined (hnames.mono (List.subset_append_left ..)) fun n u hu => h n u (List.mem_append_left _ hu),
      matches_fieldsSchema fields _ (hnames.mono (List.subset_append_right ..)) fun n u hu => h n u (List.mem_append_right _ hu)⟩
termination_by structural fields => fields
end

/-- A name stands for the schema of its type, and the names that it uses are
those of smaller types. -/
theorem matches_ref {n : Bytes} {u : Ty} {defined : List Bytes} (hself : (n, u) ∈ u.named) (hnames : Unambiguous u.named)
    (hn : n ∉ defined) (hlookup : G.lookup n = some (u.schema defined).1)
    (hsmaller : ∀ k w, (k, w) ∈ u.named → sizeOf w < sizeOf u → w.Matches G (.ref k)) : u.Matches G (.ref n) := by
  have hresolve : resolve G (.ref n) = (u.schema defined).1 := by rw [resolve, hlookup, Option.getD_some]
  have hneg := mt any_iff.mp hn
  cases u with
  | scalar s => exact absurd hself List.not_mem_nil
  | wellKnown w =>
    cases w with
    | value | listValue | struct => exact absurd (Prod.mk.inj (List.mem_singleton.mp hself)).2 (by simp)
    | _ => exact absurd hself List.not_mem_nil
  | enum e =>
    obtain ⟨rfl, -⟩ := Prod.mk.inj (List.mem_singleton.mp hself)
    rw [Ty.schema, build, if_neg hneg] at hresolve
    exact hresolve
  | variant v =>
    obtain ⟨rfl, hv⟩ := Prod.mk.inj (List.mem_singleton.mp hself)
    cases hv
    rw [Ty.schema, VariantType.schema, variantSchema, build, if_neg hneg] at hresolve
    exact hresolve
  | message known name fields =>
    have hsize : ∀ k w, (k, w) ∈ fieldsNamed fields → sizeOf w < sizeOf (Ty.message known name fields) := by
      intro k w hw
      have := sizeOf_fieldsNamed fields hw
      rw [Ty.message.sizeOf_spec]
      omega
    cases List.mem_cons.mp hself with
    | inr h => exact absurd (hsize n _ h) (lt_irrefl _)
    | inl h =>
      obtain ⟨rfl, -⟩ := Prod.mk.inj h
      rw [Ty.schema, if_neg hneg] at hresolve
      exact ⟨_, hresolve, matches_fieldsSchema fields _ (hnames.mono (List.subset_cons_self ..))
        fun k w hw => hsmaller k w (List.mem_cons_of_mem _ hw) (hsize k w hw)⟩

end

theorem lookup_of_mem {n : Bytes} {D : Schema} : ∀ {defs : List (Bytes × Schema)} (_ : (defs.map Prod.fst).Nodup) (_ : (n, D) ∈ defs),
    defs.lookup n = some D
  | (m, E) :: defs, hnodup, h => by
    rw [List.map_cons, List.nodup_cons] at hnodup
    rw [List.lookup_cons]
    cases List.mem_cons.mp h with
    | inl h =>
      obtain ⟨rfl, rfl⟩ := Prod.mk.inj h
      simp
    | inr h =>
      have hne : n ≠ m := fun heq => hnodup.1 (heq ▸ List.mem_map.mpr ⟨_, h, rfl⟩)
      rw [beq_false_of_ne hne]
      exact lookup_of_mem hnodup.2 h

theorem closed_nil (named : List (Bytes × Ty)) : Closed [] named := fun _ _ _ hn => absurd hn List.not_mem_nil

section
variable {t : Ty} (hnames : Unambiguous t.named)
include hnames

theorem defs_names : (((t.schema []).1.defs).map Prod.fst).reverse = (names t.named).foldl define [] := by
  have hdeclare := declare_eq _ (declare_schema t [] hnames (closed_nil _))
  rw [List.append_nil] at hdeclare
  rw [← hdeclare, schema_snd]

/-- Each type that is named is found by its name. -/
theorem lookup_defs {n : Bytes} {u : Ty} (hu : (n, u) ∈ t.named) :
    ∃ defined, n ∉ defined ∧ (t.schema []).1.defs.lookup n = some (u.schema defined).1 := by
  have hnodup : (((t.schema []).1.defs).map Prod.fst).Nodup := by
    rw [← List.nodup_reverse, defs_names hnames]
    exact nodup_foldl_define _ List.nodup_nil
  have hmem : n ∈ ((t.schema []).1.defs).map Prod.fst := by
    rw [← List.mem_reverse, defs_names hnames, mem_foldl_define]
    exact Or.inr (mem_names hu)
  obtain ⟨⟨_, D⟩, hD, rfl⟩ := List.mem_map.mp hmem
  obtain ⟨u', defined, hu', hn, rfl⟩ := definedBy_schema t [] hD
  obtain rfl := hnames.unique _ u u' hu hu'
  exact ⟨defined, hn, lookup_of_mem hnodup hD⟩

theorem namesMatch_defs : NamesMatch (t.schema []).1.defs t.named := by
  intro n u
  induction hsize : sizeOf u using Nat.strong_induction_on generalizing n u with
  | _ size ih =>
    intro hu
    obtain ⟨hself, hsub⟩ := named_trans t hu
    obtain ⟨defined, hn, hlookup⟩ := lookup_defs hnames hu
    exact matches_ref hself (hnames.mono hsub) hn hlookup fun k w hw hlt => ih _ (hsize ▸ hlt) k w rfl (hsub hw)

end

theorem unambiguous_of_pairwise {named : List (Bytes × Ty)} (h : named.Pairwise fun a b => a.1 = b.1 → a.2 = b.2)
    (hnames : ∀ n ∈ names named, n ∉ Prim.all.map Prim.name) : Unambiguous named := by
  refine ⟨fun n t u ht hu => ?_, fun n t ht => hnames n (mem_names ht)⟩
  have : Std.Symm fun a b : Bytes × Ty => a.1 = b.1 → a.2 = b.2 := ⟨fun _ _ hab heq => (hab heq.symm).symm⟩
  exact List.Pairwise.forall_of_forall (fun _ _ _ => rfl) h ht hu rfl

def point : Ty :=
  .message false (ascii "Point") [(⟨ascii "x", .single⟩, .scalar .sint32), (⟨ascii "weight", .single⟩, .scalar .uint32)]

def kind : EnumDescriptor := ⟨ascii "Kind", [(ascii "ROAD", 0), (ascii "RIVER", 4)]⟩

/-- A type that visits another one twice. -/
def track : Ty :=
  .message false (ascii "Track")
    [(⟨ascii "start", .optional⟩, point), (⟨ascii "points", .repeated⟩, point), (⟨ascii "kind", .single⟩, .enum kind)]

theorem track_unambiguous : Unambiguous track.named := by
  have hnamed : track.named =
      [(ascii "Track", track), (ascii "Point", point), (ascii "Point", point), (ascii "Kind", .enum kind)] := rfl
  rw [hnamed]
  refine unambiguous_of_pairwise ?_ (by decide)
  simp [ascii]

def river : track.Val := (some ((-5 : Int32), (7 : UInt32), ()), [((1 : Int32), (2 : UInt32), ())], (4 : Int32), ())

theorem river_convertible : track.Convertible river := by
  have hseven : (7 : UInt32).toNat < 2 ^ 31 := by decide
  have htwo : (2 : UInt32).toNat < 2 ^ 31 := by decide
  have hfour : (4 : Int32) ∈ kind.values.map Prod.snd := by decide
  refine ⟨rfl, ⟨rfl, trivial, hseven, trivial⟩, fun a ha => ?_, hfour, trivial⟩
  obtain rfl := List.mem_singleton.mp ha
  exact ⟨rfl, trivial, htwo, trivial⟩

/-- A type with a map. -/
def tags : Ty := .message false (ascii "Tags") [(⟨ascii "tags", .map .string⟩, .scalar .string)]

/-- A type whose fields have two types of the same name. -/
def swap : Ty :=
  .message false (ascii "Swap")
    [(⟨ascii "old", .single⟩, .message false (ascii "Item") [(⟨ascii "x", .single⟩, .scalar .bool)]),
      (⟨ascii "new", .single⟩, .message false (ascii "Item") [(⟨ascii "y", .single⟩, .scalar .bool)])]

end CommonCore.AvroProto
