import CommonCore.MessageDecoder

/-!
# Dissecting any ProtoBuf message

`MessageDissecter` makes a data class of the fields of a message. Both decoders
leave out the members of a oneof that are not there, and read all other fields.
-/

namespace CommonCore

namespace Dissecter

open Reflection Fuel Decoder

variable {σ τ ε : Type}

/-- What a message is dissected to. -/
inductive Object (σ τ : Type)
  | none
  | scalar (s : Scalar)
  | member (type : EnumType) (n : Int32)
  | decoded (m : σ)
  | list (items : List (Object σ τ))
  | dict (items : List (Object σ τ × Object σ τ))
  | dataclass (type : τ) (values : List (Object σ τ))

/-- The registered decoders, with what raises in the classes that are made. -/
structure Decoders (σ τ ε : Type) where
  decoder : σ → Except ε (Object σ τ)
  enumDecoder : EnumType → Except ε (Int32 → Except ε (Object σ τ))
  makeDataclass : τ → Except ε (List (Object σ τ) → Object σ τ)

abbrev Msg (σ τ : Type) := Reflection.Msg Bytes Scalar σ τ
abbrev Item (σ τ : Type) := Reflection.Item Bytes Scalar σ τ
abbrev Field (σ τ : Type) := Reflection.Field Bytes Scalar σ τ
abbrev Fields (σ τ : Type) := Bytes → List (Item σ τ)

variable [DecidableEq τ] (S : Schema Bytes Scalar σ τ) (D : Decoders σ τ ε)

section
variable (present absent : Msg σ τ → Run ε (Object σ τ))

/-- `field_decoder`, which looks up the class of an enumeration. It is for an item,
given the decoder for messages. -/
def fieldDecoder (fd : Field σ τ) : Run ε ((Msg σ τ → Run ε (Object σ τ)) → Item σ τ → Run ε (Object σ τ)) :=
  match fd.kind with
  | .scalar (.enum type _) =>
    (fun enumClass _ item =>
      match item with
      | .inl (.enum _ n) => .ofExcept (enumClass n)
      | .inl s => pure (.scalar s)
      | .inr _ => pure .none) <$> Run.ofExcept (D.enumDecoder type)
  | _ =>
    pure fun decode item =>
      match item with
      | .inl s => pure (.scalar s)
      | .inr m => decode m

/-- `getattr` gives a default for a field that is absent, which may be a message. -/
def readField (decoder : (Msg σ τ → Run ε (Object σ τ)) → Item σ τ → Run ε (Object σ τ)) (get : Fields σ τ) (fd : Field σ τ) :
    Run ε (Object σ τ) :=
  match fd.items get with
  | item :: _ => decoder present item
  | [] => decoder absent fd.kind.default

def dissectField (get : Fields σ τ) (fd : Field σ τ) : Run ε (Object σ τ) :=
  match S.isMap fd with
  | some (key, value) => do
    let keyDecoder ← fieldDecoder D key
    let valueDecoder ← fieldDecoder D value
    let items ← (generics (fd.items get)).mapM fun entry => do
      let k ← readField present absent keyDecoder entry.2 key
      let v ← readField present absent valueDecoder entry.2 value
      return (k, v)
    return .dict items
  | none => do
    let decoder ← fieldDecoder D fd
    if fd.label = .repeated then
      let items ← (fd.items get).mapM (decoder present)
      return .list items
    else readField present absent decoder get fd

def isFieldPresent (get : Fields σ τ) (fd : Field σ τ) : Bool :=
  if fd.label = .singular true then fd.items get ≠ [] else true

def dissectMessage (t : τ) (get : Fields σ τ) : Run ε (Object σ τ) := do
  let values ← (S.fields t).mapM fun fd =>
    if isFieldPresent get fd then dissectField S D present absent get fd else pure .none
  let dataclass ← Run.ofExcept (D.makeDataclass t)
  return dataclass values

end

/-- `decode`, with fuel; as for `to_tvlist`, absent messages may be kept from being
descended into. -/
def decode (descend : Bool) : ℕ → Msg σ τ → Run ε (Object σ τ)
  | _, .own m => .ofExcept (D.decoder m)
  | 0, .generic _ _ => .going
  | n + 1, .generic t get =>
    dissectMessage S D (decode descend n) (if descend then decode descend n else fun _ => .going) t get

/-! ## What is read of a message -/

/-- The messages in the fields, where those in maps are the values. -/
def parts : Msg σ τ → List (Msg σ τ)
  | .own _ => []
  | .generic t get => (S.fields t).flatMap fun fd =>
    match S.isMap fd with
    | some (_, value) => (generics (fd.items get)).flatMap fun entry => (value.items entry.2).filterMap Sum.getRight?
    | none => (fd.items get).filterMap Sum.getRight?

def Whole : Msg σ τ → Prop
  | .own _ => True
  | .generic t get => ∀ fd ∈ S.fields t, (Schema.Plain fd → fd.items get ≠ []) ∧
    ∀ key value, S.isMap fd = some (key, value) → ∀ entry ∈ generics (fd.items get),
      Schema.Plain value → value.items entry.2 ≠ []

/-- No enumeration raises where a field is read. -/
def FieldReads (fd : Field σ τ) (get : Fields σ τ) : Prop :=
  ∃ decoder, fieldDecoder D fd = pure decoder ∧
    ∀ decode s, .inl s ∈ fd.items get ∨ fd.kind = .scalar s → (decoder decode (.inl s)).Quiet

def Reads : Msg σ τ → Prop
  | .own m => ∃ o, D.decoder m = .ok o
  | .generic t get => (∃ f, D.makeDataclass t = .ok f) ∧ ∀ fd ∈ S.fields t,
    match S.isMap fd with
    | some (key, value) => (∃ decoder, fieldDecoder D value = pure decoder) ∧ (∃ decoder, fieldDecoder D key = pure decoder) ∧
      ∀ entry ∈ generics (fd.items get), FieldReads D key entry.2 ∧ FieldReads D value entry.2
    | none => FieldReads D fd get

section
variable {S D} {present absent : Msg σ τ → Run ε (Object σ τ)} {get : Fields σ τ} {fd key value : Field σ τ}
  {decoder : (Msg σ τ → Run ε (Object σ τ)) → Item σ τ → Run ε (Object σ τ)}

omit [DecidableEq τ] in
theorem fieldDecoder_ends : (fieldDecoder D fd).Ends := by
  unfold fieldDecoder
  split
  · exact (Run.ends_ofExcept _).map
  · exact Run.ends_pure _

theorem decoder_message (h : fieldDecoder D fd = pure decoder) {m : Msg σ τ} (hm : fd.kind.holds (.inr m) = true) :
    decoder present (.inr m) = present m := by
  unfold fieldDecoder at h
  split at h
  next hkind =>
    rw [hkind] at hm
    cases hm
  next => rw [← Run.pure_inj.1 h]

/-- The message that is read where there is none. -/
theorem decoder_default (h : fieldDecoder D fd = pure decoder) (hkind : ∀ s, fd.kind ≠ .scalar s) :
    ∃ m, decoder absent fd.kind.default = absent m := by
  cases hitem : (fd.kind.default : Item σ τ) with
  | inr m => exact ⟨m, decoder_message h (hitem ▸ Kind.holds_default fd.kind)⟩
  | inl s =>
    rcases hcase : fd.kind with s' | m | t
    · exact absurd hcase (hkind s')
    · rw [hcase] at hitem
      cases hitem
    · rw [hcase] at hitem
      cases hitem

omit [DecidableEq τ] in
theorem decoder_scalar_ends (h : fieldDecoder D fd = pure decoder) (s : Scalar) : (decoder present (.inl s)).Ends := by
  unfold fieldDecoder at h
  split at h
  · obtain ⟨enumClass, -, rfl⟩ := Run.map_eq_pure.1 h
    cases s <;> first | exact Run.ends_pure _ | exact Run.ends_ofExcept _
  · rw [← Run.pure_inj.1 h]
    exact Run.ends_pure _

theorem item_ends (h : fieldDecoder D fd = pure decoder) (hparts : ∀ m, .inr m ∈ fd.items get → (present m).Ends) {item : Item σ τ}
    (hmem : item ∈ fd.items get) : (decoder present item).Ends := by
  rcases item with s | m
  · exact decoder_scalar_ends h s
  · rw [decoder_message h (Field.holds_of_mem hmem)]
    exact hparts m hmem

theorem readField_ends (h : fieldDecoder D fd = pure decoder) (hparts : ∀ m, .inr m ∈ fd.items get → (present m).Ends)
    (hdefault : fd.items get = [] → ∃ s, fd.kind = .scalar s) : (readField present absent decoder get fd).Ends := by
  unfold readField
  rcases hitems : fd.items get with _ | ⟨item, rest⟩
  · obtain ⟨s, hs⟩ := hdefault hitems
    rw [hs]
    exact decoder_scalar_ends h s
  · exact item_ends h hparts (by simp [hitems])

theorem singular_of_present (h : isFieldPresent get fd = true) (hlabel : fd.label ≠ .repeated) (hnil : fd.items get = []) :
    fd.label = .singular false := by
  unfold isFieldPresent at h
  rcases hoption : fd.label with oneof | _
  · cases oneof with
    | false => rfl
    | true => simp [hoption, hnil] at h
  · exact absurd hoption hlabel

/-- A scalar field has no messages. -/
theorem scalar_items {m : Msg σ τ} {s : Scalar} (hkind : fd.kind = .scalar s) : .inr m ∉ fd.items get := by
  intro hmem
  have hholds := Field.holds_of_mem hmem
  rw [hkind] at hholds
  cases hholds

section
variable (h : fieldDecoder D fd = pure decoder) (hreads : FieldReads D fd get)
include h hreads

theorem scalar_quiet {s : Scalar} (hs : .inl s ∈ fd.items get ∨ fd.kind = .scalar s) : (decoder present (.inl s)).Quiet := by
  obtain ⟨decoder', h', hquiet⟩ := hreads
  rw [Run.pure_inj.1 (h.symm.trans h')]
  exact hquiet present s hs

variable (hparts : ∀ m, .inr m ∈ fd.items get → (present m).Quiet)
include hparts

theorem item_quiet {item : Item σ τ} (hmem : item ∈ fd.items get) : (decoder present item).Quiet := by
  rcases item with s | m
  · exact scalar_quiet h hreads (.inl hmem)
  · rw [decoder_message h (Field.holds_of_mem hmem)]
    exact hparts m hmem

theorem readField_quiet : (readField present (fun _ => .going) decoder get fd).Quiet := by
  unfold readField
  rcases hitems : fd.items get with _ | ⟨item, rest⟩
  · by_cases hkind : ∃ s, fd.kind = .scalar s
    · obtain ⟨s, hs⟩ := hkind
      rw [hs]
      exact scalar_quiet h hreads (.inr hs)
    · obtain ⟨m, hm⟩ : ∃ m, decoder (fun _ => .going) fd.kind.default = .going := decoder_default h fun s hs => hkind ⟨s, hs⟩
      dsimp only
      rw [hm]
      exact Run.quiet_going
  · exact item_quiet h hreads hparts (by simp [hitems])

end

theorem of_readField_ends (h : fieldDecoder D fd = pure decoder) (hlabel : fd.label ≠ .repeated)
    (hends : (readField present (fun _ => .going) decoder get fd).Ends) :
    ((∀ s, fd.kind ≠ .scalar s) → fd.items get ≠ []) ∧ ∀ m, .inr m ∈ fd.items get → (present m).Ends := by
  unfold readField at hends
  rcases hitems : fd.items get with _ | ⟨item, rest⟩
  · rw [hitems] at hends
    refine ⟨fun hkind _ => ?_, by simp⟩
    obtain ⟨m, hm⟩ : ∃ m, decoder (fun _ => .going) fd.kind.default = .going := decoder_default h hkind
    exact Run.not_ends_going (hm ▸ hends)
  · rw [hitems] at hends
    dsimp only at hends
    have hrest := Field.nil_of_items_eq_cons hlabel hitems
    refine ⟨fun _ => by simp, fun m hm => ?_⟩
    rw [hrest, List.mem_singleton] at hm
    have hmem : item ∈ fd.items get := by simp [hitems]
    rw [← hm] at hends hmem
    rwa [decoder_message h (Field.holds_of_mem hmem)] at hends

section
variable {t : τ} (hfd : fd ∈ S.fields t)
include hfd

theorem mem_parts_map {m : Msg σ τ} {entry : τ × Fields σ τ} (hmap : S.isMap fd = some (key, value))
    (hentry : entry ∈ generics (fd.items get)) (hm : .inr m ∈ value.items entry.2) : m ∈ parts S (.generic t get) := by
  unfold parts
  rw [List.mem_flatMap]
  refine ⟨fd, hfd, ?_⟩
  rw [hmap, List.mem_flatMap]
  exact ⟨entry, hentry, List.mem_filterMap.2 ⟨_, hm, rfl⟩⟩

theorem mem_parts_field {m : Msg σ τ} (hmap : S.isMap fd = none) (hm : .inr m ∈ fd.items get) :
    m ∈ parts S (.generic t get) := by
  unfold parts
  rw [List.mem_flatMap]
  refine ⟨fd, hfd, ?_⟩
  rw [hmap]
  exact List.mem_filterMap.2 ⟨_, hm, rfl⟩

theorem dissectField_ends (hwhole : Whole S (.generic t get)) (hparts : ∀ m ∈ parts S (.generic t get), (present m).Ends)
    (hpresent : isFieldPresent get fd = true) : (dissectField S D present absent get fd).Ends := by
  unfold dissectField
  cases hmap : S.isMap fd with
  | some kv =>
    obtain ⟨key, value⟩ := kv
    obtain ⟨-, hvalue, s, hkey⟩ := labels_of_isMap hmap
    refine fieldDecoder_ends.bind fun keyDecoder hk => fieldDecoder_ends.bind fun valueDecoder hv => ?_
    refine Run.Ends.bind (Run.Ends.mapM fun entry hentry => ?_) fun _ _ => Run.ends_pure _
    refine Run.Ends.bind ?_ fun _ _ => Run.Ends.bind ?_ fun _ _ => Run.ends_pure _
    · exact readField_ends hk (fun m hm => absurd hm (scalar_items hkey)) fun _ => ⟨s, hkey⟩
    · apply readField_ends hv
      · exact fun m hm => hparts m (mem_parts_map hfd hmap hentry hm)
      · exact fun hnil => Schema.scalar_of_not_plain hvalue fun hplain =>
          (hwhole fd hfd).2 key value hmap entry hentry hplain hnil
  | none =>
    have hfield : ∀ m, .inr m ∈ fd.items get → (present m).Ends := fun m hm => hparts m (mem_parts_field hfd hmap hm)
    refine fieldDecoder_ends.bind fun decoder hdecoder => ?_
    split_ifs with hlabel
    · exact Run.Ends.bind (Run.Ends.mapM fun item hitem => item_ends hdecoder hfield hitem) fun _ _ => Run.ends_pure _
    · apply readField_ends hdecoder hfield
      intro hnil
      exact Schema.scalar_of_not_plain (singular_of_present hpresent hlabel hnil) fun hplain => (hwhole fd hfd).1 hplain hnil

variable (hreads : Reads S D (.generic t get)) (hparts : ∀ m ∈ parts S (.generic t get), (present m).Quiet)
include hreads hparts

theorem entry_quiet {keyDecoder valueDecoder : (Msg σ τ → Run ε (Object σ τ)) → Item σ τ → Run ε (Object σ τ)}
    {entry : τ × Fields σ τ} (hmap : S.isMap fd = some (key, value)) (hk : fieldDecoder D key = pure keyDecoder)
    (hv : fieldDecoder D value = pure valueDecoder) (hentry : entry ∈ generics (fd.items get)) :
    (readField present (fun _ => .going) keyDecoder entry.2 key).Quiet ∧
      (readField present (fun _ => .going) valueDecoder entry.2 value).Quiet := by
  have hfield := hreads.2 fd hfd
  rw [hmap] at hfield
  obtain ⟨-, -, hentries⟩ := hfield
  obtain ⟨-, -, s, hkey⟩ := labels_of_isMap hmap
  constructor
  · exact readField_quiet hk (hentries entry hentry).1 fun m hm => absurd hm (scalar_items hkey)
  · exact readField_quiet hv (hentries entry hentry).2 fun m hm => hparts m (mem_parts_map hfd hmap hentry hm)

theorem dissectField_quiet : (dissectField S D present (fun _ => .going) get fd).Quiet := by
  have hfield := hreads.2 fd hfd
  unfold dissectField
  cases hmap : S.isMap fd with
  | some kv =>
    obtain ⟨key, value⟩ := kv
    rw [hmap] at hfield
    obtain ⟨⟨valueDecoder, hv⟩, ⟨keyDecoder, hk⟩, -⟩ := hfield
    dsimp only
    rw [hk, hv, pure_bind, pure_bind]
    refine Run.Quiet.bind (Run.Quiet.mapM fun entry hentry => ?_) fun _ => Run.quiet_pure _
    obtain ⟨hkey, hvalue⟩ := entry_quiet hfd hreads hparts hmap hk hv hentry
    exact hkey.bind fun _ => hvalue.bind fun _ => Run.quiet_pure _
  | none =>
    rw [hmap] at hfield
    have hmessages : ∀ m, .inr m ∈ fd.items get → (present m).Quiet := fun m hm => hparts m (mem_parts_field hfd hmap hm)
    obtain ⟨decoder, hdecoder, -⟩ := id hfield
    dsimp only
    rw [hdecoder, pure_bind]
    split_ifs
    · refine Run.Quiet.bind (Run.Quiet.mapM fun item hitem => ?_) fun _ => Run.quiet_pure _
      exact item_quiet hdecoder hfield hmessages hitem
    · exact readField_quiet hdecoder hfield hmessages

/-- A field that ends has no message that is absent, and all its messages have ended. -/
theorem of_dissectField_ends (h : (dissectField S D present (fun _ => .going) get fd).Ends) :
    match S.isMap fd with
    | some (_, value) => ∀ entry ∈ generics (fd.items get),
      (Schema.Plain value → value.items entry.2 ≠ []) ∧ ∀ m, .inr m ∈ value.items entry.2 → (present m).Ends
    | none => (Schema.Plain fd → fd.items get ≠ []) ∧ ∀ m, .inr m ∈ fd.items get → (present m).Ends := by
  have hfield := hreads.2 fd hfd
  unfold dissectField at h
  cases hmap : S.isMap fd with
  | some kv =>
    obtain ⟨key, value⟩ := kv
    rw [hmap] at hfield h
    obtain ⟨⟨valueDecoder, hv⟩, ⟨keyDecoder, hk⟩, -⟩ := hfield
    obtain ⟨-, hlabel, -⟩ := labels_of_isMap hmap
    dsimp only at h
    rw [hk, hv, pure_bind, pure_bind] at h
    have hquiet (entry) (hentry : entry ∈ generics (fd.items get)) := entry_quiet hfd hreads hparts hmap hk hv hentry
    intro entry hentry
    have hboth := h.of_bind.of_mapM (fun entry hentry => (hquiet entry hentry).1.bind fun _ =>
      (hquiet entry hentry).2.bind fun _ => Run.quiet_pure _) entry hentry
    obtain ⟨k, hkey⟩ := hboth.of_bind.returns (hquiet entry hentry).1
    rw [hkey, pure_bind] at hboth
    obtain ⟨hnil, hends⟩ := of_readField_ends hv (by simp [hlabel]) hboth.of_bind
    exact ⟨fun hplain => hnil hplain.2, hends⟩
  | none =>
    rw [hmap] at hfield h
    have hmessages : ∀ m, .inr m ∈ fd.items get → (present m).Quiet := fun m hm => hparts m (mem_parts_field hfd hmap hm)
    obtain ⟨decoder, hdecoder, -⟩ := id hfield
    dsimp only at h
    rw [hdecoder, pure_bind] at h
    split_ifs at h with hlabel
    · refine ⟨fun hplain => by simp [hplain.1] at hlabel, fun m hm => ?_⟩
      have hitem := h.of_bind.of_mapM (fun item hitem => item_quiet hdecoder hfield hmessages hitem) (.inr m) hm
      rwa [decoder_message hdecoder (Field.holds_of_mem hm)] at hitem
    · obtain ⟨hnil, hends⟩ := of_readField_ends hdecoder hlabel h
      exact ⟨fun hplain => hnil hplain.2, hends⟩

end

variable {m m' : Msg σ τ} {t : τ}

theorem fields_of_entry {entry : τ × Fields σ τ} (hmap : S.isMap fd = some (key, value))
    (hentry : entry ∈ generics (fd.items get)) : S.fields entry.1 = [key, value] :=
  (S.entry entry.1 key value (mapEntry_of_mem hmap hentry)).1

/-- The parts are among the messages in the message, where entries of maps count. -/
theorem transGen_of_mem_parts (h : m' ∈ parts S m) : Relation.TransGen (fun a b => a ∈ S.parts b) m' m := by
  rcases m with m | ⟨t, get⟩
  · cases h
  · obtain ⟨fd, hfd, hm⟩ := List.mem_flatMap.1 h
    cases hmap : S.isMap fd with
    | some kv =>
      obtain ⟨key, value⟩ := kv
      rw [hmap] at hm
      obtain ⟨⟨t', get'⟩, hentry, hm⟩ := List.mem_flatMap.1 hm
      obtain ⟨item, hitem, heq⟩ := List.mem_filterMap.1 hm
      rw [Sum.getRight?_eq_some_iff] at heq
      have hvalue : value ∈ S.fields t' := by
        rw [fields_of_entry hmap hentry]
        simp
      refine .tail (.single (b := .generic t' get') ?_) ?_
      · exact Schema.mem_parts.2 ⟨value, hvalue, heq ▸ hitem⟩
      · exact Schema.mem_parts.2 ⟨fd, hfd, mem_generics.1 hentry⟩
    | none =>
      rw [hmap] at hm
      obtain ⟨item, hitem, heq⟩ := List.mem_filterMap.1 hm
      rw [Sum.getRight?_eq_some_iff] at heq
      exact .single (Schema.mem_parts.2 ⟨fd, hfd, heq ▸ hitem⟩)

theorem parts_finite : WellFounded fun a b : Msg σ τ => a ∈ parts S b :=
  Subrelation.wf (fun h => transGen_of_mem_parts h) Schema.parts_finite.transGen

theorem generic_of_isMap (hmap : S.isMap fd = some (key, value)) (hmem : .inr m ∈ fd.items get) :
    ∃ t e, m = .generic t e := by
  obtain ⟨-, t, hkind, -⟩ := isMap_eq_some hmap
  have hholds := Field.holds_of_mem hmem
  rw [hkind] at hholds
  rcases m with m | ⟨t', e⟩
  · cases hholds
  · exact ⟨t', e, rfl⟩

/-- What is to be there is the same for both ways to go through a message. -/
theorem whole_of_schema (h : Throughout S.parts S.Whole m) : Throughout (parts S) (Whole S) m := by
  induction m using parts_finite (S := S).induction with
  | _ m ih =>
    refine throughout_iff.2 ⟨?_, fun m' hm => ih m' hm ?_⟩
    · rcases m with m | ⟨t, get⟩
      · trivial
      · refine fun fd hfd => ⟨h.self fd hfd, fun key value hmap entry hentry => ?_⟩
        have hpart := h.part (Schema.mem_parts.2 ⟨fd, hfd, mem_generics.1 hentry⟩)
        apply hpart.self value
        rw [fields_of_entry hmap hentry]
        simp
    · intro m'' hm''
      apply h m''
      exact (Relation.transGen_swap.2 (transGen_of_mem_parts hm)).to_reflTransGen.trans hm''

theorem schema_of_whole (h : Throughout (parts S) (Whole S) m) : Throughout S.parts S.Whole m := by
  induction m using Schema.parts_finite (S := S).transGen.induction with
  | _ m ih =>
    rcases m with m | ⟨t, get⟩
    · exact throughout_iff.2 ⟨trivial, by simp [Schema.parts]⟩
    · refine throughout_iff.2 ⟨fun fd hfd => (h.self fd hfd).1, fun m hm => ?_⟩
      obtain ⟨fd, hfd, hmem⟩ := Schema.mem_parts.1 hm
      cases hmap : S.isMap fd with
      | none => exact ih m (.single hm) (h.part (mem_parts_field hfd hmap hmem))
      | some kv =>
        obtain ⟨key, value⟩ := kv
        obtain ⟨t', e, rfl⟩ := generic_of_isMap hmap hmem
        have hentry : (t', e) ∈ generics (fd.items get) := mem_generics.2 hmem
        have hfields := fields_of_entry hmap hentry
        obtain ⟨-, -, s, hkey⟩ := labels_of_isMap hmap
        refine throughout_iff.2 ⟨fun fd' hfd' hplain => ?_, fun m' hm' => ?_⟩
        · rcases (by simpa [hfields] using hfd') with rfl | rfl
          · exact absurd hkey (hplain.2 s)
          · exact (h.self fd hfd).2 _ _ hmap _ hentry hplain
        · obtain ⟨fd', hfd', hmem'⟩ := Schema.mem_parts.1 hm'
          rcases (by simpa [hfields] using hfd') with rfl | rfl
          · exact absurd hmem' (scalar_items hkey)
          · exact ih m' (.tail (.single hm') hm) (h.part (mem_parts_map hfd hmap hentry hmem'))

theorem field_ends {n : ℕ} {get : Fields σ τ} {descend : Bool} (hwhole : Whole S (.generic t get))
    (hparts : ∀ m' ∈ parts S (.generic t get), (decode S D descend n m').Ends) (hfd : fd ∈ S.fields t) :
    (if isFieldPresent get fd then
      dissectField S D (decode S D descend n) (if descend then decode S D descend n else fun _ => .going) get fd
    else pure .none).Ends := by
  by_cases hpresent : isFieldPresent get fd = true
  · rw [if_pos hpresent]
    exact dissectField_ends hfd hwhole hparts hpresent
  · rw [if_neg hpresent]
    exact Run.ends_pure _

theorem decode_succ_ends (descend : Bool) (n : ℕ) (hwhole : Whole S m)
    (hparts : ∀ m' ∈ parts S m, (decode S D descend n m').Ends) : (decode S D descend (n + 1) m).Ends := by
  rcases m with m | ⟨t, get⟩
  · exact Run.ends_ofExcept _
  · refine Run.Ends.bind (Run.Ends.mapM fun fd hfd => field_ends hwhole hparts hfd) fun _ _ => ?_
    exact (Run.ends_ofExcept _).bind fun _ _ => Run.ends_pure _

theorem field_quiet {n : ℕ} {get : Fields σ τ} (hreads : Reads S D (.generic t get))
    (hparts : ∀ m' ∈ parts S (.generic t get), (decode S D false n m').Quiet) (hfd : fd ∈ S.fields t) :
    (if isFieldPresent get fd then dissectField S D (decode S D false n) (fun _ => .going) get fd else pure .none).Quiet := by
  by_cases hpresent : isFieldPresent get fd = true
  · rw [if_pos hpresent]
    exact dissectField_quiet hfd hreads hparts
  · rw [if_neg hpresent]
    exact Run.quiet_pure _

theorem own_quiet {m : σ} (hreads : Reads S D (.own m)) : (Run.ofExcept (D.decoder m)).Quiet := by
  obtain ⟨o, ho⟩ := hreads
  rw [ho]
  exact Run.quiet_pure o

theorem decode_succ_quiet (n : ℕ) (hreads : Reads S D m) (hparts : ∀ m' ∈ parts S m, (decode S D false n m').Quiet) :
    (decode S D false (n + 1) m).Quiet := by
  rcases m with m | ⟨t, get⟩
  · exact own_quiet hreads
  · obtain ⟨f, hf⟩ := hreads.1
    refine Run.Quiet.bind (Run.Quiet.mapM fun fd hfd => field_quiet hreads hparts hfd) fun _ => ?_
    rw [hf]
    exact Run.quiet_pure _

theorem of_field_ends {n : ℕ} {get : Fields σ τ} (hreads : Reads S D (.generic t get))
    (hparts : ∀ m' ∈ parts S (.generic t get), (decode S D false n m').Quiet) (hfd : fd ∈ S.fields t)
    (h : (if isFieldPresent get fd then dissectField S D (decode S D false n) (fun _ => .going) get fd
      else pure .none).Ends) :
    match S.isMap fd with
    | some (_, value) => ∀ entry ∈ generics (fd.items get),
      (Schema.Plain value → value.items entry.2 ≠ []) ∧ ∀ m, .inr m ∈ value.items entry.2 → (decode S D false n m).Ends
    | none => (Schema.Plain fd → fd.items get ≠ []) ∧ ∀ m, .inr m ∈ fd.items get → (decode S D false n m).Ends := by
  by_cases hpresent : isFieldPresent get fd = true
  · rw [if_pos hpresent] at h
    exact of_dissectField_ends hfd hreads hparts h
  · obtain ⟨hlabel, hitems⟩ : fd.label = .singular true ∧ fd.items get = [] := by
      unfold isFieldPresent at hpresent
      split_ifs at hpresent with hlabel
      · exact ⟨hlabel, by simpa using hpresent⟩
      · exact absurd rfl hpresent
    rw [isMap_singular hlabel]
    exact ⟨fun hplain => by simp [hplain.1] at hlabel, by simp [hitems]⟩

theorem of_decode_succ_ends (n : ℕ) (hreads : Reads S D m) (hparts : ∀ m' ∈ parts S m, (decode S D false n m').Quiet)
    (h : (decode S D false (n + 1) m).Ends) : Whole S m ∧ ∀ m' ∈ parts S m, (decode S D false n m').Ends := by
  rcases m with m | ⟨t, get⟩
  · exact ⟨trivial, by simp [parts]⟩
  · have hfields := Run.Ends.of_mapM (Run.Ends.of_bind h) fun fd hfd => field_quiet hreads hparts hfd
    have hfield fd (hfd : fd ∈ S.fields t) := of_field_ends hreads hparts hfd (hfields fd hfd)
    refine ⟨fun fd hfd => ⟨fun hplain => ?_, fun key value hmap entry hentry => ?_⟩, fun m hm => ?_⟩
    · have hmap : S.isMap fd = none := isMap_singular hplain.1
      have hends := hfield fd hfd
      rw [hmap] at hends
      exact hends.1 hplain
    · have hends := hfield fd hfd
      rw [hmap] at hends
      exact (hends entry hentry).1
    · obtain ⟨fd, hfd, hm⟩ := List.mem_flatMap.1 hm
      have hends := hfield fd hfd
      cases hmap : S.isMap fd with
      | some kv =>
        rw [hmap] at hm hends
        obtain ⟨entry, hentry, hm⟩ := List.mem_flatMap.1 hm
        obtain ⟨item, hitem, heq⟩ := List.mem_filterMap.1 hm
        rw [Sum.getRight?_eq_some_iff] at heq
        exact (hends entry hentry).2 m (heq ▸ hitem)
      | none =>
        rw [hmap] at hm hends
        obtain ⟨item, hitem, heq⟩ := List.mem_filterMap.1 hm
        rw [Sum.getRight?_eq_some_iff] at heq
        exact hends.2 m (heq ▸ hitem)

/-- As for `to_value`. -/
def DissectsPresent (S : Schema Bytes Scalar σ τ) (D : Decoders σ τ ε) (m : Msg σ τ) : Prop :=
  (∃ n, (decode S D true n m).Ends) ∧ ∃ n, (decode S D false n m).Ends

theorem dissectsPresent_of_whole (h : Throughout S.parts S.Whole m) : DissectsPresent S D m :=
  have hends descend := eventually_ends parts_finite (fun n _ => decode_succ_ends descend n) (whole_of_schema h)
  ⟨(hends true).exists, (hends false).exists⟩

theorem whole_of_dissectsPresent (hreads : Throughout (parts S) (Reads S D) m) (h : DissectsPresent S D m) :
    Throughout S.parts S.Whole m := by
  obtain ⟨-, n, hn⟩ := h
  apply schema_of_whole
  refine throughout_of_ends ?_ ?_ (fun n m => decode_succ_quiet n) (fun n m => of_decode_succ_ends n) hreads hn
  · rintro (m | ⟨t, get⟩) hm
    · exact ⟨trivial, rfl⟩
    · exact absurd hm Run.not_ends_going
  · rintro (m | ⟨t, get⟩) hm
    · exact own_quiet hm
    · exact Run.quiet_going

end

/-! ## Both decoders -/

section
variable {τ' : Type} [DecidableEq τ'] (S' : Schema Bytes Scalar WellKnown τ') (O : Options)

/-- Messages are decoded, without those that are absent, if no plain field is
absent in them; and only then, unless a scalar or a class raises. -/
theorem decodesPresent_iff (m : Decoder.Msg τ') (m' : Msg σ τ) :
    (Throughout S'.parts S'.Whole m → DecodesPresent S' O m) ∧
    (Throughout S'.parts (ScalarsDecode S' O) m → (DecodesPresent S' O m ↔ Throughout S'.parts S'.Whole m)) ∧
    (Throughout S.parts S.Whole m' → DissectsPresent S D m') ∧
    (Throughout (parts S) (Reads S D) m' → (DissectsPresent S D m' ↔ Throughout S.parts S.Whole m')) :=
  ⟨decodesPresent_of_whole, fun hscalars => ⟨whole_of_decodesPresent hscalars, decodesPresent_of_whole⟩,
    dissectsPresent_of_whole, fun hreads => ⟨whole_of_dissectsPresent hreads, dissectsPresent_of_whole⟩⟩

end

/-! ## A type with a oneof for its own type -/

def plainOptions : Options := ⟨id, fun _ => [], true⟩

/-- The values as they are. -/
def plainDecoders : Decoders WellKnown Unit Empty where
  decoder m := .ok (.decoded m)
  enumDecoder type := .ok fun n => .ok (.member type n)
  makeDataclass t := .ok (.dataclass t)

/-- The next of a list, which the last has not. -/
def chain : Schema Bytes Scalar WellKnown Unit where
  fields _ := [⟨ascii "next", .singular true, .message ()⟩]
  mapEntry _ := none
  entry t key value h := by cases h

def chainOfTwo : Reflection.Msg Bytes Scalar WellKnown Unit :=
  .generic () fun name => if name = ascii "next" then [.inr (.generic () fun _ => [])] else []

theorem chain_whole (m : Decoder.Msg Unit) : chain.Whole m := by
  rcases m with m | ⟨t, get⟩
  · trivial
  · intro fd hfd hplain
    rw [List.mem_singleton.1 hfd] at hplain
    cases hplain.1

theorem chain_scalarsDecode (O : Options) (m : Decoder.Msg Unit) : ScalarsDecode chain O m := by
  rcases m with m | ⟨t, get⟩
  · trivial
  · intro fd hfd s hs
    rw [List.mem_singleton.1 hfd] at hs
    rcases hs with hs | hs
    · cases Field.holds_of_mem hs
    · cases hs

theorem chain_reads (m : Decoder.Msg Unit) : Reads chain plainDecoders m := by
  rcases m with m | ⟨t, get⟩
  · exact ⟨_, rfl⟩
  · refine ⟨⟨_, rfl⟩, fun fd hfd => ?_⟩
    rw [List.mem_singleton.1 hfd]
    refine ⟨_, rfl, fun decode s hs => ?_⟩
    exact Run.quiet_pure _

theorem decodesPresent_chain :
    (DecodesPresent chain plainOptions chainOfTwo ↔ Throughout chain.parts chain.Whole chainOfTwo) ∧
    (DissectsPresent chain plainDecoders chainOfTwo ↔ Throughout chain.parts chain.Whole chainOfTwo) ∧
    DecodesPresent chain plainOptions chainOfTwo ∧ DissectsPresent chain plainDecoders chainOfTwo :=
  have h := decodesPresent_iff chain plainDecoders chain plainOptions chainOfTwo chainOfTwo
  ⟨h.2.1 fun m _ => chain_scalarsDecode plainOptions m, h.2.2.2 fun m _ => chain_reads m,
    h.1 fun m _ => chain_whole m, h.2.2.1 fun m _ => chain_whole m⟩

/-! ## A type with a field of its own type -/

theorem readField_same {message : Msg σ τ → Run ε (Object σ τ)}
    {decoder : (Msg σ τ → Run ε (Object σ τ)) → Item σ τ → Run ε (Object σ τ)} {get : Fields σ τ} {fd : Field σ τ} :
    readField message message decoder get fd = decoder message (fd.item get) := by
  unfold readField Field.item
  cases fd.items get <;> rfl

def next (σ : Type) : Field σ Unit := ⟨ascii "next", .singular false, .message ()⟩

def node (σ : Type) : Schema Bytes Scalar σ Unit where
  fields _ := [next σ]
  mapEntry _ := none
  entry t key value h := by cases h

theorem item_next (get : Fields σ Unit) : ∃ e, (next σ).item get = .inr (.generic () e) := by
  have hholds : (next σ).kind.holds ((next σ).item get) = true := Field.holds_item
  rcases hitem : (next σ).item get with s | m | ⟨t, e⟩
  · rw [hitem] at hholds
    cases hholds
  · rw [hitem] at hholds
    cases hholds
  · exact ⟨e, rfl⟩

/-- No message of the type is ever decoded. -/
theorem toValue_node (O : Options) (n : ℕ) (get : Decoder.Fields Unit) :
    ¬ (toValue (node WellKnown) O true n (.generic () get)).Ends := by
  induction n generalizing get with
  | zero => exact fun h => Run.not_ends_going h.of_map
  | succ n ih =>
    intro h
    have hfields := h.of_map.of_map
    rw [node, List.mapM_cons] at hfields
    have hfield : (fieldToValue (node WellKnown) O (toTvlist (node WellKnown) O true n) (toValue (node WellKnown) O true n)
        (toValue (node WellKnown) O true n) get (next WellKnown)).Ends := hfields.of_bind.of_map
    obtain ⟨e, he⟩ := item_next get
    rw [fieldToValue_singular rfl, he] at hfield
    exact ih e hfield

theorem decode_node (D : Decoders σ Unit ε) (n : ℕ) (get : Fields σ Unit) :
    ¬ (decode (node σ) D true n (.generic () get)).Ends := by
  induction n generalizing get with
  | zero => exact Run.not_ends_going
  | succ n ih =>
    intro h
    have hfields := Run.Ends.of_bind h
    rw [node, List.mapM_cons] at hfields
    have hpresent : isFieldPresent get (next σ) = true := by simp [isFieldPresent, next]
    have hfield : (dissectField (node σ) D (decode (node σ) D true n) (decode (node σ) D true n) get (next σ)).Ends := by
      have hends := hfields.of_bind
      rwa [if_pos hpresent] at hends
    obtain ⟨e, he⟩ := item_next get
    obtain ⟨decoder, hdecoder⟩ : ∃ decoder, fieldDecoder D (next σ) = pure decoder := ⟨_, rfl⟩
    have hmap : (node σ).isMap (next σ) = none := isMap_singular rfl
    have hlabel : (next σ).label ≠ .repeated := by simp [next]
    rw [dissectField, hmap] at hfield
    dsimp only at hfield
    rw [hdecoder, pure_bind, if_neg hlabel, readField_same, he, decoder_message hdecoder (by simp [next, Kind.holds])] at hfield
    exact ih e hfield

/-- A message without its one field. -/
def emptyNode : Reflection.Msg Bytes Scalar WellKnown Unit := .generic () fun _ => []

theorem empty_never_decoded :
    (¬ ∀ m, DecodesPresent (node WellKnown) plainOptions m) ∧ ¬ ∀ m, DissectsPresent (node WellKnown) plainDecoders m := by
  constructor
  · intro h
    obtain ⟨n, hn⟩ := (h emptyNode).1
    exact toValue_node _ n _ hn
  · intro h
    obtain ⟨n, hn⟩ := (h emptyNode).1
    exact decode_node _ n _ hn

end Dissecter

end CommonCore
