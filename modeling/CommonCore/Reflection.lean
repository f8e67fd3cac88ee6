import Mathlib.Logic.Relation
import Mathlib.Tactic.Common

/-!
# Messages by reflection

What the reflection of ProtoBuf tells about messages and their types. Names,
scalars and the types themselves are left open, and so are the messages of the
types that a decoder does not take apart by their fields.
-/

namespace Reflection

section
variable (ν ι σ τ : Type)

/-- What a field is for, with what it reads as where it is absent. -/
inductive Kind
  | scalar (default : ι)
  | own (default : σ)
  | message (type : τ)

inductive Label
  | singular (oneof : Bool)
  | repeated
  deriving DecidableEq

structure Field where
  name : ν
  label : Label
  kind : Kind ι σ τ

inductive Msg
  | own (m : σ)
  | generic (type : τ) (get : ν → List (ι ⊕ Msg))

abbrev Item := ι ⊕ Msg ν ι σ τ

/-- The fields of each type, in order. A map is a repeated field for messages of
two fields, the key and the value. -/
structure Schema where
  fields : τ → List (Field ν ι σ τ)
  mapEntry : τ → Option (Field ν ι σ τ × Field ν ι σ τ)
  entry : ∀ t key value, mapEntry t = some (key, value) →
    fields t = [key, value] ∧ key.label = .singular false ∧ value.label = .singular false ∧ ∃ s, key.kind = .scalar s

end

variable {ν ι σ τ : Type}

section
variable {P : Msg ν ι σ τ → Prop} (own : ∀ m, P (.own m))
  (generic : ∀ t get, (∀ name m, .inr m ∈ get name → P m) → P (.generic t get))
include own generic

set_option linter.unusedSectionVars false in
mutual
/-- By induction on what a message is made of. -/
theorem Msg.of_items : ∀ m, P m
  | .own m => own m
  | .generic t get => generic t get fun name => of_list (get name)
termination_by structural m => m
theorem of_list : ∀ (items : List (Item ν ι σ τ)) (m : Msg ν ι σ τ), .inr m ∈ items → P m
  | [], m, h => absurd h List.not_mem_nil
  | .inl s :: items, m, h => of_list items m (by simpa using h)
  | .inr m' :: items, m, h => by
    rcases List.mem_cons.1 h with heq | h
    · cases heq
      exact Msg.of_items m'
    · exact of_list items m h
termination_by structural items => items
end

end

/-! ## Reading fields -/

/-- A message of a type without any of its fields. -/
def Kind.default : Kind ι σ τ → Item ν ι σ τ
  | .scalar s => .inl s
  | .own m => .inr (.own m)
  | .message t => .inr (.generic t fun _ => [])

/-- The messages among items, by their types and fields. -/
def generics (items : List (Item ν ι σ τ)) : List (τ × (ν → List (Item ν ι σ τ))) :=
  items.filterMap fun
    | .inr (.generic t get) => some (t, get)
    | _ => none

theorem mem_generics {items : List (Item ν ι σ τ)} {t : τ} {get : ν → List (Item ν ι σ τ)} :
    (t, get) ∈ generics items ↔ .inr (.generic t get) ∈ items := by
  unfold generics
  rw [List.mem_filterMap]
  refine ⟨?_, fun h => ⟨_, h, rfl⟩⟩
  rintro ⟨_ | _ | ⟨t', get'⟩, hmem, heq⟩
  · cases heq
  · cases heq
  · cases heq
    exact hmem

section
variable {S : Schema ν ι σ τ} {fd key value : Field ν ι σ τ}

/-- `is_map`, with the fields for keys and values. -/
def Schema.isMap (S : Schema ν ι σ τ) (fd : Field ν ι σ τ) : Option (Field ν ι σ τ × Field ν ι σ τ) :=
  match fd.label, fd.kind with
  | .repeated, .message t => S.mapEntry t
  | _, _ => none

theorem isMap_eq_some (h : S.isMap fd = some (key, value)) :
    fd.label = .repeated ∧ ∃ t, fd.kind = .message t ∧ S.mapEntry t = some (key, value) := by
  unfold Schema.isMap at h
  split at h
  · exact ⟨‹_›, _, ‹_›, h⟩
  · cases h

theorem labels_of_isMap (h : S.isMap fd = some (key, value)) :
    key.label = .singular false ∧ value.label = .singular false ∧ ∃ s, key.kind = .scalar s := by
  obtain ⟨-, t, -, hentry⟩ := isMap_eq_some h
  exact (S.entry t key value hentry).2

theorem isMap_singular {oneof : Bool} (h : fd.label = .singular oneof) : S.isMap fd = none := by
  unfold Schema.isMap
  rw [h]

end

variable [DecidableEq τ]

def Kind.holds : Kind ι σ τ → Item ν ι σ τ → Bool
  | .scalar _, .inl _ => true
  | .own _, .inr (.own _) => true
  | .message t, .inr (.generic t' _) => t = t'
  | _, _ => false

theorem Kind.holds_default (kind : Kind ι σ τ) : kind.holds (kind.default : Item ν ι σ τ) = true := by
  cases kind <;> simp [holds, default]

namespace Field

variable (fd : Field ν ι σ τ) (get : ν → List (Item ν ι σ τ))

/-- What a field has, which is one item at most unless it is repeated. Anything
that is not of its type is as if it was not there. -/
def items : List (Item ν ι σ τ) :=
  let found := (get fd.name).filter fd.kind.holds
  if fd.label = .repeated then found else found.take 1

/-- What a singular field reads as. -/
def item : Item ν ι σ τ := (fd.items get).headD fd.kind.default

variable {fd get}

theorem holds_of_mem {item : Item ν ι σ τ} (h : item ∈ fd.items get) : fd.kind.holds item = true := by
  unfold items at h
  dsimp only at h
  split_ifs at h with hlabel
  · exact (List.mem_filter.1 h).2
  · exact (List.mem_filter.1 (List.mem_of_mem_take h)).2

theorem mem_get {item : Item ν ι σ τ} (h : item ∈ fd.items get) : item ∈ get fd.name := by
  unfold items at h
  dsimp only at h
  split_ifs at h with hlabel
  · exact (List.mem_filter.1 h).1
  · exact (List.mem_filter.1 (List.mem_of_mem_take h)).1

/-- A field that is not repeated has no second item. -/
theorem nil_of_items_eq_cons {item : Item ν ι σ τ} {rest : List (Item ν ι σ τ)} (hlabel : fd.label ≠ .repeated)
    (h : fd.items get = item :: rest) : rest = [] := by
  unfold items at h
  dsimp only at h
  rw [if_neg hlabel] at h
  have hlength := congrArg List.length h
  rw [List.length_take, List.length_cons] at hlength
  exact List.eq_nil_of_length_eq_zero (by omega)

theorem holds_item : fd.kind.holds (fd.item get) = true := by
  unfold item
  cases hitems : fd.items get with
  | nil => exact fd.kind.holds_default
  | cons item rest => exact holds_of_mem (hitems ▸ List.mem_cons_self)

end Field

/-- The entries of a map are of one type. -/
theorem mapEntry_of_mem {S : Schema ν ι σ τ} {fd key value : Field ν ι σ τ} {get : ν → List (Item ν ι σ τ)}
    {entry : τ × (ν → List (Item ν ι σ τ))} (hmap : S.isMap fd = some (key, value)) (h : entry ∈ generics (fd.items get)) :
    S.mapEntry entry.1 = some (key, value) := by
  obtain ⟨-, t, hkind, hentry⟩ := isMap_eq_some hmap
  have hholds := Field.holds_of_mem (mem_generics.1 h)
  rw [hkind] at hholds
  rw [← of_decide_eq_true hholds, hentry]

namespace Schema

variable (S : Schema ν ι σ τ)

/-- The messages in the fields of a message. -/
def parts : Msg ν ι σ τ → List (Msg ν ι σ τ)
  | .own _ => []
  | .generic t get => (S.fields t).flatMap fun fd => (fd.items get).filterMap Sum.getRight?

/-- A message itself, or one in its fields, at any depth. -/
def Within (m' m : Msg ν ι σ τ) : Prop := Relation.ReflTransGen (fun a b => b ∈ S.parts a) m m'

/-- A message that is always decoded: a field for it is neither repeated nor a
member of a oneof. -/
def Plain (fd : Field ν ι σ τ) : Prop := fd.label = .singular false ∧ ∀ s, fd.kind ≠ .scalar s

/-- No plain field of a message is absent. -/
def Whole : Msg ν ι σ τ → Prop
  | .own _ => True
  | .generic t get => ∀ fd ∈ S.fields t, Plain fd → fd.items get ≠ []

omit [DecidableEq τ] in
theorem scalar_of_not_plain {fd : Field ν ι σ τ} (hlabel : fd.label = .singular false) (h : ¬ Plain fd) :
    ∃ s, fd.kind = .scalar s := by
  by_contra hscalar
  exact h ⟨hlabel, fun s hs => hscalar ⟨s, hs⟩⟩

variable {S}

theorem mem_parts {t : τ} {get : ν → List (Item ν ι σ τ)} {m : Msg ν ι σ τ} :
    m ∈ S.parts (.generic t get) ↔ ∃ fd ∈ S.fields t, .inr m ∈ fd.items get := by
  simp [parts, Sum.getRight?_eq_some_iff]

theorem parts_finite : WellFounded fun a b => a ∈ S.parts b := by
  refine ⟨fun m => ?_⟩
  apply Msg.of_items (P := fun m => Acc (fun a b => a ∈ S.parts b) m)
  · intro m
    exact ⟨_, fun m' hm => absurd hm List.not_mem_nil⟩
  · intro t get ih
    refine ⟨_, fun m' hm => ?_⟩
    obtain ⟨fd, -, hmem⟩ := mem_parts.1 hm
    exact ih fd.name m' (Field.mem_get hmem)

end Schema

end Reflection
