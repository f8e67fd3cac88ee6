/-!
# A grammar of nested lists and maps

Over any texts and values, given the tokens: `lex t k u` says that `t` begins
with the token `k` and goes on with `u`. What may stand between tokens is part
of `lex`.
-/

namespace Grammar

inductive Token (K V : Type)
  | scalar (v : V)
  | text (k : K)
  | mapOpen
  | mapClose
  | listOpen
  | listClose
  | comma
  | colon

/-- The tokens and the end of a text, and what values are made of. -/
structure Notation (T K V : Type) where
  lex : T → Token K V → T → Prop
  finish : T → Prop
  ofText : K → V
  ofList : List V → V
  ofMap : List (K × V) → V

namespace Notation

variable {T K V : Type} (N : Notation T K V)

mutual
/-- A text begins with a value and goes on. -/
inductive Value : T → V → T → Prop
  | scalar {t v u} : N.lex t (.scalar v) u → Value t v u
  | text {t k u} : N.lex t (.text k) u → Value t (N.ofText k) u
  | list {t u l w} : N.lex t .listOpen u → Items u l w → Value t (N.ofList l) w
  | map {t u m w} : N.lex t .mapOpen u → Members u m w → Value t (N.ofMap m) w
/-- What follows the opening of a list, up to its end. -/
inductive Items : T → List V → T → Prop
  | empty {t u} : N.lex t .listClose u → Items t [] u
  | some {t l u} : Elements t l u → Items t l u
inductive Elements : T → List V → T → Prop
  | last {t v u w} : Value t v u → N.lex u .listClose w → Elements t [v] w
  | cons {t v u w l x} : Value t v u → N.lex u .comma w → Elements w l x → Elements t (v :: l) x
/-- What follows the opening of a map, up to its end. -/
inductive Members : T → List (K × V) → T → Prop
  | empty {t u} : N.lex t .mapClose u → Members t [] u
  | some {t m u} : Entries t m u → Members t m u
inductive Entries : T → List (K × V) → T → Prop
  | last {t k u w v x y} : N.lex t (.text k) u → N.lex u .colon w → Value w v x → N.lex x .mapClose y →
      Entries t [(k, v)] y
  | cons {t k u w v x y m z} : N.lex t (.text k) u → N.lex u .colon w → Value w v x → N.lex x .comma y →
      Entries y m z → Entries t ((k, v) :: m) z
end

/-- The text is one value and nothing else. -/
def Text (t : T) (v : V) : Prop := ∃ u, N.Value t v u ∧ N.finish u

variable {N} in
/-- A value is what its first token and the text after that say. -/
theorem Value.congr {t t' u : T} {v : V} (h : N.Value t v u) (hlex : ∀ {k u}, N.lex t k u → N.lex t' k u) :
    N.Value t' v u := by
  cases h with
  | scalar h => exact .scalar (hlex h)
  | text h => exact .text (hlex h)
  | list h hi => exact .list (hlex h) hi
  | map h hm => exact .map (hlex h) hm

end Notation

/-! ## Texts with the same tokens -/

/-- Related texts begin with the same tokens, and go on to be related. -/
structure Simulates {T U K V : Type} (N : Notation T K V) (M : Notation U K V) (R : T → U → Prop) : Prop where
  lex : ∀ {t t' k u}, R t t' → N.lex t k u → ∃ u', M.lex t' k u' ∧ R u u'
  ofText : N.ofText = M.ofText
  ofList : N.ofList = M.ofList
  ofMap : N.ofMap = M.ofMap

section
variable {T U K V : Type} {N : Notation T K V} {M : Notation U K V} {R : T → U → Prop} (hS : Simulates N M R)
include hS

mutual
theorem value_simulated {t u : T} {v : V} {t' : U} (hr : R t t') (h : N.Value t v u) : ∃ u', M.Value t' v u' ∧ R u u' := by
  match h with
  | .scalar hlex =>
    obtain ⟨u', hlex', hu⟩ := hS.lex hr hlex
    exact ⟨u', .scalar hlex', hu⟩
  | .text hlex =>
    obtain ⟨u', hlex', hu⟩ := hS.lex hr hlex
    exact ⟨u', hS.ofText ▸ .text hlex', hu⟩
  | .list hlex hi =>
    obtain ⟨_, hlex', hu⟩ := hS.lex hr hlex
    obtain ⟨w', hi', hw⟩ := items_simulated hu hi
    exact ⟨w', hS.ofList ▸ .list hlex' hi', hw⟩
  | .map hlex hm =>
    obtain ⟨_, hlex', hu⟩ := hS.lex hr hlex
    obtain ⟨w', hm', hw⟩ := members_simulated hu hm
    exact ⟨w', hS.ofMap ▸ .map hlex' hm', hw⟩
theorem items_simulated {t u : T} {l : List V} {t' : U} (hr : R t t') (h : N.Items t l u) :
    ∃ u', M.Items t' l u' ∧ R u u' := by
  match h with
  | .empty hlex =>
    obtain ⟨u', hlex', hu⟩ := hS.lex hr hlex
    exact ⟨u', .empty hlex', hu⟩
  | .some he =>
    obtain ⟨u', he', hu⟩ := elements_simulated hr he
    exact ⟨u', .some he', hu⟩
theorem elements_simulated {t u : T} {l : List V} {t' : U} (hr : R t t') (h : N.Elements t l u) :
    ∃ u', M.Elements t' l u' ∧ R u u' := by
  match h with
  | .last hv hlex =>
    obtain ⟨_, hv', hu⟩ := value_simulated hr hv
    obtain ⟨w', hlex', hw⟩ := hS.lex hu hlex
    exact ⟨w', .last hv' hlex', hw⟩
  | .cons hv hlex he =>
    obtain ⟨_, hv', hu⟩ := value_simulated hr hv
    obtain ⟨_, hlex', hw⟩ := hS.lex hu hlex
    obtain ⟨x', he', hx⟩ := elements_simulated hw he
    exact ⟨x', .cons hv' hlex' he', hx⟩
theorem members_simulated {t u : T} {m : List (K × V)} {t' : U} (hr : R t t') (h : N.Members t m u) :
    ∃ u', M.Members t' m u' ∧ R u u' := by
  match h with
  | .empty hlex =>
    obtain ⟨u', hlex', hu⟩ := hS.lex hr hlex
    exact ⟨u', .empty hlex', hu⟩
  | .some he =>
    obtain ⟨u', he', hu⟩ := entries_simulated hr he
    exact ⟨u', .some he', hu⟩
theorem entries_simulated {t u : T} {m : List (K × V)} {t' : U} (hr : R t t') (h : N.Entries t m u) :
    ∃ u', M.Entries t' m u' ∧ R u u' := by
  match h with
  | .last hk hc hv hlex =>
    obtain ⟨_, hk', hu⟩ := hS.lex hr hk
    obtain ⟨_, hc', hw⟩ := hS.lex hu hc
    obtain ⟨_, hv', hx⟩ := value_simulated hw hv
    obtain ⟨y', hlex', hy⟩ := hS.lex hx hlex
    exact ⟨y', .last hk' hc' hv' hlex', hy⟩
  | .cons hk hc hv hlex he =>
    obtain ⟨_, hk', hu⟩ := hS.lex hr hk
    obtain ⟨_, hc', hw⟩ := hS.lex hu hc
    obtain ⟨_, hv', hx⟩ := value_simulated hw hv
    obtain ⟨_, hlex', hy⟩ := hS.lex hx hlex
    obtain ⟨z', he', hz⟩ := entries_simulated hy he
    exact ⟨z', .cons hk' hc' hv' hlex' he', hz⟩
end

theorem text_simulated (hfinish : ∀ {t t'}, R t t' → N.finish t → M.finish t') {t : T} {v : V} {t' : U} (hr : R t t')
    (h : N.Text t v) : M.Text t' v := by
  obtain ⟨u, hv, hend⟩ := h
  obtain ⟨u', hv', hu⟩ := value_simulated hS hr hv
  exact ⟨u', hv', hfinish hu hend⟩

end

/-! ## Texts without an end -/

section
variable {T K V : Type} {N : Notation T K V}

/-- No value ends among texts whose tokens lead to none but such texts, and that are not at an end. -/
theorem not_text_of_endless {D : T → Prop} (hlex : ∀ {t k u}, D t → N.lex t k u → D u)
    (hfinish : ∀ {t}, D t → ¬ N.finish t) {t : T} (h : D t) (v : V) : ¬ N.Text t v := by
  rintro ⟨u, hv, hend⟩
  have hS : Simulates N N fun t t' => D t ∧ t = t' :=
    { lex := by
        rintro t _ k u ⟨hd, rfl⟩ hk
        exact ⟨u, hk, hlex hd hk, rfl⟩
      ofText := rfl
      ofList := rfl
      ofMap := rfl }
  obtain ⟨_, -, hd, -⟩ := value_simulated hS ⟨h, rfl⟩ hv
  exact hfinish hd hend

/-! ## One value -/

/-- A text begins with one token only. -/
def Deterministic (N : Notation T K V) : Prop := ∀ {t k u k' u'}, N.lex t k u → N.lex t k' u' → k = k' ∧ u = u'

theorem value_first {t u : T} {v : V} (h : N.Value t v u) :
    ∃ k w, N.lex t k w ∧ k ≠ .listClose := by
  cases h with
  | scalar h | text h | list h _ | map h _ => exact ⟨_, _, h, nofun⟩

theorem elements_first {t u : T} {l : List V} (h : N.Elements t l u) : ∃ k w, N.lex t k w ∧ k ≠ .listClose := by
  cases h with
  | last hv _ | cons hv _ _ => exact value_first hv

theorem entries_first {t u : T} {m : List (K × V)} (h : N.Entries t m u) : ∃ k w, N.lex t (.text k) w := by
  cases h with
  | last hk _ _ _ | cons hk _ _ _ _ => exact ⟨_, _, hk⟩

variable (hN : Deterministic N)
include hN

mutual
theorem value_unique {t u u' : T} {v v' : V} (h : N.Value t v u) (h' : N.Value t v' u') : v = v' ∧ u = u' := by
  match h with
  | .scalar hlex =>
    cases h' with
    | scalar hlex' =>
      obtain ⟨hk, rfl⟩ := hN hlex hlex'
      cases hk
      exact ⟨rfl, rfl⟩
    | text hlex' | list hlex' _ | map hlex' _ => cases (hN hlex hlex').1
  | .text hlex =>
    cases h' with
    | text hlex' =>
      obtain ⟨hk, rfl⟩ := hN hlex hlex'
      cases hk
      exact ⟨rfl, rfl⟩
    | scalar hlex' | list hlex' _ | map hlex' _ => cases (hN hlex hlex').1
  | .list hlex hi =>
    cases h' with
    | list hlex' hi' =>
      obtain ⟨-, rfl⟩ := hN hlex hlex'
      obtain ⟨rfl, rfl⟩ := items_unique hi hi'
      exact ⟨rfl, rfl⟩
    | scalar hlex' | text hlex' | map hlex' _ => cases (hN hlex hlex').1
  | .map hlex hm =>
    cases h' with
    | map hlex' hm' =>
      obtain ⟨-, rfl⟩ := hN hlex hlex'
      obtain ⟨rfl, rfl⟩ := members_unique hm hm'
      exact ⟨rfl, rfl⟩
    | scalar hlex' | text hlex' | list hlex' _ => cases (hN hlex hlex').1
termination_by structural h
theorem items_unique {t u u' : T} {l l' : List V} (h : N.Items t l u) (h' : N.Items t l' u') : l = l' ∧ u = u' := by
  match h with
  | .empty hlex =>
    cases h' with
    | empty hlex' => exact ⟨rfl, (hN hlex hlex').2⟩
    | some he' =>
      obtain ⟨k, w, hlex', hne⟩ := elements_first he'
      exact absurd (hN hlex hlex').1.symm hne
  | .some he =>
    cases h' with
    | empty hlex' =>
      obtain ⟨k, w, hlex, hne⟩ := elements_first he
      exact absurd (hN hlex hlex').1 hne
    | some he' => exact elements_unique he he'
termination_by structural h
theorem elements_unique {t u u' : T} {l l' : List V} (h : N.Elements t l u) (h' : N.Elements t l' u') :
    l = l' ∧ u = u' := by
  match h with
  | .last hv hlex =>
    cases h' with
    | last hv' hlex' =>
      obtain ⟨rfl, rfl⟩ := value_unique hv hv'
      exact ⟨rfl, (hN hlex hlex').2⟩
    | cons hv' hlex' _ =>
      obtain ⟨-, rfl⟩ := value_unique hv hv'
      cases (hN hlex hlex').1
  | .cons hv hlex he =>
    cases h' with
    | last hv' hlex' =>
      obtain ⟨-, rfl⟩ := value_unique hv hv'
      cases (hN hlex hlex').1
    | cons hv' hlex' he' =>
      obtain ⟨rfl, rfl⟩ := value_unique hv hv'
      obtain ⟨-, rfl⟩ := hN hlex hlex'
      obtain ⟨rfl, rfl⟩ := elements_unique he he'
      exact ⟨rfl, rfl⟩
termination_by structural h
theorem members_unique {t u u' : T} {m m' : List (K × V)} (h : N.Members t m u) (h' : N.Members t m' u') :
    m = m' ∧ u = u' := by
  match h with
  | .empty hlex =>
    cases h' with
    | empty hlex' => exact ⟨rfl, (hN hlex hlex').2⟩
    | some he' =>
      obtain ⟨k, w, hlex'⟩ := entries_first he'
      cases (hN hlex hlex').1
  | .some he =>
    cases h' with
    | empty hlex' =>
      obtain ⟨k, w, hlex⟩ := entries_first he
      cases (hN hlex hlex').1
    | some he' => exact entries_unique he he'
termination_by structural h
theorem entries_unique {t u u' : T} {m m' : List (K × V)} (h : N.Entries t m u) (h' : N.Entries t m' u') :
    m = m' ∧ u = u' := by
  match h with
  | .last hk hc hv hlex =>
    cases h' with
    | last hk' hc' hv' hlex' =>
      obtain ⟨hkey, rfl⟩ := hN hk hk'
      cases hkey
      obtain ⟨-, rfl⟩ := hN hc hc'
      obtain ⟨rfl, rfl⟩ := value_unique hv hv'
      exact ⟨rfl, (hN hlex hlex').2⟩
    | cons hk' hc' hv' hlex' _ =>
      obtain ⟨-, rfl⟩ := hN hk hk'
      obtain ⟨-, rfl⟩ := hN hc hc'
      obtain ⟨-, rfl⟩ := value_unique hv hv'
      cases (hN hlex hlex').1
  | .cons hk hc hv hlex he =>
    cases h' with
    | last hk' hc' hv' hlex' =>
      obtain ⟨-, rfl⟩ := hN hk hk'
      obtain ⟨-, rfl⟩ := hN hc hc'
      obtain ⟨-, rfl⟩ := value_unique hv hv'
      cases (hN hlex hlex').1
    | cons hk' hc' hv' hlex' he' =>
      obtain ⟨hkey, rfl⟩ := hN hk hk'
      cases hkey
      obtain ⟨-, rfl⟩ := hN hc hc'
      obtain ⟨rfl, rfl⟩ := value_unique hv hv'
      obtain ⟨-, rfl⟩ := hN hlex hlex'
      obtain ⟨rfl, rfl⟩ := entries_unique he he'
      exact ⟨rfl, rfl⟩
termination_by structural h
end

end

end Grammar
