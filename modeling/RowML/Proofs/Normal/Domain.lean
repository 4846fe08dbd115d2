import RowML.Constructor.Basic
import RowML.Proofs.Normal.Observation

/-!
# A domain for convertibility

A field of a row is observed together with finitely many observations of its value.  A row that
repeats a label keeps the observations of the two values apart, which is why the meaning of a map
distributes over concatenation.
-/

namespace RowML

/-- One observation. -/
inductive Token where
  | prim (type : Prim)
  | label (name : String)
  /-- A field whose value has these observations. -/
  | field (name : String) (values : List Token)
  | component (index : Nat) (value : Token)
  | function
  | maps (arguments : List Token) (result : Token)

namespace Token

/-- The first observation says no more than the second one. -/
inductive Le : Token → Token → Prop where
  | refl (t : Token) : Le t t
  | field (name : String) {values values' : List Token} (above : Token → Token)
      (hmem : ∀ t ∈ values, above t ∈ values') (hle : ∀ t ∈ values, Le t (above t)) :
      Le (field name values) (field name values')

theorem Le.trans {r s t : Token} (h : Le r s) (h' : Le s t) : Le r t := by
  induction h generalizing t with
  | refl => exact h'
  | @field name values values' above hmem hle ih =>
    cases h' with
    | refl => exact .field name above hmem hle
    | field name above' hmem' hle' =>
      exact .field name (above' ∘ above) (fun t ht => hmem' _ (hmem t ht))
        fun t ht => ih t ht (hle' _ (hmem t ht))

instance : Tokens Token where
  le := Le
  le_refl := .refl
  le_trans _ _ _ := .trans
  function := .function
  maps := .maps
  maps_injective h := by
    cases h
    exact ⟨rfl, rfl⟩
  maps_ne_function _ _ := nofun
  eq_function_of_le h := by
    cases h
    rfl
  eq_maps_of_le h := by
    cases h
    rfl

end Token

abbrev Observed := LowerSet Token

namespace Observed

variable {X X' Y Y' : Observed} {t : Token}

/-! ## The operations -/

/-- The row with one field. -/
def fieldOf (name value : Observed) : Observed where
  carrier := {t | ∃ x values, t = .field x values ∧ Token.label x ∈ name ∧ ∀ s ∈ values, s ∈ value}
  lower' := by
    rintro _ t h ⟨x, values, rfl, hname, hvalues⟩
    cases h with
    | refl => exact ⟨x, values, rfl, hname, hvalues⟩
    | field _ above hmem hle =>
      exact ⟨x, _, rfl, hname, fun s hs => value.lower (hle s hs) (hvalues _ (hmem s hs))⟩

@[simp] theorem mem_fieldOf {name value : Observed} : t ∈ fieldOf name value ↔
    ∃ x values, t = .field x values ∧ Token.label x ∈ name ∧ ∀ s ∈ values, s ∈ value :=
  Iff.rfl

/-- The row with a function applied to every field.  Observations that are not about fields stay. -/
def mapped (f row : Observed) : Observed where
  carrier := {t | (t ∈ row ∧ ∀ x values, t ≠ .field x values) ∨
    ∃ x values values', t = .field x values' ∧ Token.field x values ∈ row ∧
      ∀ s ∈ values', s ∈ apply f (approx values)}
  lower' := by
    rintro _ t h (⟨hmem, hfield⟩ | ⟨x, values, values', rfl, hmem, hvalues⟩)
    · cases h with
      | refl => exact .inl ⟨hmem, hfield⟩
      | field name => exact absurd rfl (hfield _ _)
    · cases h with
      | refl => exact .inr ⟨x, values, values', rfl, hmem, hvalues⟩
      | field _ above hmem' hle =>
        refine .inr ⟨x, values, _, rfl, hmem, fun s hs => ?_⟩
        exact (apply f (approx values)).lower (hle s hs) (hvalues _ (hmem' s hs))

@[simp] theorem mem_mapped {f row : Observed} : t ∈ mapped f row ↔
    (t ∈ row ∧ ∀ x values, t ≠ .field x values) ∨
      ∃ x values values', t = .field x values' ∧ Token.field x values ∈ row ∧
        ∀ s ∈ values', s ∈ apply f (approx values) :=
  Iff.rfl

/-- The value at a label. -/
def project (row name : Observed) : Observed :=
  lowerClosure {t | ∃ x, Token.label x ∈ name ∧ Token.field x [t] ∈ row}

theorem mem_project {row name : Observed} : t ∈ project row name ↔
    ∃ x value, Token.label x ∈ name ∧ Token.field x [value] ∈ row ∧ t ≤ value := by
  simp only [project, mem_lowerClosure, Set.mem_ofPred_eq]
  tauto

/-- The tuple of which only one component is known. -/
def place (i : Nat) (X : Observed) : Observed where
  carrier := {t | ∃ value, t = .component i value ∧ value ∈ X}
  lower' := by
    rintro _ t h ⟨value, rfl, hvalue⟩
    cases h with
    | refl => exact ⟨value, rfl, hvalue⟩

@[simp] theorem mem_place {i : Nat} : t ∈ place i X ↔ ∃ value, t = .component i value ∧ value ∈ X :=
  Iff.rfl

/-- A component of a tuple. -/
def select (i : Nat) (X : Observed) : Observed := lowerClosure {t | Token.component i t ∈ X}

theorem mem_select {i : Nat} : t ∈ select i X ↔ ∃ value, Token.component i value ∈ X ∧ t ≤ value :=
  mem_lowerClosure

/-! ## Continuity -/

theorem finitary_fieldOf : Finitary₂ fieldOf where
  mono hX hY t ht := by
    obtain ⟨x, values, rfl, hname, hvalues⟩ := ht
    exact ⟨x, values, rfl, hX hname, fun s hs => hY (hvalues s hs)⟩
  finite {X Y t} ht := by
    obtain ⟨x, values, rfl, hname, hvalues⟩ := ht
    exact ⟨[.label x], values, approx_le.mpr (by simpa using hname), approx_le.mpr hvalues,
      x, values, rfl, mem_approx_self (by simp), fun s hs => mem_approx_self hs⟩

theorem finitary_project : Finitary₂ project where
  mono hX hY t ht := by
    obtain ⟨x, value, hname, hfield, hle⟩ := mem_project.mp ht
    exact mem_project.mpr ⟨x, value, hY hname, hX hfield, hle⟩
  finite {X Y t} ht := by
    obtain ⟨x, value, hname, hfield, hle⟩ := mem_project.mp ht
    exact ⟨[.field x [value]], [.label x], approx_le.mpr (by simpa using hfield),
      approx_le.mpr (by simpa using hname), mem_project.mpr
        ⟨x, value, mem_approx_self (by simp), mem_approx_self (by simp), hle⟩⟩

theorem finitary_place (i : Nat) : Finitary₂ fun X _ => place i X where
  mono hX _ t ht := by
    obtain ⟨value, rfl, hvalue⟩ := ht
    exact ⟨value, rfl, hX hvalue⟩
  finite {X Y t} ht := by
    obtain ⟨value, rfl, hvalue⟩ := ht
    exact ⟨[value], [], approx_le.mpr (by simpa using hvalue), approx_le.mpr (by simp),
      value, rfl, mem_approx_self (by simp)⟩

theorem finitary_select (i : Nat) : Finitary₂ fun X _ => select i X where
  mono hX _ t ht := by
    obtain ⟨value, hvalue, hle⟩ := mem_select.mp ht
    exact mem_select.mpr ⟨value, hX hvalue, hle⟩
  finite {X Y t} ht := by
    obtain ⟨value, hvalue, hle⟩ := mem_select.mp ht
    exact ⟨[.component i value], [], approx_le.mpr (by simpa using hvalue),
      approx_le.mpr (by simp), mem_select.mpr ⟨value, mem_approx_self (by simp), hle⟩⟩

theorem finitary_mapped : Finitary₂ mapped where
  mono hX hY t ht := by
    rcases ht with ⟨ht, hfield⟩ | ⟨x, values, values', rfl, hrow, hvalues⟩
    · exact .inl ⟨hY ht, hfield⟩
    · exact .inr ⟨x, values, values', rfl, hY hrow, fun s hs =>
        finitary_apply.mono hX le_rfl (hvalues s hs)⟩
  finite {X Y t} ht := by
    rcases ht with ⟨ht, hfield⟩ | ⟨x, values, values', rfl, hrow, hvalues⟩
    · exact ⟨[], [t], approx_le.mpr (by simp), approx_le.mpr (by simpa using ht),
        .inl ⟨mem_approx_self (by simp), hfield⟩⟩
    · obtain ⟨α, β, hα, hβ, hvalues'⟩ := finitary_apply.finite_list hvalues
      refine ⟨α, [.field x values], hα, approx_le.mpr (by simpa using hrow),
        .inr ⟨x, values, values', rfl, mem_approx_self (by simp), fun s hs => ?_⟩⟩
      exact finitary_apply.mono le_rfl hβ (hvalues' s hs)

/-! ## Laws -/

section Laws

variable {f g row row' : Observed}

theorem mapped_join : mapped f (row ⊔ row') = mapped f row ⊔ mapped f row' := by
  refine SetLike.ext fun t => ?_
  simp only [mem_mapped, LowerSet.mem_sup_iff]
  constructor
  · rintro (⟨ht | ht, hfield⟩ | ⟨x, values, values', rfl, ht | ht, hvalues⟩)
    · exact .inl (.inl ⟨ht, hfield⟩)
    · exact .inr (.inl ⟨ht, hfield⟩)
    · exact .inl (.inr ⟨x, values, values', rfl, ht, hvalues⟩)
    · exact .inr (.inr ⟨x, values, values', rfl, ht, hvalues⟩)
  · rintro ((⟨ht, hfield⟩ | ⟨x, values, values', rfl, ht, hvalues⟩) |
      (⟨ht, hfield⟩ | ⟨x, values, values', rfl, ht, hvalues⟩))
    · exact .inl ⟨.inl ht, hfield⟩
    · exact .inr ⟨x, values, values', rfl, .inl ht, hvalues⟩
    · exact .inl ⟨.inr ht, hfield⟩
    · exact .inr ⟨x, values, values', rfl, .inr ht, hvalues⟩

theorem mapped_bot : mapped f ⊥ = ⊥ := by
  refine SetLike.ext fun t => ?_
  simp [LowerSet.notMem_bot]

theorem mapped_fieldOf {name value : Observed} :
    mapped f (fieldOf name value) = fieldOf name (apply f value) := by
  refine SetLike.ext fun t => ?_
  simp only [mem_mapped, mem_fieldOf]
  constructor
  · rintro (⟨⟨x, values, rfl, -⟩, hfield⟩ | ⟨x, values, values', rfl, ⟨_, _, ⟨⟩, hname, hvalue⟩, h⟩)
    · exact absurd rfl (hfield x values)
    · exact ⟨x, values', rfl, hname, fun s hs =>
        finitary_apply.mono le_rfl (approx_le.mpr hvalue) (h s hs)⟩
  · rintro ⟨x, values', rfl, hname, hvalues⟩
    obtain ⟨α, values, hα, hle, h⟩ := finitary_apply.finite_list hvalues
    exact .inr ⟨x, values, values', rfl, ⟨x, values, rfl, hname, approx_le.mp hle⟩, fun s hs =>
      finitary_apply.mono hα le_rfl (h s hs)⟩

theorem mapped_mapped {k : Observed} (hk : ∀ X, apply k X = apply f (apply g X)) :
    mapped f (mapped g row) = mapped k row := by
  refine SetLike.ext fun t => ?_
  simp only [mem_mapped, hk]
  constructor
  · rintro (⟨⟨ht, -⟩ | ⟨x, values, values', rfl, -⟩, hfield⟩ |
      ⟨x, values, values', rfl, ⟨-, hfield⟩ | ⟨_, values₀, _, ⟨⟩, ht, h₀⟩, h⟩)
    · exact .inl ⟨ht, hfield⟩
    · exact absurd rfl (hfield _ _)
    · exact absurd rfl (hfield _ _)
    · exact .inr ⟨x, values₀, values', rfl, ht, fun s hs =>
        finitary_apply.mono le_rfl (approx_le.mpr h₀) (h s hs)⟩
  · rintro (⟨ht, hfield⟩ | ⟨x, values, values', rfl, ht, h⟩)
    · exact .inl ⟨.inl ⟨ht, hfield⟩, hfield⟩
    · obtain ⟨α, middle, hα, hle, h⟩ := finitary_apply.finite_list h
      exact .inr ⟨x, middle, values', rfl, .inr ⟨x, values, middle, rfl, ht, approx_le.mp hle⟩,
        fun s hs => finitary_apply.mono hα le_rfl (h s hs)⟩

theorem mapped_identity (hf : ∀ X, apply f X = X) : mapped f row = row := by
  refine SetLike.ext fun t => ?_
  simp only [mem_mapped, hf]
  constructor
  · rintro (⟨ht, -⟩ | ⟨x, values, values', rfl, ht, h⟩)
    · exact ht
    · refine row.lower ?_ ht
      have habove : ∀ s, ∃ a, s ∈ values' → a ∈ values ∧ s ≤ a := by
        intro s
        by_cases hs : s ∈ values'
        · obtain ⟨a, ha⟩ := mem_approx.mp (h s hs)
          exact ⟨a, fun _ => ha⟩
        · exact ⟨s, fun h => absurd h hs⟩
      choose above habove using habove
      exact .field x above (fun s hs => (habove s hs).1) fun s hs => (habove s hs).2
  · intro ht
    by_cases hfield : ∃ x values, t = .field x values
    · obtain ⟨x, values, rfl⟩ := hfield
      exact .inr ⟨x, values, values, rfl, ht, fun s hs => mem_approx_self hs⟩
    · exact .inl ⟨ht, fun x values h => hfield ⟨x, values, h⟩⟩

theorem select_join (i : Nat) : select i (X ⊔ Y) = select i X ⊔ select i Y := by
  refine SetLike.ext fun t => ?_
  simp only [mem_select, LowerSet.mem_sup_iff]
  constructor
  · rintro ⟨value, h | h, hle⟩
    · exact .inl ⟨value, h, hle⟩
    · exact .inr ⟨value, h, hle⟩
  · rintro (⟨value, h, hle⟩ | ⟨value, h, hle⟩)
    · exact ⟨value, .inl h, hle⟩
    · exact ⟨value, .inr h, hle⟩

theorem select_place (i : Nat) : select i (place i X) = X := by
  refine SetLike.ext fun t => ?_
  rw [mem_select]
  constructor
  · rintro ⟨value, ⟨_, ⟨⟩, hvalue⟩, hle⟩
    exact X.lower hle hvalue
  · exact fun ht => ⟨t, ⟨t, rfl, ht⟩, le_rfl⟩

theorem select_place_of_ne {i j : Nat} (h : i ≠ j) : select i (place j X) = ⊥ := by
  refine SetLike.ext fun t => ?_
  rw [mem_select]
  refine iff_of_false ?_ LowerSet.notMem_bot
  rintro ⟨value, ⟨_, ⟨⟩, -⟩, -⟩
  exact h rfl

theorem select_bot (i : Nat) : select i ⊥ = ⊥ := by
  refine SetLike.ext fun t => ?_
  rw [mem_select]
  exact iff_of_false (fun ⟨_, h, _⟩ => LowerSet.notMem_bot h) LowerSet.notMem_bot

end Laws

end Observed

end RowML
