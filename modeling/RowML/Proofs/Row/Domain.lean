import RowML.Proofs.Normal.Observation

/-!
# A domain for label sets

What is observed of a row is which labels it has, which of them it repeats, and what can be observed
of the values.  Names are observed by their label.  A meaning without any observation is undefined;
one with all of them is poison.  The operations are strict in what reduction evaluates, so that a
result that is neither is made of operands that are neither, and projecting at a label that a row
repeats is poison.
-/

namespace RowML

/-- One observation. -/
inductive Trait where
  /-- Poison: everything is observed. -/
  | poison
  /-- A constructor that no operation looks into. -/
  | inert
  | row
  /-- The name or the row has this label. -/
  | label (x : String)
  /-- The row has this label, and the value there has that observation. -/
  | field (x : String) (value : Trait)
  /-- The row has this label more than once. -/
  | clash (x : String)
  | width (components : Nat)
  | component (index : Nat) (value : Trait)
  | function
  | maps (arguments : List Trait) (result : Trait)

namespace Trait

/-- The first observation says no more than the second one. -/
inductive Le : Trait → Trait → Prop where
  | refl (t : Trait) : Le t t
  | poison (t : Trait) : Le t poison
  | label_field (x : String) (t : Trait) : Le (label x) (field x t)
  | label_clash (x : String) : Le (label x) (clash x)
  | field_clash (x : String) (t : Trait) : Le (field x t) (clash x)
  | field (x : String) {s t : Trait} (h : Le s t) : Le (field x s) (field x t)
  | component (i : Nat) {s t : Trait} (h : Le s t) : Le (component i s) (component i t)

theorem Le.trans {r s t : Trait} (h : Le r s) (h' : Le s t) : Le r t := by
  induction h generalizing t with
  | refl => exact h'
  | poison s =>
    cases h' with
    | refl | poison => exact .poison s
  | label_field x s =>
    cases h' with
    | refl => exact .label_field x s
    | poison => exact .poison _
    | field_clash => exact .label_clash x
    | field _ _ => exact .label_field x _
  | label_clash x =>
    cases h' with
    | refl => exact .label_clash x
    | poison => exact .poison _
  | field_clash x s =>
    cases h' with
    | refl => exact .field_clash x s
    | poison => exact .poison _
  | field x h ih =>
    cases h' with
    | refl => exact .field x h
    | poison => exact .poison _
    | field_clash => exact .field_clash x _
    | field _ h' => exact .field x (ih h')
  | component i h ih =>
    cases h' with
    | refl => exact .component i h
    | poison => exact .poison _
    | component _ h' => exact .component i (ih h')

instance : Tokens Trait where
  le := Le
  le_refl := .refl
  le_trans _ _ _ := .trans
  function := .function
  maps := .maps
  maps_injective h := by
    cases h
    exact ⟨rfl, rfl⟩
  maps_ne_function _ _ := nofun
  eq_function_of_le h := by
    cases h
    rfl
  eq_maps_of_le h := by
    cases h
    rfl

theorem label_le_clash {x y : String} : label x ≤ clash y ↔ x = y := by
  constructor
  · rintro ⟨⟩
    rfl
  · rintro rfl
    exact .label_clash x

theorem field_le_clash {x y : String} {t : Trait} : field x t ≤ clash y ↔ x = y := by
  constructor
  · rintro ⟨⟩
    rfl
  · rintro rfl
    exact .field_clash x t

theorem clash_le_clash {x y : String} : clash x ≤ clash y ↔ x = y := by
  constructor
  · rintro ⟨⟩
    rfl
  · rintro rfl
    exact le_rfl

theorem not_row_le_clash {x : String} : ¬ row ≤ clash x := nofun

theorem not_poison_le_clash {x : String} : ¬ poison ≤ clash x := nofun

end Trait

open Trait

abbrev Traits := LowerSet Trait

namespace Traits

open Observed

variable {X Y Z F G R N V : Traits} {t : Trait} {x : String}

/-- Neither undefined nor poison. -/
structure Proper (X : Traits) : Prop where
  defined : ∃ t, t ∈ X
  clean : poison ∉ X

/-- The labels of a name or of a row. -/
def labels (X : Traits) : Set String := {x | label x ∈ X}

@[simp] theorem mem_labels : x ∈ labels X ↔ label x ∈ X := Iff.rfl

theorem mem_of_poison (h : poison ∈ X) (t : Trait) : t ∈ X := X.lower (.poison t) h

theorem label_mem_of_field (h : field x t ∈ X) : label x ∈ X := X.lower (.label_field x t) h

theorem field_mem_of_clash (h : clash x ∈ X) (t : Trait) : field x t ∈ X :=
  X.lower (.field_clash x t) h

theorem labels_approx_label (x : String) : labels (approx [label x]) = {x} := by
  ext y
  rw [mem_labels, mem_approx_singleton fun h => by cases h; rfl]
  exact Trait.label.injEq y x ▸ Iff.rfl

/-- The name has two labels, which makes it no name. -/
def Ambiguous (N : Traits) : Prop := ∃ x y, x ≠ y ∧ label x ∈ N ∧ label y ∈ N

theorem ambiguous_of_poison (h : poison ∈ N) : Ambiguous N :=
  ⟨"", "a", by decide, mem_of_poison h _, mem_of_poison h _⟩

theorem labels_eq_singleton (hN : ¬ Ambiguous N) (hx : label x ∈ N) : labels N = {x} := by
  refine Set.eq_singleton_iff_unique_mem.mpr ⟨hx, fun y hy => ?_⟩
  by_contra hne
  exact hN ⟨y, x, hne, hy, hx⟩

/-! ## The operations -/

/-- The row without fields. -/
def empty : Traits := approx [.row]

/-- The row with one field. -/
def fieldOf (N V : Traits) : Traits where
  carrier := {t | (∃ x, label x ∈ N ∧ (t = .row ∨ t = label x ∨ ∃ v ∈ V, t = field x v)) ∨
    Ambiguous N}
  lower' := by
    rintro _ s h (⟨x, hx, rfl | rfl | ⟨v, hv, rfl⟩⟩ | hN)
    · cases h
      exact .inl ⟨x, hx, .inl rfl⟩
    · cases h
      exact .inl ⟨x, hx, .inr (.inl rfl)⟩
    · cases h with
      | refl => exact .inl ⟨x, hx, .inr (.inr ⟨v, hv, rfl⟩)⟩
      | label_field => exact .inl ⟨x, hx, .inr (.inl rfl)⟩
      | field _ h => exact .inl ⟨x, hx, .inr (.inr ⟨_, V.lower h hv, rfl⟩)⟩
    · exact .inr hN

/-- Two rows side by side. -/
def concat (X Y : Traits) : Traits where
  carrier := {t | .row ∈ X ∧ .row ∈ Y ∧
    (t ∈ X ∨ t ∈ Y ∨ ∃ x, label x ∈ X ∧ label x ∈ Y ∧ t ≤ clash x)}
  lower' := by
    rintro _ s h ⟨hX, hY, ht | ht | ⟨x, hx, hy, ht⟩⟩
    · exact ⟨hX, hY, .inl (X.lower h ht)⟩
    · exact ⟨hX, hY, .inr (.inl (Y.lower h ht))⟩
    · exact ⟨hX, hY, .inr (.inr ⟨x, hx, hy, le_trans h ht⟩)⟩

/-- The value of a row at a label. -/
def valueAt (x : String) (R : Traits) : Traits where
  carrier := {t | field x t ∈ R}
  lower' _ _ h ht := R.lower (.field x h) ht

/-- The row with a function applied to every field. -/
def mapped (F R : Traits) : Traits where
  carrier := {t | poison ∈ F ∨ .function ∈ F ∧ ((t ∈ R ∧ ∀ x v, t ≠ field x v) ∨
    (∃ x v, t = field x v ∧ label x ∈ R ∧ v ∈ apply F (valueAt x R)) ∨
    ∃ x, clash x ∈ R ∧ t ≤ clash x)}
  lower' := by
    rintro t s h (hF | ⟨hF, ⟨ht, hfield⟩ | ⟨x, v, rfl, hx, hv⟩ | ⟨x, hx, ht⟩⟩)
    · exact .inl hF
    · by_cases hs : ∃ x v, s = field x v
      · -- only a repeated label says more than a field and is none itself
        obtain ⟨x, v, rfl⟩ := hs
        cases h with
        | refl => exact absurd rfl (hfield _ _)
        | poison => exact .inr ⟨hF, .inr (.inr ⟨x, mem_of_poison ht _, .field_clash x v⟩)⟩
        | field_clash => exact .inr ⟨hF, .inr (.inr ⟨x, ht, .field_clash x v⟩)⟩
        | field => exact absurd rfl (hfield _ _)
      · exact .inr ⟨hF, .inl ⟨R.lower h ht, fun x v h => hs ⟨x, v, h⟩⟩⟩
    · cases h with
      | refl => exact .inr ⟨hF, .inr (.inl ⟨x, v, rfl, hx, hv⟩)⟩
      | label_field => exact .inr ⟨hF, .inl ⟨hx, nofun⟩⟩
      | field _ h => exact .inr ⟨hF, .inr (.inl ⟨x, _, rfl, hx, LowerSet.lower _ h hv⟩)⟩
    · exact .inr ⟨hF, .inr (.inr ⟨x, hx, le_trans h ht⟩)⟩

/-- The value of a row at a name. -/
def project (R N : Traits) : Traits where
  carrier := {t | (∃ x, label x ∈ N ∧ field x t ∈ R) ∨ Ambiguous N}
  lower' := by
    rintro t s h (⟨x, hx, ht⟩ | hN)
    · exact .inl ⟨x, hx, R.lower (.field x h) ht⟩
    · exact .inr hN

/-- A component of a tuple, poison if there is none. -/
def select (i : Nat) (X : Traits) : Traits where
  carrier := {t | component i t ∈ X ∨ ∃ n ≤ i, width n ∈ X}
  lower' := by
    rintro t s h (ht | hwidth)
    · exact .inl (X.lower (.component i h) ht)
    · exact .inr hwidth

/-- The tuple of which only one component is known. -/
def place (i : Nat) (V : Traits) : Traits where
  carrier := {t | ∃ v ∈ V, t = component i v}
  lower' := by
    rintro _ s h ⟨v, hv, rfl⟩
    cases h with
    | refl => exact ⟨v, hv, rfl⟩
    | component _ h => exact ⟨_, V.lower h hv, rfl⟩

theorem mem_empty : t ∈ empty ↔ t = .row :=
  mem_approx_singleton fun h => by
    cases h
    rfl

theorem mem_fieldOf : t ∈ fieldOf N V ↔
    (∃ x, label x ∈ N ∧ (t = .row ∨ t = label x ∨ ∃ v ∈ V, t = field x v)) ∨ Ambiguous N :=
  Iff.rfl

theorem mem_concat : t ∈ concat X Y ↔ .row ∈ X ∧ .row ∈ Y ∧
    (t ∈ X ∨ t ∈ Y ∨ ∃ x, label x ∈ X ∧ label x ∈ Y ∧ t ≤ clash x) :=
  Iff.rfl

@[simp] theorem mem_valueAt : t ∈ valueAt x R ↔ field x t ∈ R := Iff.rfl

theorem mem_project : t ∈ project R N ↔ (∃ x, label x ∈ N ∧ field x t ∈ R) ∨ Ambiguous N := Iff.rfl

theorem mem_select {i : Nat} : t ∈ select i X ↔ component i t ∈ X ∨ ∃ n ≤ i, width n ∈ X := Iff.rfl

theorem mem_place {i : Nat} : t ∈ place i V ↔ ∃ v ∈ V, t = component i v := Iff.rfl

/-! ## Continuity -/

theorem ambiguous_mono {N' : Traits} (h : N ≤ N') (hN : Ambiguous N) : Ambiguous N' := by
  obtain ⟨x, y, hne, hx, hy⟩ := hN
  exact ⟨x, y, hne, h hx, h hy⟩

/-- Two labels are enough to be ambiguous. -/
private theorem ambiguous_finite (hN : Ambiguous N) :
    ∃ α, approx α ≤ N ∧ Ambiguous (approx α) := by
  obtain ⟨x, y, hne, hx, hy⟩ := hN
  exact ⟨[label x, label y], approx_le.mpr (by simp [hx, hy]), x, y, hne,
    mem_approx_self (by simp), mem_approx_self (by simp)⟩

private theorem nothing_le : approx [] ≤ X := approx_le.mpr (by simp)

theorem finitary_fieldOf : Finitary₂ fieldOf where
  mono hN hV t ht := by
    rcases ht with ⟨x, hx, rfl | rfl | ⟨v, hv, rfl⟩⟩ | hambiguous
    · exact .inl ⟨x, hN hx, .inl rfl⟩
    · exact .inl ⟨x, hN hx, .inr (.inl rfl)⟩
    · exact .inl ⟨x, hN hx, .inr (.inr ⟨v, hV hv, rfl⟩)⟩
    · exact .inr (ambiguous_mono hN hambiguous)
  finite {N V t} ht := by
    rcases ht with ⟨x, hx, h⟩ | hambiguous
    · have hname : approx [label x] ≤ N := approx_le.mpr (by simpa using hx)
      have hx : label x ∈ approx [label x] := mem_approx_self (by simp)
      rcases h with rfl | rfl | ⟨v, hv, rfl⟩
      · exact ⟨[label x], [], hname, nothing_le, .inl ⟨x, hx, .inl rfl⟩⟩
      · exact ⟨[label x], [], hname, nothing_le, .inl ⟨x, hx, .inr (.inl rfl)⟩⟩
      · exact ⟨[label x], [v], hname, approx_le.mpr (by simpa using hv),
          .inl ⟨x, hx, .inr (.inr ⟨v, mem_approx_self (by simp), rfl⟩)⟩⟩
    · obtain ⟨α, hα, h⟩ := ambiguous_finite hambiguous
      exact ⟨α, [], hα, nothing_le, .inr h⟩

theorem finitary_concat : Finitary₂ concat where
  mono hX hY t ht := by
    obtain ⟨hx, hy, ht | ht | ⟨x, hl, hr, ht⟩⟩ := ht
    · exact ⟨hX hx, hY hy, .inl (hX ht)⟩
    · exact ⟨hX hx, hY hy, .inr (.inl (hY ht))⟩
    · exact ⟨hX hx, hY hy, .inr (.inr ⟨x, hX hl, hY hr, ht⟩)⟩
  finite {X Y t} ht := by
    have hmem : ∀ {s : Trait} {α : List Trait}, s ∈ α → s ∈ approx α := mem_approx_self
    obtain ⟨hx, hy, ht | ht | ⟨x, hl, hr, ht⟩⟩ := ht
    · exact ⟨[.row, t], [.row], approx_le.mpr (by simp [hx, ht]), approx_le.mpr (by simpa using hy),
        hmem (by simp), hmem (by simp), .inl (hmem (by simp))⟩
    · exact ⟨[.row], [.row, t], approx_le.mpr (by simpa using hx), approx_le.mpr (by simp [hy, ht]),
        hmem (by simp), hmem (by simp), .inr (.inl (hmem (by simp)))⟩
    · exact ⟨[.row, label x], [.row, label x], approx_le.mpr (by simp [hx, hl]),
        approx_le.mpr (by simp [hy, hr]), hmem (by simp), hmem (by simp),
        .inr (.inr ⟨x, hmem (by simp), hmem (by simp), ht⟩)⟩

theorem valueAt_mono (h : X ≤ Y) : valueAt x X ≤ valueAt x Y := fun _ ht => h ht

theorem finitary_mapped : Finitary₂ mapped where
  mono hF hR t ht := by
    rcases ht with hpoison | ⟨hfunction, ⟨ht, hfield⟩ | ⟨x, v, rfl, hx, hv⟩ | ⟨x, hx, ht⟩⟩
    · exact .inl (hF hpoison)
    · exact .inr ⟨hF hfunction, .inl ⟨hR ht, hfield⟩⟩
    · exact .inr ⟨hF hfunction, .inr (.inl ⟨x, v, rfl, hR hx,
        finitary_apply.mono hF (valueAt_mono hR) hv⟩)⟩
    · exact .inr ⟨hF hfunction, .inr (.inr ⟨x, hR hx, ht⟩)⟩
  finite {F R t} ht := by
    have hmem : ∀ {s : Trait} {α : List Trait}, s ∈ α → s ∈ approx α := mem_approx_self
    rcases ht with hpoison | ⟨hfunction, h⟩
    · exact ⟨[poison], [], approx_le.mpr (by simpa using hpoison), nothing_le,
        .inl (hmem (by simp))⟩
    · have hF : approx [.function] ≤ F := approx_le.mpr (by simpa using hfunction)
      rcases h with ⟨ht, hfield⟩ | ⟨x, v, rfl, hx, hv⟩ | ⟨x, hx, ht⟩
      · exact ⟨[.function], [t], hF, approx_le.mpr (by simpa using ht),
          .inr ⟨hmem (by simp), .inl ⟨hmem (by simp), hfield⟩⟩⟩
      · obtain ⟨α, β, hα, hβ, hv⟩ := finitary_apply.finite hv
        refine ⟨.function :: α, label x :: β.map (field x), approx_le.mpr ?_, approx_le.mpr ?_,
          .inr ⟨hmem (by simp), .inr (.inl ⟨x, v, rfl, hmem (by simp), ?_⟩)⟩⟩
        · exact List.forall_mem_cons.mpr ⟨hfunction, approx_le.mp hα⟩
        · exact List.forall_mem_cons.mpr ⟨hx, List.forall_mem_map.mpr (approx_le.mp hβ)⟩
        · refine finitary_apply.mono (approx_le.mpr fun s hs => ?_)
            (approx_le.mpr fun s hs => ?_) hv
          · exact hmem (List.mem_cons_of_mem _ hs)
          · exact hmem (List.mem_cons_of_mem _ (List.mem_map_of_mem hs))
      · exact ⟨[.function], [clash x], hF, approx_le.mpr (by simpa using hx),
          .inr ⟨hmem (by simp), .inr (.inr ⟨x, hmem (by simp), ht⟩)⟩⟩

theorem finitary_project : Finitary₂ project where
  mono hR hN t ht := by
    rcases ht with ⟨x, hx, ht⟩ | hambiguous
    · exact .inl ⟨x, hN hx, hR ht⟩
    · exact .inr (ambiguous_mono hN hambiguous)
  finite {R N t} ht := by
    rcases ht with ⟨x, hx, ht⟩ | hambiguous
    · exact ⟨[field x t], [label x], approx_le.mpr (by simpa using ht),
        approx_le.mpr (by simpa using hx),
        .inl ⟨x, mem_approx_self (by simp), mem_approx_self (by simp)⟩⟩
    · obtain ⟨β, hβ, h⟩ := ambiguous_finite hambiguous
      exact ⟨[], β, nothing_le, hβ, .inr h⟩

theorem finitary_select (i : Nat) : Finitary₂ fun X _ => select i X where
  mono hX _ t ht := by
    rcases ht with ht | ⟨n, hn, hwidth⟩
    · exact .inl (hX ht)
    · exact .inr ⟨n, hn, hX hwidth⟩
  finite {X Y t} ht := by
    rcases ht with ht | ⟨n, hn, hwidth⟩
    · exact ⟨[component i t], [], approx_le.mpr (by simpa using ht), nothing_le,
        .inl (mem_approx_self (by simp))⟩
    · exact ⟨[width n], [], approx_le.mpr (by simpa using hwidth), nothing_le,
        .inr ⟨n, hn, mem_approx_self (by simp)⟩⟩

theorem finitary_place (i : Nat) : Finitary₂ fun V _ => place i V where
  mono hV _ t ht := by
    obtain ⟨v, hv, rfl⟩ := ht
    exact ⟨v, hV hv, rfl⟩
  finite {V Y t} ht := by
    obtain ⟨v, hv, rfl⟩ := ht
    exact ⟨[v], [], approx_le.mpr (by simpa using hv), nothing_le, v,
      mem_approx_self (by simp), rfl⟩

/-! ## Operands of proper results -/

theorem Proper.apply (h : Proper (Observed.apply F X)) : F.Proper := by
  obtain ⟨t, ht⟩ := h.defined
  obtain ⟨arguments, result, hmaps, -, -⟩ := mem_apply.mp ht
  refine ⟨⟨_, hmaps⟩, fun hF => h.clean ?_⟩
  exact mem_apply.mpr ⟨[], poison, mem_of_poison hF _, by simp, le_rfl⟩

/-- A name that a field can have is a single label. -/
theorem Proper.fieldOf (h : (fieldOf N V).Proper) : ∃ x, labels N = {x} := by
  have hN : ¬ Ambiguous N := fun hN => h.clean (.inr hN)
  obtain ⟨t, ⟨x, hx, -⟩ | hambiguous⟩ := h.defined
  · exact ⟨x, labels_eq_singleton hN hx⟩
  · exact absurd hambiguous hN

theorem proper_of_labels (h : labels N = {x}) : N.Proper := by
  refine ⟨⟨label x, mem_labels.mp (h ▸ rfl)⟩, fun hpoison => ?_⟩
  obtain ⟨y, z, hne, hy, hz⟩ := ambiguous_of_poison hpoison
  rw [← mem_labels, h, Set.mem_singleton_iff] at hy hz
  exact hne (hy.trans hz.symm)

theorem not_ambiguous_of_labels (h : labels N = {x}) : ¬ Ambiguous N := by
  rintro ⟨y, z, hne, hy, hz⟩
  rw [← mem_labels, h, Set.mem_singleton_iff] at hy hz
  exact hne (hy.trans hz.symm)

/-- A meaning that is a row. -/
structure IsRow (X : Traits) : Prop where
  row : .row ∈ X
  clean : poison ∉ X

theorem IsRow.proper (h : IsRow X) : X.Proper := ⟨⟨_, h.row⟩, h.clean⟩

theorem Proper.concat (h : (concat X Y).Proper) : IsRow X ∧ IsRow Y := by
  obtain ⟨t, hX, hY, -⟩ := h.defined
  exact ⟨⟨hX, fun hpoison => h.clean ⟨hX, hY, .inl hpoison⟩⟩,
    ⟨hY, fun hpoison => h.clean ⟨hX, hY, .inr (.inl hpoison)⟩⟩⟩

/-- A meaning that is a function. -/
structure IsFunction (F : Traits) : Prop where
  function : .function ∈ F
  clean : poison ∉ F

theorem IsFunction.proper (h : IsFunction F) : F.Proper := ⟨⟨_, h.function⟩, h.clean⟩

theorem IsFunction.mem_mapped (hF : IsFunction F) : t ∈ mapped F R ↔
    (t ∈ R ∧ ∀ x v, t ≠ field x v) ∨
    (∃ x v, t = field x v ∧ label x ∈ R ∧ v ∈ Observed.apply F (valueAt x R)) ∨
    ∃ x, clash x ∈ R ∧ t ≤ clash x := by
  constructor
  · rintro (h | ⟨-, h⟩)
    · exact absurd h hF.clean
    · exact h
  · exact fun h => .inr ⟨hF.function, h⟩

theorem Proper.mapped (h : (mapped F R).Proper) : IsFunction F ∧ R.Proper := by
  have hclean : poison ∉ F := fun hF => h.clean (.inl hF)
  obtain ⟨t, hpoison | ⟨hfunction, ht⟩⟩ := h.defined
  · exact absurd hpoison hclean
  · refine ⟨⟨hfunction, hclean⟩, ?_, fun hR => h.clean (.inr ⟨hfunction, .inl ⟨hR, nofun⟩⟩)⟩
    rcases ht with ⟨ht, -⟩ | ⟨x, v, -, hx, -⟩ | ⟨x, hx, -⟩
    · exact ⟨t, ht⟩
    · exact ⟨_, hx⟩
    · exact ⟨_, hx⟩

/-- A row is projected from at a single label, and the result is the value there. -/
theorem Proper.project (h : (project R N).Proper) :
    R.Proper ∧ ∃ x, labels N = {x} ∧ project R N = valueAt x R := by
  have hN : ¬ Ambiguous N := fun hN => h.clean (.inr hN)
  obtain ⟨t, ⟨x, hx, ht⟩ | hambiguous⟩ := h.defined
  · have hlabels := labels_eq_singleton hN hx
    refine ⟨⟨⟨_, ht⟩, fun hR => h.clean (.inl ⟨x, hx, mem_of_poison hR _⟩)⟩, x, hlabels, ?_⟩
    refine SetLike.ext fun s => ⟨?_, fun hs => mem_project.mpr (.inl ⟨x, hx, hs⟩)⟩
    rintro (⟨y, hy, hs⟩ | hambiguous)
    · have : y = x := by
        rw [← mem_labels, hlabels] at hy
        exact hy
      exact this ▸ hs
    · exact absurd hambiguous hN
  · exact absurd hambiguous hN

theorem Proper.select {i : Nat} (h : (select i X).Proper) : X.Proper := by
  refine ⟨?_, fun hX => h.clean (.inl (mem_of_poison hX _))⟩
  obtain ⟨t, ht | ⟨n, -, hwidth⟩⟩ := h.defined
  · exact ⟨_, ht⟩
  · exact ⟨_, hwidth⟩

end Traits

end RowML
