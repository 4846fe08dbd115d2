import RowML.Proofs.Row.Domain

/-!
# Laws of rows

The laws that reduction relies on, in the domain for label sets.  Where a law needs a row or a
function, the properness of what is reduced provides it.
-/

namespace RowML

namespace Traits

open Observed Trait

variable {X Y Z F G K R N V : Traits} {t : Trait} {x : String}

/-! ## Concatenation -/

theorem row_mem_concat : .row ∈ concat X Y ↔ .row ∈ X ∧ .row ∈ Y := by
  rw [mem_concat]
  constructor
  · exact fun h => ⟨h.1, h.2.1⟩
  · exact fun h => ⟨h.1, h.2, .inl h.1⟩

theorem label_mem_concat (hX : .row ∈ X) (hY : .row ∈ Y) :
    label x ∈ concat X Y ↔ label x ∈ X ∨ label x ∈ Y := by
  rw [mem_concat]
  constructor
  · rintro ⟨-, -, h | h | ⟨y, hx, -, hle⟩⟩
    · exact .inl h
    · exact .inr h
    · exact .inl (label_le_clash.mp hle ▸ hx)
  · rintro (h | h)
    · exact ⟨hX, hY, .inl h⟩
    · exact ⟨hX, hY, .inr (.inl h)⟩

theorem clash_mem_concat (hX : .row ∈ X) (hY : .row ∈ Y) : clash x ∈ concat X Y ↔
    clash x ∈ X ∨ clash x ∈ Y ∨ label x ∈ X ∧ label x ∈ Y := by
  rw [mem_concat]
  constructor
  · rintro ⟨-, -, h | h | ⟨y, hx, hy, hle⟩⟩
    · exact .inl h
    · exact .inr (.inl h)
    · obtain rfl := clash_le_clash.mp hle
      exact .inr (.inr ⟨hx, hy⟩)
  · rintro (h | h | ⟨hx, hy⟩)
    · exact ⟨hX, hY, .inl h⟩
    · exact ⟨hX, hY, .inr (.inl h)⟩
    · exact ⟨hX, hY, .inr (.inr ⟨x, hx, hy, le_rfl⟩)⟩

theorem labels_concat (hX : .row ∈ X) (hY : .row ∈ Y) :
    labels (concat X Y) = labels X ∪ labels Y :=
  Set.ext fun _ => label_mem_concat hX hY

theorem IsRow.concat (hX : IsRow X) (hY : IsRow Y) : IsRow (concat X Y) := by
  refine ⟨row_mem_concat.mpr ⟨hX.row, hY.row⟩, ?_⟩
  rintro ⟨-, -, h | h | ⟨x, -, -, h⟩⟩
  · exact hX.clean h
  · exact hY.clean h
  · exact not_poison_le_clash h

theorem concat_comm : concat X Y = concat Y X := by
  have hle : ∀ {X Y : Traits}, concat X Y ≤ concat Y X := by
    rintro X Y t ⟨hX, hY, h | h | ⟨x, hx, hy, hle⟩⟩
    · exact ⟨hY, hX, .inr (.inl h)⟩
    · exact ⟨hY, hX, .inl h⟩
    · exact ⟨hY, hX, .inr (.inr ⟨x, hy, hx, hle⟩)⟩
  exact le_antisymm hle hle

theorem concat_assoc : concat (concat X Y) Z = concat X (concat Y Z) := by
  refine le_antisymm ?_ ?_
  · rintro t ⟨hXY, hZ, h⟩
    obtain ⟨hX, hY⟩ := row_mem_concat.mp hXY
    have hYZ := row_mem_concat.mpr ⟨hY, hZ⟩
    rcases h with ⟨-, -, h | h | ⟨x, hx, hy, hle⟩⟩ | h | ⟨x, hxy, hz, hle⟩
    · exact ⟨hX, hYZ, .inl h⟩
    · exact ⟨hX, hYZ, .inr (.inl ⟨hY, hZ, .inl h⟩)⟩
    · exact ⟨hX, hYZ, .inr (.inr ⟨x, hx, (label_mem_concat hY hZ).mpr (.inl hy), hle⟩)⟩
    · exact ⟨hX, hYZ, .inr (.inl ⟨hY, hZ, .inr (.inl h)⟩)⟩
    · rcases (label_mem_concat hX hY).mp hxy with hx | hy
      · exact ⟨hX, hYZ, .inr (.inr ⟨x, hx, (label_mem_concat hY hZ).mpr (.inr hz), hle⟩)⟩
      · exact ⟨hX, hYZ, .inr (.inl ⟨hY, hZ, .inr (.inr ⟨x, hy, hz, hle⟩)⟩)⟩
  · rintro t ⟨hX, hYZ, h⟩
    obtain ⟨hY, hZ⟩ := row_mem_concat.mp hYZ
    have hXY := row_mem_concat.mpr ⟨hX, hY⟩
    rcases h with h | ⟨-, -, h | h | ⟨x, hy, hz, hle⟩⟩ | ⟨x, hx, hyz, hle⟩
    · exact ⟨hXY, hZ, .inl ⟨hX, hY, .inl h⟩⟩
    · exact ⟨hXY, hZ, .inl ⟨hX, hY, .inr (.inl h)⟩⟩
    · exact ⟨hXY, hZ, .inr (.inl h)⟩
    · exact ⟨hXY, hZ, .inr (.inr ⟨x, (label_mem_concat hX hY).mpr (.inr hy), hz, hle⟩)⟩
    · rcases (label_mem_concat hY hZ).mp hyz with hy | hz
      · exact ⟨hXY, hZ, .inl ⟨hX, hY, .inr (.inr ⟨x, hx, hy, hle⟩)⟩⟩
      · exact ⟨hXY, hZ, .inr (.inr ⟨x, (label_mem_concat hX hY).mpr (.inl hx), hz, hle⟩)⟩

theorem empty_concat (h : ∀ t ∈ X, Trait.row ∈ X) : concat empty X = X := by
  refine le_antisymm ?_ fun t ht => ⟨mem_empty.mpr rfl, h t ht, .inr (.inl ht)⟩
  rintro t ⟨-, hX, ht | ht | ⟨x, hx, -⟩⟩
  · exact mem_empty.mp ht ▸ hX
  · exact ht
  · cases mem_empty.mp hx

/-! ## Literals -/

/-- The row with the given fields, names and values. -/
def literal : List (Traits × Traits) → Traits
  | [] => empty
  | (N, V) :: fields => concat (fieldOf N V) (literal fields)

variable {fields fields' : List (Traits × Traits)}

theorem row_mem_literal (h : t ∈ literal fields) : .row ∈ literal fields := by
  cases fields with
  | nil => exact mem_empty.mpr rfl
  | cons field fields => exact row_mem_concat.mpr ⟨h.1, h.2.1⟩

theorem literal_append :
    literal (fields ++ fields') = concat (literal fields) (literal fields') := by
  induction fields with
  | nil => exact (empty_concat fun _ => row_mem_literal).symm
  | cons field fields ih =>
    rw [List.cons_append, literal, ih, literal, concat_assoc]

theorem label_mem_fieldOf (hN : labels N = {x}) {y : String} :
    label y ∈ fieldOf N V ↔ y = x := by
  have hmem : ∀ y, label y ∈ N ↔ y = x := fun y => by
    rw [← mem_labels, hN, Set.mem_singleton_iff]
  constructor
  · rintro (⟨z, hz, h | h | ⟨v, -, h⟩⟩ | hambiguous)
    · cases h
    · cases h
      exact (hmem y).mp hz
    · cases h
    · exact absurd hambiguous (not_ambiguous_of_labels hN)
  · rintro rfl
    exact .inl ⟨y, (hmem y).mpr rfl, .inr (.inl rfl)⟩

theorem valueAt_fieldOf (hN : labels N = {x}) : valueAt x (fieldOf N V) = V := by
  refine SetLike.ext fun t => ?_
  rw [mem_valueAt, mem_fieldOf]
  constructor
  · rintro (⟨z, hz, h | h | ⟨v, hv, h⟩⟩ | hambiguous)
    · cases h
    · cases h
    · cases h
      exact hv
    · exact absurd hambiguous (not_ambiguous_of_labels hN)
  · exact fun ht => .inl ⟨x, mem_labels.mp (hN ▸ rfl), .inr (.inr ⟨t, ht, rfl⟩)⟩

/-- The labels of a literal that is a row are those of its names, each a single one. -/
theorem IsRow.literal (h : IsRow (literal fields)) :
    (∀ field ∈ fields, ∃ x, labels field.1 = {x}) ∧
      labels (Traits.literal fields) = {x | ∃ field ∈ fields, label x ∈ field.1} := by
  induction fields with
  | nil =>
    refine ⟨by simp, Set.ext fun x => iff_of_false (fun hx => ?_) (by simp)⟩
    cases mem_empty.mp hx
  | cons field fields ih =>
    obtain ⟨N, V⟩ := field
    obtain ⟨hfield, hrest⟩ := h.proper.concat
    obtain ⟨hnames, hlabels⟩ := ih hrest
    obtain ⟨x, hx⟩ := hfield.proper.fieldOf
    refine ⟨List.forall_mem_cons.mpr ⟨⟨x, hx⟩, hnames⟩, ?_⟩
    rw [Traits.literal, labels_concat hfield.row hrest.row, hlabels]
    ext y
    have hN : label y ∈ N ↔ y = x := by rw [← mem_labels, hx, Set.mem_singleton_iff]
    simp [label_mem_fieldOf hx, hN]

theorem isRow_fieldOf (hN : labels N = {x}) : IsRow (fieldOf N V) := by
  refine ⟨.inl ⟨x, mem_labels.mp (hN ▸ rfl), .inl rfl⟩, ?_⟩
  rintro (⟨y, -, h | h | ⟨v, -, h⟩⟩ | hambiguous)
  · cases h
  · cases h
  · cases h
  · exact not_ambiguous_of_labels hN hambiguous

/-- A literal is a row if its names are single labels. -/
theorem isRow_literal_of_names (h : ∀ field ∈ fields, ∃ x, labels field.1 = {x}) :
    IsRow (literal fields) := by
  induction fields with
  | nil =>
    refine ⟨mem_empty.mpr rfl, fun hpoison => ?_⟩
    cases mem_empty.mp hpoison
  | cons field fields ih =>
    obtain ⟨⟨x, hx⟩, hrest⟩ := List.forall_mem_cons.mp h
    exact (isRow_fieldOf hx).concat (ih hrest)

/-- In a literal that does not repeat a label, the value at the label is that of any field with
it. -/
theorem valueAt_literal (h : IsRow (literal fields)) (hclash : clash x ∉ literal fields)
    (hmem : (N, V) ∈ fields) (hN : label x ∈ N) : valueAt x (literal fields) = V := by
  induction fields with
  | nil => cases hmem
  | cons field fields ih =>
    obtain ⟨N', V'⟩ := field
    obtain ⟨hfield, hrest⟩ := h.proper.concat
    rw [Traits.literal, clash_mem_concat hfield.row hrest.row] at hclash
    obtain ⟨y, hy⟩ := hfield.proper.fieldOf
    have hvalue : ∀ {t}, t ∈ valueAt x (literal ((N', V') :: fields)) ↔
        field x t ∈ fieldOf N' V' ∨ field x t ∈ literal fields := by
      intro t
      constructor
      · rintro ⟨-, -, ht | ht | ⟨z, hl, hr, hle⟩⟩
        · exact .inl ht
        · exact .inr ht
        · obtain rfl := field_le_clash.mp hle
          exact absurd (.inr (.inr ⟨hl, hr⟩)) hclash
      · rintro (ht | ht)
        · exact ⟨hfield.row, hrest.row, .inl ht⟩
        · exact ⟨hfield.row, hrest.row, .inr (.inl ht)⟩
    have hlabels := hrest.literal.2
    rcases List.mem_cons.mp hmem with heq | hmem
    · -- no later field has the label
      cases heq
      have hxy : x = y := by
        rw [← mem_labels, hy] at hN
        exact hN
      subst hxy
      have hlabel : label x ∈ fieldOf N V := (label_mem_fieldOf hy).mpr rfl
      refine SetLike.ext fun t => ?_
      rw [hvalue, ← mem_valueAt, valueAt_fieldOf hy]
      exact or_iff_left fun ht => hclash (.inr (.inr ⟨hlabel, label_mem_of_field ht⟩))
    · -- the first field has another label
      have hlabel : label x ∈ literal fields := by
        rw [← mem_labels, hlabels]
        exact ⟨_, hmem, hN⟩
      refine SetLike.ext fun t => ?_
      rw [hvalue, ← mem_valueAt (R := literal fields),
        ih hrest (fun hx => hclash (.inr (.inl hx))) hmem]
      exact or_iff_right fun ht => hclash (.inr (.inr ⟨label_mem_of_field ht, hlabel⟩))

/-! ## Maps -/

theorem label_mem_mapped (hF : IsFunction F) : label x ∈ mapped F R ↔ label x ∈ R := by
  rw [hF.mem_mapped]
  constructor
  · rintro (⟨h, -⟩ | ⟨y, v, h, -⟩ | ⟨y, hy, hle⟩)
    · exact h
    · cases h
    · obtain rfl := label_le_clash.mp hle
      exact R.lower (.label_clash x) hy
  · exact fun h => .inl ⟨h, by simp⟩

theorem labels_mapped (hF : IsFunction F) : labels (mapped F R) = labels R :=
  Set.ext fun _ => label_mem_mapped hF

theorem row_mem_mapped (hF : IsFunction F) : .row ∈ mapped F R ↔ .row ∈ R := by
  rw [hF.mem_mapped]
  constructor
  · rintro (⟨h, -⟩ | ⟨y, v, h, -⟩ | ⟨y, -, hle⟩)
    · exact h
    · cases h
    · exact absurd hle not_row_le_clash
  · exact fun h => .inl ⟨h, by simp⟩

theorem clash_mem_mapped (hF : IsFunction F) : clash x ∈ mapped F R ↔ clash x ∈ R := by
  rw [hF.mem_mapped]
  constructor
  · rintro (⟨h, -⟩ | ⟨y, v, h, -⟩ | ⟨y, hy, hle⟩)
    · exact h
    · cases h
    · exact clash_le_clash.mp hle ▸ hy
  · exact fun h => .inl ⟨h, by simp⟩

/-- The value of a mapped row at one of its labels. -/
theorem valueAt_mapped (hF : IsFunction F) (hx : label x ∈ R) (hclash : clash x ∉ R) :
    valueAt x (mapped F R) = apply F (valueAt x R) := by
  refine SetLike.ext fun t => ?_
  rw [mem_valueAt, hF.mem_mapped]
  constructor
  · rintro (⟨-, hfield⟩ | ⟨y, v, h, -, hv⟩ | ⟨y, hy, hle⟩)
    · exact absurd rfl (hfield x t)
    · cases h
      exact hv
    · exact absurd (field_le_clash.mp hle ▸ hy) hclash
  · exact fun ht => .inr (.inl ⟨x, t, rfl, hx, ht⟩)

/-- Rows are the same if they have the same observations other than fields, and the same values
at the labels that they do not repeat. -/
theorem ext_fields (h : ∀ t, (∀ x v, t ≠ field x v) → (t ∈ X ↔ t ∈ Y))
    (hvalue : ∀ x, label x ∈ X → label x ∈ Y → clash x ∉ X → clash x ∉ Y →
      valueAt x X = valueAt x Y) : X = Y := by
  refine SetLike.ext fun t => ?_
  by_cases ht : ∃ x v, t = field x v
  · obtain ⟨x, v, rfl⟩ := ht
    have hlabel := h (label x) (by simp)
    have hclash := h (clash x) (by simp)
    by_cases hx : label x ∈ X
    · by_cases hc : clash x ∈ X
      · exact iff_of_true (field_mem_of_clash hc v) (field_mem_of_clash (hclash.mp hc) v)
      · have hval := hvalue x hx (hlabel.mp hx) hc fun hc' => hc (hclash.mpr hc')
        rw [← mem_valueAt, hval, mem_valueAt]
    · exact iff_of_false (fun hv => hx (label_mem_of_field hv))
        fun hv => hx (hlabel.mpr (label_mem_of_field hv))
  · exact h t fun x v hv => ht ⟨x, v, hv⟩

/-- Observations other than fields stay. -/
theorem mem_mapped_of_ne (hF : IsFunction F) (ht : ∀ x v, t ≠ field x v) :
    t ∈ mapped F R ↔ t ∈ R := by
  rw [hF.mem_mapped]
  constructor
  · rintro (⟨h, -⟩ | ⟨y, v, h, -⟩ | ⟨y, hy, hle⟩)
    · exact h
    · exact absurd h (ht y v)
    · exact R.lower hle hy
  · exact fun h => .inl ⟨h, ht⟩

theorem mapped_identity (hF : IsFunction F) (h : ∀ X, apply F X = X) : mapped F R = R := by
  refine ext_fields (fun t ht => mem_mapped_of_ne hF ht) fun x _ hx _ hclash => ?_
  rw [valueAt_mapped hF hx hclash, h]

theorem mapped_mapped (hF : IsFunction F) (hG : IsFunction G) (hK : IsFunction K)
    (h : ∀ X, apply K X = apply F (apply G X)) : mapped F (mapped G R) = mapped K R := by
  refine ext_fields (fun t ht => ?_) fun x _ hx _ hclash => ?_
  · rw [mem_mapped_of_ne hF ht, mem_mapped_of_ne hG ht, mem_mapped_of_ne hK ht]
  · rw [label_mem_mapped hK] at hx
    rw [clash_mem_mapped hK] at hclash
    rw [valueAt_mapped hK hx hclash, h, valueAt_mapped hF ((label_mem_mapped hG).mpr hx)
      (mt (clash_mem_mapped hG).mp hclash), valueAt_mapped hG hx hclash]

/-- The value at a label that only one of two rows has. -/
theorem valueAt_concat_left (hX : .row ∈ X) (hY : .row ∈ Y) (hx : label x ∉ Y) :
    valueAt x (concat X Y) = valueAt x X := by
  refine SetLike.ext fun t => ?_
  rw [mem_valueAt, mem_concat, mem_valueAt]
  constructor
  · rintro ⟨-, -, ht | ht | ⟨y, -, hy, hle⟩⟩
    · exact ht
    · exact absurd (label_mem_of_field ht) hx
    · exact absurd (field_le_clash.mp hle ▸ hy) hx
  · exact fun ht => ⟨hX, hY, .inl ht⟩

theorem valueAt_concat_right (hX : .row ∈ X) (hY : .row ∈ Y) (hx : label x ∉ X) :
    valueAt x (concat X Y) = valueAt x Y := by
  rw [concat_comm, valueAt_concat_left hY hX hx]

theorem mapped_concat (hF : IsFunction F) :
    mapped F (concat X Y) = concat (mapped F X) (mapped F Y) := by
  by_cases hrows : Trait.row ∈ X ∧ Trait.row ∈ Y
  · obtain ⟨hX, hY⟩ := hrows
    have hX' := (row_mem_mapped (R := X) hF).mpr hX
    have hY' := (row_mem_mapped (R := Y) hF).mpr hY
    refine ext_fields (fun t ht => ?_) fun x hx _ hclash _ => ?_
    · rw [mem_mapped_of_ne hF ht, mem_concat, mem_concat, mem_mapped_of_ne hF ht,
        mem_mapped_of_ne hF ht, row_mem_mapped hF, row_mem_mapped hF]
      simp only [label_mem_mapped hF]
    · rw [label_mem_mapped hF, label_mem_concat hX hY] at hx
      rw [clash_mem_mapped hF, clash_mem_concat hX hY] at hclash
      push Not at hclash
      obtain ⟨hcx, hcy, hboth⟩ := hclash
      have hclash' : clash x ∉ concat X Y := by
        rw [clash_mem_concat hX hY]
        tauto
      have hlabel' := (label_mem_concat hX hY).mpr hx
      rw [valueAt_mapped hF hlabel' hclash']
      rcases hx with hx | hx
      · rw [valueAt_concat_left hX hY (hboth hx),
          valueAt_concat_left hX' hY' (mt (label_mem_mapped hF).mp (hboth hx)),
          valueAt_mapped hF hx hcx]
      · have hx' : label x ∉ X := fun h => hboth h hx
        rw [valueAt_concat_right hX hY hx',
          valueAt_concat_right hX' hY' (mt (label_mem_mapped hF).mp hx'),
          valueAt_mapped hF hx hcy]
  · -- what is not made of rows is undefined
    have hnone : ∀ t, t ∉ concat X Y := fun t ht => hrows ⟨ht.1, ht.2.1⟩
    refine SetLike.ext fun t => iff_of_false (fun ht => ?_) fun ht => ?_
    swap
    · obtain ⟨hX, hY, -⟩ := mem_concat.mp ht
      exact hrows ⟨(row_mem_mapped hF).mp hX, (row_mem_mapped hF).mp hY⟩
    rcases hF.mem_mapped.mp ht with ⟨h, -⟩ | ⟨x, v, -, h, -⟩ | ⟨x, h, -⟩ <;> exact hnone _ h

theorem mapped_fieldOf (hF : IsFunction F) (hN : labels N = {x}) :
    mapped F (fieldOf N V) = fieldOf N (apply F V) := by
  refine ext_fields (fun t ht => ?_) fun y hy hy' hclash _ => ?_
  · rw [mem_mapped_of_ne hF ht, mem_fieldOf, mem_fieldOf]
    refine or_congr (exists_congr fun z => and_congr Iff.rfl (or_congr Iff.rfl
      (or_congr Iff.rfl ?_))) Iff.rfl
    exact iff_of_false (fun ⟨v, _, h⟩ => ht z v h) fun ⟨v, _, h⟩ => ht z v h
  · obtain rfl := (label_mem_fieldOf hN).mp hy'
    rw [valueAt_mapped hF ((label_mem_mapped hF).mp hy) (mt (clash_mem_mapped hF).mpr hclash),
      valueAt_fieldOf hN, valueAt_fieldOf hN]

theorem mapped_empty (hF : IsFunction F) : mapped F empty = empty := by
  refine ext_fields (fun t ht => mem_mapped_of_ne hF ht) fun y _ hy _ _ => ?_
  cases mem_empty.mp hy

theorem mapped_literal (hF : IsFunction F) (h : IsRow (literal fields)) :
    mapped F (literal fields) =
      literal (fields.map fun field => (field.1, apply F field.2)) := by
  induction fields with
  | nil => exact mapped_empty hF
  | cons field fields ih =>
    obtain ⟨hfield, hrest⟩ := h.proper.concat
    obtain ⟨x, hx⟩ := hfield.proper.fieldOf
    rw [List.map_cons, literal, literal, mapped_concat hF, mapped_fieldOf hF hx, ih hrest]

/-! ## Projections -/

/-- Projecting from a map applies the function to what is projected. -/
theorem project_mapped (h : Proper (project (mapped F R) N)) :
    project (mapped F R) N = apply F (project R N) := by
  obtain ⟨hmapped, x, hN, hvalue⟩ := h.project
  obtain ⟨hF, hR⟩ := hmapped.mapped
  rw [hvalue] at h ⊢
  obtain ⟨t, ht⟩ := h.defined
  have hx : label x ∈ R := (label_mem_mapped hF).mp (label_mem_of_field ht)
  have hclash : clash x ∉ R := fun hclash =>
    h.clean (field_mem_of_clash ((clash_mem_mapped hF).mpr hclash) _)
  rw [valueAt_mapped hF hx hclash]
  have hproject : project R N = valueAt x R := by
    refine SetLike.ext fun s => ?_
    rw [mem_project, mem_valueAt]
    have hmem : ∀ y, label y ∈ N ↔ y = x := fun y => by
      rw [← mem_labels, hN, Set.mem_singleton_iff]
    simp [hmem, not_ambiguous_of_labels hN]
  rw [hproject]

/-! ## Tuples -/

/-- The components of a tuple from number `i` on. -/
def components (i : Nat) : List Traits → Traits
  | [] => ⊥
  | V :: Vs => place i V ⊔ components (i + 1) Vs

def tuple (Vs : List Traits) : Traits := approx [width Vs.length] ⊔ components 0 Vs

theorem mem_components {Vs : List Traits} {i : Nat} : t ∈ components i Vs ↔
    ∃ j V, Vs[j]? = some V ∧ ∃ s ∈ V, t = component (i + j) s := by
  induction Vs generalizing i with
  | nil => simp [components, LowerSet.notMem_bot]
  | cons V Vs ih =>
    rw [components, LowerSet.mem_sup_iff, mem_place, ih]
    constructor
    · rintro (⟨s, hs, rfl⟩ | ⟨j, W, hW, s, hs, rfl⟩)
      · exact ⟨0, V, rfl, s, hs, rfl⟩
      · exact ⟨j + 1, W, hW, s, hs, by rw [Nat.add_right_comm, Nat.add_assoc]⟩
    · rintro ⟨_ | j, W, hW, s, hs, rfl⟩
      · cases hW
        exact .inl ⟨s, hs, rfl⟩
      · exact .inr ⟨j, W, hW, s, hs, by rw [Nat.add_right_comm, Nat.add_assoc]⟩

theorem mem_width {n : Nat} : t ∈ approx [width n] ↔ t = width n :=
  mem_approx_singleton fun h => by
    cases h
    rfl

theorem select_tuple {Vs : List Traits} {i : Nat} (h : Vs[i]? = some V) :
    select i (tuple Vs) = V := by
  obtain ⟨hi, -⟩ := List.getElem?_eq_some_iff.mp h
  refine SetLike.ext fun t => ?_
  simp only [mem_select, tuple, LowerSet.mem_sup_iff, mem_width, mem_components]
  constructor
  · rintro ((hwidth | ⟨j, W, hW, s, hs, hcomponent⟩) | ⟨n, hn, hwidth | ⟨j, W, -, s, -, hne⟩⟩)
    · cases hwidth
    · obtain ⟨rfl, rfl⟩ : i = 0 + j ∧ t = s := by simpa using hcomponent
      rw [Nat.zero_add, hW] at h
      cases h
      exact hs
    · cases hwidth
      exact absurd hi (Nat.not_lt.mpr hn)
    · cases hne
  · exact fun ht => .inl (.inr ⟨i, V, h, t, ht, by rw [Nat.zero_add]⟩)

/-- A tuple has no component beyond its width. -/
theorem not_proper_select {Vs : List Traits} {i : Nat} (h : Vs[i]? = none) :
    ¬ Proper (select i (tuple Vs)) := fun hproper =>
  hproper.clean (.inr ⟨Vs.length, List.getElem?_eq_none_iff.mp h,
    LowerSet.mem_sup_iff.mpr (.inl (mem_width.mpr rfl))⟩)

end Traits

end RowML
