import RowML.Proofs.Constructor.Substitution

/-!
# Congruences

Two constructors are alike if they differ in their kind annotations only, which are related by a
given relation.  A congruence has in addition a relation on constructors as its steps.
-/

namespace RowML

namespace Con

/-! ## Equality up to kinds -/

theorem forall_mem_of_forall₂ {α β : Type} {R : α → β → Prop} {Q : β → Prop} {xs : List α}
    {ys : List β} (h : List.Forall₂ R xs ys) (hQ : ∀ x ∈ xs, ∀ y, R x y → Q y) :
    ∀ y ∈ ys, Q y := by
  intro y hy
  obtain ⟨i, hi, rfl⟩ := List.getElem_of_mem hy
  have hi' : i < xs.length := h.length_eq ▸ hi
  exact hQ _ (List.getElem_mem hi') _ (h.get hi' hi)

theorem forall_mem_iff_of_forall₂ {α β : Type} {R : α → β → Prop} {P : α → Prop} {Q : β → Prop}
    {xs : List α} {ys : List β} (h : List.Forall₂ R xs ys)
    (hPQ : ∀ x ∈ xs, ∀ y, R x y → (Q y ↔ P x)) : (∀ y ∈ ys, Q y) ↔ ∀ x ∈ xs, P x := by
  induction h with
  | nil => simp
  | cons hxy _ ih =>
    rw [List.forall_mem_cons, List.forall_mem_cons, hPQ _ (by simp) _ hxy,
      ih fun x hx => hPQ x (List.mem_cons_of_mem _ hx)]

/-- The same constructor with related kind annotations. -/
inductive Alike (kinds : Kind → Kind → Prop) : Con → Con → Prop where
  | intro {c c' : Con} (hframe : c.frame = c'.frame)
      (hkinds : List.Forall₂ kinds c.annotations c'.annotations)
      (hparts : ∀ (i : Nat) (p p' : Con), c.parts[i]? = some p → c'.parts[i]? = some p' →
        Alike kinds p p') :
      Alike kinds c c'

namespace Alike

variable {kinds kinds' : Kind → Kind → Prop} {c c' : Con}

theorem frame_eq (h : Alike kinds c c') : c.frame = c'.frame := by
  cases h with
  | intro hframe _ _ => exact hframe

theorem annotations (h : Alike kinds c c') : List.Forall₂ kinds c.annotations c'.annotations := by
  cases h with
  | intro _ hkinds _ => exact hkinds

theorem parts (h : Alike kinds c c') : List.Forall₂ (Alike kinds) c.parts c'.parts := by
  cases h with
  | intro hframe _ hparts =>
    refine List.forall₂_iff_get.mpr ⟨length_parts_eq hframe, fun i hi hi' => ?_⟩
    exact hparts i _ _ (List.getElem?_eq_getElem hi) (List.getElem?_eq_getElem hi')

theorem of_forall₂ (hframe : c.frame = c'.frame)
    (hkinds : List.Forall₂ kinds c.annotations c'.annotations)
    (hparts : List.Forall₂ (Alike kinds) c.parts c'.parts) : Alike kinds c c' := by
  refine .intro hframe hkinds fun i p p' hp hp' => ?_
  obtain ⟨hi, rfl⟩ := List.getElem?_eq_some_iff.mp hp
  obtain ⟨hi', rfl⟩ := List.getElem?_eq_some_iff.mp hp'
  exact (List.forall₂_iff_get.mp hparts).2 i hi hi'

theorem refl (h : c.All fun node => ∀ k ∈ node.annotations, kinds k k) : Alike kinds c c := by
  induction h with
  | intro top _ ih =>
    refine of_forall₂ rfl (List.forall₂_same.mpr top) (List.forall₂_same.mpr ih)

theorem mono (h : Alike kinds c c') (himp : ∀ k k', kinds k k' → kinds' k k') :
    Alike kinds' c c' := by
  induction h with
  | intro hframe hkinds _ ih => exact .intro hframe (hkinds.imp himp) ih

theorem leaf (h : Alike kinds c c') (hparts : c.parts = []) (hkinds : c.annotations = []) :
    c' = c :=
  (eq_of_frame_leaf h.frame_eq hparts hkinds).symm

theorem bound_le_iff (h : Alike kinds c c') {n : Nat} : c'.bound ≤ n ↔ c.bound ≤ n := by
  induction c using inductionOnParts generalizing c' n with
  | step c ih =>
    have hbvar : ∀ i, c' = .bvar i ↔ c = .bvar i := by
      intro i
      constructor
      · rintro rfl
        exact (eq_of_frame_leaf h.frame_eq.symm rfl rfl).symm
      · rintro rfl
        exact h.leaf rfl rfl
    rw [bound_le_iff_parts, bound_le_iff_parts (c := c), binders_eq h.frame_eq]
    refine and_congr (by simp [hbvar]) ?_
    exact forall_mem_iff_of_forall₂ h.parts fun p hp p' hpp => ih p hp hpp

theorem mentions_iff (h : Alike kinds c c') {v : MetaId} : c'.Mentions v ↔ c.Mentions v := by
  induction c using inductionOnParts generalizing c' with
  | step c ih =>
    have hmvar : (∃ spine, c' = .mvar v spine) ↔ ∃ spine, c = .mvar v spine := by
      constructor
      · rintro ⟨spine, rfl⟩
        exact ⟨_, eq_mvar_of_frame h.frame_eq.symm⟩
      · rintro ⟨spine, rfl⟩
        exact ⟨_, eq_mvar_of_frame h.frame_eq⟩
    rw [Con.mentions_iff, Con.mentions_iff (c := c), hmvar]
    refine or_congr Iff.rfl ?_
    have := forall_mem_iff_of_forall₂ (P := fun p => ¬ p.Mentions v)
      (Q := fun p => ¬ p.Mentions v) h.parts fun p hp p' hpp => not_congr (ih p hp hpp)
    simpa using not_congr this

/-- No constructor is like one of its parts. -/
theorem not_mem_parts (h : Alike kinds c' c) : c' ∉ c.parts := by
  induction c using inductionOnParts generalizing c' with
  | step c ih =>
    intro hmem
    obtain ⟨n, hn, rfl⟩ := List.getElem_of_mem hmem
    have hparts := List.forall₂_iff_get.mp h.parts
    have hn' : n < c.parts[n].parts.length := hparts.1 ▸ hn
    exact ih _ hmem (hparts.2 n hn' hn) (List.getElem_mem hn')

end Alike

/-! ## Congruences -/

inductive Congr (base : Con → Con → Prop) (kinds : Kind → Kind → Prop) : Con → Con → Prop where
  | refl (c : Con) : Congr base kinds c c
  | symm {a b : Con} (h : Congr base kinds a b) : Congr base kinds b a
  | trans {a b c : Con} (h : Congr base kinds a b) (h' : Congr base kinds b c) :
      Congr base kinds a c
  | step {a b : Con} (h : base a b) : Congr base kinds a b
  | node {c c' : Con} (hframe : c.frame = c'.frame)
      (hkinds : List.Forall₂ kinds c.annotations c'.annotations)
      (hparts : ∀ (i : Nat) (p p' : Con), c.parts[i]? = some p → c'.parts[i]? = some p' →
        Congr base kinds p p') :
      Congr base kinds c c'

namespace Congr

variable {base base' : Con → Con → Prop} {kinds kinds' : Kind → Kind → Prop}

theorem lift (h : ∀ {a b}, base a b → Congr base' kinds' a b)
    (hkinds : ∀ {k k'}, kinds k k' → kinds' k k') {a b : Con} (hab : Congr base kinds a b) :
    Congr base' kinds' a b := by
  induction hab with
  | refl c => exact .refl c
  | symm _ ih => exact ih.symm
  | trans _ _ ih ih' => exact ih.trans ih'
  | step hstep => exact h hstep
  | node hframe hannotations _ ih =>
    exact .node hframe (hannotations.imp fun _ _ hk => hkinds hk) ih

theorem of_alike {c c' : Con} (h : Alike kinds c c') : Congr base kinds c c' := by
  induction h with
  | intro hframe hkinds _ ih => exact .node hframe hkinds ih

theorem of_forall₂ {c c' : Con} (hframe : c.frame = c'.frame)
    (hkinds : List.Forall₂ kinds c.annotations c'.annotations)
    (hparts : List.Forall₂ (Congr base kinds) c.parts c'.parts) : Congr base kinds c c' := by
  refine .node hframe hkinds fun i p p' hp hp' => ?_
  obtain ⟨hi, rfl⟩ := List.getElem?_eq_some_iff.mp hp
  obtain ⟨hi', rfl⟩ := List.getElem?_eq_some_iff.mp hp'
  exact (List.forall₂_iff_get.mp hparts).2 i hi hi'

section Forms

variable {a a' b b' : Con}

theorem app (ha : Congr base kinds a a') (hb : Congr base kinds b b') :
    Congr base kinds (.app a b) (.app a' b') :=
  of_forall₂ rfl .nil (.cons ha (.cons hb .nil))

theorem arrow (ha : Congr base kinds a a') (hb : Congr base kinds b b') :
    Congr base kinds (.arrow a b) (.arrow a' b') :=
  of_forall₂ rfl .nil (.cons ha (.cons hb .nil))

theorem concat (ha : Congr base kinds a a') (hb : Congr base kinds b b') :
    Congr base kinds (.concat a b) (.concat a' b') :=
  of_forall₂ rfl .nil (.cons ha (.cons hb .nil))

theorem proj (ha : Congr base kinds a a') (hb : Congr base kinds b b') :
    Congr base kinds (.proj a b) (.proj a' b') :=
  of_forall₂ rfl .nil (.cons ha (.cons hb .nil))

theorem kapp {k k' : Kind} (ha : Congr base kinds a a') (hk : kinds k k') :
    Congr base kinds (.kapp a k) (.kapp a' k') :=
  of_forall₂ rfl (.cons hk .nil) (.cons ha .nil)

theorem component (ha : Congr base kinds a a') (i : Nat) :
    Congr base kinds (.component a i) (.component a' i) :=
  of_forall₂ rfl .nil (.cons ha .nil)

theorem map {k k' l l' : Kind} (hk : kinds k k') (hl : kinds l l') (ha : Congr base kinds a a')
    (hb : Congr base kinds b b') : Congr base kinds (.map k l a b) (.map k' l' a' b') :=
  of_forall₂ rfl (.cons hk (.cons hl .nil)) (.cons ha (.cons hb .nil))

theorem mvar {spine spine' : List Con} (v : MetaId)
    (h : List.Forall₂ (Congr base kinds) spine spine') :
    Congr base kinds (.mvar v spine) (.mvar v spine') :=
  of_forall₂ (by simp [frame, h.length_eq]) .nil h

theorem row {k k' : Kind} {fields fields' : List (Con × Con)} (hk : kinds k k')
    (h : List.Forall₂ (fun field field' => Congr base kinds field.1 field'.1 ∧
      Congr base kinds field.2 field'.2) fields fields') :
    Congr base kinds (.row k fields) (.row k' fields') := by
  refine of_forall₂ (by simp [frame, h.length_eq]) (.cons hk .nil) ?_
  simp only [parts]
  induction h with
  | nil => exact .nil
  | cons hfield _ ih => exact .cons hfield.1 (.cons hfield.2 ih)

end Forms

/-- A congruence whose steps survive instantiation is closed under instantiation. -/
theorem instantiatedAt {spine : List Con}
    (h : ∀ {a b d}, base a b →
      Congr base kinds (a.instantiatedAt spine d) (b.instantiatedAt spine d))
    {a b : Con} (hab : Congr base kinds a b) (d : Depth) :
    Congr base kinds (a.instantiatedAt spine d) (b.instantiatedAt spine d) := by
  induction hab generalizing d with
  | refl c => exact .refl _
  | symm _ ih => exact (ih d).symm
  | trans _ _ ih ih' => exact (ih d).trans (ih' d)
  | step hstep => exact h hstep
  | @node c c' hframe hannotations hparts ih =>
    by_cases hc : ∃ i, c' = .bvar i
    · obtain ⟨i, rfl⟩ := hc
      cases c <;> cases hframe
      exact .refl _
    · have hc' : ∀ i, c' ≠ .bvar i := fun i hi => hc ⟨i, hi⟩
      have hc := ne_bvar_of_frame hframe hc'
      refine .node ?_ ?_ fun i p p' hp hp' => ?_
      · rw [Con.instantiatedAt, Con.instantiatedAt, frame_traverse hc, frame_traverse hc', hframe]
      · rw [Con.instantiatedAt, Con.instantiatedAt, annotations_traverse hc,
          annotations_traverse hc', List.map_id', List.map_id']
        exact hannotations
      · rw [Con.instantiatedAt, parts_traverse hc, List.getElem?_map, Option.map_eq_some_iff] at hp
        rw [Con.instantiatedAt, parts_traverse hc', List.getElem?_map,
          Option.map_eq_some_iff] at hp'
        obtain ⟨q, hq, rfl⟩ := hp
        obtain ⟨q', hq', rfl⟩ := hp'
        rw [binders_eq hframe]
        exact ih i q q' hq hq' (d + c'.binders)

end Congr

end Con

end RowML
