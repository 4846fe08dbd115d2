import RowML.Proofs.Row.Reduction
import RowML.Row.Disjoint

/-!
# The labels of a summary

Whatever an instantiation gives for a row, its labels are those of the pieces of its summary, and
every field has one label.  The keys of facts have the labels of the pieces that they stand for.
-/

namespace RowML

open RowML.Con Observed Traits

/-- What has the labels of a piece: the name of a field, or a remainder. -/
def Piece.subject : Piece → Con
  | .field name _ => name
  | .atom c => c
  | .flex c _ => c
  | .error => .error

namespace Instantiation

variable {I : Instantiation} {env : Nat → Traits} {row row' : Con} {pieces pieces' : List Piece}

/-- The labels of the row are those of the pieces. -/
structure Comprises (I : Instantiation) (env : Nat → Traits) (row : Con) (pieces : List Piece) :
    Prop where
  proper : ∀ piece ∈ pieces, (I.value piece.subject env).Proper
  name : ∀ name value, .field name value ∈ pieces → ∃ x, labels (I.value name env) = {x}
  labels : labels (I.value row env) =
    {x | ∃ piece ∈ pieces, x ∈ Traits.labels (I.value piece.subject env)}

namespace Comprises

theorem of_eq (h : I.Comprises env row pieces) (heq : I.value row env = I.value row' env) :
    I.Comprises env row' pieces :=
  ⟨h.proper, h.name, heq ▸ h.labels⟩

theorem append {l r : Con} (hproper : (I.value (.concat l r) env).Proper)
    (hl : I.Comprises env l pieces) (hr : I.Comprises env r pieces') :
    I.Comprises env (.concat l r) (pieces ++ pieces') := by
  refine ⟨fun piece hpiece => ?_, fun name value hpiece => ?_, ?_⟩
  · exact (List.mem_append.mp hpiece).elim (hl.proper piece) (hr.proper piece)
  · exact (List.mem_append.mp hpiece).elim (hl.name name value) (hr.name name value)
  · rw [value_concat] at hproper ⊢
    obtain ⟨hL, hR⟩ := hproper.concat
    rw [labels_concat hL.row hR.row, hl.labels, hr.labels]
    ext x
    simp only [List.mem_append, or_and_right, exists_or]
    exact Iff.rfl

theorem remainder (hproper : (I.value row env).Proper) :
    I.Comprises env row [Row.remainder row] := by
  have hsubject : (Row.remainder row).subject = row := by
    unfold Row.remainder
    split <;> rfl
  have hfield : ∀ name value, Row.remainder row ≠ .field name value := by
    intro name value
    unfold Row.remainder
    split <;> simp
  refine ⟨by simpa [hsubject] using hproper, fun name value hpiece => ?_, ?_⟩
  · exact absurd (List.mem_singleton.mp hpiece).symm (hfield name value)
  · exact Set.ext fun x => by simp [hsubject]

/-- A piece of a literal: the name is reduced, which keeps its label. -/
theorem literal {k : Kind} {fields : List (Con × Con)}
    (hproper : (I.value (.row k fields) env).Proper)
    (h : List.Forall₂ (fun field piece =>
      ∃ name, piece = Piece.field name field.2 ∧ I.Keeps field.1 name) fields pieces) :
    I.Comprises env (.row k fields) pieces := by
  obtain ⟨hnames, hlabels⟩ := (isRow_literal hproper).literal
  rw [← value_row k] at hlabels
  -- every piece has the single label of its field
  have hpieces : List.Forall₂ (fun field piece => (∃ x, Traits.labels (I.value field.1 env) = {x}) ∧
      (∃ name, piece = Piece.field name field.2) ∧
      I.value piece.subject env = I.value field.1 env) fields pieces := by
    have hsingle := List.forall_mem_map.mp hnames
    refine (List.forall₂_and_left fields pieces).mpr ⟨hsingle, ?_⟩
    clear hlabels hproper hnames
    induction h with
    | nil => exact .nil
    | cons hpiece _ ih =>
      obtain ⟨⟨x, hx⟩, hsingle⟩ := List.forall_mem_cons.mp hsingle
      obtain ⟨name, rfl, hkeeps⟩ := hpiece
      exact .cons ⟨⟨name, rfl⟩, hkeeps env (proper_of_labels hx)⟩ (ih hsingle)
  refine ⟨?_, ?_, ?_⟩
  · refine forall_mem_of_forall₂ hpieces fun field _ piece hpiece => ?_
    obtain ⟨⟨x, hx⟩, -, heq⟩ := hpiece
    exact heq ▸ proper_of_labels hx
  · suffices hfield : ∀ piece ∈ pieces, ∃ x, Traits.labels (I.value piece.subject env) = {x} from
      fun name value hpiece => hfield _ hpiece
    refine forall_mem_of_forall₂ hpieces fun field _ piece hpiece => ?_
    obtain ⟨⟨x, hx⟩, -, heq⟩ := hpiece
    exact ⟨x, heq ▸ hx⟩
  · rw [hlabels]
    ext x
    clear hlabels hproper hnames h
    induction hpieces with
    | nil => simp
    | cons hpiece _ ih =>
      simp only [Set.mem_ofPred_eq, List.map_cons, List.exists_mem_cons_iff, hpiece.2.2]
      exact or_congr Iff.rfl ih

end Comprises

variable {globals : Globals} {store : Store}

theorem summarize_comprises (hI : I.Knows globals) (fuel : Nat)
    (ok : (Store.interpreted I.algebra).Ok store) (hg : globals.Fits store)
    (hrow : row.Fits store) :
    Yields (Store.interpreted I.algebra) store (Row.summarize globals fuel row) fun pieces _ =>
      ∀ env, (I.value row env).Proper → I.Comprises env row pieces := by
  induction fuel generalizing row store with
  | zero => exact Yields.of_none rfl
  | succ fuel ih =>
    refine Yields.bind ok (headNormal_values hI fuel ok hg hrow) ?_
    rintro head store₁ ok₁ compresses₁ ⟨hhead, hkeeps⟩
    have hg₁ := hg.evolves compresses₁.toEvolves
    -- it remains to find the pieces of the head normal form
    suffices h : Yields (Store.interpreted I.algebra) store₁ _ fun pieces _ =>
        ∀ env, (I.value head env).Proper → I.Comprises env head pieces from
      h.mono fun pieces _ _ _ hpieces env hproper =>
        (hpieces env (hkeeps env hproper ▸ hproper)).of_eq (hkeeps env hproper)
    cases head with
    | row k fields =>
      have hrun : Yields (Store.interpreted I.algebra) store₁ (fields.mapM fun field => do
          return Piece.field (← headNormal globals fuel field.1) field.2) fun pieces _ =>
          List.Forall₂ (fun field piece =>
            ∃ name, piece = Piece.field name field.2 ∧ I.Keeps field.1 name) fields pieces := by
        refine Yields.mapM ok₁ (fun _ _ h => h) fun field hfield store₂ ok₂ compresses₂ => ?_
        refine Yields.bind ok₂ (headNormal_values hI fuel ok₂
          (hg₁.evolves compresses₂.toEvolves)
          ((hhead.field hfield).1.evolves compresses₂.toEvolves)) ?_
        rintro name store₃ ok₃ - ⟨-, hname⟩
        exact Yields.pure ok₃ ⟨name, rfl, hname⟩
      exact hrun.mono fun pieces _ _ _ hpieces env hproper => .literal hproper hpieces
    | concat left right =>
      refine Yields.bind ok₁ (ih ok₁ hg₁ (hhead.part (by simp [parts]))) ?_
      intro lefts store₂ ok₂ compresses₂ hleft
      refine Yields.bind ok₂ (ih ok₂ (hg₁.evolves compresses₂.toEvolves)
        ((hhead.part (by simp [parts])).evolves compresses₂.toEvolves)) ?_
      intro rights store₃ ok₃ _ hright
      refine Yields.pure ok₃ fun env hproper => ?_
      obtain ⟨hL, hR⟩ := (value_concat left right ▸ hproper).concat
      exact .append hproper (hleft env hL.proper) (hright env hR.proper)
    | error => exact Yields.pure ok₁ fun env hproper => absurd hproper not_proper_error
    | _ => exact Yields.pure ok₁ fun env hproper => .remainder hproper

/-! ## Keys -/

/-- Mapping over a row keeps its labels. -/
theorem labels_stripMaps {c : Con} (h : (I.value c env).Proper) :
    labels (I.value (Row.stripMaps c) env) = labels (I.value c env) := by
  fun_induction Row.stripMaps c with
  | case1 d e f row ih =>
    rw [value_map] at h ⊢
    obtain ⟨hF, hR⟩ := Proper.mapped h
    rw [ih hR, labels_mapped hF]
  | case2 => rfl

theorem labels_key {piece : Piece} {key : Con} (hkey : Row.key? piece = some key)
    (h : (I.value piece.subject env).Proper) :
    labels (I.value key env) = labels (I.value piece.subject env) := by
  cases piece with
  | field name value =>
    cases hkey
    rfl
  | atom c | flex c v =>
    cases hkey
    exact labels_stripMaps h
  | error => cases hkey

/-- A key of a row has no other labels than the row. -/
theorem Comprises.labels_key {key : Con} (h : I.Comprises env row pieces)
    (hkey : key ∈ pieces.filterMap Row.key?) :
    Traits.labels (I.value key env) ⊆ Traits.labels (I.value row env) := by
  obtain ⟨piece, hpiece, hkey⟩ := List.mem_filterMap.mp hkey
  rw [Instantiation.labels_key hkey (h.proper piece hpiece), h.labels]
  exact fun x hx => ⟨piece, hpiece, hx⟩

end Instantiation

end RowML
