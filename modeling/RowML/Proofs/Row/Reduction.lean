import RowML.Proofs.Row.Instantiation
import RowML.Proofs.Unify.Integrity

/-!
# Reduction keeps what rows stand for

Whatever an instantiation gives for a constructor, it gives for the head normal form, unless that is
undefined or poison.  The store may be rewritten on the way, but not what it says.
-/

namespace RowML

open RowML.Con Observed Traits

namespace Instantiation

variable {I : Instantiation}

/-- A reduction that keeps what constructors stand for. -/
def Valuing (I : Instantiation) (globals : Globals) (reduce : Con → FuelM Con) : Prop :=
  ∀ {store c}, (Store.interpreted I.algebra).Ok store → globals.Fits store → c.Fits store →
    Yields (Store.interpreted I.algebra) store (reduce c) fun r store' =>
      r.Fits store' ∧ I.Keeps c r

variable {globals : Globals} {store : Store}

theorem findField_finds {reduce : Con → FuelM Con} (H : I.Valuing globals reduce) (field : Con)
    (fuel : Nat) {row : Con} (ok : (Store.interpreted I.algebra).Ok store)
    (hg : globals.Fits store) (hrow : row.Fits store) :
    Yields (Store.interpreted I.algebra) store (findField reduce field fuel row)
      fun found store' => ∀ value, found = some value →
        value.Fits store' ∧ I.Finds row field value := by
  induction fuel generalizing row store with
  | zero => exact Yields.of_none rfl
  | succ fuel ih =>
    cases row with
    | row k fields =>
      refine Yields.pure ok fun value hvalue => ?_
      obtain ⟨entry, hentry, rfl⟩ := Option.map_eq_some_iff.mp hvalue
      have hmem := List.mem_of_find?_eq_some hentry
      have hname : entry.1 = field := by simpa using List.find?_some hentry
      exact ⟨(hrow.field hmem).2, hname ▸ .literal hmem⟩
    | concat l r =>
      refine Yields.bind ok (H ok hg (hrow.part (by simp [Con.parts]))) ?_
      rintro l' store₁ ok₁ compresses₁ ⟨hl', hleft⟩
      have hg₁ := hg.evolves compresses₁.toEvolves
      refine Yields.bind ok₁ (ih ok₁ hg₁ hl') fun found store₂ ok₂ compresses₂ hfound => ?_
      cases found with
      | some value =>
        refine Yields.pure ok₂ fun value hvalue => ?_
        obtain ⟨hfits, hfinds⟩ := hfound value hvalue
        exact ⟨hfits, hfinds.left hleft⟩
      | none =>
        have hr : r.Fits store₂ :=
          (hrow.part (by simp [Con.parts])).evolves (compresses₁.trans compresses₂).toEvolves
        have hg₂ := hg₁.evolves compresses₂.toEvolves
        refine Yields.bind ok₂ (H ok₂ hg₂ hr) ?_
        rintro r' store₃ ok₃ compresses₃ ⟨hr', hright⟩
        refine (ih ok₃ (hg₂.evolves compresses₃.toEvolves) hr').mono ?_
        intro found store₄ _ _ hfound value hvalue
        obtain ⟨hfits, hfinds⟩ := hfound value hvalue
        exact ⟨hfits, hfinds.right hright⟩
    | _ => exact Yields.pure ok (by simp)

/-- Goes on with the reduction of what `c` has reduced to. -/
private theorem Valuing.next {reduce : Con → FuelM Con} (H : I.Valuing globals reduce)
    {c c' : Con} (ok : (Store.interpreted I.algebra).Ok store) (hg : globals.Fits store)
    (hc' : c'.Fits store) (h : I.Keeps c c') :
    Yields (Store.interpreted I.algebra) store (reduce c') fun r store' =>
      r.Fits store' ∧ I.Keeps c r :=
  (H ok hg hc').mono fun _ _ _ _ hr => ⟨hr.1, h.trans hr.2⟩

theorem headNormal_values (hI : I.Knows globals) (fuel : Nat) :
    I.Valuing globals (headNormal globals fuel) := by
  induction fuel with
  | zero => exact fun _ _ _ => Yields.of_none rfl
  | succ fuel ih =>
    intro store c ok hg hc
    unfold headNormal
    refine Yields.bind ok (.of_exec_eq rfl (Store.resolve_meaning ok hc)) ?_
    rintro r store₁ ok₁ compresses₁ ⟨hr, hresolved⟩
    have hg₁ := hg.evolves compresses₁.toEvolves
    -- it remains to reduce `r`, which shows an unsolved metavariable or another node
    suffices h : Yields (Store.interpreted I.algebra) store₁ _ fun r' store' =>
        r'.Fits store' ∧ I.Keeps r r' from
      h.mono fun r' _ _ _ hr' => ⟨hr'.1, (Keeps.of_eq hresolved).trans hr'.2⟩
    split
    next id =>
      split
      next kind body hbody =>
        exact ih.next ok₁ hg₁ (Globals.definition_holds hg₁ (.inl hbody))
          (.of_eq (hI.definition hbody).symm)
      next kind body hbody =>
        exact ih.next ok₁ hg₁ (Globals.definition_holds hg₁ (.inr hbody))
          (.of_eq (hI.classDefinition hbody).symm)
      next => exact Yields.pure ok₁ ⟨hr, .refl _⟩
    next module path item =>
      simp only
      split
      next kind body hbody =>
        exact ih.next ok₁ hg₁ (hg₁.item (.inl hbody)) (.of_eq (hI.item hbody).symm)
      next kind body hbody =>
        exact ih.next ok₁ hg₁ (hg₁.item (.inr hbody)) (.of_eq (hI.classItem hbody).symm)
      next =>
        exact Yields.pure ok₁ ⟨.leaf (by simp) rfl, .of_eq (hI.canonical module path item).symm⟩
    next f argument =>
      refine Yields.bind ok₁ (ih ok₁ hg₁ (hr.part (by simp [Con.parts]))) ?_
      rintro f' store₂ ok₂ compresses₂ ⟨hf', hkeeps⟩
      have hg₂ := hg₁.evolves compresses₂.toEvolves
      have hargument : argument.Fits store₂ :=
        (hr.part (by simp [Con.parts])).evolves compresses₂.toEvolves
      have happ := hkeeps.app argument
      split
      next x k body =>
        have hbody : (body.instantiated [argument]).Fits store₂ :=
          (hf'.part (by simp [Con.parts])).instantiated (by simpa using hargument)
        refine Yields.bind ok₂ (.of_exec_eq rfl
          (Store.onKinds_meaning ok₂ hbody (Con.subst_resembles body argument))) ?_
        rintro reduced store₃ ok₃ compresses₃ ⟨hreduced, hvalue⟩
        refine ih.next ok₃ (hg₂.evolves compresses₃.toEvolves) hreduced (happ.trans (.of_eq ?_))
        exact hvalue.trans (funext fun env => (meaning_app_abs x k body argument env).symm)
      next =>
        exact Yields.pure ok₂ ⟨.error, happ.trans
          (.of_improper fun env h => not_proper_error (Proper.apply h))⟩
      next => exact Yields.pure ok₂ ⟨.app hf' hargument, happ⟩
    next f argument =>
      refine Yields.bind ok₁ (ih ok₁ hg₁ (hr.part (by simp [Con.parts]))) ?_
      rintro f' store₂ ok₂ compresses₂ ⟨hf', hkeeps⟩
      have hg₂ := hg₁.evolves compresses₂.toEvolves
      have hkapp := hkeeps.kapp argument
      split
      next x body =>
        have hbody : body.Fits store₂ := hf'.part (by simp [Con.parts])
        refine Yields.bind ok₂ (.of_exec_eq rfl
          (Store.onKinds_meaning ok₂ hbody (Con.substKind_resembles body argument))) ?_
        rintro reduced store₃ ok₃ compresses₃ ⟨hreduced, hvalue⟩
        exact ih.next ok₃ (hg₂.evolves compresses₃.toEvolves) hreduced
          (hkapp.trans (.of_eq hvalue))
      next =>
        exact Yields.pure ok₂
          ⟨.error, hkapp.trans (.of_improper fun env => @not_proper_error I env)⟩
      next =>
        exact Yields.pure ok₂ ⟨.node (by simp) (List.forall_mem_singleton.mpr hf'), hkapp⟩
    next l r =>
      refine Yields.bind ok₁ (ih ok₁ hg₁ (hr.part (by simp [Con.parts]))) ?_
      rintro l' store₂ ok₂ compresses₂ ⟨hl', hleft⟩
      refine Yields.bind ok₂ (ih ok₂ (hg₁.evolves compresses₂.toEvolves)
        ((hr.part (by simp [Con.parts])).evolves compresses₂.toEvolves)) ?_
      rintro r' store₃ ok₃ compresses₃ ⟨hr', hright⟩
      exact Yields.pure ok₃ ⟨Con.concatHeads_fits (hl'.evolves compresses₃.toEvolves) hr',
        (hleft.concat hright).trans (concatHeads_keeps l' r')⟩
    next d c f row =>
      refine Yields.bind ok₁ (ih ok₁ hg₁ (hr.part (by simp [Con.parts]))) ?_
      rintro f' store₂ ok₂ compresses₂ ⟨hf', hfunction⟩
      refine Yields.bind ok₂ (ih ok₂ (hg₁.evolves compresses₂.toEvolves)
        ((hr.part (by simp [Con.parts])).evolves compresses₂.toEvolves)) ?_
      rintro row' store₃ ok₃ compresses₃ ⟨hrow', hkeeps⟩
      exact Yields.pure ok₃ ⟨Con.mapHead_fits (hf'.evolves compresses₃.toEvolves) hrow',
        (hfunction.map hkeeps d c).trans (mapHead_keeps d c f' row')⟩
    next row field =>
      refine Yields.bind ok₁ (ih ok₁ hg₁ (hr.part (by simp [Con.parts]))) ?_
      rintro row' store₂ ok₂ compresses₂ ⟨hrow', hkeepsRow⟩
      have hg₂ := hg₁.evolves compresses₂.toEvolves
      refine Yields.bind ok₂ (ih ok₂ hg₂
        ((hr.part (by simp [Con.parts])).evolves compresses₂.toEvolves)) ?_
      rintro field' store₃ ok₃ compresses₃ ⟨hfield', hkeepsField⟩
      have hg₃ := hg₂.evolves compresses₃.toEvolves
      have hrow' := hrow'.evolves compresses₃.toEvolves
      have hproj := hkeepsRow.proj hkeepsField
      split
      next h =>
        refine Yields.pure ok₃ ⟨.error, hproj.trans (.of_improper fun env hproper => ?_)⟩
        obtain ⟨hR, x, hN, -⟩ := Proper.project (value_proj row' field' ▸ hproper)
        rcases h with rfl | rfl
        · exact not_proper_error hR
        · exact not_proper_error (proper_of_labels hN)
      next =>
      refine Yields.bind ok₃ (findField_finds ih field' fuel ok₃ hg₃ hrow') ?_
      intro found store₄ ok₄ compresses₄ hfound
      have hg₄ := hg₃.evolves compresses₄.toEvolves
      have hrow₄ := hrow'.evolves compresses₄.toEvolves
      have hfield₄ := hfield'.evolves compresses₄.toEvolves
      split
      next value =>
        obtain ⟨hvalue, hfinds⟩ := hfound value rfl
        exact ih.next ok₄ hg₄ hvalue (hproj.trans hfinds.keeps)
      next =>
        split
        next d e function base _ _ =>
          have hbase : base.Fits store₄ := hrow₄.part (by simp [Con.parts])
          have hinner : (Con.proj base field').Fits store₄ :=
            .node (by simp) (by simp [Con.parts, hbase, hfield₄])
          refine ih.next ok₄ hg₄ (.app (hrow₄.part (by simp [Con.parts])) hinner)
            (hproj.trans fun env hproper => ?_)
          exact (project_mapped hproper).symm
        next =>
          exact Yields.pure ok₄ ⟨.node (by simp) (by simp [Con.parts, hrow₄, hfield₄]), hproj⟩
    next tuple index =>
      refine Yields.bind ok₁ (ih ok₁ hg₁ (hr.part (by simp [Con.parts]))) ?_
      rintro tuple' store₂ ok₂ compresses₂ ⟨htuple', hkeeps⟩
      have hg₂ := hg₁.evolves compresses₂.toEvolves
      have hcomponent := hkeeps.component index
      split
      next components =>
        split
        next c hc =>
          refine ih.next ok₂ hg₂ (htuple'.part (List.mem_of_getElem? hc))
            (hcomponent.trans fun env _ => ?_)
          rw [value_component, value_tuple,
            Traits.select_tuple (by rw [List.getElem?_map, hc]; rfl)]
        next hnone =>
          refine Yields.pure ok₂ ⟨.error, hcomponent.trans (.of_improper fun env => ?_)⟩
          rw [value_component, value_tuple]
          exact not_proper_select (by rw [List.getElem?_map, hnone]; rfl)
      next =>
        exact Yields.pure ok₂ ⟨.error, hcomponent.trans
          (.of_improper fun env h => not_proper_error (Proper.select h))⟩
      next =>
        exact Yields.pure ok₂ ⟨.node (by simp) (List.forall_mem_singleton.mpr htuple'), hcomponent⟩
    next => exact Yields.pure ok₁ ⟨hr, .refl _⟩

end Instantiation

end RowML
