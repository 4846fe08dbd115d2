import RowML.Proofs.Store.FirstOrder
import RowML.Normal.Head

/-!
# Head normal forms of first-order constructors

The head normal form of a first-order constructor says what the constructor says.  A concatenation
that is left has a field, and at most one metavariable.
-/

namespace RowML

open Ground

namespace Con.Coincides

variable {θ : MetaId → Ground}

private theorem row_append (k k' : Kind) (fields fields' : List (Con × Con)) :
    (Con.row k (fields ++ fields')).Coincides θ (.concat (.row k fields) (.row k' fields')) := by
  have hkind : ∀ fields : List (Con × Con), (Con.row k fields).Coincides θ (.row k' fields) := by
    intro fields
    induction fields with
    | nil => exact .rowNil k k'
    | cons field fields ih =>
      refine fun t => ⟨fun h => ?_, fun h => ?_⟩ <;> cases h with
      | rowCons hvalue hfields hjoin =>
        exact .rowCons hvalue (by simpa only [ih _] using hfields) hjoin
  induction fields with
  | nil =>
    refine (hkind fields').trans fun t => ⟨fun h => ?_, fun h => ?_⟩
    · obtain ⟨f, rfl⟩ : ∃ f, t = .row f := by
        cases h <;> exact ⟨_, rfl⟩
      exact .concat (.rowNil k) h (.empty_left f)
    · cases h with
      | concat hnil hfields hjoin =>
        cases hnil
        exact hjoin.eq_of_empty ▸ hfields
  | cons field fields ih =>
    refine fun t => ⟨fun h => ?_, fun h => ?_⟩
    · cases h with
      | rowCons hvalue hrest hjoin =>
        cases (ih _).mp hrest with
        | concat hfields hfields' hjoin' =>
          obtain ⟨f, hf, hall⟩ := hjoin'.assoc_right hjoin
          exact .concat (.rowCons hvalue hfields hf) hfields' hall
    · cases h with
      | concat hleft hfields' hall =>
        cases hleft with
        | rowCons hvalue hfields hf =>
          obtain ⟨f, hjoin', hjoin⟩ := hf.assoc hall
          exact .rowCons hvalue ((ih _).mpr (.concat hfields hfields' hjoin')) hjoin

end Con.Coincides

namespace Store

variable {store store' : Store} {c l r : Con} {Γ : List Kind} {g : Kind}

/-! ## Head normal forms -/

/-- A metavariable is unsolved, and a concatenation has a field. -/
structure Shown (store : Store) (c : Con) : Prop where
  unsolved : store.HeadUnsolved c
  concat : ∀ {l r}, c = .concat l r → c.hasField = true

theorem Shown.respells (h : store.Shown c) (grows : Respells store store') : store'.Shown c :=
  ⟨h.unsolved.respells grows, h.concat⟩

theorem shown_of_ne (hmvar : ∀ v spine, c ≠ .mvar v spine) (hconcat : ∀ l r, c ≠ .concat l r) :
    store.Shown c :=
  ⟨fun i spine hi => absurd hi (hmvar i spine), fun {l r} hc => absurd hc (hconcat l r)⟩

theorem Shown.hasField (h : store.Shown c) (hc : c.FirstOrder store Γ (.record g))
    (hmvar : c.isMVar = false) (hempty : ∀ k, c ≠ .row k []) : c.hasField = true := by
  cases hc with
  | mvar => cases hmvar
  | bvar _ hrow => cases hrow
  | skolem _ hrow => cases hrow
  | app _ _ _ hrow => cases hrow
  | rowNil => exact absurd rfl (hempty _)
  | rowCons => rfl
  | concat => exact h.concat rfl

theorem restates_nil_concat {k : Kind} (hr : r.FirstOrder store Γ (.record g)) :
    store.Restates Γ (.record g) (.concat (.row k []) r) r := by
  refine ⟨hr, fun θ hθ t => ⟨fun h => ?_, fun h => ?_⟩, ?_, ?_, ?_⟩
  · obtain ⟨f, rfl⟩ := hθ.denotes_row hr h
    exact .concat (.rowNil k) h (.empty_left f)
  · cases h with
    | concat hnil hr hjoin =>
      cases hnil
      exact hjoin.eq_of_empty ▸ hr
  · simp [Con.tails]
  · simp [Con.hasField]
  · simp [Con.isRigid]

theorem restates_concat_nil {k : Kind} (hl : l.FirstOrder store Γ (.record g)) :
    store.Restates Γ (.record g) (.concat l (.row k [])) l := by
  refine ⟨hl, fun θ hθ t => ⟨fun h => ?_, fun h => ?_⟩, ?_, ?_, ?_⟩
  · obtain ⟨f, rfl⟩ := hθ.denotes_row hl h
    exact .concat h (.rowNil k) (Joins.empty_left f).symm
  · cases h with
    | concat hl hnil hjoin =>
      cases hnil
      exact hjoin.symm.eq_of_empty ▸ hl
  · simp [Con.tails]
  · simp [Con.hasField]
  · simp [Con.isRigid]

private theorem firstOrder_append {k k' : Kind} {fields fields' : List (Con × Con)}
    (h : (Con.row k fields).FirstOrder store Γ (.record g))
    (h' : (Con.row k' fields').FirstOrder store Γ (.record g)) :
    (Con.row k (fields ++ fields')).FirstOrder store Γ (.record g) := by
  induction fields with
  | nil =>
    cases h with
    | rowNil hk =>
      induction fields' with
      | nil => exact .rowNil hk
      | cons field fields' ih =>
        cases h' with
        | rowCons hvalue hfields => exact .rowCons hvalue (ih hfields)
  | cons field fields ih =>
    cases h with
    | rowCons hvalue hfields => exact .rowCons hvalue (ih hfields)

/-- Concatenating two rows in head normal form. -/
theorem concatHeads_restates (hl : l.FirstOrder store Γ (.record g))
    (hr : r.FirstOrder store Γ (.record g)) (hl' : store.Shown l) (hr' : store.Shown r)
    (htails : l.tails + r.tails ≤ 1) :
    store.Restates Γ (.record g) (.concat l r) (Con.concatHeads l r) ∧
      store.Shown (Con.concatHeads l r) := by
  by_cases hnil : ∃ k, l = .row k []
  · obtain ⟨k, rfl⟩ := hnil
    have hheads : Con.concatHeads (.row k []) r = r := by
      cases hr <;> rfl
    rw [hheads]
    exact ⟨restates_nil_concat hr, hr'⟩
  by_cases hnil' : ∃ k, r = .row k []
  · obtain ⟨k, rfl⟩ := hnil'
    have hheads : Con.concatHeads l (.row k []) = l := by
      cases hl with
      | rowNil => exact absurd ⟨_, rfl⟩ hnil
      | _ => rfl
    rw [hheads]
    exact ⟨restates_concat_nil hl, hl'⟩
  by_cases hrows : ∃ k fields k' fields', l = .row k fields ∧ r = .row k' fields'
  · obtain ⟨k, fields, k', fields', rfl, rfl⟩ := hrows
    obtain _ | ⟨field, fields⟩ := fields
    · exact absurd ⟨k, rfl⟩ hnil
    obtain _ | ⟨field', fields'⟩ := fields'
    · exact absurd ⟨k', rfl⟩ hnil'
    refine ⟨⟨firstOrder_append hl hr, fun θ _ => .row_append k k' _ _, Nat.le_refl _, ?_, id⟩, ?_⟩
    · simp [Con.hasField, Con.concatHeads]
    · exact shown_of_ne (by simp [Con.concatHeads]) (by simp [Con.concatHeads])
  · have hheads : Con.concatHeads l r = .concat l r := by
      cases hl <;> cases hr <;>
        first | rfl | exact absurd ⟨_, rfl⟩ hnil | exact absurd ⟨_, rfl⟩ hnil' |
          exact absurd ⟨_, _, _, _, rfl, rfl⟩ hrows
    rw [hheads]
    refine ⟨.refl (.concat hl hr htails), ⟨by simp [HeadUnsolved], fun _ => ?_⟩⟩
    -- two metavariables are one too many
    simp only [Con.hasField, Bool.or_eq_true]
    by_cases hmvar : l.isMVar = true
    · refine .inr (hr'.hasField hr ?_ fun k hk => hnil' ⟨k, hk⟩)
      cases hl <;> cases hmvar
      cases hr with
      | mvar => simp [Con.tails] at htails
      | _ => rfl
    · exact .inl (hl'.hasField hl (by simpa using hmvar) fun k hk => hnil ⟨k, hk⟩)

theorem headNormal_restates (globals : Globals) (fuel : Nat) (ok : store.FirstOrder)
    (hc : c.FirstOrder store Γ g) :
    Yields respelling store (headNormal globals fuel c) fun r store' =>
      store'.Restates Γ g c r ∧ store'.Shown r := by
  induction fuel generalizing c g store with
  | zero => exact Yields.of_none rfl
  | succ fuel ih =>
    refine Yields.bind ok (.of_exec_eq rfl (resolve_restates ok hc)) ?_
    rintro r store' ok' grows ⟨restates, unsolved⟩
    cases restates.firstOrder with
    | concat hl hr htails =>
      refine Yields.bind ok' (ih ok' hl) ?_
      rintro l' store₁ ok₁ grows₁ ⟨restatesL, shownL⟩
      refine Yields.bind ok₁ (ih ok₁ (hr.mono grows₁.toExtends)) ?_
      rintro r' store₂ ok₂ grows₂ ⟨restatesR, shownR⟩
      replace restatesL := restatesL.respells grows₂
      have htails' := Nat.le_trans (Nat.add_le_add restatesL.tails restatesR.tails) htails
      obtain ⟨restates', shown⟩ := concatHeads_restates restatesL.firstOrder restatesR.firstOrder
        (shownL.respells grows₂) shownR htails'
      refine Yields.pure ok₂ ⟨?_, shown⟩
      exact ((restates.respells grows₁).respells grows₂).trans
        ((restatesL.concat restatesR htails).trans restates')
    | @app _ f a g' _ hf hrigid ha hrow =>
      refine Yields.bind ok' (ih ok' hf) ?_
      rintro f' store₁ ok₁ grows₁ ⟨restatesF, -⟩
      have hrestates := (restates.respells grows₁).trans
        (restatesF.app hrigid (.refl (ha.mono grows₁.toExtends)) hrow)
      have happ : store₁.Shown (.app f' a) := shown_of_ne (by simp) (by simp)
      have hrigid' := restatesF.rigid hrigid
      cases restatesF.firstOrder with
      | abs => cases hrigid'
      | _ => exact Yields.pure ok₁ ⟨hrestates, happ⟩
    | mvar => exact Yields.pure ok' ⟨restates, unsolved, by simp⟩
    | _ => exact Yields.pure ok' ⟨restates, shown_of_ne (by simp) (by simp)⟩

end Store

end RowML
