import RowML.Proofs.Effect
import RowML.Proofs.Unify.Lockstep
import RowML.Proofs.Unify.Speculation

/-!
# Speculation side by side

A store that a rollback has restored is the old one with garbage behind it, so it is still the twin
of whatever the old one was the twin of.  A speculation on twins is kept on both sides or on none,
and what is not kept leaves no pair behind.
-/

namespace RowML

/-! ## Garbage -/

/-- The second store holds what the first one holds and new metavariables that are not linked. -/
structure KindStore.Resumes (s s' : KindStore) : Prop where
  size : s.vars.size ≤ s'.vars.size
  old : ∀ v < s.vars.size, s'.stateOf v = s.stateOf v
  new : ∀ v, s.vars.size ≤ v → ¬ s'.Linked v

/-- The second store holds what the first one holds and new metavariables that are not solved. -/
structure Store.Resumes (s s' : Store) : Prop where
  size : s.cells.size ≤ s'.cells.size
  old : ∀ i < s.cells.size, s'.cell i = s.cell i
  new : ∀ i, s.cells.size ≤ i → s'.solution? i = none
  kinds : s.kinds.Resumes s'.kinds

namespace KindStore

variable {s s' s'' t t' : KindStore} {ρ : Renumbering}

theorem Resumes.of_vars (h : s.vars = s'.vars) : s.Resumes s' where
  size := Nat.le_of_eq (congrArg Array.size h)
  old v _ := by rw [stateOf, stateOf, h]
  new v hv := by
    rw [Linked, stateOf, ← h, Array.getElem?_eq_none hv]
    simp

theorem Resumes.trans (h : s.Resumes s') (h' : s'.Resumes s'') : s.Resumes s'' where
  size := Nat.le_trans h.size h'.size
  old v hv := (h'.old v (Nat.lt_of_lt_of_le hv h.size)).trans (h.old v hv)
  new v hv := by
    by_cases hlt : v < s'.vars.size
    · rw [Linked, h'.old v hlt]
      exact h.new v hv
    · exact h'.new v (Nat.le_of_not_lt hlt)

theorem Restores.resumes (h : s.Restores s') : s.Resumes s' where
  size := h.size
  old := h.old
  new v hv := by
    obtain ⟨predicate, hstate⟩ := h.new v hv
    rw [Linked, hstate]
    simp

theorem Resumes.acyclic (h : s.Resumes s') (acyclic : s.Acyclic) : s'.Acyclic := by
  refine acyclic.mono fun v w ⟨target, htarget, hw⟩ => ⟨target, ?_, hw⟩
  rwa [← h.old v]
  by_contra hv
  exact h.new v (Nat.le_of_not_lt hv) ⟨target, htarget⟩

theorem Twin.resume (h : Twin ρ s t) (hs : s.Resumes s') (ht : t.Resumes t') : Twin ρ s' t' where
  states hv := by
    rw [hs.old _ (h.below hv).1, ht.old _ (h.below hv).2]
    exact h.states hv
  below hv := ⟨Nat.lt_of_lt_of_le (h.below hv).1 hs.size, Nat.lt_of_lt_of_le (h.below hv).2 ht.size⟩
  left := hs.acyclic h.left
  right := ht.acyclic h.right

end KindStore

namespace Store

variable {s s' s'' t t' : Store} {ρ : Renumbering}

theorem Alike.resumes (h : s.Alike s') : s.Resumes s' where
  size := Nat.le_of_eq (congrArg Array.size h.cells)
  old i _ := by rw [h.cell]
  new i hi := by
    rw [solution?, ← h.cell]
    exact solution?_of_le hi
  kinds := .of_vars h.kinds

theorem Restores.resumes (h : s.Restores s') : s.Resumes s' where
  size := h.size
  old := h.old
  new := h.new
  kinds := h.kinds.resumes

theorem Resumes.refl (s : Store) : s.Resumes s := (Alike.refl s).resumes

theorem Resumes.trans (h : s.Resumes s') (h' : s'.Resumes s'') : s.Resumes s'' where
  size := Nat.le_trans h.size h'.size
  old i hi := (h'.old i (Nat.lt_of_lt_of_le hi h.size)).trans (h.old i hi)
  new i hi := by
    by_cases hlt : i < s'.cells.size
    · rw [solution?, h'.old i hlt]
      exact h.new i hi
    · exact h'.new i (Nat.le_of_not_lt hlt)
  kinds := h.kinds.trans h'.kinds

theorem Resumes.acyclic (h : s.Resumes s') (acyclic : s.Acyclic) : s'.Acyclic := by
  refine acyclic.imp fun rank hrank i j ⟨solution, hsolution, hj⟩ => ?_
  refine hrank i j ⟨solution, ?_, hj⟩
  by_cases hi : i < s.cells.size
  · rwa [solution?, ← h.old i hi]
  · rw [h.new i (Nat.le_of_not_lt hi)] at hsolution
    cases hsolution

theorem Twin.resume (h : Twin ρ s t) (hs : s.Resumes s') (ht : t.Resumes t') : Twin ρ s' t' where
  kinds := h.kinds.resume hs.kinds ht.kinds
  cells hi := by
    rw [hs.old _ (h.below hi).1, ht.old _ (h.below hi).2]
    exact h.cells hi
  below hi := ⟨Nat.lt_of_lt_of_le (h.below hi).1 hs.size, Nat.lt_of_lt_of_le (h.below hi).2 ht.size⟩
  left := hs.acyclic h.left
  right := ht.acyclic h.right

/-! ## Speculation -/

section Speculation

variable {α β : Type} {A : Renumbering → α → β → Prop} {x : FuelM α} {y : FuelM β}
  {keep : α → Bool} {keep' : β → Bool}

/-- Whatever is computed in a speculation that is not kept is undone. -/
theorem speculate_resumes (hx : Composed α x) {a : α} (hkeep : keep a = false)
    (hrun : speculate x keep s = some (a, s')) : s.Resumes s' := by
  obtain ⟨s₁, hinside, rfl⟩ := speculate_eq_some hrun
  obtain ⟨entries, hrecords⟩ := hx.exact.records hinside
  rw [hkeep, if_neg Bool.false_ne_true]
  exact (restores_rolledBack hrecords).resumes

/-- Twins of which one is kept are kept both, and what is not kept leaves the old twins. -/
theorem speculate_lockstep (hx : Composed α x) (hy : Composed β y) (h : extending.Rel ρ A x y)
    (hkeep : ∀ ρ' a b, A ρ' a b → keep a = keep' b) (hst : Twin ρ s t) :
    Option.Rel (fun r q => ∃ ρ', ρ ≤ ρ' ∧ A ρ' r.1 q.1 ∧ Twin (if keep r.1 then ρ' else ρ) r.2 q.2)
      (speculate x keep s) (speculate y keep' t) := by
  have hopened := hst.resume (alike_opened s).resumes (alike_opened t).resumes
  have hruns := h s.opened t.opened hopened
  rcases hrun : x s.opened with _ | ⟨a, s₁⟩ <;> rcases hrun' : y t.opened with _ | ⟨b, t₁⟩ <;>
    rw [hrun, hrun'] at hruns
  · change Option.Rel _ ((x s.opened).bind _) ((y t.opened).bind _)
    rw [hrun, hrun']
    exact .none
  · cases hruns
  · cases hruns
  · cases hruns with | some hends =>
    obtain ⟨ρ', hle, hab, hst₁⟩ := hends
    have hx' : speculate x keep s = _ := speculate_run hrun
    have hy' : speculate y keep' t = _ := speculate_run hrun'
    rw [← hkeep _ _ _ hab] at hy'
    cases ha : keep a with
    | true =>
      rw [ha, if_pos rfl] at hx' hy'
      rw [hx', hy']
      refine .some ⟨ρ', hle, hab, ?_⟩
      rw [if_pos ha]
      exact hst₁.resume (alike_committed s₁).resumes (alike_committed t₁).resumes
    | false =>
      rw [ha, if_neg Bool.false_ne_true] at hx' hy'
      rw [hx', hy']
      refine .some ⟨ρ', hle, hab, ?_⟩
      rw [if_neg (by simp [ha])]
      exact hst.resume (speculate_resumes hx ha hx')
        (speculate_resumes hy (hkeep _ _ _ hab ▸ ha) hy')

/-- What is never kept leaves the renumbering as it was. -/
theorem undone_lockstep {A : α → β → Prop} (hx : Composed α x) (hy : Composed β y)
    (h : extending.Rel ρ (fun _ => A) x y) :
    fuelledLockstep.Rel ρ (fun _ => A) (speculate x fun _ => false) (speculate y fun _ => false) :=
  fun _ _ hst => optionRel_imp (speculate_lockstep hx hy h (fun _ _ _ _ => rfl) hst)
    fun _ _ ⟨_, _, hab, hst'⟩ => ⟨ρ, rfl, hab, hst'⟩

end Speculation

end Store

/-! ## Unification -/

section Unification

open Store (extending)

variable {ρ : Renumbering} {globals globals' : Globals} {a b a' b' : Con}

/-- Unification of twins succeeds, postpones twins or fails on both sides. -/
theorem unify_lockstep (hg : globals.Twin ρ globals') (fuel depth : Nat) (ha : a.Twin ρ a')
    (hb : b.Twin ρ b') :
    extending.Rel ρ (fun ρ r r' => ExceptRel (fun _ _ => True) (fun _ _ => True) r.1 r'.1 ∧
        Unify.PostponedTwins ρ r.2 r'.2)
      (unify globals fuel depth a b) (unify globals' fuel depth a' b') := by
  refine Lifting.bind extending (Unify.unifyAt_lockstep fuel hg depth le_rfl ha hb [] [] .nil) ?_
  rintro ρ' _ ⟨r, postponed⟩ ⟨r', postponed'⟩ ⟨hr, hpostponed⟩
  refine extending.pure ⟨?_, hpostponed⟩
  cases hr with
  | error => exact .error trivial
  | ok => exact .ok trivial

theorem outcome_eq {r r' : Except UnifyError Unit × List Postponed}
    (h : ExceptRel (fun _ _ => True) (fun _ _ => True) r.1 r'.1)
    (hpostponed : Unify.PostponedTwins ρ r.2 r'.2) : outcome r = outcome r' := by
  obtain ⟨r, postponed⟩ := r
  obtain ⟨r', postponed'⟩ := r'
  cases h with
  | error => rfl
  | ok => cases hpostponed <;> rfl

theorem tryUnify_lockstep (hg : globals.Twin ρ globals') (fuel depth : Nat) (ha : a.Twin ρ a')
    (hb : b.Twin ρ b') :
    extending.Rel ρ (fun _ => Eq) (tryUnify globals fuel depth a b)
      (tryUnify globals' fuel depth a' b') := by
  rw [tryUnify_eq, tryUnify_eq]
  refine Lifting.map (A := fun _ r r' => outcome r = outcome r')
    (fun s t hst => ?_) fun _ _ _ h => h
  have hruns := Lifting.mono (unify_lockstep hg fuel depth ha hb) fun _ _ _ h => outcome_eq h.1 h.2
  refine optionRel_imp (Store.speculate_lockstep (unify_throughout fuel depth a b)
    (unify_throughout fuel depth a' b') hruns (fun _ _ _ h => by rw [h]) hst) ?_
  rintro _ _ ⟨ρ', hle, hsame, hst'⟩
  split at hst'
  · exact ⟨ρ', hle, hsame, hst'⟩
  · exact ⟨ρ, le_rfl, hsame, hst'⟩

end Unification

/-! ## No cycle arises -/

namespace Store

variable {α : Type} {id : MetaId} {solution : Con}

/-- If the first store has no cycle, then the second one has none. -/
def StaysAcyclic (s s' : Store) : Prop := s.Acyclic → s'.Acyclic

/-- The same, and if solving the cell makes no cycle in the first store, it makes none in the second
one. -/
def StaysSolvable (id : MetaId) (solution : Con) (s s' : Store) : Prop :=
  s.Acyclic ∧ (s.put id solution).Acyclic → s'.Acyclic ∧ (s'.put id solution).Acyclic

instance : IsPreorder Store StaysAcyclic where
  refl _ h := h
  trans _ _ _ h h' := h' ∘ h

instance : IsPreorder Store (StaysSolvable id solution) where
  refl _ h := h
  trans _ _ _ h h' := h' ∘ h

theorem onKindsFuelled_effect {x : Fuelled KindStore α} {s s' : Store}
    (h : Effect (onKindsFuelled x) s s') : ∃ kinds, s' = { s with kinds } := by
  obtain ⟨a, h⟩ := h
  obtain ⟨r, -, hr⟩ := Option.map_eq_some_iff.mp h
  cases hr
  exact ⟨r.2, rfl⟩

theorem onKindsFuelled_staysAcyclic (x : Fuelled KindStore α) :
    Within StaysAcyclic (onKindsFuelled x) := by
  intro s s' h acyclic
  obtain ⟨kinds, rfl⟩ := onKindsFuelled_effect h
  exact acyclic

/-- Solving a cell another time changes nothing. -/
theorem Acyclic.put_again {s : Store} (acyclic : (s.put id solution).Acyclic) :
    ((s.put id solution).put id solution).Acyclic := by
  refine acyclic.imp fun rank hrank i j ⟨x, hx, hj⟩ => hrank i j ⟨x, ?_, hj⟩
  by_cases hi : i = id
  · subst hi
    by_cases hlt : i < s.cells.size
    · rw [solution?_put (by rwa [size_put]), if_pos rfl] at hx
      rw [solution?_put hlt, if_pos rfl, hx]
    · exact absurd (lt_of_solution hx) (by rwa [size_put, size_put])
  · rwa [solution?_put_of_ne hi] at hx

theorem assign_staysSolvable (id : MetaId) (solution : Con) :
    Within (StaysSolvable id solution) (assign id solution).run := by
  rintro s s' h ⟨acyclic, solved⟩
  have h : ((assign id solution).run.run s).2 = s' := h
  rw [assign_run] at h
  cases hsolution : s.solution? id <;> rw [hsolution] at h <;> subst h
  · exact ⟨solved, solved.put_again⟩
  · exact ⟨acyclic, solved⟩

/-- No cycle arises in a computation that is made up of the elementary ones. -/
def KeepsAcyclic (α : Type) (x : FuelM α) : Prop := Composed α x ∧ Within StaysAcyclic x

instance : Following fun _ x => Within StaysAcyclic x where
  pure := .pure
  bind := .bind
  outOfFuel := within_outOfFuel
  resolve c := within_fuelled fun s s' h acyclic => by
    cases h
    exact (resolve_traces acyclic c _ _ rfl).1
  kinds {_ x} _ := onKindsFuelled_staysAcyclic (liftM x)

instance : Computing fun _ x => Within (StaysSolvable id solution) x where
  pure := .pure
  bind := .bind
  read hf _ s s' h := hf s s s' h
  compute _ s s' h ok := by
    obtain ⟨kinds, rfl⟩ := onKindsFuelled_effect h
    exact ok

instance : Exploring KeepsAcyclic where
  pure a := ⟨.pure a, .pure a⟩
  bind hx hf := ⟨.bind hx.1 fun a => (hf a).1, .bind hx.2 fun a => (hf a).2⟩
  outOfFuel := ⟨.outOfFuel, within_outOfFuel⟩
  resolve c := ⟨.resolve c, Following.resolve (P := fun _ x => Within StaysAcyclic x) c⟩
  kinds {_ x} h := ⟨Following.kinds h, onKindsFuelled_staysAcyclic (liftM x)⟩
  read hf same := ⟨.read (fun s => (hf s).1) same, fun s s' h => (hf s).2 s s' h⟩
  compute hx := ⟨.kinds hx, onKindsFuelled_staysAcyclic _⟩
  freshWithSpine kind spine :=
    ⟨.freshWithSpine kind spine, within_fuelled fun s s' h acyclic => by
      cases h
      exact acyclic.extended _ _⟩

end Store

namespace Unify

open Store (StaysAcyclic StaysSolvable Composed)

/-- Unification solves a cell with what makes no cycle. -/
theorem solve_staysAcyclic (fuel depth : Nat) (id : MetaId) (spine : List Con) (other : Con) :
    Throughout (fun _ x => Within StaysAcyclic x) (solve fuel depth id spine other) := by
  refine .bind (lift_throughout (throughout_fuelled (patternVars_throughout spine))) fun vars => ?_
  split
  · refine .bind (lift_throughout (throughout_fuelled (unsolvedHeads_throughout spine)))
      fun heads => ?_
    exact postpone_throughout _ _ _ _
  · next vars =>
    intro p s s' heffect acyclic
    obtain ⟨r, hrun⟩ := heffect
    rw [run_lift_bind] at hrun
    obtain ⟨⟨zonked, s₁⟩, hzonk, hrun⟩ := Option.bind_eq_some_iff.mp hrun
    have acyclic₁ : s₁.Acyclic :=
      (Store.zonk_traces fuel other acyclic _ _ (exec_of_run hzonk)).1
    have keeps {R : Store → Store → Prop} {x : UnifyM Unit}
        (h : Throughout (fun _ x => Within R x) x) (hrun : x.run.run p s₁ = some (r, s')) :
        R s₁ s' := h p s₁ s' ⟨r, hrun⟩
    dsimp only at hrun
    split at hrun
    next => cases hrun
    next solution state hrename =>
      split at hrun
      next => exact keeps (R := StaysAcyclic) (mismatch_throughout _ _ _) hrun acyclic₁
      next => exact keeps (R := StaysAcyclic) (mismatch_throughout _ _ _) hrun acyclic₁
      next => exact keeps (R := StaysAcyclic) (postpone_throughout _ _ _ _) hrun acyclic₁
      next houtcome =>
        have hassign := within_fuelled (Store.assign_staysSolvable id solution)
        have hsolves := acyclic_of_renamed acyclic hzonk hrename houtcome
        exact (keeps (R := StaysSolvable id solution) (solved_throughout hassign) hrun
          ⟨acyclic₁, hsolves⟩).1

end Unify

namespace Store

instance : Unify.Solving KeepsAcyclic where
  speculate {_ x} hx keep := ⟨.speculate hx.1 keep, by
    rintro s s' ⟨a, hrun⟩ acyclic
    cases hkeep : keep a with
    | false => exact (speculate_resumes hx.1 hkeep hrun).acyclic acyclic
    | true =>
      obtain ⟨s₁, hinside, rfl⟩ := speculate_eq_some hrun
      rw [if_pos hkeep]
      have acyclic₁ := hx.2 _ _ ⟨a, hinside⟩ ((alike_opened s).resumes.acyclic acyclic)
      exact (alike_committed s₁).resumes.acyclic acyclic₁⟩
  solve fuel depth id spine other p :=
    ⟨Unify.solve_throughout fuel depth id spine other p,
      Unify.solve_staysAcyclic fuel depth id spine other p⟩

end Store

end RowML
