import RowML.Proofs.Elaboration.Program
import RowML.Proofs.Store.Kinds
import RowML.Proofs.Unify.Composition
import RowML.Proofs.Unify.Undoing

/-!
# Declarations leave the binders alone

The binders that elaboration enters are forgotten where it leaves what they bind, so between
declarations there are those that were there before, and as many term variables are in scope.  What
happens to the kinds on the way is made up of operations on kinds, and no solution comes to stand
for something that mentions it.
-/

namespace RowML

theorem Con.defaultKinds_orderly (fuel : Nat) (c : Con) :
    Throughout KindStore.Orderly (c.defaultKinds fuel) := by
  refine Con.rebuildM_throughout (fun _ _ => .pure _) (fun _ k => ?_) _ c
  exact .bind (KindStore.Orderly.operation (.zonk k)) (KindStore.Orderly.defaultUnsolved fuel)

namespace Store

section Composition

variable {P : (α : Type) → FuelM α → Prop} {α : Type} {x : FuelM α}

theorem Closing.throughout [Exploring P] (h : Closing x) : P α x := by
  cases h with
  | zonkKind kind => exact Computing.compute (.operation (.zonk kind))
  | defaultKind fuel kind => exact Computing.compute (.operation (.defaultUnsolved fuel kind))
  | defaultKinds fuel c => exact Computing.compute (c.defaultKinds_orderly fuel)
  | zonk fuel c => exact zonk_throughout fuel c
  | unsolvedMVars fuel c => exact unsolvedMVars_throughout fuel c

theorem Operation.throughout [Unify.Solving P]
    (hskolem : ∀ name kind, P _ (liftM (Store.freshSkolem name kind)))
    (hquantify : ∀ var skolem, P _ (liftM (Store.assign var (.skolem skolem)).run))
    (h : Operation x) : P α x := by
  cases h with
  | closing h => exact h.throughout
  | kinds h => exact Computing.compute h
  | unifyKinds fuel a b => exact Computing.compute (.operation (.unify fuel a b))
  | fresh kind depth => exact Exploring.freshWithSpine kind _
  | freshSkolem name kind => exact hskolem name kind
  | quantify var skolem => exact hquantify var skolem
  | skolemsOf fuel c => exact skolemsOf_throughout fuel c
  | headNormal globals fuel c => exact headNormal_throughout fuel c
  | isGoal globals fuel c => exact Class.isGoal_throughout fuel c
  | isInstanceType globals fuel c => exact Class.isInstanceType_throughout fuel c
  | unify globals fuel depth a b => exact unify_throughout fuel depth a b
  | checkDisjoint globals fuel left right facts =>
    exact Row.checkDisjoint_throughout fuel left right facts
  | resolve context fuel goal => exact Class.resolve_throughout fuel goal

end Composition

/-- What elaboration computes with a store is made up of elementary computations. -/
theorem Operation.composed {α : Type} {x : FuelM α} (h : Operation x) : Composed α x :=
  h.throughout .freshSkolem fun var _ => .assign var _

end Store

namespace Scope

variable {outer middle scope scope' : Scope}

/-- The binders of a scope are those of another one and further ones inside them, and its term
variables are counted. -/
def Inside (scope outer : Scope) : Prop :=
  ∃ inner, scope.binders = inner ++ outer.binders ∧
    scope.valDepth = outer.valDepth + inner.countP fun binder => binder.classifier.isVal

namespace Inside

theorem of_eq (hbinders : scope.binders = outer.binders)
    (hdepth : scope.valDepth = outer.valDepth) :
    scope.Inside outer :=
  ⟨[], hbinders, hdepth⟩

theorem trans (h : scope.Inside middle) (h' : middle.Inside outer) : scope.Inside outer := by
  obtain ⟨inner, hbinders, hdepth⟩ := h
  obtain ⟨inner', hbinders', hdepth'⟩ := h'
  refine ⟨inner ++ inner', ?_, ?_⟩
  · rw [hbinders, hbinders', List.append_assoc]
  · rw [hdepth, hdepth', List.countP_append]
    omega

theorem enters (h : outer.Enters scope) : scope.Inside outer := by
  cases h with
  | con name kind | kind name | fact left right => exact ⟨[_], rfl, rfl⟩
  | val name type isDict => exact ⟨[_], rfl, rfl⟩
  | name name sort meaning => exact .of_eq rfl rfl

private theorem valDepth_leave (scope : Scope) (binders : List Binder) :
    (binders.foldl leave scope).valDepth =
      scope.valDepth - binders.countP fun binder => binder.classifier.isVal := by
  induction binders generalizing scope with
  | nil => rfl
  | cons binder binders ih =>
    rw [List.foldl_cons, ih, List.countP_cons]
    cases hclassifier : binder.classifier <;> simp [leave, hclassifier, Classifier.isVal]
    omega

/-- Where the inner binders are forgotten, the outer ones are left. -/
theorem reset (h : scope.Inside outer) :
    (scope.reset outer.mark).binders = outer.binders ∧
      (scope.reset outer.mark).valDepth = outer.valDepth := by
  obtain ⟨inner, hbinders, hdepth⟩ := h
  have hextra : scope.binders.length - outer.mark.binders = inner.length := by
    rw [hbinders, List.length_append, mark, Nat.add_sub_cancel]
  constructor
  · change scope.binders.drop (scope.binders.length - outer.mark.binders) = _
    rw [hextra, hbinders, List.drop_left]
  · change ((scope.binders.take (scope.binders.length - outer.mark.binders)).foldl
      leave scope).valDepth
      = _
    rw [hextra, hbinders, List.take_left, valDepth_leave, hdepth, Nat.add_sub_cancel]

end Inside

end Scope

namespace Session

variable {s s' : Session}

/-- Binders may have been entered. -/
structure Deepens (s s' : Session) : Prop where
  scope : s'.scope.Inside s.scope
  kinds : s.store.RunsKinds s'.store

/-- The binders are the same, and so is the number of term variables. -/
structure Balanced (s s' : Session) : Prop where
  binders : s'.scope.binders = s.scope.binders
  valDepth : s'.scope.valDepth = s.scope.valDepth
  kinds : s.store.RunsKinds s'.store

theorem Balanced.deepens (h : s.Balanced s') : s.Deepens s' :=
  ⟨.of_eq h.binders h.valDepth, h.kinds⟩

theorem Deepens.leave (h : s.Deepens s') :
    s.Balanced { s' with scope := s'.scope.reset s.scope.mark } :=
  ⟨h.scope.reset.1, h.scope.reset.2, h.kinds⟩

theorem Balanced.of_scope (hkinds : s'.store.kinds = s.store.kinds) (hscope : s'.scope = s.scope) :
    s.Balanced s' :=
  ⟨by rw [hscope], by rw [hscope], by rw [Store.RunsKinds, hkinds]; exact .refl _⟩

/-- No cycle of links arises. -/
theorem Balanced.acyclic (h : Session.empty.Balanced s) : s.store.kinds.Acyclic :=
  h.kinds.acyclic ⟨fun _ => 0, fun _ _ ⟨_, hlink, _⟩ => by cases hlink⟩

theorem Step.kinds_runs (h : Step s s') : s.store.RunsKinds s'.store := by
  cases h with
  | compute operation hrun => exact operation.composed.runsKinds _ _ ⟨_, hrun⟩
  | elsewhere hstore =>
    rw [hstore]
    exact refl_of _ _
  | _ => exact KindStore.Runs.refl _

instance : AllowsSolving Deepens where
  refl s := ⟨.of_eq rfl rfl, refl_of _ _⟩
  trans _ _ _ h h' := ⟨h'.scope.trans h.scope, trans_of _ h.kinds h'.kinds⟩
  of_solving h := ⟨by rw [h.rest]; exact .of_eq rfl rfl, h.step.kinds_runs⟩
  of_entering h := ⟨.enters h, refl_of _ _⟩
  of_leaving h := h.leave.deepens

instance : AllowsForcing Balanced where
  refl s := ⟨rfl, rfl, refl_of _ _⟩
  trans _ _ _ h h' := ⟨h'.binders.trans h.binders, h'.valDepth.trans h.valDepth,
    trans_of _ h.kinds h'.kinds⟩
  of_solving h := ⟨by rw [h.rest], by rw [h.rest], h.step.kinds_runs⟩

instance : AllowsScoping Balanced where
  encloses := ⟨Deepens, inferInstance, Balanced.deepens, Deepens.leave⟩

instance : AllowsRevising Balanced where
  of_naming s _ _ _ := ⟨rfl, rfl, refl_of _ _⟩
  of_extends hstore _ hscope _ _ := .of_scope (by rw [hstore]) hscope
  of_alias _ h := by
    rcases Elaborate.aliasOf_effect h with rfl | ⟨name, rfl⟩ <;> exact .of_scope rfl rfl
  of_restart _ := .of_scope rfl rfl
  of_revision hstore _ hscope _ := .of_scope (by rw [hstore]) hscope

end Session

/-! ## Cycles -/

namespace Store

theorem assign_skolem_staysAcyclic (id : MetaId) (skolem : SkolemId) :
    Within StaysAcyclic (assign id (.skolem skolem)).run := by
  intro s s' h acyclic
  have h : ((assign id (.skolem skolem)).run.run s).2 = s' := h
  rw [assign_run] at h
  cases hsolution : s.solution? id <;> rw [hsolution] at h <;> subst h
  · exact acyclic.put fun j hj => absurd hj (Con.not_mentions_of_has rfl)
  · exact acyclic

/-- No cycle of solutions arises in what elaboration computes with a store. -/
theorem Operation.staysAcyclic {α : Type} {x : FuelM α} (h : Operation x) :
    Within StaysAcyclic x := by
  refine (h.throughout (P := KeepsAcyclic) (fun name kind => ⟨.freshSkolem name kind, ?_⟩)
    fun var skolem => ⟨.assign var _, ?_⟩).2
  · refine within_fuelled ?_
    rintro s _ rfl acyclic
    exact acyclic
  · exact within_fuelled (assign_skolem_staysAcyclic var skolem)

end Store

namespace Session

variable {s s' : Session}

/-- Neither solutions nor links of kinds run in a cycle. -/
structure Acyclic (s : Session) : Prop where
  solutions : s.store.Acyclic
  kinds : s.store.kinds.Acyclic

theorem Acyclic.empty : Session.empty.Acyclic where
  solutions := ⟨fun _ => 0, fun _ _ ⟨_, hsolution, _⟩ => by cases hsolution⟩
  kinds := ⟨fun _ => 0, fun _ _ ⟨_, hlink, _⟩ => by cases hlink⟩

theorem Step.acyclic (h : Step s s') (acyclic : s.Acyclic) : s'.Acyclic where
  solutions := by
    cases h with
    | compute operation hrun => exact operation.staysAcyclic _ _ ⟨_, hrun⟩ acyclic.solutions
    | elsewhere hstore => exact hstore ▸ acyclic.solutions
    | _ => exact acyclic.solutions
  kinds := h.kinds_runs.acyclic acyclic.kinds

theorem Reaches.acyclic (h : s.Reaches s') (acyclic : s.Acyclic) : s'.Acyclic := by
  induction h with
  | refl => exact acyclic
  | tail _ hstep ih =>
    rcases hstep with hstep | ⟨hstore, -⟩
    · exact hstep.acyclic ih
    · exact ⟨hstore ▸ ih.solutions, hstore ▸ ih.kinds⟩

end Session

end RowML
