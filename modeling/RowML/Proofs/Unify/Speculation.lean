import RowML.Proofs.Kind.History
import RowML.Proofs.Store.Journal
import RowML.Proofs.Unify.Composition

/-!
# Speculation is exact

A rollback restores what the store held when the snapshot was opened, whatever has been computed in
between; a commit keeps all of it, and the snapshots around it can still be rolled back.  So
speculative unification either does what unification does, or nothing.
-/

namespace RowML

namespace Store

/-- The calls that may stand between a snapshot and its end. -/
inductive Call : (α : Type) → FuelM α → Prop where
  | freshWithSpine (kind : Kind) (spine : List Con) : Call _ (liftM (freshWithSpine kind spine))
  | freshSkolem (name : String) (kind : Kind) : Call _ (liftM (freshSkolem name kind))
  | assign (id : MetaId) (solution : Con) : Call _ (liftM (assign id solution).run)
  | resolve (c : Con) : Call _ (liftM (resolve c))
  | zonk (fuel : Nat) (c : Con) : Call _ (zonk fuel c)
  | headNormal (globals : Globals) (fuel : Nat) (c : Con) : Call _ (headNormal globals fuel c)
  | unify (globals : Globals) (fuel depth : Nat) (a b : Con) :
      Call _ (unify globals fuel depth a b)
  | tryUnify (globals : Globals) (fuel depth : Nat) (a b : Con) :
      Call _ (tryUnify globals fuel depth a b)
  | search (context : Class.Context) (fuel : Nat) (goal : Con) :
      Call _ (Class.resolve context fuel goal).run

theorem Call.composed {α : Type} {x : FuelM α} (h : Call α x) : Composed α x := by
  cases h with
  | freshWithSpine kind spine => exact .freshWithSpine kind spine
  | freshSkolem name kind => exact .freshSkolem name kind
  | assign id solution => exact .assign id solution
  | resolve c => exact .resolve c
  | zonk fuel c => exact zonk_throughout fuel c
  | headNormal globals fuel c => exact headNormal_throughout fuel c
  | unify globals fuel depth a b => exact unify_throughout fuel depth a b
  | tryUnify globals fuel depth a b => exact tryUnify_throughout fuel depth a b
  | search context fuel goal => exact Class.resolve_throughout fuel goal

/-- Calls and operations on kinds lead from the first store to the second one, with every snapshot
that is opened on the way closed again, the last one first. -/
inductive Runs : Store → Store → Prop where
  | refl (store : Store) : Runs store store
  | trans {s s' s'' : Store} (h : Runs s s') (h' : Runs s' s'') : Runs s s''
  | call {α : Type} {x : FuelM α} (h : Call α x) {s s' : Store} {a : α}
      (hrun : x s = some (a, s')) : Runs s s'
  | kinds {s : Store} {kinds : KindStore} (h : s.kinds.Runs kinds) : Runs s { s with kinds }
  | rolledBack {s s' : Store} (h : Runs s.opened s') : Runs s (s'.rolledBack s.mark)
  | committed {s s' : Store} (h : Runs s.opened s') : Runs s s'.committed

theorem Runs.records {store store' : Store} (h : Runs store store') :
    ∃ entries, store.Records store' entries := by
  induction h with
  | refl store => exact ⟨_, .none store⟩
  | trans _ _ ih ih' =>
    obtain ⟨entries, h⟩ := ih
    obtain ⟨entries', h'⟩ := ih'
    exact ⟨_, h.onTop h'⟩
  | call h hrun => exact h.composed.exact.records hrun
  | kinds h =>
    obtain ⟨entries, h⟩ := h.records
    exact ⟨_, .of_cells (by rfl) h ⟨[], (List.append_nil _).symm⟩ (by rfl) (by rfl)⟩
  | rolledBack _ ih =>
    obtain ⟨entries, h⟩ := ih
    exact ⟨_, (restores_rolledBack h).records⟩
  | committed _ ih =>
    obtain ⟨entries, h⟩ := ih
    exact ⟨entries, records_committed h⟩

theorem Runs.restores {store store' : Store} (h : Runs store.opened store') :
    store.Restores (store'.rolledBack store.mark) := by
  obtain ⟨entries, h⟩ := h.records
  exact restores_rolledBack h

end Store

variable {globals : Globals} {store store' : Store} {result : TryResult}

/-- Speculative unification leaves what unification leaves, or what was there before. -/
theorem tryUnify_exact {fuel depth : Nat} {a b : Con}
    (h : tryUnify globals fuel depth a b store = some (result, store')) :
    (result = .yes → ∃ store'', unify globals fuel depth a b store = some ((.ok (), []), store'') ∧
      store''.Alike store') ∧
    (result ≠ .yes → store.Restores store') := by
  rw [tryUnify_eq] at h
  obtain ⟨⟨answer, store₁⟩, hspeculate, hanswer⟩ := Option.bind_eq_some_iff.mp h
  cases hanswer
  obtain ⟨store₂, hrun, rfl⟩ := Store.speculate_eq_some hspeculate
  have hcomposed : Store.Composed _ (unify globals fuel depth a b) :=
    unify_throughout fuel depth a b
  have hexact := hcomposed.exact
  refine ⟨fun hyes => ?_, fun hno => ?_⟩
  · have hclean : answer = (.ok (), []) := by
      obtain ⟨_ | ⟨⟩, _ | _⟩ := answer <;> simp [outcome] at hyes ⊢
    subst hclean
    obtain ⟨store'', hplain, halike⟩ := hexact.alike Store.Alike.symm Store.Alike.trans hrun
      (Store.alike_opened store).symm
    exact ⟨store'', hplain, halike.symm.trans (Store.alike_committed store₂)⟩
  · obtain ⟨entries, hrecords⟩ := hexact.records hrun
    rw [if_neg (by simpa using hno)]
    exact Store.restores_rolledBack hrecords

theorem Class.resolveGoal_composed (context : Class.Context) (fuel : Nat) (goal : Con) :
    Store.Composed _ ((Class.resolveGoal context fuel 0 goal).run.run []) :=
  Throughout.run_state (Class.resolveGoal_throughout fuel 0 goal) []

/-- A search that does not find a dictionary leaves what was there before. -/
theorem Class.resolve_restores {context : Class.Context} {fuel : Nat} {goal : Con}
    {result : Except ClassError Resolution}
    (h : (Class.resolve context fuel goal).run store = some (result, store'))
    (hnone : ∀ dict disjoint, result ≠ .ok (.resolved dict disjoint)) : store.Restores store' := by
  rw [Class.resolve_eq] at h
  obtain ⟨⟨found, store₁⟩, hspeculate, hanswer⟩ := Option.bind_eq_some_iff.mp h
  cases hanswer
  obtain ⟨store₂, hrun, rfl⟩ := Store.speculate_eq_some hspeculate
  obtain ⟨entries, hrecords⟩ := (resolveGoal_composed context fuel goal).exact.records hrun
  have hlost : ¬ Class.isFound found = true := by
    rcases found with ⟨_ | _ | _, disjoint⟩
    · exact Bool.false_ne_true
    · exact absurd rfl (hnone _ disjoint)
    · exact Bool.false_ne_true
  rw [if_neg hlost]
  exact Store.restores_rolledBack hrecords

/-- A rollback restores the cells, the kinds and the list of solved cells of the store in which the
snapshot was opened, and a commit keeps what there is and the snapshots around it. -/
theorem speculation_exact :
    (∀ {store store' : Store}, store.opened.Runs store' →
      store.Restores (store'.rolledBack store.mark) ∧ store'.Alike store'.committed ∧
      ∀ {outer store'' : Store}, outer.opened.Runs store → store'.committed.Runs store'' →
        outer.Restores (store''.rolledBack outer.mark)) ∧
    ∀ {globals : Globals} {fuel depth : Nat} {a b : Con} {store store' : Store}
      {result : TryResult},
      tryUnify globals fuel depth a b store = some (result, store') →
      (result = .yes → ∃ store'', unify globals fuel depth a b store =
        some ((.ok (), []), store'') ∧ store''.Alike store') ∧
      (result ≠ .yes → store.Restores store') := by
  refine ⟨fun h => ⟨h.restores, Store.alike_committed _, fun hbefore hafter => ?_⟩, tryUnify_exact⟩
  exact ((hbefore.trans h.committed).trans hafter).restores

/-- A store with one unsolved cell. -/
def oneCell : Store := Store.empty.extended .type 0

/-- The cell is solved inside two snapshots, the inner one of which is committed. -/
theorem speculation_exact_oneCell :
    (let inner := oneCell.opened
     let solved := inner.opened.assigned 0 (.prim .int)
     inner.opened.Runs solved ∧ inner.Restores (solved.rolledBack inner.mark) ∧
       solved.Alike solved.committed ∧
       oneCell.Restores (solved.committed.rolledBack oneCell.mark)) ∧
    ∃ store', tryUnify .empty 3 0 (.mvar 0 []) (.prim .int) oneCell = some (.yes, store') ∧
      ∃ store'', unify .empty 3 0 (.mvar 0 []) (.prim .int) oneCell =
        some ((.ok (), []), store'') ∧ store''.Alike store' := by
  have hruns : oneCell.opened.opened.Runs (oneCell.opened.opened.assigned 0 (.prim .int)) :=
    .call (.assign 0 (.prim .int)) (a := .ok ()) rfl
  obtain ⟨hback, hkept, houter⟩ := speculation_exact.1 hruns
  refine ⟨⟨hruns, hback, hkept, houter (.refl _) (.refl _)⟩, _, rfl, ?_⟩
  exact (speculation_exact.2 rfl).1 rfl

end RowML
