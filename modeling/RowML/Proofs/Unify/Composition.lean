import RowML.Class.Resolve
import RowML.Proofs.Store.Composition
import RowML.Row.Disjoint

/-!
# How unification and search are computed

Normalisation, unification, the check of disjointness and class resolution change a store only
through the elementary computations, and every snapshot that they open is closed again.
-/

namespace RowML

open Store (Composed)

/-! ## Head normal forms and rows -/

section Reduction

variable {globals : Globals} {P : (α : Type) → FuelM α → Prop} [Store.Following P]

theorem findField_throughout {reduce : Con → FuelM Con} (h : ∀ c, Throughout P (reduce c))
    (field : Con) (fuel : Nat) (row : Con) :
    Throughout P (Con.findField reduce field fuel row) := by
  induction fuel generalizing row with
  | zero => exact Store.Following.outOfFuel
  | succ fuel ih =>
    cases row with
    | concat l r =>
      refine .bind (h l) fun l => .bind (ih l) fun found => ?_
      cases found with
      | some value => exact .pure _
      | none => exact .bind (h r) fun r => ih r
    | _ => exact .pure _

theorem headNormal_throughout (fuel : Nat) (c : Con) :
    Throughout P (headNormal globals fuel c) := by
  induction fuel generalizing c with
  | zero => exact Store.Following.outOfFuel
  | succ fuel ih =>
    unfold headNormal
    refine .bind (Store.Following.resolve c) fun r => ?_
    split
    · split
      · exact ih _
      · exact ih _
      · exact .pure _
    · simp only
      split
      · exact ih _
      · exact ih _
      · exact .pure _
    · refine .bind (ih _) fun f => ?_
      split
      · exact .bind (Store.Following.kinds fun hresolve => Con.subst_throughout hresolve _ _)
          fun _ => ih _
      · exact .pure _
      · exact .pure _
    · refine .bind (ih _) fun f => ?_
      split
      · exact .bind (Store.Following.kinds fun hresolve => Con.substKind_throughout hresolve _ _)
          fun _ => ih _
      · exact .pure _
      · exact .pure _
    · exact .bind (ih _) fun _ => .bind (ih _) fun _ => .pure _
    · exact .bind (ih _) fun _ => .bind (ih _) fun _ => .pure _
    · refine .bind (ih _) fun row => .bind (ih _) fun field => ?_
      split
      · exact .pure _
      · refine .bind (findField_throughout ih field fuel row) fun found => ?_
        split
        · exact ih _
        · split
          · exact ih _
          · exact .pure _
    · refine .bind (ih _) fun tuple => ?_
      split
      · split
        · exact ih _
        · exact .pure _
      · exact .pure _
      · exact .pure _
    · exact .pure _

namespace Row

theorem summarize_throughout (fuel : Nat) (row : Con) :
    Throughout P (summarize globals fuel row) := by
  induction fuel generalizing row with
  | zero => exact Store.Following.outOfFuel
  | succ fuel ih =>
    unfold summarize
    refine .bind (headNormal_throughout fuel row) fun r => ?_
    split
    · exact .mapM (fun _ => .bind (headNormal_throughout fuel _) fun _ => .pure _) _
    · exact .bind (ih _) fun _ => .bind (ih _) fun _ => .pure _
    · exact .pure _
    · exact .pure _

theorem fieldsOf_throughout (fuel : Nat) (row : Con) :
    Throughout P (fieldsOf globals fuel row) := by
  refine .bind (summarize_throughout fuel row) fun pieces => ?_
  simp only
  split <;> exact .pure _

theorem factKeys_throughout (fuel : Nat) (fact : Fact) :
    Throughout P (factKeys globals fuel fact) :=
  .bind (summarize_throughout fuel _) fun _ => .bind (summarize_throughout fuel _) fun _ => .pure _

theorem separate_throughout (fuel : Nat) (left right : List Piece) (facts : List Fact) :
    Throughout P (separate globals fuel left right facts) := by
  unfold separate
  extract_lets questions blockers decided
  have hdecided (known : List (List Con × List Con)) : Throughout P (decided known) := by
    simp only [decided]
    split <;> exact .pure _
  split
  · exact hdecided _
  · exact .bind (.mapM (factKeys_throughout fuel) facts) hdecided

theorem checkDisjoint_throughout (fuel : Nat) (left right : Con) (facts : List Fact) :
    Throughout P (checkDisjoint globals fuel left right facts) := by
  refine .bind (.lift_except (summarize_throughout fuel left)) fun lefts => ?_
  refine .bind (.lift_except (summarize_throughout fuel right)) fun rights => ?_
  split
  · exact .pure _
  · split
    · exact .throw _
    · exact .lift_except (separate_throughout fuel lefts rights facts)

end Row

end Reduction

/-! ## Unification -/

namespace Unify

variable {globals : Globals} {P : (α : Type) → FuelM α → Prop}

section Computing

variable [Compositional P]

theorem lift_throughout {α : Type} {x : FuelM α} (h : Throughout P x) :
    Throughout P (liftM x : UnifyM α) :=
  .lift_except (.lift_state h)

theorem postpone_throughout (depth : Nat) (a b : Con) (blockers : List MetaId) :
    Throughout P (postpone depth a b blockers) := by
  have h : Throughout P (modify (· ++ [⟨a, b, depth, blockers⟩]) :
      StateT (List Postponed) FuelM Unit) := .modifyGet _
  exact .lift_except h

theorem mismatch_throughout {α : Type} (a b : Con) (reason : MismatchReason) :
    Throughout P (mismatch a b reason : UnifyM α) :=
  .throw _

end Computing

theorem read_throughout [Store.Computing P] {α : Type} {f : Store → UnifyM α}
    (hf : ∀ s, Throughout P (f s)) (same : ∀ {s t : Store}, s.Alike t → f s = f t) :
    Throughout P (getStore >>= f) :=
  fun t => Store.read_throughout (f := fun s => (f s).run.run t) (fun s => hf s t)
    fun h => by rw [same h]

theorem unifyKinds_throughout [Store.Computing P] (fuel : Nat) (a b : Kind) :
    Throughout P (unifyKinds fuel a b) := by
  refine .bind (lift_throughout (Store.onKindsFallibly_throughout (KindStore.Orderly.unify _ _ _)))
    fun result => ?_
  split
  · exact .pure _
  · exact .throw _

/-! ## Solving -/

section Spines

variable [Store.Following P]

theorem patternVars_throughout (spine : List Con) : Throughout P (patternVars spine) := by
  suffices h : ∀ seen, Throughout P (patternVars.go seen spine) from h []
  induction spine with
  | nil => exact fun seen => .pure _
  | cons c spine ih =>
    intro seen
    refine .bind (Store.Following.resolve c) fun r => ?_
    split
    · split
      · exact .pure _
      · exact ih _
    · exact .pure _

theorem unsolvedHeads_throughout (spine : List Con) :
    Throughout P (unsolvedHeads spine) := by
  refine .bind (.mapM (fun c => ?_) spine) fun _ => .pure _
  refine .bind (Store.Following.resolve c) fun r => ?_
  split <;> exact .pure _

end Spines

theorem kindOfHead?_congr {s t : Store} (h : s.Alike t) (c : Con) :
    kindOfHead? s c = kindOfHead? t c := by
  cases c <;> simp [kindOfHead?, h.cell]

/-- Solving with a renamed constructor does not more than compare kinds and assign. -/
theorem solved_throughout [Store.Computing P] {fuel : Nat} {id : MetaId} {solution a b : Con}
    (h : P _ (liftM (Store.assign id solution).run)) :
    Throughout P (do
      match kindOfHead? (← getStore) solution with
      | some kind => unifyKinds fuel ((← getStore).cell id).kind kind
      | none => pure ()
      match ← (Store.assign id solution).run with
      | .ok () => pure ()
      | .error _ => mismatch a b .structural : UnifyM Unit) := by
  refine read_throughout (fun store => ?_) fun h => by simp only [kindOfHead?_congr h]
  extract_lets assign
  have hassign (sorted : Unit) : Throughout P (assign sorted) := by
    refine .bind (lift_throughout h) fun result => ?_
    split
    · exact .pure _
    · exact mismatch_throughout _ _ _
  split
  · refine read_throughout (fun store => ?_) fun h => by simp only [h.cell]
    exact .bind (unifyKinds_throughout _ _ _) hassign
  · exact hassign ()

theorem solve_throughout (fuel depth : Nat) (id : MetaId) (spine : List Con) (other : Con) :
    Throughout Composed (solve fuel depth id spine other) := by
  refine .bind (lift_throughout (throughout_fuelled (patternVars_throughout spine))) fun vars => ?_
  split
  · refine .bind (lift_throughout (throughout_fuelled (unsolvedHeads_throughout spine)))
      fun heads => ?_
    exact postpone_throughout _ _ _ _
  · refine .bind (lift_throughout (Store.zonk_throughout fuel other)) fun zonked => ?_
    split
    · exact lift_throughout Composed.outOfFuel
    · split
      · exact mismatch_throughout _ _ _
      · exact mismatch_throughout _ _ _
      · exact postpone_throughout _ _ _ _
      · exact solved_throughout (Composed.assign id _)

/-- Properties that computations keep if they speculate and solve cells as unification does. -/
class Solving (P : (α : Type) → FuelM α → Prop) : Prop extends Store.Exploring P where
  speculate : ∀ {α : Type} {x : FuelM α}, P α x → ∀ keep : α → Bool, P α (Store.speculate x keep)
  solve : ∀ (fuel depth : Nat) (id : MetaId) (spine : List Con) (other : Con),
    Throughout P (solve fuel depth id spine other)

instance : Solving Composed where
  speculate := .speculate
  solve := solve_throughout

variable [Solving P]

/-! ## Rows and heads -/

section Rows

variable {unify : Con → Con → UnifyM Unit} (H : ∀ a b, Throughout P (unify a b))
include H

theorem matchFields_throughout (left right : List Piece) :
    Throughout P (matchFields unify left right) := by
  induction left generalizing right with
  | nil => exact .pure _
  | cons piece left ih =>
    cases piece with
    | field name value =>
      unfold matchFields
      split
      · exact .bind (H _ _) fun _ => ih _
      · exact .bind (ih _) fun _ => .pure _
    | _ => exact .bind (ih _) fun _ => .pure _

omit H in
theorem elementKind_throughout (id : MetaId) : Throughout P (elementKind id) := by
  refine read_throughout (fun store => ?_) fun h => by simp only [h.cell]
  refine .bind (lift_throughout (throughout_fuelled
    (Store.onKinds_throughout (KindStore.Orderly.resolve _)))) fun kind => ?_
  split <;> exact .pure _

theorem unifyLeftoverFields_throughout (depth : Nat) (a b : Con) (left right : Leftover) :
    Throughout P (unifyLeftoverFields unify depth a b left right) := by
  have hdecide : Throughout P (
      let blockers := left.blockers ++ right.blockers
      if blockers.isEmpty ∨ left.fields.length ≠ right.fields.length then
        mismatch a b (leftoverReason left right)
      else postpone depth a b blockers : UnifyM Unit) := by
    simp only
    split
    · exact mismatch_throughout _ _ _
    · exact postpone_throughout _ _ _ _
  unfold unifyLeftoverFields
  simp only
  split
  · split
    · exact .bind (H _ _) fun _ => H _ _
    · exact hdecide
  · exact hdecide

theorem solveTail_throughout (side other : Leftover) :
    Throughout P (solveTail unify side other) := by
  unfold solveTail
  split
  · exact .bind (elementKind_throughout _) fun _ => .bind (H _ _) fun _ => .pure _
  · exact .pure _

theorem solveCommonTail_throughout (left right : Leftover) :
    Throughout P (solveCommonTail unify left right) := by
  unfold solveCommonTail
  split
  · split
    · exact .pure _
    · refine .bind (lift_throughout (throughout_fuelled (patternVars_throughout _))) fun vars => ?_
      split
      · exact .pure _
      · refine .bind (lift_throughout (throughout_fuelled (patternVars_throughout _)))
          fun vars => ?_
        split
        · exact .pure _
        · refine read_throughout (fun store => ?_) fun h => by simp only [h.cell]
          refine .bind (elementKind_throughout _) fun _ => ?_
          refine .bind
            (lift_throughout (throughout_fuelled (Store.freshWithSpine_throughout _ _))) ?_
          exact fun tail => .bind (H _ _) fun _ => .bind (H _ _) fun _ => .pure _
  · exact .pure _

theorem solveMapped_throughout (fuel depth : Nat) (a b : Con) (side other : Leftover) :
    Throughout P (solveMapped globals fuel depth unify a b side other) := by
  unfold solveMapped
  split
  · refine .bind (lift_throughout (headNormal_throughout fuel _)) fun row => ?_
    split
    · refine .bind (.mapM (fun field => ?_) _) fun fields => ?_
      · exact .bind (lift_throughout (throughout_fuelled (Store.freshWithSpine_throughout _ _)))
          fun _ => .pure _
      · exact .bind (H _ _) fun _ => .bind (H _ _) fun _ => .pure _
    · exact .pure _
  · exact .pure _

theorem unifyRows_throughout (fuel depth : Nat) (a b : Con) :
    Throughout P (unifyRows globals fuel depth unify a b) := by
  refine .bind (lift_throughout (Row.summarize_throughout fuel a)) fun lefts => ?_
  refine .bind (lift_throughout (Row.summarize_throughout fuel b)) fun rights => ?_
  split
  · exact .pure _
  · refine .bind (matchFields_throughout H lefts rights) fun pieces => ?_
    simp only
    split
    · exact .pure _
    · split
      · exact unifyLeftoverFields_throughout H _ _ _ _ _
      · refine .bind (solveTail_throughout H _ _) fun done => ?_
        split
        · exact .pure _
        · refine .bind (solveTail_throughout H _ _) fun done => ?_
          split
          · exact .pure _
          · refine .bind (solveCommonTail_throughout H _ _) fun done => ?_
            split
            · exact .pure _
            · refine .bind (solveMapped_throughout H fuel depth a b _ _) fun done => ?_
              split
              · exact .pure _
              · refine .bind (solveMapped_throughout H fuel depth a b _ _) fun done => ?_
                split
                · exact .pure _
                · split
                  · exact mismatch_throughout _ _ _
                  · exact postpone_throughout _ _ _ _

end Rows

section Heads

variable {unify : Nat → Con → Con → UnifyM Unit} (H : ∀ d a b, Throughout P (unify d a b))
include H

theorem unifyParts_throughout (fuel depth : Nat) (a b : Con) :
    Throughout P (unifyParts fuel depth unify a b) := by
  unfold unifyParts
  split
  · exact .bind (H _ _ _) fun _ => H _ _ _
  · exact .bind (H _ _ _) fun _ => H _ _ _
  · exact .bind (unifyKinds_throughout _ _ _) fun _ => H _ _ _
  · split
    · exact .bind (unifyKinds_throughout _ _ _) fun _ => H _ _ _
    · exact mismatch_throughout _ _ _
  · exact H _ _ _
  · exact H _ _ _
  · exact .bind (H _ _ _) fun _ => unifyKinds_throughout _ _ _
  · exact .bind (H _ _ _) fun _ => .bind (H _ _ _) fun _ => H _ _ _
  · exact H _ _ _
  · exact H _ _ _
  · split
    · exact .forM (fun pair => H _ _ _) _
    · exact mismatch_throughout _ _ _
  · split
    · exact H _ _ _
    · exact mismatch_throughout _ _ _
  · exact .bind (H _ _ _) fun _ => H _ _ _
  · exact mismatch_throughout _ _ _

theorem unifyHeads_throughout (fuel depth : Nat) (a b : Con) :
    Throughout P (unifyHeads globals fuel depth unify a b) := by
  unfold unifyHeads
  simp only
  split
  · split
    · split
      · exact .forM (fun pair => H _ _ _) _
      · exact mismatch_throughout _ _ _
    · exact Solving.solve _ _ _ _ _
  · exact Solving.solve _ _ _ _ _
  · exact Solving.solve _ _ _ _ _
  · split
    · exact unifyRows_throughout (H depth) fuel depth a b
    · split
      · exact unifyParts_throughout H fuel depth a b
      · exact postpone_throughout _ _ _ _

end Heads

theorem unifyAt_throughout (fuel depth : Nat) (a b : Con) :
    Throughout P (unifyAt globals fuel depth a b) := by
  induction fuel generalizing depth a b with
  | zero => exact lift_throughout Store.Following.outOfFuel
  | succ fuel ih =>
    unfold unifyAt
    split
    · exact .pure _
    · refine .bind (lift_throughout (headNormal_throughout fuel a)) fun a => ?_
      refine .bind (lift_throughout (headNormal_throughout fuel b)) fun b => ?_
      split
      · exact .pure _
      · exact unifyHeads_throughout ih fuel depth a b

end Unify

section Search

variable {globals : Globals} {P : (α : Type) → FuelM α → Prop} [Unify.Solving P]

theorem speculate_throughout {α : Type} {x : FuelM α} (h : Throughout P x) (keep : α → Bool) :
    Throughout P (Store.speculate x keep) :=
  Unify.Solving.speculate h keep

theorem unify_throughout (fuel depth : Nat) (a b : Con) :
    Throughout P (unify globals fuel depth a b) :=
  .bind (.run_state (Unify.unifyAt_throughout fuel depth a b) []) fun _ => .pure _

/-- What a speculative unification answers. -/
def outcome : Except UnifyError Unit × List Postponed → TryResult
  | (.ok (), []) => .yes
  | (.ok (), _ :: _) => .maybe
  | (.error _, _) => .no

theorem tryUnify_eq (fuel depth : Nat) (a b : Con) :
    tryUnify globals fuel depth a b =
      outcome <$> Store.speculate (unify globals fuel depth a b) (outcome · = .yes) := by
  simp only [tryUnify, Store.speculate, map_eq_pure_bind, bind_assoc]
  refine bind_congr fun mark => bind_congr fun result => ?_
  obtain ⟨_ | ⟨⟩, _ | _⟩ := result <;> simp [outcome]

theorem tryUnify_throughout (fuel depth : Nat) (a b : Con) :
    Throughout P (tryUnify globals fuel depth a b) := by
  rw [tryUnify_eq]
  exact .map (speculate_throughout (unify_throughout fuel depth a b) _)

namespace Class

theorem head_throughout (fuel : Nat) (c : Con) : Throughout P (head globals fuel c) := by
  induction fuel generalizing c with
  | zero => exact Store.Following.outOfFuel
  | succ fuel ih =>
    cases c with
    | app f a => exact .bind (headNormal_throughout fuel f) fun _ => ih _
    | kapp f k => exact .bind (headNormal_throughout fuel f) fun _ => ih _
    | _ => exact .pure _

theorem allM_throughout {α : Type} {p : α → FuelM Bool} (h : ∀ a, Throughout P (p a))
    (as : List α) : Throughout P (allM p as) := by
  induction as with
  | nil => exact .pure _
  | cons a as ih =>
    refine .bind (h a) fun holds => ?_
    split
    · exact ih
    · exact .pure _

theorem isGoal_throughout (fuel : Nat) (c : Con) : Throughout P (isGoal globals fuel c) := by
  induction fuel generalizing c with
  | zero => exact Store.Following.outOfFuel
  | succ fuel ih =>
    unfold isGoal
    refine .bind (headNormal_throughout fuel c) fun r => ?_
    split
    · refine .bind (Row.summarize_throughout fuel _) fun pieces => ?_
      simp only
      split
      · exact .pure _
      · exact allM_throughout ih _
    · exact .bind (head_throughout fuel _) fun _ => .pure _

theorem openType_throughout (depth fuel : Nat) (type : Con) :
    Throughout P (openType globals depth fuel type) := by
  induction fuel generalizing type with
  | zero => exact Store.Following.outOfFuel
  | succ fuel ih =>
    unfold openType
    refine .bind (headNormal_throughout fuel type) fun r => ?_
    split
    · refine .bind (throughout_fuelled (Store.freshWithSpine_throughout _ _)) fun argument => ?_
      refine .bind (throughout_fuelled (Store.onKinds_throughout
        (Con.subst_throughout KindStore.Orderly.resolve _ _))) ?_
      exact fun _ => .bind (ih _) fun _ => .pure _
    · refine .bind (throughout_fuelled (Store.onKinds_throughout (KindStore.Orderly.fresh _))) ?_
      intro argument
      refine .bind (throughout_fuelled (Store.onKinds_throughout
        (Con.substKind_throughout KindStore.Orderly.resolve _ _))) ?_
      exact fun _ => .bind (ih _) fun _ => .pure _
    · exact .bind (ih _) fun _ => .pure _
    · refine .bind (isGoal_throughout fuel _) fun goal => ?_
      split
      · exact .bind (ih _) fun _ => .pure _
      · exact .pure _
    · exact .pure _

theorem isInstanceType_eq (fuel : Nat) (type : Con) :
    isInstanceType globals fuel type =
      globals.isClassHead <$> Store.speculate (do
        let opened ← openType globals 0 fuel type
        head globals fuel opened.head) (fun _ => false) := by
  simp only [isInstanceType, Store.speculate, map_eq_pure_bind, bind_assoc]
  rfl

theorem isInstanceType_throughout (fuel : Nat) (type : Con) :
    Throughout P (isInstanceType globals fuel type) := by
  rw [isInstanceType_eq]
  have hopened : Throughout P (do
      let opened ← openType globals 0 fuel type
      head globals fuel opened.head) :=
    .bind (openType_throughout 0 fuel type) fun _ => head_throughout fuel _
  exact .map (speculate_throughout hopened _)

variable {context : Context}

theorem matchGoal_eq (fuel : Nat) (candidate goal : Con) (goalMVars : List MetaId) :
    matchGoal context fuel candidate goal goalMVars =
      Store.speculate (do
        let outcome ← tryUnify context.globals fuel context.depth candidate goal
        let store ← get
        pure (if outcome = .yes ∧ goalMVars.any store.isSolved then .maybe else outcome))
        (fun _ => false) := by
  simp only [matchGoal, Store.speculate, bind_assoc, pure_bind]
  rfl

theorem certainty_throughout (fuel : Nat) (candidate goal : Con) (goalMVars : List MetaId) :
    Throughout P (do
      let outcome ← tryUnify context.globals fuel context.depth candidate goal
      let store ← get
      pure (if outcome = .yes ∧ goalMVars.any store.isSolved then .maybe else outcome) :
        FuelM TryResult) :=
  .bind (tryUnify_throughout fuel _ candidate goal) fun _ =>
    Store.read_throughout (fun _ => .pure _) fun h => by rw [funext h.isSolved]

theorem matchGoal_throughout (fuel : Nat) (candidate goal : Con) (goalMVars : List MetaId) :
    Throughout P (matchGoal context fuel candidate goal goalMVars) := by
  rw [matchGoal_eq]
  exact speculate_throughout (certainty_throughout fuel candidate goal goalMVars) _

theorem attempt_eq (fuel : Nat) (inst : Instance) (goal : Con) (goalMVars : List MetaId) :
    attempt context fuel inst goal goalMVars =
      Store.speculate (do
        let opened ← openType context.globals context.depth fuel inst.type
        matchGoal context fuel opened.head goal goalMVars) (fun _ => false) := by
  simp only [attempt, Store.speculate, bind_assoc]
  rfl

theorem openMatch_throughout (fuel : Nat) (inst : Instance) (goal : Con) (goalMVars : List MetaId) :
    Throughout P (do
      let opened ← openType context.globals context.depth fuel inst.type
      matchGoal context fuel opened.head goal goalMVars) :=
  .bind (openType_throughout _ fuel _) fun _ => matchGoal_throughout fuel _ goal goalMVars

theorem attempt_throughout (fuel : Nat) (inst : Instance) (goal : Con) (goalMVars : List MetaId) :
    Throughout P (attempt context fuel inst goal goalMVars) := by
  rw [attempt_eq]
  exact speculate_throughout (openMatch_throughout fuel inst goal goalMVars) _

theorem fromLocals_throughout (fuel : Nat) (goal : Con) (goalMVars : List MetaId)
    (undecided : Bool) (locals : List LocalDict) :
    Throughout P (fromLocals context fuel goal goalMVars undecided locals) := by
  induction locals generalizing undecided with
  | nil => exact .pure _
  | cons candidate locals ih =>
    refine .bind (matchGoal_throughout fuel _ goal goalMVars) fun outcome => ?_
    split
    · refine .bind (tryUnify_throughout fuel _ _ goal) fun outcome => ?_
      split
      · exact .pure _
      · exact ih _
    · exact ih _
    · exact ih _

theorem lift_throughout {α : Type} {x : FuelM α} (h : Throughout P x) :
    Throughout P (liftM x : ResolveM α) :=
  .lift_except (.lift_state h)

section Premises

variable {resolve : Con → ResolveM Step} (H : ∀ goal, Throughout P (resolve goal))
include H

theorem resolveAll_throughout {α : Type} (goals : List (α × Con)) :
    Throughout P (resolveAll resolve goals) := by
  induction goals with
  | nil => exact .pure _
  | cons entry goals ih =>
    refine .bind (H entry.2) fun step => ?_
    split
    · exact .bind ih fun _ => .pure _
    · exact .bind ih fun _ => .pure _

theorem resolveFields_throughout (goal : Con) (fields : List (Con × Con)) (blockers : List MetaId)
    (rigid : Bool) : Throughout P (resolveFields resolve goal fields blockers rigid) := by
  unfold resolveFields
  split
  · exact .pure _
  · split
    · exact .throw _
    · refine .bind (resolveAll_throughout H fields) fun found => ?_
      simp only
      split <;> exact .pure _

theorem resolveRecord_throughout (fuel : Nat) (goal row : Con) :
    Throughout P (resolveRecord context fuel resolve goal row) := by
  refine .bind (lift_throughout (Row.fieldsOf_throughout fuel row)) fun known => ?_
  split
  · exact .pure _
  · refine .bind (lift_throughout (throughout_fuelled (Unify.unsolvedHeads_throughout _)))
      fun names => ?_
    exact resolveFields_throughout H goal _ _ _
  · refine .bind (lift_throughout (throughout_fuelled (Unify.unsolvedHeads_throughout _)))
      fun names => ?_
    refine .bind (lift_throughout (Row.summarize_throughout fuel _)) fun rest => ?_
    exact resolveFields_throughout H goal _ _ _

theorem useInstance_throughout (fuel : Nat) (inst : Instance) (goal : Con) :
    Throughout P (useInstance context fuel resolve inst goal) := by
  refine .bind (lift_throughout (openType_throughout _ fuel _)) fun opened => ?_
  refine .bind (lift_throughout (unify_throughout fuel _ _ goal)) fun result => ?_
  simp only
  split
  · exact .throw _
  · refine .bind (resolveAll_throughout H _) fun found => ?_
    split
    · have hcollect : Throughout P (modify (· ++ opened.disjoint) :
          StateT (List (Con × Con)) FuelM Unit) := .modifyGet _
      exact .bind (.lift_except hcollect) fun _ => .pure _
    · exact .pure _

theorem fromInstances_throughout (fuel : Nat) (goal : Con) (goalMVars : List MetaId) :
    Throughout P (fromInstances context fuel resolve goal goalMVars) := by
  have hattempts := Throughout.mapM (P := P) (m := ResolveM)
    (f := fun inst => return (inst, ← attempt context fuel inst goal goalMVars))
    (fun inst => .bind (lift_throughout (attempt_throughout fuel inst goal goalMVars))
      fun _ => .pure _) context.globals.instances.toList
  refine .bind hattempts fun outcomes => ?_
  simp only
  split
  · split
    · exact .pure _
    · exact useInstance_throughout H fuel _ goal
  · split
    · exact .pure _
    · split
      · exact .throw _
      · exact .throw _

end Premises

theorem resolveGoal_throughout (fuel level : Nat) (goal : Con) :
    Throughout P (resolveGoal context fuel level goal) := by
  induction fuel generalizing level goal with
  | zero => exact lift_throughout Store.Following.outOfFuel
  | succ fuel ih =>
    unfold resolveGoal
    split
    · exact .throw _
    · refine .bind (lift_throughout (headNormal_throughout fuel goal)) fun goal => ?_
      refine .bind (lift_throughout (Store.unsolvedMVars_throughout fuel goal)) fun goalMVars => ?_
      refine .bind (lift_throughout (fromLocals_throughout fuel goal goalMVars _ _)) fun found => ?_
      split
      · exact .pure _
      · simp only
        split
        · exact resolveRecord_throughout (ih _) fuel _ _
        · refine .bind (lift_throughout (head_throughout fuel _)) fun head => ?_
          split
          · exact .pure _
          · split
            · exact fromInstances_throughout (ih _) fuel _ goalMVars
            · exact .throw _

/-- What the search for a whole goal answers, with the preconditions it has collected. -/
def answer : Except ClassError Step × List (Con × Con) → Except ClassError Resolution
  | (.ok (.found dict), disjoint) => .ok (.resolved dict disjoint)
  | (.ok (.wait blockers), _) => .ok (.deferred blockers)
  | (.error error, _) => .error error

def isFound : Except ClassError Step × List (Con × Con) → Bool
  | (.ok (.found _), _) => true
  | _ => false

theorem resolve_eq (fuel : Nat) (goal : Con) :
    (resolve context fuel goal).run =
      answer <$> Store.speculate ((resolveGoal context fuel 0 goal).run.run []) isFound := by
  funext store
  let opened := (Store.snapshot.run store).2
  let search : FuelM (Except ClassError Step × List (Con × Con)) :=
    (resolveGoal context fuel 0 goal).run.run []
  change ((Except.ok <$> search : FuelM (Except ClassError _)) opened).bind _ =
    ((search opened).bind _).bind _
  change ((search opened).bind _).bind _ = _
  rcases search opened with _ | ⟨⟨_ | _ | _, _⟩, store'⟩ <;> rfl

theorem resolve_throughout (fuel : Nat) (goal : Con) :
    Throughout P (resolve context fuel goal) := by
  have hsearch : Throughout P ((resolveGoal context fuel 0 goal).run.run []) :=
    .run_state (resolveGoal_throughout fuel 0 goal) []
  have hspeculate : Throughout P
      (Store.speculate ((resolveGoal context fuel 0 goal).run.run []) isFound) :=
    speculate_throughout hsearch isFound
  have h : P _ (answer <$> Store.speculate _ isFound) := hspeculate.map
  rw [← resolve_eq] at h
  exact h

end Class

end Search

end RowML
