import RowML.Kind.Unify
import RowML.Proofs.Composition

/-!
# How kinds are computed

Every operation on a store of kinds is made up of three elementary ones: it reads what is known of
variables, it overwrites what is known of a variable, and it makes new variables.
-/

namespace RowML

namespace KindStore

/-- Computations that are made up of the elementary ones. -/
inductive Composed : (α : Type) → Fuelled KindStore α → Prop where
  | pure {α : Type} (a : α) : Composed α (pure a)
  | bind {α β : Type} {x : Fuelled KindStore α} {f : α → Fuelled KindStore β}
      (hx : Composed α x) (hf : ∀ a, Composed β (f a)) : Composed β (x >>= f)
  | outOfFuel {α : Type} : Composed α outOfFuel
  | read {α : Type} {f : KindStore → Fuelled KindStore α} (hf : ∀ s, Composed α (f s))
      (same : ∀ {s t : KindStore}, s.vars = t.vars → f s = f t) : Composed α (get >>= f)
  | setVar (v : KindVar) (state : KindVarState) : Composed Unit (liftM (setVar v state))
  | fresh (predicate : KindPredicate) : Composed Kind (liftM (fresh predicate))

/-- Properties that reading the number of variables has. -/
class Sized (P : (α : Type) → Fuelled KindStore α → Prop) : Prop extends Compositional P where
  size : ∀ {α : Type} {f : Nat → Fuelled KindStore α}, (∀ n, P α (f n)) →
    P α (get >>= fun s => f s.vars.size)

/-- Properties that reading what is known of variables has. -/
class Readable (P : (α : Type) → Fuelled KindStore α → Prop) : Prop extends Compositional P where
  read : ∀ {α : Type} {f : KindStore → Fuelled KindStore α}, (∀ s, P α (f s)) →
    (∀ {s t : KindStore}, s.vars = t.vars → f s = f t) → P α (get >>= f)

instance {P : (α : Type) → Fuelled KindStore α → Prop} [Readable P] : Sized P where
  size hf := Readable.read (fun _ => hf _) fun h => by rw [h]

instance : Readable Composed := { pure := .pure, bind := .bind, read := .read }

/-! ## What is read -/

section Read

variable {s t : KindStore}

theorem stateOf_congr (h : s.vars = t.vars) (v : KindVar) : s.stateOf v = t.stateOf v := by
  rw [stateOf, h, stateOf]

theorem follow_congr (h : s.vars = t.vars) (n : Nat) (k : Kind) : s.follow n k = t.follow n k := by
  induction n generalizing k with
  | zero => cases k <;> rfl
  | succ n ih =>
    cases k with
    | mvar v =>
      simp only [follow, stateOf_congr h, ih]
    | _ => rfl

theorem expandWithin_congr (h : s.vars = t.vars) (n : Nat) (k : Kind) :
    s.expandWithin n k = t.expandWithin n k := by
  induction n generalizing k with
  | zero => rfl
  | succ n ih => simp only [expandWithin, follow_congr h, h, ih]

theorem occurs_congr (h : s.vars = t.vars) (v : KindVar) (k : Kind) :
    s.occurs v k = t.occurs v k := by
  simp only [occurs, expand, expandWithin_congr h, h]

variable {P : (α : Type) → Fuelled KindStore α → Prop} [Readable P] {α : Type}

theorem read_throughout {f : KindStore → KindM α} (hf : ∀ s, Throughout P (f s))
    (same : ∀ {s t : KindStore}, s.vars = t.vars → f s = f t) :
    Throughout P (get >>= f : KindM α) :=
  Readable.read (f := fun s => liftM (f s)) hf fun h => by rw [same h]

theorem read_fuelled {f : KindStore → Fuelled KindStore α} (hf : ∀ s, Throughout P (f s))
    (same : ∀ {s t : KindStore}, s.vars = t.vars → f s = f t) :
    Throughout P (get >>= f : Fuelled KindStore α) :=
  Readable.read hf same

theorem read_fallible {f : KindStore → KindUnifyM α} (hf : ∀ s, Throughout P (f s))
    (same : ∀ {s t : KindStore}, s.vars = t.vars → f s = f t) :
    Throughout P (get >>= f : KindUnifyM α) :=
  Readable.read (f := fun s => (f s).run) hf fun h => by rw [same h]

theorem read_except {ε : Type} {f : KindStore → ExceptT ε KindM α}
    (hf : ∀ s, Throughout P (f s)) (same : ∀ {s t : KindStore}, s.vars = t.vars → f s = f t) :
    Throughout P (get >>= f : ExceptT ε KindM α) :=
  read_throughout (f := fun s => (f s).run) hf fun h => by rw [same h]

end Read

/-! ## Following links -/

theorem setVar_throughout (v : KindVar) (state : KindVarState) :
    Throughout Composed (setVar v state) :=
  Composed.setVar v state

theorem resolveWithin_throughout (n : Nat) (k : Kind) :
    Throughout Composed (resolveWithin n k) := by
  induction n generalizing k with
  | zero =>
    have hrun : resolveWithin 0 k = pure k := by cases k <;> rfl
    rw [hrun]
    exact .pure k
  | succ n ih =>
    cases k with
    | mvar v =>
      refine read_throughout (fun s => ?_) fun h => by simp only [stateOf_congr h]
      split
      · refine .bind (ih _) fun root => ?_
        split
        · exact .bind (setVar_throughout _ _) fun _ => .pure _
        · exact .pure _
      · exact .pure _
    | _ => exact .pure _

theorem resolve_throughout (k : Kind) : Throughout Composed (resolve k) :=
  read_throughout (fun _ => resolveWithin_throughout _ k) fun h => by rw [h]

/-! ## Rebuilding through links -/

section Rebuild

variable {P : (α : Type) → Fuelled KindStore α → Prop} [Sized P]
  (hresolve : ∀ k, Throughout P (resolve k))
include hresolve

section

variable {keep : Kind → Bool} {onBVar : Nat → Nat → KindM Kind}
  (hbvar : ∀ d i, Throughout P (onBVar d i))
include hbvar

theorem rebuildWithin_throughout (fuel depth : Nat) (k : Kind) :
    Throughout P (rebuildWithin keep onBVar fuel depth k) := by
  induction fuel generalizing depth k with
  | zero => exact .pure k
  | succ fuel ih =>
    refine Kind.rebuildM_throughout hbvar (fun d v => ?_) depth k
    refine .bind (hresolve _) fun root => ?_
    split
    · exact .pure _
    · exact ih _ _

theorem rebuild_throughout (k : Kind) : Throughout P (rebuild keep onBVar k) :=
  Sized.size (f := fun n => liftM (rebuildWithin keep onBVar (n + 1) 0 k)) fun _ =>
    rebuildWithin_throughout hresolve hbvar _ 0 k

end

theorem zonk_throughout (k : Kind) : Throughout P (zonk k) :=
  rebuild_throughout hresolve (fun _ _ => .pure _) k

theorem lift_throughout (k : Kind) (amount cutoff : Nat) : Throughout P (lift k amount cutoff) := by
  unfold lift
  split
  · exact .pure k
  · exact rebuild_throughout hresolve (fun _ _ => .pure _) k

theorem subst_throughout (k argument : Kind) (index : Nat) :
    Throughout P (subst k argument index) := by
  refine rebuild_throughout hresolve (fun d i => ?_) k
  split
  · exact lift_throughout hresolve _ _ _
  · exact .pure _

end Rebuild

/-- The computation has every property that following links has. -/
def OnlyFollows {α : Type} (x : KindM α) : Prop :=
  ∀ {P : (α : Type) → Fuelled KindStore α → Prop} [Sized P],
    (∀ k, Throughout P (resolve k)) → Throughout P x

theorem defaultUnsolved_throughout (fuel : Nat) (k : Kind) :
    Throughout Composed (defaultUnsolved fuel k) := by
  induction fuel generalizing k with
  | zero => exact Composed.outOfFuel
  | succ fuel ih =>
    refine Kind.rebuildM_throughout (fun _ _ => .pure _) (fun _ v => ?_) 0 k
    refine .bind (throughout_fuelled (resolve_throughout _)) fun root => ?_
    split
    · refine read_fuelled (fun s => ?_) fun h => by simp only [stateOf_congr h]
      split
      · exact .bind (setVar_throughout _ _) fun _ => ih _
      · exact .pure _
    · exact ih _

/-! ## Unification -/

theorem lift_fallible {α : Type} {x : KindM α} (h : Throughout Composed x) :
    Throughout Composed (liftM x : KindUnifyM α) :=
  .lift_except (throughout_fuelled h)

section Steps

variable {unify : Kind → Kind → KindUnifyM Unit} (H : ∀ a b, Throughout Composed (unify a b))
include H

theorem solve_throughout (v : KindVar) (target : Kind) :
    Throughout Composed (solve unify v target) := by
  refine read_fallible (fun s => ?_) fun h => by simp only [stateOf_congr h]
  split
  · exact .pure _
  · refine read_fallible (fun s => ?_) fun h => by simp only [occurs_congr h]
    split
    · exact .throw _
    · split
      · exact .bind (lift_fallible (setVar_throughout _ _)) fun _ => .forM (fun _ => H _ _) _
      · exact .throw _

theorem mergeVars_throughout (left right : KindVar) :
    Throughout Composed (mergeVars unify left right) := by
  refine read_fallible (fun s => ?_) fun h => by simp only [stateOf_congr h]
  refine read_fallible (fun s => ?_) fun h => by simp only [stateOf_congr h]
  split
  · split
    · exact .throw _
    · exact .bind (lift_fallible (setVar_throughout _ _)) fun _ =>
        .bind (lift_fallible (setVar_throughout _ _)) fun _ => .forM (fun _ => H _ _) _
  · exact .pure _

end Steps

theorem unify_throughout (fuel : Nat) (a b : Kind) : Throughout Composed (unify fuel a b) := by
  induction fuel generalizing a b with
  | zero => exact Throughout.lift_except (m := Fuelled KindStore) Composed.outOfFuel
  | succ fuel ih =>
    unfold unify
    split
    · exact .pure _
    · refine .bind (lift_fallible (resolve_throughout a)) fun a => ?_
      refine .bind (lift_fallible (resolve_throughout b)) fun b => ?_
      split
      · exact .pure _
      · split
        · exact mergeVars_throughout ih _ _
        · exact solve_throughout ih _ _
        · exact solve_throughout ih _ _
        · exact .bind (ih _ _) fun _ => ih _ _
        · exact ih _ _
        · split
          · exact .forM (fun _ => ih _ _) _
          · exact .throw _
        · exact ih _ _
        · exact .throw _

theorem tupleComponent_throughout (k : Kind) (index : Nat) :
    Throughout Composed (tupleComponent k index) := by
  refine .bind (.lift_except (resolve_throughout k)) fun root => ?_
  split
  · split
    · exact .pure _
    · exact .throw _
  · refine read_except (fun s => ?_) fun h => by simp only [stateOf_congr h]
    split
    · exact .pure _
    · split
      · exact .throw _
      · split
        · exact .pure _
        · exact .bind (.lift_except (Composed.fresh _)) fun _ =>
            .bind (.lift_except (setVar_throughout _ _)) fun _ => .pure _
  · exact .pure _
  · exact .throw _

end KindStore

end RowML
