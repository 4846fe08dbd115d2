import RowML.Row.Summary
import RowML.Unify.Error
import RowML.Unify.Rename

/-!
# Equations

Unification solves metavariables in the store, fails with a reason, or postpones equations that
cannot be decided yet, each with the metavariables whose solution may help.
-/

namespace RowML

structure Postponed where
  expected : Con
  found : Con
  /-- The number of constructor binders around the equation. -/
  depth : Nat
  blockers : List MetaId
deriving Inhabited

/-- Computations that unify.  The state besides the store is the list of postponed equations; a
failure keeps both. -/
abbrev UnifyM := ExceptT UnifyError (StateT (List Postponed) FuelM)

namespace Unify

def mismatch {α : Type} (expected found : Con) (reason : MismatchReason) : UnifyM α :=
  throw (.mismatch expected found reason)

def postpone (depth : Nat) (expected found : Con) (blockers : List MetaId) : UnifyM Unit :=
  modify fun postponed => postponed ++ [⟨expected, found, depth, blockers⟩]

def getStore : UnifyM Store := liftM (get : FuelM Store)

def unifyKinds (fuel : Nat) (expected found : Kind) : UnifyM Unit := do
  match ← (onKindsFallibly (KindStore.unify fuel expected found)).run with
  | .ok () => pure ()
  | .error error => throw (.kind error)

/-- The kind of a constructor where its outermost form tells it. -/
def kindOfHead? (store : Store) : Con → Option Kind
  | .prim _ | .arrow _ _ | .poly _ _ _ _ | .kpoly _ _ | .disjoint _ _ _ | .record _ | .variant _ =>
    some .type
  | .unit => some .unit
  | .label _ => some .name
  | .row kind _ => some (.record kind)
  | .mvar id _ => some (store.cell id).kind
  | _ => none

/-- The variables of a spine that consists of distinct variables. -/
def patternVars : List Con → StoreM (Option (List Nat))
  | spine => go [] spine
where
  go (seen : List Nat) : List Con → StoreM (Option (List Nat))
    | [] => pure (some seen.reverse)
    | c :: rest => do
      match ← Store.resolve c with
      | .bvar i => if seen.contains i then pure none else go (i :: seen) rest
      | _ => pure none

/-- The heads of a spine that are unsolved metavariables. -/
def unsolvedHeads (spine : List Con) : StoreM (List MetaId) :=
  return (← spine.mapM Store.unsolvedHead).filterMap id

/-- Solves the occurrence of `id` with `spine` by `other`, or postpones the equation. -/
def solve (fuel depth : Nat) (id : MetaId) (spine : List Con) (other : Con) : UnifyM Unit := do
  match ← patternVars spine with
  | none =>
    let heads ← unsolvedHeads spine
    postpone depth (.mvar id spine) other (id :: heads)
  | some vars =>
    let zonked ← Store.zonk fuel other
    match zonked.renameFor id vars fuel with
    | none => (outOfFuel : FuelM Unit)
    | some (solution, state) =>
      match state.outcome with
      | .occurs => mismatch (.mvar id spine) other .occurs
      | .escape => mismatch (.mvar id spine) other .escape
      | .stuck => postpone depth (.mvar id spine) other (state.stuckOn ++ [id])
      | .renamed =>
        match kindOfHead? (← getStore) solution with
        | some kind => unifyKinds fuel ((← getStore).cell id).kind kind
        | none => pure ()
        match ← (Store.assign id solution).run with
        | .ok () => pure ()
        | .error _ => mismatch (.mvar id spine) other .structural

end Unify

end RowML
