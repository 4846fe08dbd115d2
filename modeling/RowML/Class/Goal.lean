import RowML.Class.Evidence
import RowML.Row.Summary

/-!
# Goals and instance types

The type of an instance is a goal behind quantifiers, disjointness preconditions and dictionary
parameters.  Opening it puts fresh metavariables for what it quantifies over.
-/

namespace RowML

namespace Class

/-- The function at the head of an application in head normal form. -/
def head (globals : Globals) : Nat → Con → FuelM Con
  | 0, _ => outOfFuel
  | fuel + 1, .app f _ => do head globals fuel (← headNormal globals fuel f)
  | fuel + 1, .kapp f _ => do head globals fuel (← headNormal globals fuel f)
  | _ + 1, c => pure c

/-- Whether a predicate holds of every element, asked from left to right until one fails. -/
def allM {α : Type} (p : α → FuelM Bool) : List α → FuelM Bool
  | [] => pure true
  | a :: rest => do if ← p a then allM p rest else pure false

/-- Whether a constructor is a class application or a record of them. -/
def isGoal (globals : Globals) : Nat → Con → FuelM Bool
  | 0, _ => outOfFuel
  | fuel + 1, c => do
    match ← headNormal globals fuel c with
    | .record row =>
      let values := (Row.fields (← Row.summarize globals fuel row)).map (·.2)
      if values.isEmpty then pure false else allM (isGoal globals fuel) values
    | c => return globals.isClassHead (← head globals fuel c)

/-- An instance type taken apart. -/
structure Opened where
  kinds : List Kind
  cons : List Con
  premises : List Con
  disjoint : List (Con × Con)
  head : Con
deriving Inhabited

/-- Takes an instance type apart under `depth` constructor binders. -/
def openType (globals : Globals) (depth : Nat) : Nat → Con → FuelM Opened
  | 0, _ => outOfFuel
  | fuel + 1, type => do
    let type ← headNormal globals fuel type
    match type with
    | .poly _ true kind body =>
      let argument ← Store.fresh kind depth
      let opened ← openType globals depth fuel (← onKinds (body.subst argument))
      pure { opened with cons := argument :: opened.cons }
    | .kpoly _ body =>
      let argument ← onKinds (KindStore.fresh .any)
      let opened ← openType globals depth fuel (← onKinds (body.substKind argument))
      pure { opened with kinds := argument :: opened.kinds }
    | .disjoint left right body =>
      let opened ← openType globals depth fuel body
      pure { opened with disjoint := (left, right) :: opened.disjoint }
    | .arrow domain codomain =>
      if ← isGoal globals fuel domain then
        let opened ← openType globals depth fuel codomain
        pure { opened with premises := domain :: opened.premises }
      else pure ⟨[], [], [], [], type⟩
    | _ => pure ⟨[], [], [], [], type⟩

/-- Whether values of a type can serve as instances. -/
def isInstanceType (globals : Globals) (fuel : Nat) (type : Con) : FuelM Bool := do
  let mark ← Store.snapshot
  let opened ← openType globals 0 fuel type
  let head ← head globals fuel opened.head
  Store.rollback mark
  pure (globals.isClassHead head)

end Class

end RowML
