import RowML.Store.Subst

/-!
# Reading solutions

`resolve` follows solved metavariables at the head of a constructor, `zonk` replaces all of them.
Both link a cell whose solution is itself solved to the final answer.
-/

namespace RowML

namespace Store

/-- The constructor that `c` stands for at its head, after at most `fuel` solved cells. -/
def resolveWithin : Nat → Con → StoreM Con
  | fuel + 1, .mvar id spine => do
    match (← get).solution? id with
    | none => pure (.mvar id spine)
    | some target =>
      let final ← resolveWithin fuel target
      if final ≠ target then setSolution id (some final)
      onKinds (final.instantiate spine)
  | _, c => pure c

/-- The constructor that `c` stands for at its head.  A chain of solutions passes each cell at most
once. -/
def resolve (c : Con) : StoreM Con := do resolveWithin (← get).cells.size c

/-- The unsolved metavariable at the head of `c`. -/
def unsolvedHead (c : Con) : StoreM (Option MetaId) := do
  match ← resolve c with
  | .mvar id _ => pure (some id)
  | _ => pure none

/-- Replaces every solved metavariable in `c` by its solution, and every solved kind metavariable
likewise. -/
def zonk : Nat → Con → FuelM Con
  | 0, _ => outOfFuel
  | fuel + 1, c =>
    c.rebuildM
      (fun _ node => do
        if !(node.has .mvar || node.has .kindMVar) then pure (some node)
        else
          match node with
          | .mvar _ _ =>
            let resolved ← resolve node
            if resolved ≠ node then some <$> zonk fuel resolved else pure none
          | _ => pure none)
      (fun _ k => do onKinds (KindStore.zonk k)) Depth.zero

/-- The metavariables that `c` waits for, in the order of their first occurrence. -/
def unsolvedMVars (fuel : Nat) (c : Con) : FuelM (List MetaId) := return (← zonk fuel c).mvars

/-- The skolems that `c` stands for mentions, in the order of their first occurrence. -/
def skolemsOf (fuel : Nat) (c : Con) : FuelM (List SkolemId) := return (← zonk fuel c).skolems

end Store

end RowML
