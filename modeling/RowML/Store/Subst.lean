import RowML.Constructor.Shift
import RowML.Store.Basic

/-!
# Substitution in constructors

A constructor that is moved under binders has its variables shifted, constructor variables and kind
variables alike.  Shifting kinds looks through solved kind metavariables, so these operations work
over a store of kinds.
-/

namespace RowML

namespace Con

/-- Shifts the kind variables in every kind annotation by `amount`.  Parts without a written kind
variable stay as they are. -/
def liftKinds (c : Con) (amount : Nat) : KindM Con :=
  if amount = 0 then pure c
  else
    c.rebuildM (fun _ node => pure (if node.has .kindBVar then none else some node))
      (fun depth k => KindStore.lift k amount depth.kind) Depth.zero

/-- Puts `argument` for kind variable 0 in every kind annotation.  Parts without a written kind
variable stay as they are. -/
def substKind (c : Con) (argument : Kind) : KindM Con :=
  c.rebuildM (fun _ node => pure (if node.has .kindBVar then none else some node))
    (fun depth k => KindStore.subst k argument depth.kind) Depth.zero

/-- The constructor as it reads under further binders. -/
def weaken (c : Con) (depth : Depth) : KindM Con := (c.lift depth.con).liftKinds depth.kind

/-- The body of a binder with `argument` for the variable of the binder. -/
def subst (body argument : Con) : KindM Con :=
  if body.bound = 0 then pure body
  else
    body.rebuildM
      (fun depth node =>
        if node.bound ≤ depth.con then pure (some node)
        else
          match node with
          | .bvar i =>
            if i = depth.con then some <$> argument.weaken depth
            else pure (some (.bvar (i - 1)))
          | _ => pure none)
      (fun _ k => pure k) Depth.zero

/-- A solution as it reads at an occurrence with the given spine. -/
def instantiate (solution : Con) (spine : List Con) : KindM Con :=
  if spine.isEmpty ∨ solution.bound = 0 then pure solution
  else
    solution.rebuildM
      (fun depth node =>
        if node.bound ≤ depth.con then pure (some node)
        else
          match node with
          | .bvar i =>
            match spine.reverse[i - depth.con]? with
            | some argument => some <$> argument.weaken depth
            | none => pure (some (.bvar (i - spine.length)))
          | _ => pure none)
      (fun _ k => pure k) Depth.zero

end Con

end RowML
