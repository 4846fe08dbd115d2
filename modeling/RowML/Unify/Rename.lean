import RowML.Constructor.Shift
import RowML.Fuelled

/-!
# Renaming a solution into the context of a metavariable

An occurrence of a metavariable whose spine consists of distinct variables is a pattern: the other
side of an equation becomes its solution once every variable is renamed to its position in the
spine.  Renaming finds out whether the metavariable occurs in its own solution and whether a
variable outside the spine would escape.  Inside the spine of another metavariable such a variable
is no error yet, since the other metavariable might turn out not to use it.
-/

namespace RowML

inductive RenameOutcome where
  | renamed
  | occurs
  | escape
  | stuck
deriving DecidableEq, Repr, Inhabited

structure RenameState where
  outcome : RenameOutcome
  /-- The metavariables around the first variable that could not be renamed, the innermost first. -/
  stuckOn : List MetaId
deriving Inhabited

abbrev RenameM := Fuelled RenameState

namespace RenameState

def start : RenameState := ⟨.renamed, []⟩

def isSettled (state : RenameState) : Bool := state.outcome = .occurs ∨ state.outcome = .escape

end RenameState

namespace Con

/-- Renames `c` for the metavariable `target`, whose spine are the variables `spine`.  `foreign`
says whether `c` is in the spine of another metavariable. -/
def renameAt (target : MetaId) (spine : List Nat) : Nat → Bool → Depth → Con → RenameM Con
  | 0, _, _, _ => outOfFuel
  | fuel + 1, foreign, depth, c =>
    c.rebuildM
      (fun depth node => do
        let state ← get
        if state.isSettled then pure (some node)
        else if node.bound ≤ depth.con ∧ !node.has .mvar then pure (some node)
        else
          match node with
          | .bvar i =>
            if i < depth.con then pure none
            else
              match spine.idxOf? (i - depth.con) with
              | some p => pure (some (.bvar (depth.con + spine.length - 1 - p)))
              | none =>
                set { state with outcome := if foreign then .stuck else .escape }
                pure (some node)
          | .mvar id arguments =>
            if id = target then
              set { state with outcome := .occurs }
              pure (some node)
            else
              let arguments ← arguments.mapM (renameAt target spine fuel true depth)
              let after ← get
              if after.outcome = .stuck ∧ state.outcome ≠ .stuck ∧ !after.stuckOn.contains id then
                set { after with stuckOn := after.stuckOn ++ [id] }
              pure (some (.mvar id arguments))
          | _ => pure none)
      (fun _ k => pure k) depth

/-- Renames `c` for the metavariable `target`, whose spine are the variables `spine`. -/
def renameFor (target : MetaId) (spine : List Nat) (fuel : Nat) (c : Con) :
    Option (Con × RenameState) :=
  (c.renameAt target spine fuel false Depth.zero).run RenameState.start

end Con

end RowML
