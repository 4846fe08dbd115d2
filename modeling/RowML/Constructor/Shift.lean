import RowML.Constructor.Feature

/-!
# Shifting bound variables

`lift` makes room for binders around a constructor and `strengthen` removes binders that it does not
mention.  `abstractSkolems` turns skolems back into bound variables.
-/

namespace RowML

namespace Con

/-- Shifts the free variables at or above `cutoff` up by `amount`. -/
def liftAbove (c : Con) (amount cutoff : Nat) : Con :=
  if amount = 0 ∨ c.bound ≤ cutoff then c
  else
    c.rebuild fun depth node =>
      if node.bound ≤ cutoff + depth.con then some node
      else
        match node with
        | .bvar i => some (.bvar (i + amount))
        | _ => none

/-- Shifts every free variable up by `amount`. -/
def lift (c : Con) (amount : Nat) : Con := c.liftAbove amount 0

/-- Removes the `amount` innermost binders from the context of `c`, unless `c` mentions one of
them. -/
def strengthen (c : Con) (amount : Nat) : Option Con :=
  if amount = 0 ∨ c.bound = 0 then some c
  else
    c.rebuildM
      (fun depth node =>
        if node.bound ≤ depth.con then some (some node)
        else
          match node with
          | .bvar i => if i - depth.con < amount then none else some (some (.bvar (i - amount)))
          | _ => some none)
      (fun _ k => some k) Depth.zero

/-- Binds skolems: skolem `j` of `n` becomes the variable of the `j`-th of `n` binders that are put
around a context of `base` binders. -/
def abstractSkolems (c : Con) (skolems : List SkolemId) (base : Nat) : Con :=
  if skolems.isEmpty then c
  else
    c.rebuild fun depth node =>
      if !node.has .skolem then some node
      else
        match node with
        | .skolem s =>
          (skolems.idxOf? s).map fun j => .bvar (depth.con + base + (skolems.length - 1 - j))
        | _ => none

end Con

end RowML
