import RowML.Class.Evidence
import RowML.Row.Disjoint
import RowML.Span

/-!
# Obligations

An obligation is a question that elaboration has met and that the solutions of metavariables may
still decide.  It carries the part of its surroundings that the answer depends on.
-/

namespace RowML

/-- Position of a dictionary slot. -/
abbrev SlotId := Nat

inductive Demand where
  | unify (expected found : Con)
  | disjoint (left right : Con) (facts : List Fact)
  /-- A dictionary for `goal`, to be put into `slot`.  The term variables in scope are `valDepth`
  many, of which `locals` are dictionaries; `facts` serve for the preconditions of instances. -/
  | class (slot : SlotId) (goal : Con) (locals : List LocalDict) (facts : List Fact)
      (valDepth : Nat)
deriving Inhabited

structure Obligation where
  demand : Demand
  /-- The number of constructor binders in scope. -/
  depth : Nat
  span : Span
deriving Inhabited

end RowML
