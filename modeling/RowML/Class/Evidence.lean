import RowML.Module.Globals

/-!
# Evidence for class goals

A class is a constructor function without a definition, and a goal is the class applied to
arguments, or a record of goals.  The evidence for a goal is a dictionary.
-/

namespace RowML

inductive Dict where
  /-- The term variable with this index. -/
  | local (index : Nat)
  /-- An instance applied to what it quantifies over and to the dictionaries that it needs. -/
  | instance (source : InstanceSource) (kinds : List Kind) (cons : List Con) (dicts : List Dict)
  /-- One dictionary for every field of a record of goals. -/
  | record (fields : List (Con × Dict))
deriving Inhabited

/-- A term variable that is a dictionary. -/
structure LocalDict where
  /-- The number of term binders around the binder of the variable. -/
  level : Nat
  /-- Its type, under `depth` constructor binders. -/
  type : Con
  depth : Nat
deriving Inhabited

inductive ClassError where
  | noInstance (goal : Con)
  | ambiguous (goal : Con) (candidates : List InstanceSource)
  | notAClass (goal : Con)
  | depthExceeded (goal : Con)
deriving DecidableEq

inductive Resolution where
  /-- The preconditions of the instances, `disjoint`, are still to be checked. -/
  | resolved (dict : Dict) (disjoint : List (Con × Con))
  | deferred (blockers : List MetaId)
deriving Inhabited

end RowML
