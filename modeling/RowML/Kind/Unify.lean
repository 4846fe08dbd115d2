import RowML.Kind.Store

/-!
# Unification of kinds

Kind unification decides at once: it solves metavariables by linking them, or fails.  A failure
keeps the links made before it.
-/

namespace RowML

inductive KindError where
  | mismatch (expected found : Kind)
  | occurs (var : KindVar) (kind : Kind)
  | predicate (predicate : KindPredicate) (found : Kind)
deriving DecidableEq

/-- Computations over a store of kinds that may fail or run out of fuel. -/
abbrev KindUnifyM := ExceptT KindError (Fuelled KindStore)

namespace KindStore

/-- Whether a kind meets a demand, as far as its outermost form tells. -/
@[simp] def admits : KindPredicate → Kind → Bool
  | .any, _ => true
  | .record, .record _ => true
  | .tupleWidth n, .tuple ks => n ≤ ks.length
  | _, _ => false

/-- The pairs of a demanded and an actual component of a tuple. -/
def demandedPairs (components : List (Nat × Kind)) : Kind → List (Kind × Kind)
  | .tuple ks => components.filterMap fun (i, demanded) => (ks[i]?).map (demanded, ·)
  | _ => []

/-- Links the unbound variable `var` to `target`, then unifies what was demanded of its components
with the components of `target`. -/
def solve (unify : Kind → Kind → KindUnifyM Unit) (var : KindVar) (target : Kind) :
    KindUnifyM Unit := do
  match (← get).stateOf var with
  | .link _ => pure ()
  | .unbound predicate components =>
    if (← get).occurs var target then throw (.occurs var target)
    else if admits predicate target then
      setVar var (.link target)
      (demandedPairs components target).forM fun (demanded, actual) => unify demanded actual
    else throw (.predicate predicate target)

/-- Adds demands to a list of demands.  The second list holds the pairs of kinds that two demands
on the same component make equal. -/
def mergeComponents (components : List (Nat × Kind)) :
    List (Nat × Kind) → List (Nat × Kind) × List (Kind × Kind)
  | [] => (components, [])
  | (i, kind) :: rest =>
    match components.lookup i with
    | some existing =>
      let (merged, pairs) := mergeComponents components rest
      (merged, (kind, existing) :: pairs)
    | none => mergeComponents (components ++ [(i, kind)]) rest

/-- Links the unbound variable `left` to the unbound variable `right`, which keeps the demands on
both. -/
def mergeVars (unify : Kind → Kind → KindUnifyM Unit) (left right : KindVar) : KindUnifyM Unit := do
  match (← get).stateOf left, (← get).stateOf right with
  | .unbound leftPredicate leftComponents, .unbound rightPredicate rightComponents =>
    match leftPredicate.meet rightPredicate with
    | none => throw (.predicate leftPredicate (.mvar right))
    | some predicate =>
      let (components, pairs) := mergeComponents rightComponents leftComponents
      setVar right (.unbound predicate components)
      setVar left (.link (.mvar right))
      pairs.forM fun (demanded, existing) => unify demanded existing
  | _, _ => pure ()

/-- Makes two kinds equal by solving metavariables. -/
def unify : Nat → Kind → Kind → KindUnifyM Unit
  | 0, _, _ => outOfFuel
  | fuel + 1, expected, found => do
    if expected = found then pure ()
    else
      let a ← resolve expected
      let b ← resolve found
      if a = b ∨ a = .error ∨ b = .error then pure ()
      else
        match a, b with
        | .mvar left, .mvar right => mergeVars (unify fuel) left right
        | .mvar var, target => solve (unify fuel) var target
        | target, .mvar var => solve (unify fuel) var target
        | .arrow d c, .arrow d' c' => do
          unify fuel d d'
          unify fuel c c'
        | .record e, .record e' => unify fuel e e'
        | .tuple ks, .tuple ks' =>
          if ks.length = ks'.length then (ks.zip ks').forM fun (k, k') => unify fuel k k'
          else throw (.mismatch a b)
        | .poly _ body, .poly _ body' => unify fuel body body'
        | _, _ => throw (.mismatch a b)

/-- The kind of component `index` of a constructor of kind `k`.  An unknown `k` is constrained to a
tuple that is wide enough, and the component is remembered for when it is solved. -/
def tupleComponent (k : Kind) (index : Nat) : ExceptT KindError KindM Kind := do
  match ← resolve k with
  | .tuple ks =>
    match ks[index]? with
    | some component => pure component
    | none => throw (.predicate (.tupleWidth (index + 1)) (.tuple ks))
  | .mvar var =>
    match (← get).stateOf var with
    | .link _ => pure .error
    | .unbound predicate components =>
      match predicate.meet (.tupleWidth (index + 1)) with
      | none => throw (.predicate predicate (.mvar var))
      | some predicate =>
        match components.lookup index with
        | some existing => pure existing
        | none =>
          let component ← fresh .any
          setVar var (.unbound predicate (components ++ [(index, component)]))
          pure component
  | .error => pure .error
  | other => throw (.predicate (.tupleWidth (index + 1)) other)

end KindStore

end RowML
