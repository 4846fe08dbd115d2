import RowML.Constructor.Traverse

/-!
# What a constructor mentions

A feature is something that a node of a constructor exhibits, and the constructor has the feature if
one of its nodes does.  The bound of a constructor is one past its largest free variable.  Passes
return a part that cannot change as it is when its features or its bound say so.
-/

namespace RowML

inductive Feature where
  /-- A metavariable, solved or not. -/
  | mvar
  | error
  | skolem
  /-- An item of an enclosing signature. -/
  | relative
  /-- An item of a module. -/
  | member
  | global
  /-- A kind annotation in which a bound kind variable is written. -/
  | kindBVar
  /-- A concatenation, a map or a projection. -/
  | rowOperator
  /-- An application or projection that might reduce. -/
  | redex
  /-- A kind annotation that mentions a kind metavariable. -/
  | kindMVar
deriving DecidableEq, Repr

namespace Feature

def all : List Feature :=
  [.mvar, .error, .skolem, .relative, .member, .global, .kindBVar, .rowOperator, .redex, .kindMVar]

end Feature

namespace Con

/-- The kind annotations of one node. -/
def annotations : Con → List Kind
  | .abs _ k _ => [k]
  | .poly _ _ k _ => [k]
  | .kapp _ k => [k]
  | .row k _ => [k]
  | .map d c _ _ => [d, c]
  | _ => []

/-- Whether one node exhibits a feature, its children apart. -/
def exhibits (feature : Feature) (c : Con) : Bool :=
  match feature, c with
  | .mvar, .mvar _ _ => true
  | .error, .error => true
  | .skolem, .skolem _ => true
  | .relative, .relative _ _ _ => true
  | .member, .member _ _ _ => true
  | .global, .global _ => true
  | .kindBVar, c => c.annotations.any Kind.hasBVar
  | .kindMVar, c => c.annotations.any Kind.hasMVar
  | .rowOperator, .concat _ _ => true
  | .rowOperator, .map _ _ _ _ => true
  | .rowOperator, .proj _ _ => true
  | .redex, .app _ _ => true
  | .redex, .kapp _ _ => true
  | .redex, .map _ _ _ _ => true
  | .redex, .proj _ _ => true
  | .redex, .component _ _ => true
  | _, _ => false

def has (feature : Feature) (c : Con) : Bool :=
  c.foldNodes (fun found _ node => found || node.exhibits feature) false Depth.zero

def features (c : Con) : List Feature := Feature.all.filter fun feature => c.has feature

/-- One past the largest free variable; 0 if there is none. -/
def bound (c : Con) : Nat :=
  c.foldNodes
    (fun bound depth node =>
      match node with
      | .bvar i => max bound (i + 1 - depth.con)
      | _ => bound)
    0 Depth.zero

/-- The metavariables that are written in `c`, each once, in the order of their first occurrence. -/
def mvars (c : Con) : List MetaId :=
  c.foldNodes
    (fun seen _ node =>
      match node with
      | .mvar v _ => if seen.contains v then seen else seen ++ [v]
      | _ => seen)
    [] Depth.zero

/-- The skolems that are written in `c`, each once, in the order of their first occurrence. -/
def skolems (c : Con) : List SkolemId :=
  c.foldNodes
    (fun seen _ node =>
      match node with
      | .skolem s => if seen.contains s then seen else seen ++ [s]
      | _ => seen)
    [] Depth.zero

/-- Whether the outermost node binds a constructor variable. -/
def bindsCon : Con → Bool
  | .abs _ _ _ => true
  | .poly _ _ _ _ => true
  | _ => false

/-- Whether the outermost node is a row literal, a concatenation or a map. -/
def isRowForm : Con → Bool
  | .row _ _ => true
  | .concat _ _ => true
  | .map _ _ _ _ => true
  | _ => false

def isMVar : Con → Bool
  | .mvar _ _ => true
  | _ => false

end Con

end RowML
