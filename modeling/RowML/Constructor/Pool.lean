import RowML.Constructor.Feature

/-!
# Interning

A pool holds every constructor once: an index stands for a node whose parts are indices of earlier
nodes.  What is known of a node is computed when the node is added, from what is stored of its
parts, and stored beside it.
-/

namespace RowML

/-- One node of a constructor, with `α` in the place of its parts. -/
inductive Node (α : Type) where
  | prim (type : Prim)
  | unit
  | error
  | bvar (index : Nat)
  | global (definition : DefId)
  | member (module : ModuleId) (path : List String) (item : String)
  | relative (level : Nat) (path : List String) (item : String)
  | skolem (id : SkolemId)
  | mvar (id : MetaId) (spine : List α)
  | app (function argument : α)
  | abs (binder : String) (kind : Kind) (body : α)
  | kabs (binder : String) (body : α)
  | kapp (function : α) (argument : Kind)
  | arrow (domain codomain : α)
  | poly (binder : String) (implicit : Bool) (kind : Kind) (body : α)
  | kpoly (binder : String) (body : α)
  | disjoint (left right body : α)
  | record (row : α)
  | variant (row : α)
  | row (kind : Kind) (fields : List (α × α))
  | label (name : String)
  | concat (left right : α)
  | map (domain codomain : Kind) (function row : α)
  | proj (row field : α)
  | tuple (components : List α)
  | component (tuple : α) (index : Nat)
deriving DecidableEq

/-- What is known of a constructor without looking into it: the features that it has, and its
bound. -/
@[ext] structure Metadata where
  has : Feature → Bool
  bound : Nat

namespace Metadata

/-- A node with these features and no variable. -/
def ofFeatures (features : List Feature) : Metadata := ⟨features.contains, 0⟩

def empty : Metadata := ofFeatures []

/-- What a kind annotation adds. -/
def ofKind (k : Kind) : Metadata where
  has
    | .kindBVar => k.hasBVar
    | .kindMVar => k.hasMVar
    | _ => false
  bound := 0

/-- What is known of two parts taken together. -/
def join (m n : Metadata) : Metadata :=
  ⟨fun feature => m.has feature || n.has feature, max m.bound n.bound⟩

/-- What is known of a part under a constructor binder. -/
def underCon (m : Metadata) : Metadata := { m with bound := m.bound - 1 }

end Metadata

namespace Node

variable {α β : Type}

/-- The parts of a node, from left to right. -/
def parts : Node α → List α
  | .mvar _ spine => spine
  | .app f a => [f, a]
  | .abs _ _ body => [body]
  | .kabs _ body => [body]
  | .kapp f _ => [f]
  | .arrow a b => [a, b]
  | .poly _ _ _ body => [body]
  | .kpoly _ body => [body]
  | .disjoint l r body => [l, r, body]
  | .record r => [r]
  | .variant r => [r]
  | .row _ fields => fields.flatMap fun field => [field.1, field.2]
  | .concat l r => [l, r]
  | .map _ _ f r => [f, r]
  | .proj r f => [r, f]
  | .tuple cs => cs
  | .component t _ => [t]
  | _ => []

/-- The same node with other parts. -/
def mapParts (f : α → β) : Node α → Node β
  | .prim p => .prim p
  | .unit => .unit
  | .error => .error
  | .bvar i => .bvar i
  | .global d => .global d
  | .member m p x => .member m p x
  | .relative l p x => .relative l p x
  | .skolem s => .skolem s
  | .mvar v spine => .mvar v (spine.map f)
  | .app g a => .app (f g) (f a)
  | .abs x k body => .abs x k (f body)
  | .kabs x body => .kabs x (f body)
  | .kapp g k => .kapp (f g) k
  | .arrow a b => .arrow (f a) (f b)
  | .poly x implicit k body => .poly x implicit k (f body)
  | .kpoly x body => .kpoly x (f body)
  | .disjoint l r body => .disjoint (f l) (f r) (f body)
  | .record r => .record (f r)
  | .variant r => .variant (f r)
  | .row k fields => .row k (fields.map fun field => (f field.1, f field.2))
  | .label x => .label x
  | .concat l r => .concat (f l) (f r)
  | .map d c g r => .map d c (f g) (f r)
  | .proj r field => .proj (f r) (f field)
  | .tuple cs => .tuple (cs.map f)
  | .component t i => .component (f t) i

/-- The constructor with this outermost node. -/
def toCon : Node Con → Con
  | .prim p => .prim p
  | .unit => .unit
  | .error => .error
  | .bvar i => .bvar i
  | .global d => .global d
  | .member m p x => .member m p x
  | .relative l p x => .relative l p x
  | .skolem s => .skolem s
  | .mvar v spine => .mvar v spine
  | .app g a => .app g a
  | .abs x k body => .abs x k body
  | .kabs x body => .kabs x body
  | .kapp g k => .kapp g k
  | .arrow a b => .arrow a b
  | .poly x implicit k body => .poly x implicit k body
  | .kpoly x body => .kpoly x body
  | .disjoint l r body => .disjoint l r body
  | .record r => .record r
  | .variant r => .variant r
  | .row k fields => .row k fields
  | .label x => .label x
  | .concat l r => .concat l r
  | .map d c g r => .map d c g r
  | .proj r field => .proj r field
  | .tuple cs => .tuple cs
  | .component t i => .component t i

/-- What is known of a constructor, given what is known of the parts of its outermost node. -/
def metadata : Node Metadata → Metadata
  | .prim _ | .unit | .label _ => .empty
  | .error => .ofFeatures [.error]
  | .bvar i => { Metadata.empty with bound := i + 1 }
  | .global _ => .ofFeatures [.global]
  | .member _ _ _ => .ofFeatures [.member]
  | .relative _ _ _ => .ofFeatures [.relative]
  | .skolem _ => .ofFeatures [.skolem]
  | .mvar _ spine => spine.foldl .join (.ofFeatures [.mvar])
  | .app f a => ((Metadata.ofFeatures [.redex]).join f).join a
  | .abs _ k body | .poly _ _ k body => (Metadata.ofKind k).join body.underCon
  | .kabs _ body | .kpoly _ body => body
  | .kapp f k => ((Metadata.ofFeatures [.redex]).join (.ofKind k)).join f
  | .arrow a b => a.join b
  | .concat l r => ((Metadata.ofFeatures [.rowOperator]).join l).join r
  | .disjoint l r body => (l.join r).join body
  | .record r | .variant r => r
  | .row k fields => fields.foldl (fun m field => (m.join field.1).join field.2) (.ofKind k)
  | .map d c f r =>
    (((Metadata.ofFeatures [.rowOperator, .redex]).join (.ofKind d)).join
      (.ofKind c)).join f |>.join r
  | .proj r f => ((Metadata.ofFeatures [.rowOperator, .redex]).join r).join f
  | .tuple cs => cs.foldl .join .empty
  | .component t _ => (Metadata.ofFeatures [.redex]).join t

end Node

structure Pool where
  nodes : Array (Node Nat)
  /-- What is known of the constructor at each index. -/
  metadata : Array Metadata

namespace Pool

def empty : Pool := ⟨#[], #[]⟩

/-- What is stored of the constructor at an index. -/
def metadataAt (pool : Pool) (index : Nat) : Metadata := (pool.metadata[index]?).getD .empty

/-- The pool with one more node, and what its parts say about it. -/
def push (pool : Pool) (node : Node Nat) : Pool where
  nodes := pool.nodes.push node
  metadata := pool.metadata.push (node.mapParts pool.metadataAt).metadata

/-- The index of a node.  A node that is not there yet is added. -/
def intern (node : Node Nat) : StateM Pool Nat := do
  let pool ← get
  match pool.nodes.finIdxOf? node with
  | some index => pure index.val
  | none =>
    set (pool.push node)
    pure pool.nodes.size

/-- The constructors that are there from the start, with their indices in this order. -/
def initialNodes : List (Node Nat) :=
  [.prim .int, .prim .float, .prim .string, .prim .char, .prim .bool, .unit, .error, .row .type [],
    .record 7]

/-- The pool that every session starts with. -/
def initial : Pool := ((initialNodes.forM fun node => discard (intern node)).run empty).2

/-- The constructors that the indices stand for, in order. -/
def constructors (pool : Pool) : Array Con :=
  pool.nodes.foldl (fun cs node => cs.push (node.mapParts fun i => (cs[i]?).getD .unit).toCon) #[]

end Pool

end RowML
