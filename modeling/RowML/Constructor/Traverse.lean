import RowML.Constructor.Basic

/-!
# Traversals of constructors

Every pass over constructors is one of three schemes: `rebuildM` rebuilds a constructor and lets a
hook replace whole nodes, `mapChildrenM` acts on the children of one node, and `foldNodes` visits
the nodes from left to right, each before its children.  A kind annotation is treated before the
constructors that stand to its right.
-/

namespace RowML

/-- Numbers of binders between the start of a traversal and a node. -/
structure Depth where
  con : Nat
  kind : Nat
deriving DecidableEq, Repr, Inhabited

namespace Depth

def zero : Depth := ⟨0, 0⟩

def underCon (depth : Depth) : Depth := { depth with con := depth.con + 1 }

def underKind (depth : Depth) : Depth := { depth with kind := depth.kind + 1 }

end Depth

namespace Con

/-- The replacement that a hook gives, or else the rebuilt node. -/
@[inline]
def orRebuild {m : Type → Type} [Monad m] (replacement : m (Option Con)) (rebuild : Unit → m Con) :
    m Con := do
  match ← replacement with
  | some c => pure c
  | none => rebuild ()

mutual
/-- Rebuilds a constructor from the leaves.  Where `node` gives a replacement, it is taken instead
of going on to the children; `kind` rebuilds the kind annotations. -/
@[specialize]
def rebuildM {m : Type → Type} [Monad m] (node : Depth → Con → m (Option Con))
    (kind : Depth → Kind → m Kind) (depth : Depth) : Con → m Con
  | .prim p => orRebuild (node depth (.prim p)) fun _ => pure (.prim p)
  | .unit => orRebuild (node depth .unit) fun _ => pure .unit
  | .error => orRebuild (node depth .error) fun _ => pure .error
  | .bvar i => orRebuild (node depth (.bvar i)) fun _ => pure (.bvar i)
  | .global d => orRebuild (node depth (.global d)) fun _ => pure (.global d)
  | .member m p x => orRebuild (node depth (.member m p x)) fun _ => pure (.member m p x)
  | .relative l p x => orRebuild (node depth (.relative l p x)) fun _ => pure (.relative l p x)
  | .skolem s => orRebuild (node depth (.skolem s)) fun _ => pure (.skolem s)
  | .label x => orRebuild (node depth (.label x)) fun _ => pure (.label x)
  | .mvar v spine => orRebuild (node depth (.mvar v spine)) fun _ => do
    let spine ← rebuildListM node kind depth spine
    pure (.mvar v spine)
  | .app f a => orRebuild (node depth (.app f a)) fun _ => do
    let f ← f.rebuildM node kind depth
    let a ← a.rebuildM node kind depth
    pure (.app f a)
  | .abs x k body => orRebuild (node depth (.abs x k body)) fun _ => do
    let k ← kind depth k
    let body ← body.rebuildM node kind depth.underCon
    pure (.abs x k body)
  | .kabs x body => orRebuild (node depth (.kabs x body)) fun _ => do
    let body ← body.rebuildM node kind depth.underKind
    pure (.kabs x body)
  | .kapp f k => orRebuild (node depth (.kapp f k)) fun _ => do
    let f ← f.rebuildM node kind depth
    let k ← kind depth k
    pure (.kapp f k)
  | .arrow a b => orRebuild (node depth (.arrow a b)) fun _ => do
    let a ← a.rebuildM node kind depth
    let b ← b.rebuildM node kind depth
    pure (.arrow a b)
  | .poly x implicit k body => orRebuild (node depth (.poly x implicit k body)) fun _ => do
    let k ← kind depth k
    let body ← body.rebuildM node kind depth.underCon
    pure (.poly x implicit k body)
  | .kpoly x body => orRebuild (node depth (.kpoly x body)) fun _ => do
    let body ← body.rebuildM node kind depth.underKind
    pure (.kpoly x body)
  | .disjoint l r body => orRebuild (node depth (.disjoint l r body)) fun _ => do
    let l ← l.rebuildM node kind depth
    let r ← r.rebuildM node kind depth
    let body ← body.rebuildM node kind depth
    pure (.disjoint l r body)
  | .record r => orRebuild (node depth (.record r)) fun _ => do
    let r ← r.rebuildM node kind depth
    pure (.record r)
  | .variant r => orRebuild (node depth (.variant r)) fun _ => do
    let r ← r.rebuildM node kind depth
    pure (.variant r)
  | .row k fields => orRebuild (node depth (.row k fields)) fun _ => do
    let k ← kind depth k
    let fields ← rebuildFieldsM node kind depth fields
    pure (.row k fields)
  | .concat l r => orRebuild (node depth (.concat l r)) fun _ => do
    let l ← l.rebuildM node kind depth
    let r ← r.rebuildM node kind depth
    pure (.concat l r)
  | .map d c f r => orRebuild (node depth (.map d c f r)) fun _ => do
    let d ← kind depth d
    let c ← kind depth c
    let f ← f.rebuildM node kind depth
    let r ← r.rebuildM node kind depth
    pure (.map d c f r)
  | .proj r f => orRebuild (node depth (.proj r f)) fun _ => do
    let r ← r.rebuildM node kind depth
    let f ← f.rebuildM node kind depth
    pure (.proj r f)
  | .tuple cs => orRebuild (node depth (.tuple cs)) fun _ => do
    let cs ← rebuildListM node kind depth cs
    pure (.tuple cs)
  | .component t i => orRebuild (node depth (.component t i)) fun _ => do
    let t ← t.rebuildM node kind depth
    pure (.component t i)
@[specialize]
def rebuildListM {m : Type → Type} [Monad m] (node : Depth → Con → m (Option Con))
    (kind : Depth → Kind → m Kind) (depth : Depth) : List Con → m (List Con)
  | [] => pure []
  | c :: cs => do
    let c ← c.rebuildM node kind depth
    let cs ← rebuildListM node kind depth cs
    pure (c :: cs)
@[specialize]
def rebuildFieldsM {m : Type → Type} [Monad m] (node : Depth → Con → m (Option Con))
    (kind : Depth → Kind → m Kind) (depth : Depth) : List (Con × Con) → m (List (Con × Con))
  | [] => pure []
  | (name, value) :: fields => do
    let name ← name.rebuildM node kind depth
    let value ← value.rebuildM node kind depth
    let fields ← rebuildFieldsM node kind depth fields
    pure ((name, value) :: fields)
end

/-- A rebuilding pass without effects that leaves kind annotations alone. -/
def rebuild (node : Depth → Con → Option Con) (c : Con) : Con :=
  Id.run <| c.rebuildM (fun depth c => pure (node depth c)) (fun _ k => pure k) Depth.zero

/-- Acts on the children of one node. -/
@[specialize]
def mapChildrenM {m : Type → Type} [Monad m] (f : Con → m Con) (kind : Kind → m Kind) :
    Con → m Con
  | .prim p => pure (.prim p)
  | .unit => pure .unit
  | .error => pure .error
  | .bvar i => pure (.bvar i)
  | .global d => pure (.global d)
  | .member m p x => pure (.member m p x)
  | .relative l p x => pure (.relative l p x)
  | .skolem s => pure (.skolem s)
  | .label x => pure (.label x)
  | .mvar v spine => return .mvar v (← spine.mapM f)
  | .app g a => return .app (← f g) (← f a)
  | .abs x k body => return .abs x (← kind k) (← f body)
  | .kabs x body => return .kabs x (← f body)
  | .kapp g k => return .kapp (← f g) (← kind k)
  | .arrow a b => return .arrow (← f a) (← f b)
  | .poly x implicit k body => return .poly x implicit (← kind k) (← f body)
  | .kpoly x body => return .kpoly x (← f body)
  | .disjoint l r body => return .disjoint (← f l) (← f r) (← f body)
  | .record r => return .record (← f r)
  | .variant r => return .variant (← f r)
  | .row k fields => do
    let k ← kind k
    let fields ← fields.mapM fun (name, value) => return (← f name, ← f value)
    pure (.row k fields)
  | .concat l r => return .concat (← f l) (← f r)
  | .map d c g r => return .map (← kind d) (← kind c) (← f g) (← f r)
  | .proj r field => return .proj (← f r) (← f field)
  | .tuple cs => return .tuple (← cs.mapM f)
  | .component t i => return .component (← f t) i

mutual
/-- Visits the nodes of a constructor from left to right, each before its children. -/
@[specialize]
def foldNodes {α : Type} (f : α → Depth → Con → α) (acc : α) (depth : Depth) : Con → α
  | .prim p => f acc depth (.prim p)
  | .unit => f acc depth .unit
  | .error => f acc depth .error
  | .bvar i => f acc depth (.bvar i)
  | .global d => f acc depth (.global d)
  | .member m p x => f acc depth (.member m p x)
  | .relative l p x => f acc depth (.relative l p x)
  | .skolem s => f acc depth (.skolem s)
  | .label x => f acc depth (.label x)
  | .mvar v spine => foldNodesList f (f acc depth (.mvar v spine)) depth spine
  | .app g a => foldNodes f (foldNodes f (f acc depth (.app g a)) depth g) depth a
  | .abs x k body => foldNodes f (f acc depth (.abs x k body)) depth.underCon body
  | .kabs x body => foldNodes f (f acc depth (.kabs x body)) depth.underKind body
  | .kapp g k => foldNodes f (f acc depth (.kapp g k)) depth g
  | .arrow a b => foldNodes f (foldNodes f (f acc depth (.arrow a b)) depth a) depth b
  | .poly x implicit k body =>
    foldNodes f (f acc depth (.poly x implicit k body)) depth.underCon body
  | .kpoly x body => foldNodes f (f acc depth (.kpoly x body)) depth.underKind body
  | .disjoint l r body =>
    foldNodes f (foldNodes f (foldNodes f (f acc depth (.disjoint l r body)) depth l) depth r)
      depth body
  | .record r => foldNodes f (f acc depth (.record r)) depth r
  | .variant r => foldNodes f (f acc depth (.variant r)) depth r
  | .row k fields => foldNodesFields f (f acc depth (.row k fields)) depth fields
  | .concat l r => foldNodes f (foldNodes f (f acc depth (.concat l r)) depth l) depth r
  | .map d c g r => foldNodes f (foldNodes f (f acc depth (.map d c g r)) depth g) depth r
  | .proj r field => foldNodes f (foldNodes f (f acc depth (.proj r field)) depth r) depth field
  | .tuple cs => foldNodesList f (f acc depth (.tuple cs)) depth cs
  | .component t i => foldNodes f (f acc depth (.component t i)) depth t
@[specialize]
def foldNodesList {α : Type} (f : α → Depth → Con → α) (acc : α) (depth : Depth) : List Con → α
  | [] => acc
  | c :: cs => foldNodesList f (foldNodes f acc depth c) depth cs
@[specialize]
def foldNodesFields {α : Type} (f : α → Depth → Con → α) (acc : α) (depth : Depth) :
    List (Con × Con) → α
  | [] => acc
  | (name, value) :: fields =>
    foldNodesFields f (foldNodes f (foldNodes f acc depth name) depth value) depth fields
end

end Con

end RowML
