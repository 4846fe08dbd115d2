import RowML.Fuelled
import RowML.Kind.Basic

/-!
# The store of kind metavariables

A kind metavariable is unbound, with a demand on what may be put for it, or linked to a kind.  The
store keeps a trail of overwritten states while a snapshot is open, so that speculation can be
undone.

Links never form a cycle in a store that unification has built.  A path through the links of such a
store passes each variable at most once, so the number of variables bounds the number of links that
any of the functions below has to follow.
-/

namespace RowML

/-- What an unbound kind metavariable may be solved with. -/
inductive KindPredicate where
  | any
  /-- Row kinds only. -/
  | record
  /-- Tuple kinds with at least `n` components only. -/
  | tupleWidth (n : Nat)
deriving DecidableEq, Repr, Inhabited

namespace KindPredicate

/-- The conjunction of two demands, unless they contradict each other. -/
@[simp] def meet : KindPredicate → KindPredicate → Option KindPredicate
  | .any, p => some p
  | p, .any => some p
  | .record, .record => some .record
  | .tupleWidth m, .tupleWidth n => some (.tupleWidth (max m n))
  | .record, .tupleWidth _ => none
  | .tupleWidth _, .record => none

def describe : KindPredicate → String
  | .any => "any kind"
  | .record => "a row kind"
  | .tupleWidth n => "a tuple kind of width at least " ++ toString n

end KindPredicate

inductive KindVarState where
  /-- The kinds demanded of single components of a tuple are `components`, by zero-based index. -/
  | unbound (predicate : KindPredicate) (components : List (Nat × Kind))
  | link (target : Kind)
deriving Inhabited

structure KindStore where
  vars : Array KindVarState
  /-- Overwritten states, the newest first. -/
  trail : List (KindVar × KindVarState)
  /-- Number of open snapshots; nothing is recorded while there is none. -/
  snapshots : Nat
deriving Inhabited

/-- Computations over a store of kinds. -/
abbrev KindM := StateM KindStore

namespace KindStore

def empty : KindStore := ⟨#[], [], 0⟩

def stateOf (store : KindStore) (var : KindVar) : KindVarState :=
  (store.vars[var]?).getD (.unbound .any [])

def setVar (var : KindVar) (state : KindVarState) : KindM Unit :=
  modify fun store =>
    let trail := if store.snapshots = 0 then store.trail
      else (var, store.stateOf var) :: store.trail
    { store with trail, vars := store.vars.setIfInBounds var state }

/-- A new metavariable under a demand. -/
def fresh (predicate : KindPredicate) : KindM Kind := do
  let store ← get
  set { store with vars := store.vars.push (.unbound predicate []) }
  pure (.mvar store.vars.size)

/-! ## Snapshots -/

/-- Opens a snapshot; the answer is the mark to go back to. -/
def snapshot : KindM Nat := do
  let store ← get
  set { store with snapshots := store.snapshots + 1 }
  pure store.trail.length

/-- Puts back the states of the first `count` entries of the trail, one after the other. -/
def unwind (count : Nat) (store : KindStore) : KindStore :=
  { store with
    vars := (store.trail.take count).foldl (fun vars (var, state) => vars.setIfInBounds var state)
      store.vars
    trail := store.trail.drop count }

def rollback (mark : Nat) : KindM Unit :=
  modify fun store =>
    let store := store.unwind (store.trail.length - mark)
    { store with snapshots := store.snapshots - 1 }

/-- Keeps everything since the snapshot.  The trail stays while an outer snapshot may need it. -/
def commit : KindM Unit :=
  modify fun store =>
    let snapshots := store.snapshots - 1
    { store with snapshots, trail := if snapshots = 0 then [] else store.trail }

/-! ## Following links -/

/-- The end of the chain of links that starts at `k`, after at most `fuel` links. -/
def follow (store : KindStore) : Nat → Kind → Kind
  | fuel + 1, .mvar var =>
    match store.stateOf var with
    | .link target => store.follow fuel target
    | .unbound _ _ => .mvar var
  | _, k => k

/-- Replaces every solved metavariable in `k` by its solution; the store is only read. -/
def expandWithin (store : KindStore) : Nat → Kind → Kind
  | 0, k => k
  | fuel + 1, k =>
    Id.run <| k.rebuildM (fun _ => false) (fun _ i => .bvar i)
      (fun _ var =>
        match store.follow store.vars.size (.mvar var) with
        | .mvar root => .mvar root
        | solved => store.expandWithin fuel solved) 0

def expand (store : KindStore) (k : Kind) : Kind := store.expandWithin (store.vars.size + 1) k

/-- Whether an unsolved metavariable is left in `k`. -/
def hasUnsolved (store : KindStore) (k : Kind) : Bool := (store.expand k).hasMVar

def occurs (store : KindStore) (var : KindVar) (k : Kind) : Bool :=
  (store.expand k).mvars.contains var

/-- The end of the chain of links that starts at `k`.  Every variable on the way is linked to the
end directly. -/
def resolveWithin : Nat → Kind → KindM Kind
  | fuel + 1, .mvar var => do
    match (← get).stateOf var with
    | .link target =>
      let root ← resolveWithin fuel target
      if root ≠ target then setVar var (.link root)
      pure root
    | .unbound _ _ => pure (.mvar var)
  | _, k => pure k

def resolve (k : Kind) : KindM Kind := do resolveWithin (← get).vars.size k

/-! ## Rebuilding through links -/

/-- Rebuilds `k` and the solutions it leads to. -/
def rebuildWithin (keep : Kind → Bool) (onBVar : Nat → Nat → KindM Kind) :
    Nat → Nat → Kind → KindM Kind
  | 0, _, k => pure k
  | fuel + 1, depth, k =>
    k.rebuildM keep onBVar
      (fun depth var => do
        match ← resolve (.mvar var) with
        | .mvar root => pure (.mvar root)
        | solved => rebuildWithin keep onBVar fuel depth solved)
      depth

def rebuild (keep : Kind → Bool) (onBVar : Nat → Nat → KindM Kind) (k : Kind) : KindM Kind := do
  rebuildWithin keep onBVar ((← get).vars.size + 1) 0 k

/-- Replaces every solved metavariable inside `k` by its solution. -/
def zonk (k : Kind) : KindM Kind := rebuild (fun _ => false) (fun _ i => pure (.bvar i)) k

/-- Shifts the variables of `k` that are at or above `cutoff`.  A part in which no variable is
written stays as it is. -/
def lift (k : Kind) (by_ cutoff : Nat) : KindM Kind :=
  if by_ = 0 then pure k
  else
    rebuild (fun k => !k.hasBVar)
      (fun depth i => pure (.bvar (if cutoff + depth ≤ i then i + by_ else i))) k

/-- Puts `argument` for variable `index` of `k` and lowers the variables above it. -/
def subst (k argument : Kind) (index : Nat) : KindM Kind :=
  rebuild (fun k => !k.hasBVar)
    (fun depth i =>
      if i = index + depth then lift argument (index + depth) 0
      else pure (.bvar (if index + depth < i then i - 1 else i))) k

/-! ## Defaults -/

/-- The kind that stands for an unbound variable once nothing more will be learnt about it. -/
def defaultFor (predicate : KindPredicate) (components : List (Nat × Kind)) : Kind :=
  match predicate with
  | .any => .type
  | .record => .typeRow
  | .tupleWidth n => .tuple ((List.range n).map fun i => (components.lookup i).getD .type)

/-- Zonks `k` and solves every metavariable that is left with its default, those of the default
included.  This has no end if a metavariable is demanded as a component of itself. -/
def defaultUnsolved : Nat → Kind → Fuelled KindStore Kind
  | 0, _ => outOfFuel
  | fuel + 1, k =>
    k.rebuildM (fun _ => false) (fun _ i => pure (.bvar i))
      (fun _ var => do
        match ← resolve (.mvar var) with
        | .mvar root =>
          match (← get).stateOf root with
          | .unbound predicate components =>
            let target := defaultFor predicate components
            setVar root (.link target)
            defaultUnsolved fuel target
          | .link _ => pure (.mvar root)
        | solved => defaultUnsolved fuel solved)
      0

end KindStore

end RowML
