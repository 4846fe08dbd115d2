import RowML.Constructor.Basic
import RowML.Kind.Unify

/-!
# The store of constructor metavariables

A cell holds the kind of a metavariable, the number of binders in scope where it was made, and its
solution once there is one.  A cell is solved once; only a rollback makes it unsolved again.  The
store also holds the skolems of generalisation, the store of kinds, and the list of the cells solved
since that list was last asked for.
-/

namespace RowML

structure Cell where
  kind : Kind
  arity : Nat
  /-- The solution in the context of the cell's own binders. -/
  solution : Option Con
deriving Inhabited

structure Skolem where
  name : String
  kind : Kind
deriving Inhabited

structure Store where
  kinds : KindStore
  cells : Array Cell
  skolems : Array Skolem
  /-- Overwritten solutions, the newest first. -/
  trail : List (MetaId × Option Con)
  /-- Number of open snapshots; nothing is recorded while there is none. -/
  snapshots : Nat
  /-- The cells solved since the last call of `takeSolved`, the oldest first. -/
  solved : Array MetaId
deriving Inhabited

/-- An attempt to solve a cell that has another solution. -/
structure AssignError where
  cell : MetaId
  existing : Con
  attempted : Con
deriving DecidableEq

/-- What a rollback goes back to. -/
structure Snapshot where
  trail : Nat
  kinds : Nat
  solved : Nat
deriving DecidableEq, Repr, Inhabited

/-- Computations over a store that need no fuel. -/
abbrev StoreM := StateM Store

/-- Computations over a store. -/
abbrev FuelM := Fuelled Store

/-- Runs a computation over kinds inside a store. -/
def onKinds {α : Type} (x : KindM α) : StoreM α := fun store =>
  let kinds := store.kinds
  let store := { store with kinds := KindStore.empty }
  let (a, kinds) := x.run kinds
  (a, { store with kinds })

/-- Runs a computation over kinds that may run out of fuel inside a store. -/
def onKindsFuelled {α : Type} (x : Fuelled KindStore α) : FuelM α := fun store =>
  let kinds := store.kinds
  let store := { store with kinds := KindStore.empty }
  (x.run kinds).map fun (a, kinds) => (a, { store with kinds })

/-- Runs a computation over kinds that may fail inside a store. -/
def onKindsFallibly {α : Type} (x : KindUnifyM α) : ExceptT KindError FuelM α :=
  ExceptT.mk (onKindsFuelled x.run)

namespace Store

def empty : Store := ⟨KindStore.empty, #[], #[], [], 0, #[]⟩

def cell (store : Store) (id : MetaId) : Cell := (store.cells[id]?).getD ⟨.error, 0, none⟩

def solution? (store : Store) (id : MetaId) : Option Con := (store.cell id).solution

def isSolved (store : Store) (id : MetaId) : Bool := (store.solution? id).isSome

def skolem (store : Store) (id : SkolemId) : Skolem := (store.skolems[id]?).getD ⟨"", .error⟩

def setSolution (id : MetaId) (solution : Option Con) : StoreM Unit :=
  modify fun store =>
    let trail := if store.snapshots = 0 then store.trail
      else (id, store.solution? id) :: store.trail
    { store with trail, cells := store.cells.modify id ({ · with solution }) }

/-- The variables of a context of `depth` binders, the outermost first. -/
def identitySpine (depth : Nat) : List Con := (List.range depth).reverse.map .bvar

/-- A new metavariable applied to `spine`. -/
def freshWithSpine (kind : Kind) (spine : List Con) : StoreM Con := do
  let store ← get
  set { store with cells := store.cells.push ⟨kind, spine.length, none⟩ }
  pure (.mvar store.cells.size spine)

/-- A new metavariable in a context of `depth` constructor binders. -/
def fresh (kind : Kind) (depth : Nat) : StoreM Con := freshWithSpine kind (identitySpine depth)

def freshSkolem (name : String) (kind : Kind) : StoreM SkolemId := do
  let store ← get
  set { store with skolems := store.skolems.push ⟨name, kind⟩ }
  pure store.skolems.size

/-- Solves a cell.  The same solution may be given again. -/
def assign (id : MetaId) (solution : Con) : ExceptT AssignError StoreM Unit := do
  match (← get).solution? id with
  | some existing => if existing = solution then pure () else throw ⟨id, existing, solution⟩
  | none =>
    setSolution id (some solution)
    modify fun store => { store with solved := store.solved.push id }

/-- The cells solved since the last call. -/
def takeSolved : StoreM (List MetaId) := do
  let store ← get
  set { store with solved := #[] }
  pure store.solved.toList

/-! ## Snapshots -/

def snapshot : StoreM Snapshot := do
  let kinds ← onKinds KindStore.snapshot
  let store ← get
  set { store with snapshots := store.snapshots + 1 }
  pure ⟨store.trail.length, kinds, store.solved.size⟩

/-- Puts back the solutions of the first `count` entries of the trail, one after the other. -/
def unwind (count : Nat) (store : Store) : Store :=
  { store with
    cells := (store.trail.take count).foldl
      (fun cells (id, solution) => cells.modify id ({ · with solution })) store.cells
    trail := store.trail.drop count }

/-- Undoes what happened to the cells, the kinds and the list of solved cells since the snapshot.
Cells made since then stay, unsolved. -/
def rollback (mark : Snapshot) : StoreM Unit := do
  modify fun store => store.unwind (store.trail.length - mark.trail)
  onKinds (KindStore.rollback mark.kinds)
  modify fun store =>
    { store with solved := store.solved.take mark.solved, snapshots := store.snapshots - 1 }

/-- Keeps everything since the snapshot.  The trail stays while an outer snapshot may need it. -/
def commit : StoreM Unit := do
  onKinds KindStore.commit
  modify fun store =>
    let snapshots := store.snapshots - 1
    { store with snapshots, trail := if snapshots = 0 then [] else store.trail }

end Store

end RowML
