import RowML.Proofs.Kind.History
import RowML.Store.Zonk

/-!
# How stores are computed

Every computation over a store is made up of elementary ones: it reads what is stored, follows the
solutions of a constructor, solves a cell, makes new cells and skolems, computes with kinds, or
speculates, that is, closes every snapshot that it has opened.
-/

namespace RowML

namespace Con

variable {P : (α : Type) → Fuelled KindStore α → Prop} [KindStore.Sized P]
  (hresolve : ∀ k, Throughout P (KindStore.resolve k))
include hresolve

theorem liftKinds_throughout (c : Con) (amount : Nat) : Throughout P (c.liftKinds amount) := by
  unfold liftKinds
  split
  · exact .pure c
  · exact rebuildM_throughout (fun _ _ => .pure _)
      (fun _ _ => KindStore.lift_throughout hresolve _ _ _) _ c

theorem substKind_throughout (c : Con) (argument : Kind) :
    Throughout P (c.substKind argument) :=
  rebuildM_throughout (fun _ _ => .pure _)
    (fun _ _ => KindStore.subst_throughout hresolve _ _ _) _ c

theorem weaken_throughout (c : Con) (depth : Depth) : Throughout P (c.weaken depth) :=
  liftKinds_throughout hresolve _ _

theorem subst_throughout (body argument : Con) : Throughout P (body.subst argument) := by
  unfold subst
  split
  · exact .pure body
  · refine rebuildM_throughout (fun depth node => ?_) (fun _ _ => .pure _) _ body
    split
    · exact .pure _
    · split
      · split
        · exact .map (weaken_throughout hresolve _ _)
        · exact .pure _
      · exact .pure _

theorem instantiate_throughout (solution : Con) (spine : List Con) :
    Throughout P (solution.instantiate spine) := by
  unfold instantiate
  split
  · exact .pure solution
  · refine rebuildM_throughout (fun depth node => ?_) (fun _ _ => .pure _) _ solution
    split
    · exact .pure _
    · split
      · split
        · exact .map (weaken_throughout hresolve _ _)
        · exact .pure _
      · exact .pure _

end Con

namespace Store

/-- The stores have nothing but their trails and open snapshots apart. -/
structure Alike (s t : Store) : Prop where
  cells : s.cells = t.cells
  kinds : s.kinds.vars = t.kinds.vars
  skolems : s.skolems = t.skolems
  solved : s.solved = t.solved

/-- Runs a computation inside a snapshot.  Its effect is kept if its answer says so. -/
def speculate {α : Type} (x : FuelM α) (keep : α → Bool) : FuelM α := do
  let mark ← snapshot
  let a ← x
  if keep a then commit else rollback mark
  pure a

/-- Computations that are made up of the elementary ones. -/
inductive Composed : (α : Type) → FuelM α → Prop where
  | pure {α : Type} (a : α) : Composed α (pure a)
  | bind {α β : Type} {x : FuelM α} {f : α → FuelM β} (hx : Composed α x)
      (hf : ∀ a, Composed β (f a)) : Composed β (x >>= f)
  | outOfFuel {α : Type} : Composed α outOfFuel
  | read {α : Type} {f : Store → FuelM α} (hf : ∀ s, Composed α (f s))
      (same : ∀ {s t : Store}, s.Alike t → f s = f t) : Composed α (get >>= f)
  | resolve (c : Con) : Composed Con (liftM (resolve c))
  | assign (id : MetaId) (solution : Con) : Composed _ (liftM (assign id solution).run)
  | freshWithSpine (kind : Kind) (spine : List Con) :
      Composed Con (liftM (freshWithSpine kind spine))
  | freshSkolem (name : String) (kind : Kind) : Composed SkolemId (liftM (freshSkolem name kind))
  | kinds {α : Type} {x : Fuelled KindStore α} (hx : KindStore.Orderly α x) :
      Composed α (onKindsFuelled x)
  | speculate {α : Type} {x : FuelM α} (hx : Composed α x) (keep : α → Bool) :
      Composed α (speculate x keep)

/-- Properties of computations that solve nothing and make nothing new. -/
class Following (P : (α : Type) → FuelM α → Prop) : Prop extends Compositional P where
  outOfFuel : ∀ {α : Type}, P α outOfFuel
  resolve : ∀ c : Con, P Con (liftM (resolve c))
  kinds : ∀ {α : Type} {x : KindM α}, KindStore.OnlyFollows x → P α (liftM (onKinds x))

/-- Properties of computations that read what is stored and compute with kinds. -/
class Computing (P : (α : Type) → FuelM α → Prop) : Prop extends Compositional P where
  read : ∀ {α : Type} {f : Store → FuelM α}, (∀ s, P α (f s)) →
    (∀ {s t : Store}, s.Alike t → f s = f t) → P α (get >>= f)
  compute : ∀ {α : Type} {x : Fuelled KindStore α}, KindStore.Orderly α x → P α (onKindsFuelled x)

/-- Properties of computations that solve nothing, but may make cells. -/
class Exploring (P : (α : Type) → FuelM α → Prop) : Prop extends Following P, Computing P where
  freshWithSpine : ∀ (kind : Kind) (spine : List Con), P Con (liftM (freshWithSpine kind spine))

instance : Exploring Composed where
  pure := .pure
  bind := .bind
  outOfFuel := .outOfFuel
  resolve := .resolve
  kinds h := .kinds (h KindStore.Orderly.resolve)
  read := .read
  compute := .kinds
  freshWithSpine := .freshWithSpine

/-! ## What is read -/

section Read

variable {s t : Store}

theorem Alike.cell (h : s.Alike t) (i : MetaId) : s.cell i = t.cell i := by
  rw [Store.cell, h.cells, Store.cell]

theorem Alike.isSolved (h : s.Alike t) (i : MetaId) : s.isSolved i = t.isSolved i := by
  rw [Store.isSolved, Store.solution?, h.cell, Store.isSolved, Store.solution?]

end Read

/-! ## Elementary computations -/

section Elementary

variable {P : (α : Type) → FuelM α → Prop} {α : Type}

theorem read_throughout [Computing P] {f : Store → FuelM α} (hf : ∀ s, Throughout P (f s))
    (same : ∀ {s t : Store}, s.Alike t → f s = f t) : Throughout P (get >>= f) :=
  Computing.read hf same

theorem onKinds_throughout [Computing P] {x : KindM α} (h : Throughout KindStore.Orderly x) :
    Throughout P (onKinds x) :=
  Computing.compute h

theorem onKindsFallibly_throughout [Computing P] {x : KindUnifyM α}
    (h : Throughout KindStore.Orderly x) : Throughout P (onKindsFallibly x) :=
  Computing.compute h

theorem freshWithSpine_throughout [Exploring P] (kind : Kind) (spine : List Con) :
    Throughout P (freshWithSpine kind spine) :=
  Exploring.freshWithSpine kind spine

end Elementary

/-! ## Zonking -/

section Zonk

variable {P : (α : Type) → FuelM α → Prop} [Following P]

theorem zonk_throughout (fuel : Nat) (c : Con) : Throughout P (zonk fuel c) := by
  induction fuel generalizing c with
  | zero => exact Following.outOfFuel
  | succ fuel ih =>
    refine Con.rebuildM_throughout (fun _ node => ?_) (fun _ k => ?_) _ c
    · split
      · exact .pure _
      · split
        · refine .bind (Following.resolve _) fun resolved => ?_
          split
          · exact .map (ih resolved)
          · exact .pure _
        · exact .pure _
    · exact Following.kinds fun hresolve => KindStore.zonk_throughout hresolve _

theorem unsolvedMVars_throughout (fuel : Nat) (c : Con) : Throughout P (unsolvedMVars fuel c) :=
  .bind (zonk_throughout fuel c) fun _ => .pure _

theorem skolemsOf_throughout (fuel : Nat) (c : Con) : Throughout P (skolemsOf fuel c) :=
  .bind (zonk_throughout fuel c) fun _ => .pure _

end Zonk

end Store

end RowML
