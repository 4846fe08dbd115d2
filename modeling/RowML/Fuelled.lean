/-!
# Computations that may run out of fuel

Normalisation, unification and everything built on them recurse on an explicit amount of fuel.  The
answer `none` says that the fuel ran out and nothing else; failures of the job at hand are values of
their own error types, and a failure keeps the state that the computation had reached.
-/

namespace RowML

/-- Computations over a state `σ` that end with `none` when their fuel runs out. -/
abbrev Fuelled (σ : Type) := StateT σ Option

/-- The end of a computation that has no fuel left. -/
def outOfFuel {σ α : Type} : Fuelled σ α := fun _ => none

/-- A computation that needs no fuel never runs out of it. -/
instance {σ : Type} : MonadLift (StateM σ) (Fuelled σ) := ⟨fun x s => some (x.run s)⟩

/-- A depth of recursion that no sensible input comes near. -/
def ampleFuel : Nat := 100000000

end RowML
