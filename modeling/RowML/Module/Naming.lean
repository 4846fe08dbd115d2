import RowML.Constructor.Printer
import RowML.Module.Globals
import RowML.Store.Zonk

/-!
# Text of constructors in a store

A constructor is zonked before it is written, and names what it refers to by the global table.
-/

namespace RowML

def Globals.naming (globals : Globals) (store : Store) : Naming where
  definition := globals.definitionName?
  module := globals.moduleName?
  skolem := fun id => (store.skolem id).name

/-- Names nothing but skolems. -/
def Store.anonymous (store : Store) : Naming where
  definition := fun _ => none
  module := fun _ => none
  skolem := fun id => (store.skolem id).name

namespace Store

/-- The text of a constructor with the names of the global table. -/
def render (fuel : Nat) (globals : Globals) (c : Con) : FuelM String := do
  let c ← zonk fuel c
  return c.render (globals.naming (← get)) [] [] .top

/-- The text of a constructor that shows definitions and modules by number. -/
def renderAnonymous (fuel : Nat) (c : Con) : FuelM String := do
  let c ← zonk fuel c
  return c.render (← get).anonymous [] [] .top

end Store

end RowML
