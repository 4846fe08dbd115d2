import RowML.Exchange.Constructor
import RowML.Module.Naming
import RowML.Row.Summary

/-!
# Rendered data

Reports show constructors and kinds as text.  Rendering zonks, so reports are written in a store,
with the names of a global table.
-/

namespace RowML

open Data (form)

/-- Computations that write reports. -/
abbrev WriteM := ReaderT Globals FuelM

def WriteM.onStore {α : Type} (x : Globals → FuelM α) : WriteM α := x

def Con.rendered (c : Con) : WriteM Data :=
  WriteM.onStore fun globals => return .text (← Store.render ampleFuel globals c)

def Kind.rendered (k : Kind) : WriteM Data :=
  WriteM.onStore fun _ => return .text ((← get).kinds.render k)

namespace Data

def optionM {α : Type} (write : α → WriteM Data) : Option α → WriteM Data
  | none => pure .null
  | some a => write a

def listM {α : Type} (write : α → WriteM Data) (items : List α) : WriteM Data :=
  return .list (← items.mapM write)

/-- A form whose parts are written from left to right. -/
def formM (tag : String) (parts : List (WriteM Data)) : WriteM Data :=
  return form tag (← parts.mapM id)

/-- A list of pairs of constructors. -/
def pairsM (pairs : List (Con × Con)) : WriteM Data :=
  listM (fun (a, b) => return .list [← a.rendered, ← b.rendered]) pairs

def mvars (vars : List MetaId) : Data := .list (vars.map .nat)

end Data

open Data (formM optionM)

/-- A definition with its qualified name. -/
def DefId.rendered (id : DefId) : WriteM Data :=
  WriteM.onStore fun globals => return .list [.nat id, .option .text (globals.definitionName? id)]

/-- A module with its name. -/
def ModuleId.rendered (id : ModuleId) : WriteM Data :=
  WriteM.onStore fun globals => return .list [.nat id, .option .text (globals.moduleName? id)]

def Cell.rendered (cell : Cell) : WriteM Data :=
  return .list [← cell.kind.rendered, .nat cell.arity, ← optionM Con.rendered cell.solution]

def Piece.rendered : Piece → WriteM Data
  | .field x c => formM "field" [x.rendered, c.rendered]
  | .atom c => formM "atom" [c.rendered]
  | .flex c var => formM "flex" [c.rendered, pure (.nat var)]
  | .error => pure (.text "error")

end RowML
