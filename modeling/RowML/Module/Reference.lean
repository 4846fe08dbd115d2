import RowML.Constructor.Feature

/-!
# References to modules

A signature is stored relative to itself: an item that refers to an enclosing signature counts
levels outwards.  Reading a signature through a module replaces the levels by references to modules
(`substModules`); storing a signature replaces references by levels again (`abstractModules`).
-/

namespace RowML

/-- A module, or a structure nested inside one. -/
structure ModuleRef where
  module : ModuleId
  path : List String
deriving DecidableEq, Repr, Inhabited

namespace ModuleRef

def root (module : ModuleId) : ModuleRef := ⟨module, []⟩

def child (ref : ModuleRef) (name : String) : ModuleRef := { ref with path := ref.path ++ [name] }

end ModuleRef

/-- Where an abstracted reference points: `up` levels outwards, then down `path`. -/
structure Anchor where
  up : Nat
  path : List String
deriving DecidableEq, Repr, Inhabited

/-- The definitions and modules that are to become relative references.  Where a key is listed
twice, the first entry counts. -/
structure Abstraction where
  definitions : List (DefId × Anchor × String)
  modules : List (ModuleId × Anchor)
deriving Inhabited

namespace Abstraction

def empty : Abstraction := ⟨[], []⟩

def isEmpty (map : Abstraction) : Bool := map.definitions.isEmpty && map.modules.isEmpty

def insertDefinition (map : Abstraction) (id : DefId) (anchor : Anchor) (item : String) :
    Abstraction :=
  { map with definitions := (id, anchor, item) :: map.definitions }

def insertModule (map : Abstraction) (id : ModuleId) (anchor : Anchor) : Abstraction :=
  { map with modules := (id, anchor) :: map.modules }

end Abstraction

namespace Con

/-- Turns levels `first` and up into references to `refs`, the innermost level first.  Levels above
that range are lowered, levels below it stay. -/
def substModules (c : Con) (first : Nat) (refs : List ModuleRef) : Con :=
  if refs.isEmpty then c
  else
    c.rebuild fun _ node =>
      if !node.has .relative then some node
      else
        match node with
        | .relative level path item =>
          if level < first then some node
          else
            match refs[level - first]? with
            | some target => some (.member target.module (target.path ++ path) item)
            | none => some (.relative (level - refs.length) path item)
        | _ => none

/-- Turns what `map` lists into relative references, for a constructor that sits `level` levels
below the signature that the anchors count from. -/
def abstractModules (c : Con) (level : Nat) (map : Abstraction) : Con :=
  if map.isEmpty then c
  else
    c.rebuild fun _ node =>
      if !(node.has .global || node.has .member) then some node
      else
        match node with
        | .global id =>
          (map.definitions.lookup id).map fun (anchor, item) =>
            .relative (level + anchor.up) anchor.path item
        | .member module path item =>
          (map.modules.lookup module).map fun anchor =>
            .relative (level + anchor.up) (anchor.path ++ path) item
        | _ => none

end Con

end RowML
