import RowML.Exchange.Data
import RowML.Surface.Basic

/-!
# Building syntax without source text

Syntax that comes from no source text gets artificial spans, all different: the `n`-th node that is
completed, counted from one, lies at `16 n`.  A node is completed after its children.
-/

namespace RowML

namespace Surface

/-- Computations that build syntax from data.  The state is the number of spans given out. -/
abbrev BuildM := StateT Nat ReadM

namespace Build

def nextSpan : BuildM Span := do
  let n := (← get) + 1
  set n
  pure ⟨(16 * n).toUInt32, (16 * n + 8).toUInt32⟩

/-- Completes a node. -/
def locate {α : Type} (node : α) : BuildM (Located α) := return ⟨node, ← nextSpan⟩

def expect {α : Type} (what : String) : BuildM α := (Data.expect what : ReadM α)

/-- An optional part is written as `null` where it is absent. -/
def option {α : Type} (build : Data → BuildM α) : Data → BuildM (Option α)
  | .null => pure none
  | data => some <$> build data

/-- The names of a path that is written with dots. -/
def dotted (text : String) : List String := text.splitOn "."

/-- A path with at least one dot, as modules and item. -/
def dottedPath? (text : String) : Option (List String × String) :=
  match (dotted text).reverse with
  | item :: module :: modules => some ((module :: modules).reverse, item)
  | _ => none

def text (data : Data) : BuildM String := data.asText

def nat (data : Data) : BuildM Nat := data.asNat

def bool (data : Data) : BuildM Bool := data.asBool

def path (data : Data) : BuildM (List String) := data.asPath

/-! ## Short forms -/

/-- Puts constant labels to values that have been built. -/
def labelled {α : Type} (fields : List (String × α)) : BuildM (List (Con × α)) :=
  fields.mapM fun (name, value) => do
    let label : Con ← locate (.label name)
    pure (label, value)

/-- A function applied to several arguments, after all of them have been built. -/
def applications (function : Expr) (arguments : List Expr) : BuildM Expr :=
  arguments.foldlM (fun function argument => locate (.app function argument)) function

end Build

end Surface

end RowML
