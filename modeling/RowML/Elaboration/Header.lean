import RowML.Elaboration.Constructor
import RowML.Term.Basic

/-!
# Headers of functions

A header is what a function says before its body.  The classifier of a parameter reads in the
context of the parameters before it, so a header can be put around a type and around a body, and its
binders can be brought back into scope.
-/

namespace RowML

inductive HeaderParam where
  | con (name : String) (implicit : Bool) (kind : Kind)
  | disjoint (left right : Con)
  | val (name : String) (type : Con)
deriving Inhabited

namespace HeaderParam

/-- The type of what takes a parameter and gives a value of `type`. -/
def bindType (type : Con) : HeaderParam → Con
  | .con x implicit kind => .poly x implicit kind type
  | .disjoint left right => .disjoint left right type
  | .val _ domain => .arrow domain type

/-- The abstraction of `body` over a parameter. -/
def bindTerm (body : Term) : HeaderParam → Term
  | .con x _ kind => .cabs x kind body
  | .disjoint left right => .disjointAbs left right body
  | .val x type => .abs x type body

end HeaderParam

structure Header where
  params : List HeaderParam
  result : Con
deriving Inhabited

namespace Header

/-- The type of the function. -/
def type (header : Header) : Con :=
  header.params.foldr (fun param type => param.bindType type) header.result

/-- The function with the given body. -/
def abstract (header : Header) (body : Term) : Term :=
  header.params.foldr (fun param body => param.bindTerm body) body

end Header

namespace Elaborate

/-- Brings the binder of a parameter into scope. -/
def enterParam (fuel : Nat) : HeaderParam → ElaborateM Unit
  | .con x _ kind => pushCon x kind
  | .disjoint left right => pushFact left right
  | .val x type => pushVal fuel x type

def elaborateParam (fuel : Nat) : Surface.Param → ElaborateM HeaderParam
  | .con x implicit kind => return .con x implicit (← elaborateKind? fuel kind)
  | .disjoint left right => return .disjoint (← checkRow fuel left) (← checkRow fuel right)
  | .val x type => return .val x (← checkType? fuel type)

/-- The header of a function; its binders do not stay in scope. -/
def elaborateHeader (fuel : Nat) (function : Surface.Function) : ElaborateM Header :=
  inScope do
    let params ← function.params.mapM fun param => do
      let param ← elaborateParam fuel param
      enterParam fuel param
      pure param
    let result ← checkType? fuel function.result
    pure ⟨params, result⟩

end Elaborate

end RowML
