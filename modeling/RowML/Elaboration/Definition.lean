import RowML.Elaboration.Expression
import RowML.Elaboration.Finish
import RowML.Elaboration.Identity
import RowML.Elaboration.Signature

/-!
# Elaboration of definitions

A declaration of a constructor, a class, a value or a group of functions is elaborated and closed on
its own.
-/

namespace RowML

namespace Elaborate

def declareCon (fuel : Nat) (span : Span) (name : String) (kind : Option Surface.Kind)
    (definition : Surface.Con) : ElaborateM Declaration := do
  beginGroup
  let (definition, kind) ← match kind with
    | some kind => do
      let kind ← elaborateKind fuel kind
      pure (← checkCon fuel definition kind, kind)
    | none => inferCon fuel definition
  let definition ← closeCon fuel span definition
  let kind ← closeKind fuel kind
  let id ← addDefinition name (.con kind definition) span
  bindName name .con (.definition id)
  pure (.con id kind definition)

def declareClass (fuel : Nat) (span : Span) (name : String) (kind : Option Surface.Kind)
    (definition : Option Surface.Con) : ElaborateM Declaration := do
  beginGroup
  let (kind, definition) ← elaborateKinded fuel defaultClassKind kind definition
  let (kind, definition) ← closeKinded fuel span kind definition
  let id ← addDefinition name (.class kind definition) span
  bindName name .con (.definition id)
  pure (.class id kind definition)

def declareVal (fuel : Nat) (span : Span) (name : String) (type : Option Surface.Con)
    (body : Surface.Expr) : ElaborateM Declaration := do
  beginGroup
  let type ← checkType? fuel type
  let body ← checkExpr fuel body type
  match ← finishGroup fuel [⟨none, type, body, span⟩] with
  | member :: _ =>
    let id ← addDefinition name (.val member.type) span
    bindName name .val (.definition id)
    registerValue fuel (.definition id) member.type
    pure (.val id member.type member.body)
  | [] => fail span (.unbound name .val)

/-- Binds a function of a group to the type that its header says. -/
def declareProvisionally (function : Surface.Function) (header : Header) : ElaborateM DefId := do
  let id ← addDefinition function.name (.val header.type) function.span
  modify fun session => { session with provisional := session.provisional ++ [id] }
  bindName function.name .val (.definition id)
  pure id

/-- Gives a function of a group its final type. -/
def settleProvisional (fuel : Nat) (id : DefId) (member : Member) :
    ElaborateM (DefId × Con × Term) := do
  onGlobals fun globals => ((), globals.setDefinition id (.val member.type))
  registerValue fuel (.definition id) member.type
  pure (id, member.type, member.body)

/-- A group of functions that may use each other with the types that their headers say. -/
def declareFunctions (fuel : Nat) (group : List Surface.Function) : ElaborateM Declaration := do
  beginGroup
  let headers ← group.mapM (elaborateHeader fuel)
  let headed := group.zip headers
  let ids ← headed.mapM fun (function, header) => declareProvisionally function header
  let members ← (headed.zip ids).mapM fun ((function, header), id) => do
    let body ← elaborateBody fuel function header
    pure (⟨some id, header.type, body, function.span⟩ : Member)
  let finished ← finishGroup fuel members
  modify fun session => { session with provisional := [] }
  let settled ← (ids.zip finished).mapM fun (id, member) => settleProvisional fuel id member
  pure (.functions settled)

end Elaborate

end RowML
