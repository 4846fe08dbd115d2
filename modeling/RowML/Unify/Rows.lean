import RowML.Unify.Monad

/-!
# Unification of rows

Fields with the same name are unified in pairs and identical remainders cancel.  What is left
decides: a lone metavariable takes the leftovers of the other side; two lone metavariables share a
fresh tail; a map over a metavariable against fields makes the metavariable a row of fresh fields;
leftovers that no metavariable can absorb are a mismatch; everything else is postponed.
-/

namespace RowML

namespace Unify

/-- The pieces of one side that found no partner. -/
structure Leftover where
  fields : List (Con × Con)
  rests : List Piece

namespace Leftover

def ofPieces (pieces : List Piece) : Leftover := ⟨Row.fields pieces, pieces.filter (!·.isField)⟩

def pieces (side : Leftover) : List Piece :=
  side.fields.map (fun (name, value) => .field name value) ++ side.rests

def isEmpty (side : Leftover) : Bool := side.fields.isEmpty && side.rests.isEmpty

/-- Whether every leftover may still turn out to be empty. -/
def onlyFlex (side : Leftover) : Bool := side.fields.isEmpty && side.rests.all Piece.isFlex

def blockers (side : Leftover) : List MetaId := Row.blockers side.pieces

end Leftover

/-- Removes the first field called `name`. -/
def takeField (name : Con) : List Piece → Option (Con × List Piece)
  | [] => none
  | .field other value :: pieces =>
    if other = name then some (value, pieces)
    else (takeField name pieces).map fun (value', rest) => (value', .field other value :: rest)
  | piece :: pieces => (takeField name pieces).map fun (value, rest) => (value, piece :: rest)

/-- Removes the first piece that stands for the remainder `con`. -/
def takeRest (con : Con) : List Piece → Option (List Piece)
  | [] => none
  | piece :: pieces =>
    if piece.rest? = some con then some pieces else (takeRest con pieces).map (piece :: ·)

/-- Unifies the fields with the same name in pairs; the answer is what is left of both sides. -/
def matchFields (unify : Con → Con → UnifyM Unit) :
    List Piece → List Piece → UnifyM (List Piece × List Piece)
  | [], right => pure ([], right)
  | .field name value :: left, right => do
    match takeField name right with
    | some (other, right) =>
      unify value other
      matchFields unify left right
    | none =>
      let (left, right) ← matchFields unify left right
      pure (.field name value :: left, right)
  | piece :: left, right => do
    let (left, right) ← matchFields unify left right
    pure (piece :: left, right)

/-- Cancels identical remainders. -/
def cancelRests : List Piece → List Piece → List Piece × List Piece
  | [], right => ([], right)
  | piece :: left, right =>
    match piece.rest?.bind (takeRest · right) with
    | some right => cancelRests left right
    | none =>
      let (left, right) := cancelRests left right
      (piece :: left, right)

/-- The element kind of a row metavariable, `Type` if it is not known. -/
def elementKind (id : MetaId) : UnifyM Kind := do
  match ← onKinds (KindStore.resolve ((← getStore).cell id).kind) with
  | .record element => pure element
  | _ => pure .type

/-- The reason of a mismatch between leftovers: the first field, if there is one. -/
def leftoverReason (left right : Leftover) : MismatchReason :=
  match left.fields ++ right.fields with
  | (name, _) :: _ => .missingField name
  | [] => .structural

/-- Both sides are only fields, and no name is shared. -/
def unifyLeftoverFields (unify : Con → Con → UnifyM Unit) (depth : Nat) (a b : Con)
    (left right : Leftover) : UnifyM Unit := do
  let decide : UnifyM Unit :=
    let blockers := left.blockers ++ right.blockers
    if blockers.isEmpty ∨ left.fields.length ≠ right.fields.length then
      mismatch a b (leftoverReason left right)
    else postpone depth a b blockers
  match left.fields, right.fields with
  | [(name, value)], [(name', value')] =>
    if name.isMVar ∨ name'.isMVar then
      unify name name'
      unify value value'
    else decide
  | _, _ => decide

/-- If `side` is nothing but a metavariable, solves it to `other`. -/
def solveTail (unify : Con → Con → UnifyM Unit) (side other : Leftover) : UnifyM Bool := do
  match side.fields, side.rests with
  | [], [.flex (.mvar id spine) _] =>
    let element ← elementKind id
    unify (.mvar id spine) (Row.rebuild element other.pieces)
    pure true
  | _, _ => pure false

/-- If both sides have one metavariable as their remainder, solves each to the fields of the other
side and a common fresh tail. -/
def solveCommonTail (unify : Con → Con → UnifyM Unit) (left right : Leftover) : UnifyM Bool := do
  match left.rests, right.rests with
  | [.flex (.mvar l leftSpine) _], [.flex (.mvar r rightSpine) _] =>
    if l = r then pure false
    else
      match ← patternVars leftSpine with
      | none => pure false
      | some _ =>
        match ← patternVars rightSpine with
        | none => pure false
        | some _ =>
          let common := leftSpine.filter (rightSpine.contains ·)
          let kind := ((← getStore).cell l).kind
          let element ← elementKind l
          let tail ← Store.freshWithSpine kind common
          let solution (side : Leftover) (id : MetaId) : Con :=
            Row.rebuild element ({ side with rests := [.flex tail id] } : Leftover).pieces
          unify (.mvar l leftSpine) (solution right l)
          unify (.mvar r rightSpine) (solution left r)
          pure true
  | _, _ => pure false

/-- If `side` is a map over a metavariable and `other` only fields, solves the metavariable to a row
of fresh metavariables with the names of these fields and starts again. -/
def solveMapped (globals : Globals) (fuel depth : Nat) (unify : Con → Con → UnifyM Unit)
    (a b : Con) (side other : Leftover) : UnifyM Bool := do
  match side.fields, side.rests, other.fields, other.rests with
  | [], [.flex (.map domain _ _ row) _], _ :: _, [] =>
    let row ← headNormal globals fuel row
    if row.isMVar then
      let fields ← other.fields.mapM fun (name, _) => return (name, ← Store.fresh domain depth)
      unify row (.row domain fields)
      unify a b
      pure true
    else pure false
  | _, _, _, _ => pure false

/-- Unifies two constructors in head normal form, one of which is a row. -/
def unifyRows (globals : Globals) (fuel depth : Nat) (unify : Con → Con → UnifyM Unit) (a b : Con) :
    UnifyM Unit := do
  let leftPieces ← Row.summarize globals fuel a
  let rightPieces ← Row.summarize globals fuel b
  if Row.hasError leftPieces ∨ Row.hasError rightPieces then pure ()
  else
    let (leftPieces, rightPieces) ← matchFields unify leftPieces rightPieces
    let (leftPieces, rightPieces) := cancelRests leftPieces rightPieces
    let left := Leftover.ofPieces leftPieces
    let right := Leftover.ofPieces rightPieces
    if left.isEmpty ∧ right.isEmpty then pure ()
    else if left.rests.isEmpty ∧ right.rests.isEmpty then
      unifyLeftoverFields unify depth a b left right
    else if ← solveTail unify left right then pure ()
    else if ← solveTail unify right left then pure ()
    else if ← solveCommonTail unify left right then pure ()
    else if ← solveMapped globals fuel depth unify a b left right then pure ()
    else if ← solveMapped globals fuel depth unify a b right left then pure ()
    else
      let leftBlockers := left.blockers
      let rightBlockers := right.blockers
      if leftBlockers.isEmpty ∧ (rightBlockers.isEmpty ∨ !right.onlyFlex) ∨
          rightBlockers.isEmpty ∧ !left.onlyFlex then
        mismatch a b (leftoverReason left right)
      else postpone depth a b (rightBlockers.foldl insertLast leftBlockers)

end Unify

end RowML
