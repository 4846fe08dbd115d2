import RowML.Module.Globals
import RowML.Store.Zonk

/-!
# Head normal forms

Constructors are kept as written and reduced on demand.  `headNormal` reduces just enough to show
the outermost constructor: it follows solved metavariables, unfolds definitions and module items,
applies functions, and computes the row operators as far as their arguments allow.  What is stuck on
a metavariable or a rigid variable stays in place.
-/

namespace RowML

namespace Con

/-- The concatenation of two rows in head normal form. -/
def concatHeads (left right : Con) : Con :=
  match left, right with
  | .error, _ => .error
  | _, .error => .error
  | .row _ [], right => right
  | left, .row _ [] => left
  | .row kind fields, .row _ fields' => .row kind (fields ++ fields')
  | left, right => .concat left right

/-- Whether a function is written as the identity. -/
def isIdentity : Con → Bool
  | .abs _ _ (.bvar 0) => true
  | _ => false

/-- The composition of two functions, as a function on `domain`. -/
def compose (domain : Kind) (outer inner : Con) : Con :=
  .abs "" domain (.app (outer.lift 1) (.app (inner.lift 1) (.bvar 0)))

/-- A map of a proper function over a row, both in head normal form. -/
def mapRow (domain codomain : Kind) (function : Con) : Con → Con
  | .error => .error
  | .row _ fields =>
    .row codomain (fields.map fun (name, value) => (name, .app function value))
  | .concat left right =>
    concatHeads (mapRow domain codomain function left) (mapRow domain codomain function right)
  | .map innerDomain _ inner base =>
    .map innerDomain codomain (compose innerDomain function inner) base
  | stuck => .map domain codomain function stuck

/-- The same where the function may be poison or the identity. -/
def mapHead (domain codomain : Kind) (function target : Con) : Con :=
  if target = .error ∨ function = .error then .error
  else if function.isIdentity then target
  else mapRow domain codomain function target

/-- What a fuelled reduction does with a projection: the value at `field` of one of the literal
parts of a row in head normal form. -/
def findField (reduce : Con → FuelM Con) (field : Con) : Nat → Con → FuelM (Option Con)
  | 0, _ => outOfFuel
  | _ + 1, .row _ fields => pure ((fields.find? fun entry => entry.1 = field).map (·.2))
  | fuel + 1, .concat left right => do
    let left ← reduce left
    match ← findField reduce field fuel left with
    | some value => pure (some value)
    | none => do
      let right ← reduce right
      findField reduce field fuel right
  | _ + 1, _ => pure none

end Con

/-- Reduces a constructor until its outermost constructor shows. -/
def headNormal (globals : Globals) : Nat → Con → FuelM Con
  | 0, _ => outOfFuel
  | fuel + 1, c => do
    match ← Store.resolve c with
    | .global id =>
      match globals.definition? id with
      | some (.con _ body) => headNormal globals fuel body
      | some (.class _ (some body)) => headNormal globals fuel body
      | _ => pure (.global id)
    | .member module path item =>
      let ref := globals.canonical ⟨module, path⟩
      match globals.moduleItem? ref item .con with
      | some (.con _ (some body)) => headNormal globals fuel body
      | some (.class _ (some body)) => headNormal globals fuel body
      | _ => pure (.member ref.module ref.path item)
    | .app f argument =>
      match ← headNormal globals fuel f with
      | .abs _ _ body =>
        let reduced ← onKinds (body.subst argument)
        headNormal globals fuel reduced
      | .error => pure .error
      | f => pure (.app f argument)
    | .kapp f argument =>
      match ← headNormal globals fuel f with
      | .kabs _ body =>
        let reduced ← onKinds (body.substKind argument)
        headNormal globals fuel reduced
      | .error => pure .error
      | f => pure (.kapp f argument)
    | .concat left right =>
      let left ← headNormal globals fuel left
      let right ← headNormal globals fuel right
      pure (Con.concatHeads left right)
    | .map domain codomain function row =>
      let function ← headNormal globals fuel function
      let row ← headNormal globals fuel row
      pure (Con.mapHead domain codomain function row)
    | .proj row field =>
      let row ← headNormal globals fuel row
      let field ← headNormal globals fuel field
      if row = .error ∨ field = .error then pure .error
      else
        match ← Con.findField (headNormal globals fuel) field fuel row with
        | some value => headNormal globals fuel value
        | none =>
          match row with
          | .map _ _ function base => headNormal globals fuel (.app function (.proj base field))
          | row => pure (.proj row field)
    | .component tuple index =>
      match ← headNormal globals fuel tuple with
      | .tuple components =>
        match components[index]? with
        | some c => headNormal globals fuel c
        | none => pure .error
      | .error => pure .error
      | tuple => pure (.component tuple index)
    | c => pure c

end RowML
