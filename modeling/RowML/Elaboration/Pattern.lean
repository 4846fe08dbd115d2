import RowML.Elaboration.Constructor
import RowML.Term.Basic

/-!
# Elaboration of patterns

A pattern is checked against the type of what it is matched with.  The variables that it binds are
returned from left to right.
-/

namespace RowML

def Literal.type : Literal → Con
  | .int _ => .int
  | .float _ => .float
  | .string _ => .string
  | .char _ => .char
  | .bool _ => .bool

namespace Elaborate

/-- The variables that a pattern binds, with their types. -/
abbrev Bound := List (String × Con)

def checkPattern : Nat → Surface.Pattern → Con → ElaborateM (Pattern × Bound)
  | 0, _, _ => noFuel
  | fuel + 1, pattern, type => do
    let span := pattern.span
    match pattern.node with
    | .wild => pure (.wild, [])
    | .var name => pure (.var name type, [(name, type)])
    | .lit value =>
      unify fuel span type value.type
      pure (.lit value, [])
    | .variant name payload =>
      let payloadType ← freshType
      let single := Con.row .type [(.label name, payloadType)]
      let rest ← freshTypeRow
      unify fuel span type (.variant (.concat single rest))
      requireDisjoint fuel span single rest
      match payload with
      | some payload =>
        let (payload, bound) ← checkPattern fuel payload payloadType
        pure (.variant (.label name) payload, bound)
      | none =>
        unify fuel span payloadType .unitType
        pure (.variant (.label name) .wild, [])
    | .record fields opened =>
      let row ← fields.mapM fun (name, _) => return (Con.label name, ← freshType)
      checkFieldsApart fuel span .type row
      let listed := Con.row .type row
      let rest ← if opened then some <$> freshTypeRow else pure none
      match rest with
      | some rest =>
        unify fuel span type (.record (.concat listed rest))
        requireDisjoint fuel span listed rest
      | none => unify fuel span type (.record listed)
      let checked ← (fields.zip row).mapM fun ((_, inner), (label, fieldType)) => do
        let (inner, bound) ← checkPattern fuel inner fieldType
        pure ((label, inner), bound)
      pure (.record (checked.map (·.1)) rest, checked.flatMap (·.2))
    | .annot inner annotation =>
      let annotation ← checkType fuel annotation
      unify fuel span type annotation
      checkPattern fuel inner annotation

end Elaborate

end RowML
