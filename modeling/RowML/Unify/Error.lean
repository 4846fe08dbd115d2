import RowML.Kind.Unify
import RowML.Constructor.Basic

/-!
# Why unification fails
-/

namespace RowML

inductive MismatchReason where
  /-- The outermost forms differ. -/
  | structural
  /-- A metavariable would have to contain itself. -/
  | occurs
  /-- A solution would mention a variable that is not in the metavariable's scope. -/
  | escape
  /-- A row lacks a field that the other row has. -/
  | missingField (field : Con)
  /-- Tuples of different widths. -/
  | arity (expected found : Nat)
deriving DecidableEq

def MismatchReason.describe : MismatchReason → String
  | .structural => "constructors differ"
  | .occurs => "a metavariable occurs in its own solution"
  | .escape => "a bound variable escapes its scope"
  | .missingField _ => "a field is missing"
  | .arity _ _ => "tuple widths differ"

inductive UnifyError where
  | mismatch (expected found : Con) (reason : MismatchReason)
  | kind (error : KindError)
deriving DecidableEq

end RowML
