import RowML.Diagnostic.Basic
import RowML.Module.Naming

/-!
# Messages

A message is one line that spells out the constructors and names of a diagnostic.  Constructors are
zonked as they are written, so a message is made in a store.
-/

namespace RowML

/-- A text between back quotes. -/
def quoted (text : String) : String := "`" ++ text ++ "`"

/-- The text of a kind between back quotes. -/
def quotedKind (kind : Kind) : FuelM String := return quoted ((← get).kinds.render kind)

namespace KindError

def message : KindError → FuelM String
  | .mismatch expected found =>
    return "expected kind " ++ (← quotedKind expected) ++ ", found " ++ (← quotedKind found)
  | .occurs _ kind => return "kind " ++ (← quotedKind kind) ++ " would contain itself"
  | .predicate _ found => return "kind " ++ (← quotedKind found) ++ " is not allowed here"

end KindError

/-- The message for an item that does not match; `con` writes a constructor. -/
def ItemMismatch.message (con : Con → FuelM String) : ItemMismatch → FuelM String
  | .missing => pure "missing from the structure"
  | .sort expected => pure ("expected a " ++ expected.describe)
  | .kind expected found =>
    return "expected kind " ++ (← quotedKind expected) ++ ", found " ++ (← quotedKind found)
  | .type expected found _ => do
    let expected ← con expected
    let found ← con found
    return "expected " ++ expected ++ ", found " ++ found
  | .definition expected found => do
    let found ← con found
    let expected ← con expected
    return "defined as " ++ found ++ ", expected " ++ expected
  | .nested item inner => return "in " ++ quoted item ++ ", " ++ (← inner.message con)
  | .shape => pure "structure and functor do not match"

/-- The message for a cause; `con` writes a constructor. -/
def Cause.message (con : Con → FuelM String) : Cause → FuelM String
  | .kindMismatch error none => return "kind mismatch: " ++ (← error.message)
  | .kindMismatch error (some site) => do
    let what ← error.message
    return "kind mismatch in " ++ (← con site) ++ ": " ++ what
  | .typeMismatch expected found reason => do
    let detail ← match reason with
      | .missingField field => do pure ("field " ++ (← con field) ++ " is missing")
      | reason => pure reason.describe
    let expected ← con expected
    let found ← con found
    return "type mismatch: expected " ++ expected ++ ", found " ++ found ++ " (" ++ detail ++ ")"
  | .fieldOverlap field left right => do
    let left ← con left
    let right ← con right
    let field ← con field
    return "rows " ++ left ++ " and " ++ right ++ " both contain field " ++ field
  | .unprovableDisjointness left right => do
    let left ← con left
    let right ← con right
    return "cannot prove rows " ++ left ++ " and " ++ right ++ " disjoint"
  | .unbound name sort => pure ("unbound " ++ sort.describe ++ " " ++ quoted name)
  | .noInstance goal => return "no instance for " ++ (← con goal)
  | .ambiguousInstance goal candidates =>
    return toString candidates.length ++ " instances match " ++ (← con goal)
  | .signatureMismatch item sort mismatch =>
    return "signature mismatch at " ++ sort.describe ++ " " ++ quoted item ++ ": " ++
      (← mismatch.message con)
  | .ambiguousType var => pure ("cannot infer the type standing for ?" ++ toString var)
  | .notAStructure path => pure (quoted (".".intercalate path) ++ " is not a structure")
  | .notAFunctor path => pure (quoted (".".intercalate path) ++ " is not a functor")
  | .notAClass goal => return (← con goal) ++ " is not a class"

/-- The message of a diagnostic with the names of the global table. -/
def Diagnostic.message (globals : Globals) (fuel : Nat) (diagnostic : Diagnostic) :
    FuelM String := do
  let con := fun c => return quoted (← Store.render fuel globals c)
  return "error[" ++ diagnostic.cause.code ++ "]: " ++ (← diagnostic.cause.message con)

end RowML
