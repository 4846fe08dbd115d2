import RowML.Class.Evidence
import RowML.Row.Disjoint
import RowML.Span
import RowML.Unify.Error

/-!
# Diagnostics

A diagnostic is a place in the source and what is wrong there, with every constructor that a report
needs.  Failures of unification, of disjointness and of instance search become diagnostics where the
place is known.
-/

namespace RowML

/-- How an item of a structure fails to match the item that a signature asks for. -/
inductive ItemMismatch where
  | missing
  /-- The structure has an item of that name, but not of the sort that is asked for. -/
  | sort (expected : Namespace)
  | kind (expected found : Kind)
  | type (expected found : Con) (reason : MismatchReason)
  /-- Both have a definition, and the definitions differ. -/
  | definition (expected found : Con)
  /-- The first mismatch inside a nested structure. -/
  | nested (item : String) (inner : ItemMismatch)
  /-- One is a functor and the other is not. -/
  | shape
deriving DecidableEq

inductive Cause where
  /-- The constructor whose kind is at stake is `site`. -/
  | kindMismatch (error : KindError) (site : Option Con)
  | typeMismatch (expected found : Con) (reason : MismatchReason)
  | fieldOverlap (field left right : Con)
  | unprovableDisjointness (left right : Con)
  | unbound (name : String) (sort : Namespace)
  | noInstance (goal : Con)
  | ambiguousInstance (goal : Con) (candidates : List InstanceSource)
  | signatureMismatch (item : String) (sort : Namespace) (mismatch : ItemMismatch)
  /-- A metavariable that nothing determines. -/
  | ambiguousType (var : MetaId)
  | notAStructure (path : List String)
  | notAFunctor (path : List String)
  | notAClass (goal : Con)
deriving DecidableEq

structure Diagnostic where
  span : Span
  cause : Cause
deriving DecidableEq

namespace Cause

def ofKindError (error : KindError) (site : Option Con) : Cause := .kindMismatch error site

def ofUnifyError : UnifyError → Cause
  | .mismatch expected found reason => .typeMismatch expected found reason
  | .kind error => .kindMismatch error none

def ofOverlap (overlap : Overlap) : Cause :=
  .fieldOverlap overlap.field overlap.left overlap.right

/-- A search that goes too deep counts as one that finds no instance. -/
def ofClassError : ClassError → Cause
  | .noInstance goal => .noInstance goal
  | .depthExceeded goal => .noInstance goal
  | .ambiguous goal candidates => .ambiguousInstance goal candidates
  | .notAClass goal => .notAClass goal

/-- The number of a cause in reports. -/
def code : Cause → String
  | .typeMismatch _ _ _ => "E2001"
  | .kindMismatch _ _ => "E2002"
  | .unbound _ _ => "E2003"
  | .fieldOverlap _ _ _ => "E2004"
  | .unprovableDisjointness _ _ => "E2005"
  | .ambiguousType _ => "E2006"
  | .noInstance _ => "E2007"
  | .ambiguousInstance _ _ => "E2008"
  | .signatureMismatch _ _ _ => "E2009"
  | .notAStructure _ => "E2010"
  | .notAFunctor _ => "E2011"
  | .notAClass _ => "E2012"

end Cause

end RowML
