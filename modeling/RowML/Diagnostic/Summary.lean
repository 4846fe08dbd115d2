import RowML.Diagnostic.Basic

/-!
# Short reports

A short report gives the kind of a failure.  It shows a constructor or a kind by a handle, which
names the few that are built in and nothing else.
-/

namespace RowML

/-- The name of a built-in constructor. -/
def Con.builtinName? : Con → Option String
  | .prim .int => some "int"
  | .prim .float => some "float"
  | .prim .string => some "string"
  | .prim .char => some "char"
  | .prim .bool => some "bool"
  | .unit => some "()"
  | .error => some "<error>"
  | .row .type [] => some "[]"
  | .record (.row .type []) => some "$[]"
  | _ => none

def Con.handle (c : Con) : String := "Idx(" ++ c.builtinName?.getD "_" ++ ")"

/-- The name of a built-in kind. -/
def Kind.builtinName? : Kind → Option String
  | .type => some "Type"
  | .unit => some "Unit"
  | .name => some "Name"
  | .error => some "<error>"
  | .record .type => some "\x7bType\x7d"
  | _ => none

def Kind.handle (k : Kind) : String := "KindIdx(" ++ k.builtinName?.getD "_" ++ ")"

def KindError.summary : KindError → String
  | .mismatch expected found =>
    "kind mismatch: expected " ++ expected.handle ++ ", found " ++ found.handle
  | .occurs var kind => "kind variable KindVarId(" ++ toString var ++ ") occurs in " ++ kind.handle
  | .predicate demand found =>
    "expected " ++ demand.describe ++ ", found " ++ found.handle

def UnifyError.summary : UnifyError → String
  | .mismatch _ _ reason => "type mismatch: " ++ reason.describe
  | .kind error => error.summary

/-- The failure of kinds behind a failure of unification. -/
def UnifyError.kindError? : UnifyError → Option KindError
  | .mismatch _ _ _ => none
  | .kind error => some error

def AssignError.summary (error : AssignError) : String :=
  "metavariable ?" ++ toString error.cell ++ " already resolved to " ++ error.existing.handle ++
    ", cannot resolve to " ++ error.attempted.handle

def Overlap.summary (overlap : Overlap) : String := "rows share field " ++ overlap.field.handle

def ClassError.summary : ClassError → String
  | .noInstance goal => "no instance for " ++ goal.handle
  | .ambiguous goal candidates =>
    toString candidates.length ++ " instances match " ++ goal.handle
  | .notAClass goal => goal.handle ++ " is not a class"
  | .depthExceeded goal => "instance search for " ++ goal.handle ++ " is too deep"

def Cause.summary : Cause → String
  | .kindMismatch error _ => error.summary
  | .typeMismatch _ _ reason => reason.describe
  | .fieldOverlap _ _ _ => "rows share a field"
  | .unprovableDisjointness _ _ => "cannot prove rows disjoint"
  | .unbound _ _ => "unbound name"
  | .noInstance _ => "no instance"
  | .ambiguousInstance _ _ => "ambiguous instance"
  | .signatureMismatch _ _ _ => "signature mismatch"
  | .ambiguousType _ => "cannot infer type"
  | .notAStructure _ => "not a structure"
  | .notAFunctor _ => "not a functor"
  | .notAClass _ => "not a class"

def Diagnostic.summary (diagnostic : Diagnostic) : String :=
  "[" ++ diagnostic.cause.code ++ "] " ++ diagnostic.cause.summary

end RowML
