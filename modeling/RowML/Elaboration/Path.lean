import RowML.Elaboration.Monad

/-!
# Names and paths

An unqualified name is a binder in scope, a declared name or a built-in type, in that order.  A path
leads from a declared module to an item.
-/

namespace RowML

namespace Elaborate

/-- Follows a path from a module.  `seen` are the names up to the module.  A poisoned structure has
everything inside it. -/
def moduleFrom (span : Span) (seen : List String) (ref : ModuleRef) :
    List String → ElaborateM ModuleRef
  | [] => return (← getGlobals).canonical ref
  | step :: rest => do
    match (← getGlobals).moduleSignature? ref with
    | some .error => pure ref
    | some (.items _) =>
      let child := ref.child step
      if ((← getGlobals).moduleSignature? child).isNone then fail span (.unbound step .module)
      else moduleFrom span (seen ++ [step]) child rest
    | some (.functor _ _ _) => fail span (.notAStructure seen)
    | none => fail span (.notAStructure seen)

/-- The structure or functor that a path leads to. -/
def moduleOrFunctor (span : Span) : List String → ElaborateM ModuleRef
  | [] => fail span (.notAStructure [])
  | first :: rest => do
    match ← meaning? first .module with
    | some (.module ref) => moduleFrom span [first] ref rest
    | some (.opened outer) => moduleFrom span [first] (outer.child first) rest
    | _ => fail span (.unbound first .module)

/-- The structure that a path leads to. -/
def modulePath (span : Span) (path : List String) : ElaborateM ModuleRef := do
  let ref ← moduleOrFunctor span path
  match (← getGlobals).moduleSignature? ref with
  | some (.functor _ _ _) => fail span (.notAStructure path)
  | _ => pure ref

/-! ## Constructors -/

def builtin? : String → Option Con
  | "int" => some .int
  | "float" => some .float
  | "string" => some .string
  | "char" => some .char
  | "bool" => some .bool
  | _ => none

/-- A constructor of a structure, with its kind. -/
def moduleCon (span : Span) (ref : ModuleRef) (item : String) : ElaborateM (Con × Kind) := do
  let globals ← getGlobals
  let found (kind : Kind) : Con × Kind :=
    let canonical := globals.canonical ref
    (.member canonical.module canonical.path item, kind)
  match globals.moduleItem? ref item .con with
  | some (.con kind _) => pure (found kind)
  | some (.class kind _) => pure (found kind)
  | _ => fail span (.unbound item .con)

/-- A declared constructor, with its kind. -/
def declaredCon (span : Span) (name : String) (meaning : Meaning) : ElaborateM (Con × Kind) := do
  match meaning with
  | .definition id =>
    match (← getGlobals).definition? id with
    | some (.con kind _) => pure (.global id, kind)
    | some (.class kind _) => pure (.global id, kind)
    | _ => fail span (.unbound name .con)
  | .opened ref => moduleCon span ref name
  | .signatureCon level path kind => return (.relative ((← get).level - level) path name, kind)
  | _ => fail span (.unbound name .con)

/-- An unqualified constructor, with its kind. -/
def conVar (span : Span) (name : String) : ElaborateM (Con × Kind) := do
  let scope := (← get).scope
  match ← onKindM (scope.findCon? name) with
  | some (index, kind) => pure (.bvar index, kind)
  | none =>
    match scope.meaning? name .con with
    | some meaning => declaredCon span name meaning
    | none =>
      match builtin? name with
      | some c => pure (c, .type)
      | none => fail span (.unbound name .con)

/-- Follows a path through a signature that is being elaborated. -/
def nestedSignature (span : Span) (sig : Signature) : List String → ElaborateM Signature
  | [] => pure sig
  | step :: rest =>
    match sig.nested? step with
    | some inner => nestedSignature span inner rest
    | none => fail span (.unbound step .module)

/-- A qualified constructor, with its kind. -/
def conPath (span : Span) (modules : List String) (item : String) : ElaborateM (Con × Kind) := do
  match modules with
  | [] => conVar span item
  | first :: rest =>
    match ← meaning? first .module with
    | some (.signatureStructure level path sig) =>
      match ← nestedSignature span sig rest with
      | .error => pure (.error, .error)
      | sig =>
        let found (kind : Kind) : ElaborateM (Con × Kind) :=
          return (.relative ((← get).level - level) (path ++ rest) item, kind)
        match sig.item? item .con with
        | some (.con _ kind _) => found kind
        | some (.class _ kind _) => found kind
        | _ => fail span (.unbound item .con)
    | some _ => do
      let ref ← modulePath span modules
      moduleCon span ref item
    | none => fail span (.unbound first .module)

end Elaborate

end RowML
