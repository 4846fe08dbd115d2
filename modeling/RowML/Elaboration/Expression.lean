import RowML.Elaboration.Header
import RowML.Elaboration.Pattern

/-!
# Elaboration of expressions

`inferExpr` finds the type of an expression, `checkExpr` checks it against a type.  Checking inserts
the abstractions that a type asks for and an expression does not write: over implicit constructors,
kinds, assumptions of disjointness and dictionaries.  Using a variable inserts the matching
applications (`instantiate`).
-/

namespace RowML

namespace Elaborate

/-! ## Variables -/

/-- A value of a structure, with its declared type. -/
def moduleVal (span : Span) (ref : ModuleRef) (item : String) : ElaborateM (Term × Con) := do
  let globals ← getGlobals
  match globals.moduleItem? ref item .val with
  | some (.val type) =>
    let canonical := globals.canonical ref
    pure (.member canonical.module canonical.path item, type)
  | _ => fail span (.unbound item .val)

/-- An unqualified value, with its declared type. -/
def valVar (span : Span) (name : String) : ElaborateM (Term × Con) := do
  let scope := (← get).scope
  match ← onKindM (scope.findVal? name) with
  | some (index, type) => pure (.bvar index, type)
  | none =>
    match scope.meaning? name .val with
    | some (.definition id) =>
      match (← getGlobals).definition? id with
      | some (.val type) => pure (.global id, type)
      | _ => fail span (.unbound name .val)
    | some (.opened ref) => moduleVal span ref name
    | _ => fail span (.unbound name .val)

/-- A qualified value, with its declared type. -/
def valPath (span : Span) (modules : List String) (item : String) : ElaborateM (Term × Con) := do
  let ref ← modulePath span modules
  moduleVal span ref item

/-- Fills in what the use of a term leaves implicit: fresh constructors and kinds, demands for
disjointness, and slots for dictionaries.  The type of the answer is in head normal form. -/
def instantiate (span : Span) : Nat → Term → Con → ElaborateM (Term × Con)
  | 0, _, _ => noFuel
  | fuel + 1, term, type => do
    match ← head fuel type with
    | .poly _ true kind body =>
      let argument ← freshCon kind
      instantiate span fuel (.capp term argument) (← onKindM (body.subst argument))
    | .kpoly _ body =>
      let argument ← freshKind
      instantiate span fuel (.kapp term argument) (← onKindM (body.substKind argument))
    | .disjoint left right body =>
      requireDisjoint fuel span left right
      instantiate span fuel (.disjointApp term) body
    | .arrow domain codomain =>
      if ← isGoal fuel domain then
        let slot ← requireClass fuel span domain
        instantiate span fuel (.app term (.slot slot)) codomain
      else pure (term, .arrow domain codomain)
    | type => pure (term, type)

/-! ## Parts of expressions -/

/-- Splits the type of a record into a field of type `type` and the rest, which is returned. -/
def splitRecord (fuel : Nat) (span : Span) (field type record : Con) : ElaborateM Con := do
  let single := Con.row .type [(field, type)]
  let rest ← freshTypeRow
  unify fuel span (.record (.concat single rest)) record
  requireDisjoint fuel span single rest
  pure rest

/-- The case that a pattern is for. -/
def variantCase? (pattern : Surface.Pattern) : Option String :=
  match pattern.node with
  | .variant name _ => some name
  | _ => none

/-- The cases of a variant, if there are arms and every arm is for a case. -/
def variantCases? (arms : List (Surface.Pattern × Surface.Expr)) : Option (List String) :=
  if arms.isEmpty then none
  else ((arms.map (·.1)).mapM variantCase?).map fun names => names.foldl insertLast []

/-- If every arm is for a case, the scrutinee has exactly these cases. -/
def closeVariant (fuel : Nat) (span : Span) (arms : List (Surface.Pattern × Surface.Expr))
    (type : Con) : ElaborateM Unit := do
  match variantCases? arms with
  | none => pure ()
  | some names =>
    let fields ← names.mapM fun name => return (Con.label name, ← freshType)
    unify fuel span (.variant (.row .type fields)) type

def isImplicitAbs (e : Surface.Expr) : Bool :=
  match e.node with
  | .cabs _ true _ _ => true
  | _ => false

def isKindAbs (e : Surface.Expr) : Bool :=
  match e.node with
  | .kabs _ _ => true
  | _ => false

def isDisjointAbs (e : Surface.Expr) : Bool :=
  match e.node with
  | .disjointAbs _ _ _ => true
  | _ => false

def isLam (e : Surface.Expr) : Bool :=
  match e.node with
  | .lam _ _ _ => true
  | _ => false

/-! ## Expressions -/

mutual
def checkExpr : Nat → Surface.Expr → Con → ElaborateM Term
  | 0, _, _ => noFuel
  | fuel + 1, e, expected => do
    let type ← head fuel expected
    match type with
    | .poly x true kind body =>
      if isImplicitAbs e then checkForm fuel e expected type
      else
        let inner ← inScope do
          pushCon x kind
          checkExpr fuel e body
        pure (.cabs x kind inner)
    | .kpoly x body =>
      if isKindAbs e then checkForm fuel e expected type
      else
        let inner ← inScope do
          pushKind x
          checkExpr fuel e body
        pure (.kabs x inner)
    | .disjoint left right body =>
      if isDisjointAbs e then checkForm fuel e expected type
      else
        let inner ← inScope do
          pushFact left right
          checkExpr fuel e body
        pure (.disjointAbs left right inner)
    | .arrow domain codomain =>
      if isLam e then checkForm fuel e expected type
      else if ← isGoal fuel domain then
        let inner ← inScope do
          modifyScope (·.pushVal dictName domain true)
          checkExpr fuel e codomain
        pure (.abs dictName domain inner)
      else checkForm fuel e expected type
    | _ => checkForm fuel e expected type
/-- Checks an expression against a type for which nothing has to be inserted; `type` is the head
normal form of `expected`. -/
def checkForm : Nat → Surface.Expr → Con → Con → ElaborateM Term
  | 0, _, _, _ => noFuel
  | fuel + 1, e, expected, type => do
    let span := e.span
    let byInference : ElaborateM Term := do
      let (term, found) ← inferExpr fuel e
      unify fuel span expected found
      pure term
    match e.node with
    | .lam x annotation body =>
      match type with
      | .arrow domain codomain =>
        match annotation with
        | some annotation =>
          let annotated ← checkType fuel annotation
          unify fuel annotation.span domain annotated
        | none => pure ()
        let body ← inScope do
          pushVal fuel x domain
          checkExpr fuel body codomain
        pure (.abs x domain body)
      | _ => byInference
    | .cabs x implicit kind body =>
      match type with
      | .poly _ implicit' expectedKind expectedBody =>
        if implicit = implicit' then
          match kind with
          | some kind =>
            let kind ← elaborateKind fuel kind
            unifyKinds fuel span none expectedKind kind
          | none => pure ()
          let body ← inScope do
            pushCon x expectedKind
            checkExpr fuel body expectedBody
          pure (.cabs x expectedKind body)
        else byInference
      | _ => byInference
    | .ite condition yes no =>
      let condition ← checkExpr fuel condition .bool
      let yes ← checkExpr fuel yes expected
      let no ← checkExpr fuel no expected
      pure (.ite condition yes no)
    | .letIn locals body => return (← elaborateLet fuel locals body (some expected)).1
    | .case scrutinee arms => return (← elaborateCase fuel span scrutinee arms (some expected)).1
    | _ => byInference
def inferExpr : Nat → Surface.Expr → ElaborateM (Term × Con)
  | 0, _ => noFuel
  | fuel + 1, e => do
    let span := e.span
    match e.node with
    | .lit value => pure (.lit value, value.type)
    | .var name =>
      let (term, type) ← valVar span name
      instantiate span fuel term type
    | .path modules item =>
      let (term, type) ← valPath span modules item
      instantiate span fuel term type
    | .app f argument =>
      let (f, type) ← inferExpr fuel f
      let (domain, codomain) ← match ← head fuel type with
        | .arrow domain codomain => pure (domain, codomain)
        | type => do
          let domain ← freshType
          let codomain ← freshType
          unify fuel span (.arrow domain codomain) type
          pure (domain, codomain)
      let argument ← checkExpr fuel argument domain
      pure (.app f argument, codomain)
    | .lam x annotation body =>
      let domain ← checkType? fuel annotation
      let (body, codomain) ← inScope do
        pushVal fuel x domain
        inferExpr fuel body
      pure (.abs x domain body, .arrow domain codomain)
    | .capp f argument =>
      let (f, type) ← inferExpr fuel f
      let (kind, body) ← match ← head fuel type with
        | .poly _ _ kind body => pure (kind, body)
        | type => do
          let kind ← freshKind
          let body ← onStoreM (Store.fresh .type ((← conDepth) + 1))
          unify fuel span (.poly "" false kind body) type
          pure (kind, body)
      let argument ← checkCon fuel argument kind
      instantiate span fuel (.capp f argument) (← onKindM (body.subst argument))
    | .cabs x implicit kind body =>
      let kind ← elaborateKind? fuel kind
      let (body, type) ← inScope do
        pushCon x kind
        inferExpr fuel body
      pure (.cabs x kind body, .poly x implicit kind type)
    | .kabs x body =>
      let (body, type) ← inScope do
        pushKind x
        inferExpr fuel body
      pure (.kabs x body, .kpoly x type)
    | .kapp f argument =>
      let (f, type) ← match f.node with
        | .var name => valVar f.span name
        | .path modules item => valPath f.span modules item
        | _ => inferExpr fuel f
      match ← head fuel type with
      | .kpoly _ body =>
        let argument ← elaborateKind fuel argument
        instantiate span fuel (.kapp f argument) (← onKindM (body.substKind argument))
      | type =>
        let inner ← freshType
        fail span (.typeMismatch (.kpoly "" inner) type .structural)
    | .disjointAbs left right body =>
      let left ← checkRow fuel left
      let right ← checkRow fuel right
      let (body, type) ← inScope do
        pushFact left right
        inferExpr fuel body
      pure (.disjointAbs left right body, .disjoint left right type)
    | .record fields =>
      let typed ← fields.mapM fun (name, value) => do
        let name ← checkCon fuel name .name
        let (value, type) ← inferExpr fuel value
        pure (name, value, type)
      let row := typed.map fun (name, _, type) => (name, type)
      checkFieldsApart fuel span .type row
      pure (.record (typed.map fun (name, value, _) => (name, value)), .record (.row .type row))
    | .field record name =>
      let (record, recordType) ← inferExpr fuel record
      let name ← checkCon fuel name .name
      let type ← freshType
      let rest ← splitRecord fuel span name type recordType
      pure (.field record name rest, type)
    | .concat left right =>
      let (left, leftType) ← inferExpr fuel left
      let (right, rightType) ← inferExpr fuel right
      let leftRow ← freshTypeRow
      let rightRow ← freshTypeRow
      unify fuel span (.record leftRow) leftType
      unify fuel span (.record rightRow) rightType
      requireDisjoint fuel span leftRow rightRow
      pure (.concat left right leftRow rightRow, .record (.concat leftRow rightRow))
    | .cut record field =>
      let (record, recordType) ← inferExpr fuel record
      let field ← checkCon fuel field .name
      let type ← freshType
      let rest ← splitRecord fuel span field type recordType
      pure (.cut record field rest, .record rest)
    | .cutRow record row =>
      let (record, recordType) ← inferExpr fuel record
      let row ← checkCon fuel row .typeRow
      let rest ← freshTypeRow
      unify fuel span (.record (.concat row rest)) recordType
      requireDisjoint fuel span row rest
      pure (.cutRow record row rest, .record rest)
    | .inject field value =>
      let field ← checkCon fuel field .name
      let (value, type) ← inferExpr fuel value
      let single := Con.row .type [(field, type)]
      let rest ← freshTypeRow
      requireDisjoint fuel span single rest
      let row := Con.concat single rest
      pure (.inject field value row, .variant row)
    | .case scrutinee arms => elaborateCase fuel span scrutinee arms none
    | .letIn locals body => elaborateLet fuel locals body none
    | .ite condition yes no =>
      let condition ← checkExpr fuel condition .bool
      let (yes, type) ← inferExpr fuel yes
      let no ← checkExpr fuel no type
      pure (.ite condition yes no, type)
    | .annot e type =>
      let type ← checkType fuel type
      let term ← checkExpr fuel e type
      pure (term, type)
/-- A case distinction, checked against `expected` if there is one. -/
def elaborateCase : Nat → Span → Surface.Expr → List (Surface.Pattern × Surface.Expr) →
    Option Con → ElaborateM (Term × Con)
  | 0, _, _, _, _ => noFuel
  | fuel + 1, span, scrutinee, arms, expected => do
    let (scrutinee, scrutineeType) ← inferExpr fuel scrutinee
    closeVariant fuel span arms scrutineeType
    let type ← match expected with
      | some type => pure type
      | none => freshType
    let arms ← arms.mapM fun (pattern, body) => inScope do
      let (pattern, bound) ← checkPattern fuel pattern scrutineeType
      bound.forM fun (name, type) => pushVal fuel name type
      let body ← checkExpr fuel body type
      pure (pattern, body)
    pure (.case scrutinee arms type, type)
/-- Local declarations and the expression they are for, checked against `expected` if there is
one.  The types of local declarations are not generalised. -/
def elaborateLet : Nat → List Surface.Local → Surface.Expr → Option Con → ElaborateM (Term × Con)
  | 0, _, _, _ => noFuel
  | fuel + 1, locals, body, expected => inScope do
    let binders ← locals.mapM (elaborateLocal fuel)
    let (body, type) ← match expected with
      | some type => do pure (← checkExpr fuel body type, type)
      | none => inferExpr fuel body
    pure (binders.foldr (· ·) body, type)
/-- A local declaration, as what it puts around the rest.  Its names stay in scope. -/
def elaborateLocal : Nat → Surface.Local → ElaborateM (Term → Term)
  | 0, _ => noFuel
  | fuel + 1, .val name type body _ => do
    let type ← checkType? fuel type
    let value ← checkExpr fuel body type
    runReady fuel
    pushVal fuel name type
    pure (.letVal name type value)
  | fuel + 1, .functions group => do
    let headers ← group.mapM (elaborateHeader fuel)
    let headed := group.zip headers
    headed.forM fun (function, header) =>
      modifyScope (·.pushVal function.name header.type false)
    let functions ← headed.mapM fun (function, header) => do
      let body ← elaborateBody fuel function header
      pure (function.name, header.type, body)
    pure (.letRec functions)
/-- The body of a function under its header. -/
def elaborateBody : Nat → Surface.Function → Header → ElaborateM Term
  | 0, _, _ => noFuel
  | fuel + 1, function, header => do
    let body ← inScope do
      header.params.forM (enterParam fuel)
      checkExpr fuel function.body header.result
    pure (header.abstract body)
end

end Elaborate

end RowML
