import RowML.Elaboration.Path
import RowML.Elaboration.Solving
import RowML.Surface.Basic

/-!
# Elaboration of kinds and constructors

`inferCon` finds the kind of a constructor, `checkCon` checks it against a kind.  An expected kind
is used where it tells more than inference would: for a wildcard, and for a binder without a kind.
-/

namespace RowML

namespace Elaborate

def elaborateKind : Nat → Surface.Kind → ElaborateM Kind
  | 0, _ => noFuel
  | fuel + 1, k =>
    match k.node with
    | .type => pure .type
    | .unit => pure .unit
    | .name => pure .name
    | .arrow domain codomain =>
      return .arrow (← elaborateKind fuel domain) (← elaborateKind fuel codomain)
    | .record element => return .record (← elaborateKind fuel element)
    | .tuple components => return .tuple (← components.mapM (elaborateKind fuel))
    | .var name => do
      match (← get).scope.findKind? name with
      | some index => pure (.bvar index)
      | none => fail k.span (.unbound name .con)
    | .poly x body => do
      let body ← inScope do
        pushKind x
        elaborateKind fuel body
      pure (.poly x body)
    | .wild => freshKind

/-- A kind that may be left out. -/
def elaborateKind? (fuel : Nat) : Option Surface.Kind → ElaborateM Kind
  | some k => elaborateKind fuel k
  | none => freshKind

/-- Applies a constructor of a polymorphic kind to fresh kinds. -/
def instantiateKind : Nat → Con → Kind → ElaborateM (Con × Kind)
  | 0, _, _ => noFuel
  | fuel + 1, c, kind => do
    match ← onKindM (KindStore.resolve kind) with
    | .poly _ body =>
      let argument ← freshKind
      instantiateKind fuel (.kapp c argument) (← onKindM (KindStore.subst body argument 0))
    | _ => pure (c, kind)

def isLabel : Con → Bool
  | .label _ => true
  | _ => false

/-- Checks that the first of some fields has another name than the others.  Names that are not
known yet are demanded to be disjoint. -/
def checkFieldApart (fuel : Nat) (span : Span) (element : Kind) (name value : Con)
    (others : List (Con × Con)) : ElaborateM Unit :=
  others.forM fun (name', value') => do
    let left := Con.row element [(name, value)]
    let right := Con.row element [(name', value')]
    if name = name' then fail span (.fieldOverlap name left right)
    else if isLabel name && isLabel name' then pure ()
    else requireDisjoint fuel span left right

/-- Checks that the fields of a literal have different names. -/
def checkFieldsApart (fuel : Nat) (span : Span) (element : Kind) :
    List (Con × Con) → ElaborateM Unit
  | [] => pure ()
  | (name, value) :: rest => do
    checkFieldApart fuel span element name value rest
    checkFieldsApart fuel span element rest

mutual
def checkCon : Nat → Surface.Con → Kind → ElaborateM Con
  | 0, _, _ => noFuel
  | fuel + 1, c, expected => do
    let byInference : ElaborateM Con := do
      let (con, found) ← inferCon fuel c
      unifyKinds fuel c.span (some con) expected found
      pure con
    match c.node with
    | .wild => freshCon expected
    | .abs x none body =>
      match ← onKindM (KindStore.resolve expected) with
      | .arrow domain codomain =>
        let body ← inScope do
          pushCon x domain
          checkCon fuel body codomain
        pure (.abs x domain body)
      | _ => byInference
    | _ => byInference
def inferCon : Nat → Surface.Con → ElaborateM (Con × Kind)
  | 0, _ => noFuel
  | fuel + 1, c => do
    let span := c.span
    match c.node with
    | .var name =>
      let (con, kind) ← conVar span name
      instantiateKind fuel con kind
    | .path modules item =>
      let (con, kind) ← conPath span modules item
      instantiateKind fuel con kind
    | .app f argument =>
      let (f, kind) ← inferCon fuel f
      let kind ← onKindM (KindStore.resolve kind)
      let (domain, codomain) ← match kind with
        | .arrow domain codomain => pure (domain, codomain)
        | kind => do
          let domain ← freshKind
          let codomain ← freshKind
          unifyKinds fuel span (some f) (.arrow domain codomain) kind
          pure (domain, codomain)
      let argument ← checkCon fuel argument domain
      pure (.app f argument, codomain)
    | .abs x kind body =>
      let kind ← elaborateKind? fuel kind
      let (body, bodyKind) ← inScope do
        pushCon x kind
        inferCon fuel body
      pure (.abs x kind body, .arrow kind bodyKind)
    | .arrow domain codomain =>
      let domain ← checkCon fuel domain .type
      let codomain ← checkCon fuel codomain .type
      pure (.arrow domain codomain, .type)
    | .poly x implicit kind body =>
      let kind ← elaborateKind? fuel kind
      let body ← inScope do
        pushCon x kind
        checkCon fuel body .type
      pure (.poly x implicit kind body, .type)
    | .kpoly x body =>
      let body ← inScope do
        pushKind x
        checkCon fuel body .type
      pure (.kpoly x body, .type)
    | .disjoint left right body =>
      let left ← checkCon fuel left (.record (← freshKind))
      let right ← checkCon fuel right (.record (← freshKind))
      let body ← inScope do
        pushFact left right
        checkCon fuel body .type
      pure (.disjoint left right body, .type)
    | .record row => return (.record (← checkCon fuel row .typeRow), .type)
    | .variant row => return (.variant (← checkCon fuel row .typeRow), .type)
    | .row fields =>
      let element ← freshKind
      let fields ← fields.mapM fun (name, value) => do
        let name ← checkCon fuel name .name
        let value ← checkCon fuel value element
        pure (name, value)
      checkFieldsApart fuel span element fields
      pure (.row element fields, .record element)
    | .label name => pure (.label name, .name)
    | .concat left right =>
      let kind := Kind.record (← freshKind)
      let left ← checkCon fuel left kind
      let right ← checkCon fuel right kind
      requireDisjoint fuel span left right
      pure (.concat left right, kind)
    | .map f row =>
      let domain ← freshKind
      let codomain ← freshKind
      let f ← checkCon fuel f (.arrow domain codomain)
      let row ← checkCon fuel row (.record domain)
      pure (.map domain codomain f row, .record codomain)
    | .proj row field =>
      let element ← freshKind
      let row ← checkCon fuel row (.record element)
      let field ← checkCon fuel field .name
      pure (.proj row field, element)
    | .unit => pure (.unit, .unit)
    | .tuple components =>
      let typed ← components.mapM (inferCon fuel)
      pure (.tuple (typed.map (·.1)), .tuple (typed.map (·.2)))
    | .component tuple index =>
      let (tuple, kind) ← inferCon fuel tuple
      match index with
      | 0 => fail span (.ofKindError (.predicate (.tupleWidth 1) kind) (some tuple))
      | index + 1 =>
        match ← onKindM (KindStore.tupleComponent kind index).run with
        | .ok component => pure (.component tuple index, component)
        | .error error => fail span (.ofKindError error (some tuple))
    | .kabs x body =>
      let (body, kind) ← inScope do
        pushKind x
        inferCon fuel body
      pure (.kabs x body, .poly x kind)
    | .kapp f argument =>
      let (f, kind) ← match f.node with
        | .var name => conVar f.span name
        | .path modules item => conPath f.span modules item
        | _ => inferCon fuel f
      match ← onKindM (KindStore.resolve kind) with
      | .poly _ body =>
        let argument ← elaborateKind fuel argument
        let result ← onKindM (KindStore.subst body argument 0)
        pure (.kapp f argument, result)
      | kind =>
        let expected := Kind.poly "" (← freshKind)
        fail span (.ofKindError (.mismatch expected kind) (some f))
    | .annot con kind =>
      let kind ← elaborateKind fuel kind
      let con ← checkCon fuel con kind
      pure (con, kind)
    | .wild =>
      let kind ← freshKind
      return (← freshCon kind, kind)
end

/-- Checks a type. -/
def checkType (fuel : Nat) (c : Surface.Con) : ElaborateM Con := checkCon fuel c .type

/-- A type that may be left out. -/
def checkType? (fuel : Nat) : Option Surface.Con → ElaborateM Con
  | some c => checkType fuel c
  | none => freshType

/-- Checks a row with fields of any kind. -/
def checkRow (fuel : Nat) (c : Surface.Con) : ElaborateM Con := do
  checkCon fuel c (.record (← freshKind))

end Elaborate

end RowML
