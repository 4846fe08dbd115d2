import RowML.Elaboration.Closing
import RowML.Elaboration.Constructor
import RowML.Module.Manifest

/-!
# Elaboration of signatures

The items of a signature may refer to the items before them and to the signatures around.  While a
signature is elaborated its items are in scope with the level of the signature, so that a reference
from `n` levels further in counts `n` levels outwards.
-/

namespace RowML

namespace Elaborate

/-- Runs a computation one signature level further in. -/
def atNextLevel {α : Type} (x : ElaborateM α) : ElaborateM α := do
  modify fun session => { session with level := session.level + 1 }
  ensuring x (modify fun session => { session with level := session.level - 1 })

/-- The kind of a class that says nothing else. -/
def defaultClassKind : Kind := .arrow .type .type

/-- The kind and the definition of a constructor or class, of which either may be left out;
`fallback` is the kind if both are. -/
def elaborateKinded (fuel : Nat) (fallback : Kind) (kind : Option Surface.Kind)
    (definition : Option Surface.Con) : ElaborateM (Kind × Option Con) := do
  match kind, definition with
  | some kind, some definition =>
    let kind ← elaborateKind fuel kind
    let definition ← checkCon fuel definition kind
    pure (kind, some definition)
  | none, some definition =>
    let (definition, kind) ← inferCon fuel definition
    pure (kind, some definition)
  | some kind, none => return (← elaborateKind fuel kind, none)
  | none, none => pure (fallback, none)

/-- The final forms of a kind and a definition. -/
def closeKinded (fuel : Nat) (span : Span) (kind : Kind) (definition : Option Con) :
    ElaborateM (Kind × Option Con) := do
  let definition ← definition.mapM (closeCon fuel span)
  let kind ← closeKind fuel kind
  pure (kind, definition)

/-- A constructor or class of a signature. -/
def elaborateConItem (fuel : Nat) (span : Span) (fallback : Kind) (name : String)
    (kind : Option Surface.Kind) (definition : Option Surface.Con) :
    ElaborateM (Kind × Option Con) := do
  beginGroup
  let (kind, definition) ← elaborateKinded fuel fallback kind definition
  let (kind, definition) ← closeKinded fuel span kind definition
  bindName name .con (.signatureCon (← get).level [] kind)
  pure (kind, definition)

/-- The signature with that name in a structure. -/
def moduleSignatureItem (span : Span) (ref : ModuleRef) (name : String) :
    ElaborateM Signature := do
  match (← getGlobals).moduleSignature? ref with
  | none => fail span (.unbound name .signature)
  | some .error => pure .error
  | some sig =>
    match sig.item? name .signature with
    | some (.signature _ inner) => pure (inner.rebase [ref])
    | _ => fail span (.unbound name .signature)

/-- The signature with that name. -/
def namedSignature (span : Span) (modules : List String) (name : String) :
    ElaborateM Signature := do
  match modules with
  | [] =>
    match ← meaning? name .signature with
    | some (.signature id) => return ((← getGlobals).signature id).sig
    | some (.opened ref) => moduleSignatureItem span ref name
    | _ => fail span (.unbound name .signature)
  | modules => do
    let ref ← modulePath span modules
    moduleSignatureItem span ref name

/-- Makes the constructor that a path leads to equal to `con`.  A constructor that has a definition
keeps it, and the two must agree. -/
def whereCon (fuel : Nat) (span : Span) (sig : Signature) (path : List String)
    (con : Surface.Con) : ElaborateM Signature := do
  match path.getLast? with
  | none => fail span (.unbound "" .con)
  | some item =>
    let nested := path.dropLast
    let replace (kind : Kind) (existing : Option Con) : ElaborateM Signature := do
      beginGroup
      let con ← checkCon fuel con kind
      let con ← closeCon fuel span con
      match existing with
      | some existing =>
        unify fuel span existing con
        pure sig
      | none => pure (Signature.withManifest item con nested sig)
    match ← nestedSignature span sig nested with
    | .error => pure sig
    | target =>
      match target.item? item .con with
      | some (.con _ kind existing) => replace kind existing
      | some (.class _ kind existing) => replace kind existing
      | _ => fail span (.unbound item .con)

mutual
/-- A signature one level below the current one. -/
def elaborateSignature : Nat → Surface.Sig → ElaborateM Signature
  | 0, _ => noFuel
  | fuel + 1, sig => atNextLevel (inScope (signatureHere fuel sig))
/-- A signature of the current level; its items stay in scope. -/
def signatureHere : Nat → Surface.Sig → ElaborateM Signature
  | 0, _ => noFuel
  | fuel + 1, sig => do
    match sig.node with
    | .items entries => return .items (← entries.mapM (elaborateItem fuel))
    | .path modules name => namedSignature sig.span modules name
    | .functor param paramSig result =>
      let paramSig ← elaborateSignature fuel paramSig
      bindName param .module (.signatureStructure ((← get).level + 1) [] paramSig)
      let result ← atNextLevel (elaborateSignature fuel result)
      pure (.functor param paramSig result)
    | .whereCon inner path con =>
      let base ← inScope (signatureHere fuel inner)
      whereCon fuel sig.span base path con
def elaborateItem : Nat → Surface.SigItem → ElaborateM SignatureItem
  | 0, _ => noFuel
  | fuel + 1, item => do
    let span := item.span
    match item.node with
    | .con name kind definition =>
      let (kind, definition) ← elaborateConItem fuel span .type name kind definition
      pure (.con name kind definition)
    | .class name kind definition =>
      let (kind, definition) ← elaborateConItem fuel span defaultClassKind name kind definition
      pure (.class name kind definition)
    | .val name type =>
      beginGroup
      let type ← checkType fuel type
      let type ← closeCon fuel span type
      pure (.val name type)
    | .structure name sig =>
      let sig ← elaborateSignature fuel sig
      bindName name .module (.signatureStructure (← get).level [name] sig)
      pure (.structure name sig)
end

end Elaborate

end RowML
