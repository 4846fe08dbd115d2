import RowML.Elaboration.Identity
import RowML.Elaboration.Solving

/-!
# Matching structures with signatures

A structure matches a signature if it has every item that the signature asks for.  A functor matches
a functor signature if it takes every parameter that the signature promises, and gives a result that
matches.
-/

namespace RowML

namespace Elaborate

/-- The failure of one item. -/
def itemMismatch (item : SignatureItem) (mismatch : ItemMismatch) : Cause :=
  .signatureMismatch item.name item.sort mismatch

/-- Matches the constructor or class `name` of a structure with what a signature asks for; `isClass`
says which of the two that is. -/
def matchCon (fuel : Nat) (span : Span) (actual : ModuleRef) (item : SignatureItem)
    (isClass : Bool) (kind : Kind) (definition : Option Con) : ElaborateM Unit := do
  let mismatch {α : Type} (m : ItemMismatch) : ElaborateM α := fail span (itemMismatch item m)
  let (foundKind, foundClass) ← match (← getGlobals).moduleItem? actual item.name .con with
    | some (.con kind _) => pure (kind, false)
    | some (.class kind _) => pure (kind, true)
    | _ => mismatch .missing
  if (foundClass && !isClass) || (isClass && !foundClass && definition.isSome) then
    mismatch (.sort .con)
  match ← onStore (onKindsFallibly (KindStore.unify fuel kind foundKind)).run with
  | .error _ => mismatch (.kind kind foundKind)
  | .ok () =>
    match definition with
    | none => pure ()
    | some definition =>
      let found := Con.member actual.module actual.path item.name
      match ← outcome (unify fuel span definition found) with
      | .ok () => pure ()
      | .error _ => mismatch (.definition definition found)

/-- Matches the value `name` of a structure with what a signature asks for. -/
def matchVal (fuel : Nat) (span : Span) (actual : ModuleRef) (item : SignatureItem) (type : Con) :
    ElaborateM Unit := do
  match (← getGlobals).moduleItem? actual item.name .val with
  | some (.val found) =>
    match ← outcome (unify fuel span type found) with
    | .ok () => pure ()
    | .error diagnostic =>
      let reason := match diagnostic.cause with
        | .typeMismatch _ _ reason => reason
        | _ => .structural
      fail span (itemMismatch item (.type type found reason))
  | _ => fail span (itemMismatch item .missing)

/-- The name under which a mismatch is reported. -/
def moduleLabel (globals : Globals) (ref : ModuleRef) : String :=
  ref.path.getLast?.getD (globals.module ref.module).name

mutual
/-- Matches a structure or functor with a signature; obligations may be left. -/
def matchSignature : Nat → Span → ModuleRef → Signature → ElaborateM Unit
  | 0, _, _, _ => noFuel
  | fuel + 1, span, actual, expected => do
    let globals ← getGlobals
    let actual := globals.canonical actual
    match expected, globals.moduleSignature? actual with
    | _, none => fail span (.notAStructure actual.path)
    | _, some .error => pure ()
    | .error, _ => pure ()
    | .items entries, some (.items _) =>
      match (Signature.items entries).instantiate actual with
      | .items entries => entries.forM fun item => matchItem fuel span actual item
      | _ => pure ()
    | .functor param paramSig result, some (.functor _ foundParam _) =>
      matchFunctor fuel span actual param paramSig result foundParam
    | _, _ =>
      fail span (.signatureMismatch (moduleLabel globals actual) .module .shape)
def matchItem : Nat → Span → ModuleRef → SignatureItem → ElaborateM Unit
  | 0, _, _, _ => noFuel
  | fuel + 1, span, actual, item => do
    match item with
    | .con _ kind definition => matchCon fuel span actual item false kind definition
    | .class _ kind definition => matchCon fuel span actual item true kind definition
    | .val _ type => matchVal fuel span actual item type
    | .structure name sig =>
      let child := actual.child name
      if ((← getGlobals).moduleSignature? child).isNone then
        fail span (itemMismatch item .missing)
      else
        match ← outcome (matchSignature fuel span child sig) with
        | .ok () => pure ()
        | .error diagnostic =>
          match diagnostic.cause with
          | .signatureMismatch inner _ mismatch =>
            fail span (itemMismatch item (.nested inner mismatch))
          | _ => throw diagnostic
    | .signature _ _ => pure ()
/-- Matches functors: a placeholder with the promised signature must do as an argument, and the
application to it must match the expected result. -/
def matchFunctor : Nat → Span → ModuleRef → String → Signature → Signature → Signature →
    ElaborateM Unit
  | 0, _, _, _, _, _, _ => noFuel
  | fuel + 1, span, actual, param, paramSig, result, foundParam => do
    let functor ← aliasOf actual
    let outer := ModuleRef.root functor
    let id ← onGlobals (·.addModule ⟨param, [], paramSig.rebase [outer], .param, []⟩)
    let placeholder := ModuleRef.root id
    matchSignature fuel span placeholder (foundParam.rebase [outer])
    let name := ((← getGlobals).module functor).name
    match (← getGlobals).applyFunctor functor id name with
    | none => fail span (.signatureMismatch name .module .shape)
    | some (applied, globals) =>
      modify fun session => { session with globals }
      matchSignature fuel span (ModuleRef.root applied) (result.rebase [placeholder, outer])
end

/-- Matches a structure with a signature and decides all obligations. -/
def requireMatch (fuel : Nat) (span : Span) (actual : ModuleRef) (expected : Signature) :
    ElaborateM Unit := do
  matchSignature fuel span actual expected
  forceAll fuel

end Elaborate

end RowML
