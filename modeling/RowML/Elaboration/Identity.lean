import RowML.Elaboration.Monad
import RowML.Module.Manifest

/-!
# Identities of structures

A structure keeps its identity when it is named again, nested in another structure or passed to a
functor.  A nested structure that needs an identity of its own gets a module that stands for it, and
always the same one.
-/

namespace RowML

namespace Elaborate

/-- Whether a functor body may refer to a module: its parameter, or a structure that it declares. -/
def isAnchorable (session : Session) (id : ModuleId) : Bool :=
  (session.globals.module id).origin == .param || session.declared.any (·.1 == id)

/-- The signature of a structure as an item of another structure. -/
def itemSignature (session : Session) (ref : ModuleRef) : Signature :=
  match session.globals.moduleSignature? ref with
  | none => .error
  | some sig =>
    let canonical := session.globals.canonical ref
    if 0 < session.functorDepth && !isAnchorable session canonical.module then sig
    else session.globals.selfify canonical sig

/-- The module that stands for a structure. -/
def aliasOf (ref : ModuleRef) : ElaborateM ModuleId := do
  let ref := (← getGlobals).canonical ref
  match ref.path.getLast? with
  | none => pure ref.module
  | some name =>
    match (← get).aliases.lookup ref with
    | some id => pure id
    | none =>
      let sig := itemSignature (← get) ref
      let id ← onGlobals (·.addModule ⟨name, [], sig, .struct, []⟩)
      modify fun session => { session with aliases := (ref, id) :: session.aliases }
      pure id

/-- Remembers a structure that is declared inside a functor body. -/
def declare (id : ModuleId) (qualified : List String) : ElaborateM Unit :=
  modify fun session =>
    if 0 < session.functorDepth then
      { session with declared := session.declared ++ [(id, qualified)] }
    else session

/-! ## Instances -/

/-- Makes a value an instance if its type says so. -/
def registerValue (fuel : Nat) (source : InstanceSource) (type : Con) : ElaborateM Unit := do
  if ← onStore (Class.isInstanceType (← getGlobals) fuel type) then
    onGlobals fun globals => ((), globals.addInstance ⟨source, type⟩)

/-- Makes a value of a structure an instance, unless there is an instance of that type. -/
def registerMember (fuel : Nat) (ref : ModuleRef) (name : String) : ElaborateM Unit := do
  let globals ← getGlobals
  match globals.moduleItem? ref name .val with
  | some (.val type) =>
    if ← onStore (Class.isInstanceType globals fuel type) then
      if globals.instances.any (·.type = type) then pure ()
      else
        onGlobals fun globals =>
          ((), globals.addInstance ⟨.member (globals.canonical ref) name, type⟩)
  | _ => pure ()

mutual
/-- Makes the values that a signature shows of a structure instances. -/
def registerInstances (fuel : Nat) (ref : ModuleRef) : Signature → ElaborateM Unit
  | .items entries => registerItems fuel ref entries
  | .functor _ _ _ => pure ()
  | .error => pure ()
def registerItem (fuel : Nat) (ref : ModuleRef) : SignatureItem → ElaborateM Unit
  | .val name _ => registerMember fuel ref name
  | .structure name sig => registerInstances fuel (ref.child name) sig
  | .con _ _ _ => pure ()
  | .class _ _ _ => pure ()
  | .signature _ _ => pure ()
def registerItems (fuel : Nat) (ref : ModuleRef) : List SignatureItem → ElaborateM Unit
  | [] => pure ()
  | entry :: rest => do
    registerItem fuel ref entry
    registerItems fuel ref rest
end

end Elaborate

end RowML
