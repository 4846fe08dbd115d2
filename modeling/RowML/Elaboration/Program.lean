import RowML.Elaboration.Definition
import RowML.Elaboration.Matching

/-!
# Elaboration of programs

Declarations are elaborated in order.  A declaration that fails is reported, its names are bound to
poison, and elaboration goes on with the next one.

The body of a functor is elaborated once, with a placeholder module for the parameter.  Its
signature is then freed from what was declared on the way: references to that become references
relative to the result, and the placeholder becomes the level around it.
-/

namespace RowML

/-- The declarations of a structure, and what they make of it. -/
structure Block where
  decls : List Declaration
  items : List SignatureItem
  /-- The nested structures that have an identity of their own. -/
  members : List (String × ModuleId)
deriving Inhabited

namespace Block

def empty : Block := ⟨[], [], []⟩

def addItem (block : Block) (item : SignatureItem) : Block :=
  { block with items := block.items ++ [item] }

def addMember (block : Block) (name : String) (id : ModuleId) : Block :=
  { block with members := insertMember block.members name id }

end Block

namespace Elaborate

/-! ## What a declaration adds to its structure -/

def definitionName (globals : Globals) (id : DefId) : String :=
  ((globals.definitions[id]?).map (·.name)).getD ""

def exportDecl (session : Session) (block : Block) (decl : Declaration) : Block :=
  let block := { block with decls := block.decls ++ [decl] }
  let name := definitionName session.globals
  match decl with
  | .con id kind _ => block.addItem (.con (name id) kind (some (.global id)))
  | .class id kind _ => block.addItem (.class (name id) kind (some (.global id)))
  | .val id type _ => block.addItem (.val (name id) type)
  | .functions group =>
    group.foldl (fun block (id, type, _) => block.addItem (.val (name id) type)) block
  | .signature x id => block.addItem (.signature x (session.globals.signature id).sig)
  | .structure x ref _ =>
    let block := block.addItem (.structure x (itemSignature session ref))
    if ref.path.isEmpty then block.addMember x ref.module else block
  | .opened _ => block

def poisonVal (block : Block) (name : String) (span : Span) : ElaborateM Block := do
  let id ← addDefinition name (.val .error) span
  bindName name .val (.definition id)
  pure (block.addItem (.val name .error))

/-- Binds the names of a declaration that failed to poison. -/
def poison (block : Block) (decl : Surface.Decl) : ElaborateM Block := do
  let span := decl.span
  match decl.node with
  | .con name _ _ =>
    let id ← addDefinition name (.con .error .error) span
    bindName name .con (.definition id)
    pure (block.addItem (.con name .error (some .error)))
  | .class name _ _ =>
    let id ← addDefinition name (.class .error (some .error)) span
    bindName name .con (.definition id)
    pure (block.addItem (.class name .error (some .error)))
  | .val name _ _ => poisonVal block name span
  | .functions group =>
    group.foldlM (fun block function => poisonVal block function.name function.span) block
  | .signature name _ =>
    let qualified ← qualify name
    let id ← onGlobals (·.addSignature ⟨name, qualified, .error⟩)
    bindName name .signature (.signature id)
    pure (block.addItem (.signature name .error))
  | .structure name _ _ =>
    let qualified ← qualify name
    let id ← onGlobals (·.addModule ⟨name, qualified, .error, .poison, []⟩)
    bindName name .module (.module (ModuleRef.root id))
    pure ((block.addItem (.structure name .error)).addMember name id)
  | .opened _ => pure block

/-- What is needed to go back to the start of a declaration. -/
structure Checkpoint where
  scope : Scope.Mark
  path : Nat
  level : Nat
  functorDepth : Nat
  declared : Nat
deriving Inhabited

def checkpoint (session : Session) : Checkpoint where
  scope := session.scope.mark
  path := session.path.length
  level := session.level
  functorDepth := session.functorDepth
  declared := session.declared.length

/-- Goes back to the start of a declaration that failed.  The store and the global table stay;
functions whose types are not final become poison. -/
def recover (start : Checkpoint) (session : Session) : Session :=
  { session with
    scope := session.scope.reset start.scope
    path := session.path.take start.path
    level := start.level
    functorDepth := start.functorDepth
    declared := session.declared.take start.declared
    queue := Queue.empty
    provisional := []
    globals := session.provisional.foldl
      (fun globals id => globals.setDefinition id (.val .error)) session.globals }

/-! ## Declarations without bodies -/

def declareSignature (fuel : Nat) (name : String) (sig : Surface.Sig) :
    ElaborateM Declaration := do
  beginGroup
  let sig ← elaborateSignature fuel sig
  let qualified ← qualify name
  let id ← onGlobals (·.addSignature ⟨name, qualified, sig⟩)
  bindName name .signature (.signature id)
  pure (.signature name id)

/-- Brings the items of a structure into scope. -/
def openStructure (span : Span) (path : List String) : ElaborateM Declaration := do
  let ref ← modulePath span path
  match (← getGlobals).moduleSignature? ref with
  | some (.items entries) =>
    entries.forM fun item => bindName item.name item.sort (.opened ref)
  | _ => pure ()
  pure (.opened ref)

/-! ## Structures -/

def retractInstances (count : Nat) : ElaborateM Unit :=
  onGlobals fun globals => ((), globals.retractInstances count)

/-- A new identity for `inner`, of which only `sig` is known.  The instances after the first
`instances` came from `inner`; those that the signature shows take their place. -/
def sealModule (fuel : Nat) (span : Span) (name : String) (inner : ModuleRef) (sig : Signature)
    (instances : Nat) : ElaborateM ModuleRef := do
  requireMatch fuel span inner sig
  retractInstances instances
  let qualified ← qualify name
  let id ← onGlobals (·.addModule ⟨name, qualified, sig, .sealed inner.module, []⟩)
  declare id qualified
  registerInstances fuel (ModuleRef.root id) sig
  pure (ModuleRef.root id)

/-- Anchors what a functor body called `root` has declared at the root of the body, and the
parameter one level further out.  `definitions` and `declared` count what there was before. -/
def functorAbstraction (session : Session) (root : List String) (param : ModuleId)
    (definitions declared : Nat) : Abstraction :=
  let own := (List.range session.globals.definitions.size).drop definitions |>.filterMap fun id =>
    match session.globals.definitions[id]? with
    | some entry =>
      if root.length < entry.qualified.length && root.isPrefixOf entry.qualified then
        some (id, (entry.qualified.drop root.length).dropLast)
      else none
    | none => none
  let modules := (session.declared.drop declared).filterMap fun (id, qualified) =>
    if root.isPrefixOf qualified then some (id, qualified.drop root.length) else none
  (session.globals.anchorAll own modules).insertModule param ⟨1, []⟩

/-- Makes a functor of the signature of its body. -/
def addFunctor (name param : String) (paramSig result : Signature) : ElaborateM ModuleRef := do
  let qualified ← qualify name
  let id ← onGlobals (·.addModule ⟨name, qualified, .functor param paramSig result, .struct, []⟩)
  declare id qualified
  pure (ModuleRef.root id)

/-- The name of a functor argument that is written in place. -/
def argumentName : String := "arg"

/-- Applies a functor to a structure. -/
def applyFunctor (fuel : Nat) (span argumentSpan : Span) (name : String) (path : List String)
    (functor : ModuleId) (paramSig : Signature) (argument : ModuleRef) :
    ElaborateM ModuleRef := do
  requireMatch fuel argumentSpan argument (paramSig.rebase [ModuleRef.root functor])
  let argument ← aliasOf argument
  match (← getGlobals).applyFunctor functor argument name with
  | none => fail span (.notAFunctor path)
  | some (id, globals) =>
    modify fun session => { session with globals }
    declare id (← qualify name)
    registerInstances fuel (ModuleRef.root id) (globals.module id).sig
    pure (ModuleRef.root id)

mutual
/-- Elaborates declarations in order. -/
def elaborateDecls : Nat → List Surface.Decl → ElaborateM Block
  | 0, _ => noFuel
  | fuel + 1, decls =>
    decls.foldlM
      (fun block decl => do
        let start := checkpoint (← get)
        match ← outcome (elaborateDecl fuel decl) with
        | .ok declared => return exportDecl (← get) block declared
        | .error diagnostic =>
          modify fun session =>
            let session := recover start session
            { session with errors := session.errors ++ [diagnostic] }
          poison block decl)
      Block.empty
def elaborateDecl : Nat → Surface.Decl → ElaborateM Declaration
  | 0, _ => noFuel
  | fuel + 1, decl => do
    let span := decl.span
    match decl.node with
    | .con name kind definition => declareCon fuel span name kind definition
    | .class name kind definition => declareClass fuel span name kind definition
    | .val name type body => declareVal fuel span name type body
    | .functions group => declareFunctions fuel group
    | .signature name sig => declareSignature fuel name sig
    | .structure name sig body =>
      beginGroup
      let instances := (← getGlobals).instances.size
      let (ref, decls) ← elaborateStr fuel name body
      let ref ← match sig with
        | some sig => do
          let sig ← elaborateSignature fuel sig
          sealModule fuel span name ref sig instances
        | none => pure ref
      bindName name .module (.module ref)
      pure (.structure name ref decls)
    | .opened path => openStructure span path
/-- A structure called `name`, and the declarations inside it. -/
def elaborateStr : Nat → String → Surface.Str → ElaborateM (ModuleRef × List Declaration)
  | 0, _, _ => noFuel
  | fuel + 1, name, str => do
    let span := str.span
    match str.node with
    | .struct decls =>
      let qualified ← qualify name
      modify fun session => { session with path := session.path ++ [name] }
      let block ← inScope (elaborateDecls fuel decls)
      modify fun session => { session with path := session.path.dropLast }
      let id ← onGlobals (·.addModule ⟨name, qualified, .items block.items, .struct, block.members⟩)
      declare id qualified
      pure (ModuleRef.root id, block.decls)
    | .path path => return (← modulePath span path, [])
    | .functor param paramSig result body =>
      elaborateFunctor fuel span name param paramSig result body
    | .app path argument =>
      let functor ← moduleOrFunctor span path
      match (← getGlobals).moduleSignature? functor with
      | some (.functor _ paramSig _) =>
        let id ← aliasOf functor
        let (argumentRef, decls) ← match argument.node with
          | .path path => do pure (← modulePath argument.span path, [])
          | _ => elaborateStr fuel argumentName argument
        let ref ← applyFunctor fuel span argument.span name path id paramSig argumentRef
        pure (ref, decls)
      | some .error => pure (functor, [])
      | _ => fail span (.notAFunctor path)
    | .sealed inner sig =>
      let instances := (← getGlobals).instances.size
      let (ref, decls) ← elaborateStr fuel name inner
      let sig ← elaborateSignature fuel sig
      let ref ← sealModule fuel span name ref sig instances
      pure (ref, decls)
def elaborateFunctor : Nat → Span → String → String → Surface.Sig → Option Surface.Sig →
    Surface.Str → ElaborateM (ModuleRef × List Declaration)
  | 0, _, _, _, _, _, _ => noFuel
  | fuel + 1, span, name, param, paramSig, result, body => do
    let paramSig ← elaborateSignature fuel paramSig
    let paramId ← onGlobals (·.addModule ⟨param, [], paramSig, .param, []⟩)
    let instances := (← getGlobals).instances.size
    let definitions := (← getGlobals).definitions.size
    let declared := (← get).declared.length
    let forgetDeclared : ElaborateM Unit :=
      modify fun session => { session with declared := session.declared.take declared }
    let body : ElaborateM (Signature × List Declaration) := inScope do
      bindName param .module (.module (ModuleRef.root paramId))
      registerInstances fuel (ModuleRef.root paramId) paramSig
      modify fun session => { session with functorDepth := session.functorDepth + 1 }
      ensuring (functorBody fuel span name result body)
        (modify fun session => { session with functorDepth := session.functorDepth - 1 })
    let inner ← outcome body
    retractInstances instances
    match inner with
    | .error diagnostic =>
      forgetDeclared
      throw diagnostic
    | .ok (result, decls) =>
      let map := functorAbstraction (← get) (← qualify name) paramId definitions declared
      forgetDeclared
      let result := (← getGlobals).detach result map
      return (← addFunctor name param paramSig result, decls)
/-- The body of a functor, with the signature that applications get. -/
def functorBody : Nat → Span → String → Option Surface.Sig → Surface.Str →
    ElaborateM (Signature × List Declaration)
  | 0, _, _, _, _ => noFuel
  | fuel + 1, span, name, result, body => do
    let (ref, decls) ← elaborateStr fuel name body
    match result with
    | some result =>
      let sig ← elaborateSignature fuel result
      requireMatch fuel span ref sig
      pure (sig, decls)
    | none => return (itemSignature (← get) ref, decls)
end

end Elaborate

/-- The result of elaborating a program. -/
structure Elaborated where
  decls : List Declaration
  errors : List Diagnostic
  store : Store
  globals : Globals

namespace Elaborated

/-- The type of the value with that qualified name. -/
def valType? (elaborated : Elaborated) (qualified : List String) : Option Con :=
  match (elaborated.globals.findDefinition? qualified).bind elaborated.globals.definition? with
  | some (.val type) => some type
  | _ => none

end Elaborated

/-- Elaborates a program.  The answer is `none` only if the fuel runs out; failures of single
declarations are part of the result. -/
def elaborate (config : Config) (fuel : Nat) (decls : List Surface.Decl) : Option Elaborated :=
  match ((Elaborate.elaborateDecls fuel decls).run config).run Session.empty with
  | none => none
  | some (result, session) =>
    let decls := match result with
      | .ok block => block.decls
      | .error _ => []
    some ⟨decls, session.errors, session.store, session.globals⟩

end RowML
