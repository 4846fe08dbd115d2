import RowML.Module.Signature
import RowML.Span

/-!
# The global table

The table holds the definitions, modules, named signatures and instances that declarations have
made, each addressed by its position.  An item of a module is found by reading the module's
signature through the module itself.
-/

namespace RowML

inductive Definition where
  | con (kind : Kind) (definition : Con)
  /-- A class; without a definition it is what instance search looks for. -/
  | class (kind : Kind) (definition : Option Con)
  | val (type : Con)
deriving Inhabited

structure DefinitionEntry where
  name : String
  /-- The names of the enclosing structures, then the name. -/
  qualified : List String
  definition : Definition
  span : Span
deriving Inhabited

inductive ModuleOrigin where
  | struct
  /-- A view of `inner` with an identity of its own. -/
  | sealed (inner : ModuleId)
  /-- Stands for the parameter of a functor. -/
  | param
  | applied (functor argument : ModuleId)
  /-- Stands for a structure that failed to elaborate. -/
  | poison
deriving DecidableEq, Repr, Inhabited

structure ModuleEntry where
  name : String
  qualified : List String
  sig : Signature
  origin : ModuleOrigin
  /-- The nested structures that have an identity of their own. -/
  members : List (String × ModuleId)

instance : Inhabited ModuleEntry := ⟨⟨"", [], .error, .poison, []⟩⟩

/-- The list with `id` for `name`, in place of an earlier entry if there is one. -/
def insertMember (members : List (String × ModuleId)) (name : String) (id : ModuleId) :
    List (String × ModuleId) :=
  members.filter (fun entry => entry.1 != name) ++ [(name, id)]

structure SignatureEntry where
  name : String
  qualified : List String
  sig : Signature
deriving Inhabited

/-- Where the dictionary of an instance comes from. -/
inductive InstanceSource where
  | definition (id : DefId)
  | member (ref : ModuleRef) (item : String)
deriving DecidableEq, Repr, Inhabited

/-- A value that instance search may use.  Its type may quantify, carry disjointness preconditions
and take dictionaries before it comes to the class application. -/
structure Instance where
  source : InstanceSource
  type : Con
deriving Inhabited

/-- An item found through a module. -/
inductive ModuleItem where
  | con (kind : Kind) (definition : Option Con)
  | class (kind : Kind) (definition : Option Con)
  | val (type : Con)
deriving Inhabited

structure Globals where
  definitions : Array DefinitionEntry
  modules : Array ModuleEntry
  signatures : Array SignatureEntry
  instances : Array Instance
  /-- The results of functor applications, by functor and argument. -/
  applications : List ((ModuleId × ModuleId) × ModuleId)
deriving Inhabited

namespace Globals

def empty : Globals := ⟨#[], #[], #[], #[], []⟩

/-! ## Definitions -/

def definition? (globals : Globals) (id : DefId) : Option Definition :=
  (globals.definitions[id]?).map (·.definition)

def addDefinition (globals : Globals) (entry : DefinitionEntry) : DefId × Globals :=
  (globals.definitions.size, { globals with definitions := globals.definitions.push entry })

def setDefinition (globals : Globals) (id : DefId) (definition : Definition) : Globals :=
  { globals with definitions := globals.definitions.modify id ({ · with definition }) }

/-- The most recent definition with that qualified name. -/
def findDefinition? (globals : Globals) (qualified : List String) : Option DefId :=
  ((List.range globals.definitions.size).reverse).find? fun id =>
    (globals.definitions[id]?).any (·.qualified == qualified)

/-- Whether a definition is a class without a definition. -/
def isClassDefinition (globals : Globals) (id : DefId) : Bool :=
  match globals.definition? id with
  | some (.class _ none) => true
  | _ => false

/-! ## Modules -/

def module (globals : Globals) (id : ModuleId) : ModuleEntry := (globals.modules[id]?).getD default

def addModule (globals : Globals) (entry : ModuleEntry) : ModuleId × Globals :=
  (globals.modules.size, { globals with modules := globals.modules.push entry })

def setMember (globals : Globals) (id : ModuleId) (name : String) (inner : ModuleId) : Globals :=
  { globals with
    modules := globals.modules.modify id fun entry =>
      { entry with members := insertMember entry.members name inner } }

/-- The most recent module with that qualified name, which is not empty. -/
def findModule? (globals : Globals) (qualified : List String) : Option ModuleId :=
  if qualified.isEmpty then none
  else
    ((List.range globals.modules.size).reverse).find? fun id =>
      (globals.modules[id]?).any (·.qualified == qualified)

/-- Follows nested structures with an identity of their own as far as possible. -/
def canonicalFrom (globals : Globals) (module : ModuleId) : List String → ModuleRef
  | [] => ⟨module, []⟩
  | name :: rest =>
    match (globals.module module).members.lookup name with
    | some inner => globals.canonicalFrom inner rest
    | none => ⟨module, name :: rest⟩

/-- The one spelling of a reference. -/
def canonical (globals : Globals) (ref : ModuleRef) : ModuleRef :=
  globals.canonicalFrom ref.module ref.path

/-- The signature of the structure that a path leads to from `sig`, which is the signature of
`here`; `outer` are `here` and the structures around it. -/
def nestedSignature? (sig : Signature) (here : ModuleRef) (outer : List ModuleRef) :
    List String → Option Signature
  | [] => some sig
  | name :: rest =>
    match sig.nested? name with
    | none => none
    | some inner =>
      let next := here.child name
      nestedSignature? (inner.rebase outer) next (next :: outer) rest

/-- The signature of a module or nested structure, relative to itself. -/
def moduleSignature? (globals : Globals) (ref : ModuleRef) : Option Signature :=
  let ref := globals.canonical ref
  let root := ModuleRef.root ref.module
  nestedSignature? (globals.module ref.module).sig root [root] ref.path

/-- The item of a structure, with references to the structure spelled out.  A poisoned structure
has every item. -/
def moduleItem? (globals : Globals) (ref : ModuleRef) (name : String) (sort : Namespace) :
    Option ModuleItem :=
  let ref := globals.canonical ref
  match globals.moduleSignature? ref with
  | none => none
  | some .error =>
    match sort with
    | .val => some (.val .error)
    | _ => some (.con .error (some .error))
  | some sig =>
    match sig.item? name sort with
    | some (.con _ kind definition) =>
      some (.con kind (definition.map (·.substModules 0 [ref])))
    | some (.class _ kind definition) =>
      some (.class kind (definition.map (·.substModules 0 [ref])))
    | some (.val _ type) => some (.val (type.substModules 0 [ref]))
    | _ => none

/-- Whether a head in normal form is a class. -/
def isClassHead (globals : Globals) : Con → Bool
  | .global id => globals.isClassDefinition id
  | .member module path item =>
    match globals.moduleItem? ⟨module, path⟩ item .con with
    | some (.class _ none) => true
    | _ => false
  | _ => false

/-! ## Functors -/

/-- The module that results from applying a functor.  The same application has the same result. -/
def applyFunctor (globals : Globals) (functor argument : ModuleId) (name : String) :
    Option (ModuleId × Globals) :=
  match globals.applications.lookup (functor, argument) with
  | some known => some (known, globals)
  | none =>
    match (globals.module functor).sig with
    | .functor _ _ result =>
      let (id, globals) := globals.addModule {
        name
        qualified := []
        sig := result.rebase [ModuleRef.root argument]
        origin := .applied functor argument
        members := [] }
      some (id, { globals with
        applications := ((functor, argument), id) :: globals.applications })
    | _ => none

/-- The definition of an item, taken from the table if it is a reference to a definition that `map`
lists. -/
def ownedBody (globals : Globals) (map : Abstraction) (definition : Option Con) : Option Con :=
  match definition with
  | some (.global id) =>
    if (map.definitions.lookup id).isSome then
      match globals.definition? id with
      | some (.con _ body) => some body
      | some (.class _ body) => body
      | _ => none
    else definition
  | _ => definition

mutual
/-- Replaces the items that refer to definitions listed in `map` by the bodies of these. -/
def expose (globals : Globals) (map : Abstraction) : Signature → Signature
  | .error => .error
  | .functor param paramSig result =>
    .functor param (globals.expose map paramSig) (globals.expose map result)
  | .items entries => .items (globals.exposeItems map entries)
def exposeItem (globals : Globals) (map : Abstraction) : SignatureItem → SignatureItem
  | .con x k definition => .con x k (globals.ownedBody map definition)
  | .class x k definition => .class x k (globals.ownedBody map definition)
  | .val x type => .val x type
  | .structure x sig => .structure x (globals.expose map sig)
  | .signature x sig => .signature x (globals.expose map sig)
def exposeItems (globals : Globals) (map : Abstraction) :
    List SignatureItem → List SignatureItem
  | [] => []
  | entry :: rest => globals.exposeItem map entry :: globals.exposeItems map rest
end

/-- Frees the signature of a functor's body from the definitions made while it was elaborated. -/
def detach (globals : Globals) (sig : Signature) (map : Abstraction) : Signature :=
  (globals.expose map sig).abstractOver map

/-- The abstraction that anchors definitions and modules at the root of a structure, each at the
path where it was declared. -/
def anchorAll (globals : Globals) (definitions : List (DefId × List String))
    (modules : List (ModuleId × List String)) : Abstraction :=
  let map := definitions.foldl
    (fun map (id, path) =>
      map.insertDefinition id ⟨0, path⟩ ((globals.definitions[id]?).map (·.name) |>.getD ""))
    Abstraction.empty
  modules.foldl (fun map (id, path) => map.insertModule id ⟨0, path⟩) map

/-! ## Signatures and instances -/

def addSignature (globals : Globals) (entry : SignatureEntry) : SignatureId × Globals :=
  (globals.signatures.size, { globals with signatures := globals.signatures.push entry })

def signature (globals : Globals) (id : SignatureId) : SignatureEntry :=
  (globals.signatures[id]?).getD default

def addInstance (globals : Globals) (inst : Instance) : Globals :=
  { globals with instances := globals.instances.push inst }

/-- Forgets the instances after the first `count`. -/
def retractInstances (globals : Globals) (count : Nat) : Globals :=
  { globals with instances := globals.instances.take count }

/-! ## Names -/

def definitionName? (globals : Globals) (id : DefId) : Option String :=
  (globals.definitions[id]?).map fun entry => ".".intercalate entry.qualified

/-- The name of a module; the result of an application is named after functor and argument, which
are older modules. -/
def moduleNameWithin (globals : Globals) : Nat → ModuleId → Option String
  | 0, _ => none
  | fuel + 1, id =>
    match globals.modules[id]? with
    | none => none
    | some entry =>
      if !entry.qualified.isEmpty then some (".".intercalate entry.qualified)
      else
        match entry.origin with
        | .applied functor argument =>
          match globals.moduleNameWithin fuel functor, globals.moduleNameWithin fuel argument with
          | some f, some a => some (f ++ "(" ++ a ++ ")")
          | _, _ => none
        | _ => some entry.name

def moduleName? (globals : Globals) (id : ModuleId) : Option String :=
  globals.moduleNameWithin globals.modules.size id

end Globals

end RowML
