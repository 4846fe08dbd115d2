import RowML.Class.Resolve
import RowML.Config
import RowML.Diagnostic.Basic
import RowML.Obligation.Queue
import RowML.Scope

/-!
# The state of elaboration

A session holds everything that elaboration builds up.  A failure is a diagnostic and keeps the
state; what has to be undone is undone by whoever handles it.
-/

namespace RowML

structure Session where
  store : Store
  globals : Globals
  scope : Scope
  /-- The names of the structures around the current declaration. -/
  path : List String
  /-- The number of signatures around the constructor being elaborated. -/
  level : Nat
  /-- The number of functor bodies around the current declaration. -/
  functorDepth : Nat
  /-- The structures declared inside functor bodies with their qualified names, the oldest first. -/
  declared : List (ModuleId × List String)
  /-- The modules that stand for nested structures. -/
  aliases : List (ModuleRef × ModuleId)
  /-- The obligations and dictionary slots of the current declaration. -/
  queue : Queue
  /-- The definitions of a group of functions whose types are not final. -/
  provisional : List DefId
  /-- The failures of declarations, the oldest first. -/
  errors : List Diagnostic
deriving Inhabited

def Session.empty : Session where
  store := Store.empty
  globals := Globals.empty
  scope := Scope.empty
  path := []
  level := 0
  functorDepth := 0
  declared := []
  aliases := []
  queue := Queue.empty
  provisional := []
  errors := []

/-- Computations of elaboration. -/
abbrev ElaborateM := ReaderT Config (ExceptT Diagnostic (Fuelled Session))

namespace Elaborate

def noFuel {α : Type} : ElaborateM α := fun _ => (outOfFuel : Fuelled Session _)

def fail {α : Type} (span : Span) (cause : Cause) : ElaborateM α := throw ⟨span, cause⟩

/-- The outcome of a computation; the state is kept either way. -/
def outcome {α : Type} (x : ElaborateM α) : ElaborateM (Except Diagnostic α) := fun config =>
  ExceptT.mk (Except.ok <$> (x.run config).run)

/-- Continues with an outcome. -/
def ofOutcome {α : Type} : Except Diagnostic α → ElaborateM α
  | .ok a => pure a
  | .error diagnostic => throw diagnostic

/-- Runs `after` at the end of a computation, be it a success or a failure. -/
def ensuring {α : Type} (x : ElaborateM α) (after : ElaborateM Unit) : ElaborateM α := do
  let result ← outcome x
  after
  ofOutcome result

/-! ## Parts of the session -/

def onStore {α : Type} (x : FuelM α) : ElaborateM α := fun _ session =>
  let store := session.store
  let session := { session with store := Store.empty }
  (x.run store).map fun (a, store) => (.ok a, { session with store })

def onStoreM {α : Type} (x : StoreM α) : ElaborateM α := onStore (x : FuelM α)

def onKindM {α : Type} (x : KindM α) : ElaborateM α := onStoreM (onKinds x)

def onGlobals {α : Type} (f : Globals → α × Globals) : ElaborateM α :=
  modifyGet fun session =>
    let (a, globals) := f session.globals
    (a, { session with globals })

def modifyQueue (f : Queue → Queue) : ElaborateM Unit :=
  modify fun session => { session with queue := f session.queue }

def modifyScope (f : Scope → Scope) : ElaborateM Unit :=
  modify fun session => { session with scope := f session.scope }

def getGlobals : ElaborateM Globals := return (← get).globals

def conDepth : ElaborateM Nat := return (← get).scope.depth.con

/-- Runs a computation whose binders and names are forgotten at its end. -/
def inScope {α : Type} (x : ElaborateM α) : ElaborateM α := do
  let mark := (← get).scope.mark
  ensuring x (modifyScope (·.reset mark))

def pushCon (name : String) (kind : Kind) : ElaborateM Unit := modifyScope (·.pushCon name kind)

def pushKind (name : String) : ElaborateM Unit := modifyScope (·.pushKind name)

def pushFact (left right : Con) : ElaborateM Unit := modifyScope (·.pushFact left right)

def bindName (name : String) (sort : Namespace) (meaning : Meaning) : ElaborateM Unit :=
  modifyScope (·.bind name sort meaning)

def meaning? (name : String) (sort : Namespace) : ElaborateM (Option Meaning) :=
  return (← get).scope.meaning? name sort

/-! ## Constructors in the session -/

def freshCon (kind : Kind) : ElaborateM Con := do onStoreM (Store.fresh kind (← conDepth))

def freshType : ElaborateM Con := freshCon .type

def freshTypeRow : ElaborateM Con := freshCon .typeRow

def freshKind : ElaborateM Kind := onKindM (KindStore.fresh .any)

def zonk (fuel : Nat) (c : Con) : ElaborateM Con := onStore (Store.zonk fuel c)

def head (fuel : Nat) (c : Con) : ElaborateM Con := do
  onStore (headNormal (← getGlobals) fuel c)

/-- Whether a constructor is a goal that instance search may fill in. -/
def isGoal (fuel : Nat) (c : Con) : ElaborateM Bool := do
  onStore (Class.isGoal (← getGlobals) fuel c)

/-- Binds a term variable; it is a dictionary if its type is a goal. -/
def pushVal (fuel : Nat) (name : String) (type : Con) : ElaborateM Unit := do
  let isDict ← isGoal fuel type
  modifyScope (·.pushVal name type isDict)

/-- Makes two kinds equal; `site` is the constructor whose kind is at stake. -/
def unifyKinds (fuel : Nat) (span : Span) (site : Option Con) (expected found : Kind) :
    ElaborateM Unit := do
  match ← onStore (onKindsFallibly (KindStore.unify fuel expected found)).run with
  | .ok () => pure ()
  | .error error => fail span (.ofKindError error site)

/-! ## Names in the session -/

/-- The qualified name of a declaration. -/
def qualify (name : String) : ElaborateM (List String) := return (← get).path ++ [name]

def addDefinition (name : String) (definition : Definition) (span : Span) : ElaborateM DefId := do
  let qualified ← qualify name
  onGlobals (·.addDefinition ⟨name, qualified, definition, span⟩)

/-- Starts a declaration without obligations. -/
def beginGroup : ElaborateM Unit := modifyQueue fun _ => Queue.empty

end Elaborate

end RowML
