import RowML.Class.Evidence
import RowML.Row.Disjoint
import RowML.Store.Subst

/-!
# Scopes

A scope holds the binders of one declaration, and the names that declarations have bound.  The index
of a variable counts the binders of its own class only.  What a binder carries is stored as it read
where the binder was made, and is shifted past the later binders when it is looked up.
-/

namespace RowML

inductive Classifier where
  | con (kind : Kind)
  | kind
  /-- A term variable; instance search may use it if its type is a goal. -/
  | val (type : Con) (isDict : Bool)
  /-- An assumption of disjointness, which has no name. -/
  | fact (fact : Fact)
deriving Inhabited

namespace Classifier

def isCon : Classifier → Bool
  | .con _ => true
  | _ => false

def isKind : Classifier → Bool
  | .kind => true
  | _ => false

def isVal : Classifier → Bool
  | .val _ _ => true
  | _ => false

end Classifier

structure Binder where
  name : String
  classifier : Classifier
  /-- The numbers of constructor and kind binders around this one. -/
  depth : Depth
deriving Inhabited

/-- What a declared name stands for. -/
inductive Meaning where
  | definition (id : DefId)
  | module (ref : ModuleRef)
  | signature (id : SignatureId)
  /-- The item of that name in an opened structure. -/
  | opened (ref : ModuleRef)
  /-- A constructor of a signature that is being elaborated, at signature level `level`. -/
  | signatureCon (level : Nat) (path : List String) (kind : Kind)
  /-- A structure of such a signature, or the parameter of a functor signature. -/
  | signatureStructure (level : Nat) (path : List String) (sig : Signature)
deriving Inhabited

structure NamedMeaning where
  name : String
  sort : Namespace
  meaning : Meaning
deriving Inhabited

structure Scope where
  /-- The innermost first. -/
  binders : List Binder
  /-- The newest first. -/
  names : List NamedMeaning
  /-- The numbers of constructor and kind binders. -/
  depth : Depth
  /-- The number of term binders. -/
  valDepth : Nat
deriving Inhabited

namespace Scope

def empty : Scope := ⟨[], [], Depth.zero, 0⟩

/-! ## Marks -/

/-- How much of a scope there was at some point. -/
structure Mark where
  binders : Nat
  names : Nat
deriving DecidableEq, Repr, Inhabited

def mark (scope : Scope) : Mark := ⟨scope.binders.length, scope.names.length⟩

/-- Removes the innermost binder from the counts. -/
def leave (scope : Scope) (binder : Binder) : Scope :=
  match binder.classifier with
  | .con _ => { scope with depth := { scope.depth with con := scope.depth.con - 1 } }
  | .kind => { scope with depth := { scope.depth with kind := scope.depth.kind - 1 } }
  | .val _ _ => { scope with valDepth := scope.valDepth - 1 }
  | .fact _ => scope

/-- Forgets everything that was added since the mark. -/
def reset (scope : Scope) (mark : Mark) : Scope :=
  let extra := scope.binders.length - mark.binders
  let scope' := (scope.binders.take extra).foldl leave scope
  { scope' with
    binders := scope.binders.drop extra
    names := scope.names.drop (scope.names.length - mark.names) }

/-! ## Binders -/

def push (scope : Scope) (name : String) (classifier : Classifier) : Scope :=
  { scope with binders := ⟨name, classifier, scope.depth⟩ :: scope.binders }

def pushCon (scope : Scope) (name : String) (kind : Kind) : Scope :=
  { scope.push name (.con kind) with depth := scope.depth.underCon }

def pushKind (scope : Scope) (name : String) : Scope :=
  { scope.push name .kind with depth := scope.depth.underKind }

def pushVal (scope : Scope) (name : String) (type : Con) (isDict : Bool) : Scope :=
  { scope.push name (.val type isDict) with valDepth := scope.valDepth + 1 }

def pushFact (scope : Scope) (left right : Con) : Scope :=
  scope.push "" (.fact ⟨left, right⟩)

/-- The innermost binder of a class with that name, and the number of binders of the class further
in. -/
def find? (scope : Scope) (ofClass : Classifier → Bool) (name : String) : Option (Nat × Binder) :=
  let candidates := scope.binders.filter fun binder => ofClass binder.classifier
  match candidates.findIdx? (·.name == name) with
  | some index => (candidates[index]?).map (index, ·)
  | none => none

/-- The binders that were added after `binder`. -/
def above (scope : Scope) (binder : Binder) : Depth :=
  ⟨scope.depth.con - binder.depth.con, scope.depth.kind - binder.depth.kind⟩

/-- Index and kind of a constructor variable. -/
def findCon? (scope : Scope) (name : String) : KindM (Option (Nat × Kind)) := do
  match scope.find? Classifier.isCon name with
  | some (index, binder) =>
    match binder.classifier with
    | .con kind => return some (index, ← KindStore.lift kind (scope.above binder).kind 0)
    | _ => pure none
  | none => pure none

/-- Index of a kind variable. -/
def findKind? (scope : Scope) (name : String) : Option Nat :=
  (scope.find? Classifier.isKind name).map (·.1)

/-- Index and type of a term variable. -/
def findVal? (scope : Scope) (name : String) : KindM (Option (Nat × Con)) := do
  match scope.find? Classifier.isVal name with
  | some (index, binder) =>
    match binder.classifier with
    | .val type _ => return some (index, ← type.weaken (scope.above binder))
    | _ => pure none
  | none => pure none

/-- The assumptions of disjointness, the outermost first. -/
def facts (scope : Scope) : List Fact :=
  scope.binders.reverse.filterMap fun binder =>
    match binder.classifier with
    | .fact fact =>
      let amount := (scope.above binder).con
      some ⟨fact.left.lift amount, fact.right.lift amount⟩
    | _ => none

/-- The term variables that are dictionaries, the outermost first. -/
def dictionaries (scope : Scope) : List LocalDict :=
  let vals := scope.binders.reverse.filter fun binder => binder.classifier.isVal
  vals.zipIdx.filterMap fun (binder, level) =>
    match binder.classifier with
    | .val type true => some ⟨level, type, binder.depth.con⟩
    | _ => none

/-! ## Names -/

def bind (scope : Scope) (name : String) (sort : Namespace) (meaning : Meaning) : Scope :=
  { scope with names := ⟨name, sort, meaning⟩ :: scope.names }

/-- The newest meaning of a name. -/
def meaning? (scope : Scope) (name : String) (sort : Namespace) : Option Meaning :=
  (scope.names.find? fun entry => entry.name == name && entry.sort == sort).map (·.meaning)

end Scope

end RowML
