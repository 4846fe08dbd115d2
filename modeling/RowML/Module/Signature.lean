import RowML.Module.Reference

/-!
# Signatures

A signature describes the items of a structure, or a functor.  Its constructors refer to the
signature itself by level 0 and to the signatures around it by higher levels.  A nested structure
lies one level further in, the parameter of a functor one level and its result two levels, so that
level 1 seen from the result is the parameter.
-/

namespace RowML

/-- The sorts of names that do not clash with each other. -/
inductive Namespace where
  /-- Constructors and classes. -/
  | con
  | val
  | module
  | signature
deriving DecidableEq, Repr, Inhabited

def Namespace.describe : Namespace → String
  | .con => "constructor"
  | .val => "value"
  | .module => "structure"
  | .signature => "signature"

mutual
inductive Signature where
  | items (items : List SignatureItem)
  | functor (param : String) (paramSig result : Signature)
  /-- Poison: matches everything. -/
  | error
inductive SignatureItem where
  /-- A constructor, abstract if it has no definition. -/
  | con (name : String) (kind : Kind) (definition : Option Con)
  | class (name : String) (kind : Kind) (definition : Option Con)
  | val (name : String) (type : Con)
  | structure (name : String) (sig : Signature)
  | signature (name : String) (sig : Signature)
end

instance : Inhabited Signature := ⟨.error⟩

namespace SignatureItem

def name : SignatureItem → String
  | .con x _ _ => x
  | .class x _ _ => x
  | .val x _ => x
  | .structure x _ => x
  | .signature x _ => x

def sort : SignatureItem → Namespace
  | .con _ _ _ => .con
  | .class _ _ _ => .con
  | .val _ _ => .val
  | .structure _ _ => .module
  | .signature _ _ => .signature

end SignatureItem

namespace Signature

/-- The last item with that name; later items shadow earlier ones. -/
def item? (sig : Signature) (name : String) (sort : Namespace) : Option SignatureItem :=
  match sig with
  | .items entries => entries.reverse.find? fun item => item.name == name && item.sort == sort
  | .functor _ _ _ => none
  | .error => none

/-- The signature of the nested structure with that name. -/
def nested? (sig : Signature) (name : String) : Option Signature :=
  match sig.item? name .module with
  | some (.structure _ inner) => some inner
  | _ => none

def isError : Signature → Bool
  | .error => true
  | _ => false

mutual
/-- Rebuilds every constructor; `f` is told how many levels the constructor lies below the root. -/
def mapCons (f : Nat → Con → Con) (level : Nat) : Signature → Signature
  | .error => .error
  | .functor param paramSig result =>
    .functor param (paramSig.mapCons f (level + 1)) (result.mapCons f (level + 2))
  | .items entries => .items (mapConsItems f level entries)
def mapConsItem (f : Nat → Con → Con) (level : Nat) : SignatureItem → SignatureItem
  | .con x k definition => .con x k (definition.map (f level))
  | .class x k definition => .class x k (definition.map (f level))
  | .val x type => .val x (f level type)
  | .structure x sig => .structure x (sig.mapCons f (level + 1))
  | .signature x sig => .signature x (sig.mapCons f (level + 1))
def mapConsItems (f : Nat → Con → Con) (level : Nat) : List SignatureItem → List SignatureItem
  | [] => []
  | entry :: rest => mapConsItem f level entry :: mapConsItems f level rest
end

/-- The signature as it reads through `ref`: references to its root become items of `ref`. -/
def instantiate (sig : Signature) (ref : ModuleRef) : Signature :=
  sig.mapCons (fun level c => c.substModules level [ref]) 0

/-- Replaces the levels around the root by `outer`, the nearest first, and keeps references to the
root relative. -/
def rebase (sig : Signature) (outer : List ModuleRef) : Signature :=
  sig.mapCons (fun level c => c.substModules (level + 1) outer) 0

/-- Makes the references that `map` lists relative. -/
def abstractOver (sig : Signature) (map : Abstraction) : Signature :=
  sig.mapCons (fun level c => c.abstractModules level map) 0

end Signature

end RowML
