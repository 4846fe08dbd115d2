import RowML.Class.Evidence
import RowML.Obligation.Basic
import RowML.Surface.Basic

/-!
# Elaborated programs

In an elaborated program every binder carries its classifier, every argument is written out and
every use of a class is a dictionary.  Term variables are de Bruijn indices that count term binders
only; constructor binders and kind binders are counted separately.
-/

namespace RowML

/-- Patterns bind term variables from left to right. -/
inductive Pattern where
  | wild
  | var (name : String) (type : Con)
  | lit (value : Literal)
  | variant (field : Con) (payload : Pattern)
  /-- The fields that an open pattern leaves out are `rest`. -/
  | record (fields : List (Con × Pattern)) (rest : Option Con)
deriving Inhabited

mutual
/-- The number of term variables that a pattern binds. -/
def Pattern.boundCount : Pattern → Nat
  | .wild => 0
  | .var _ _ => 1
  | .lit _ => 0
  | .variant _ payload => payload.boundCount
  | .record fields _ => Pattern.boundCountFields fields
def Pattern.boundCountFields : List (Con × Pattern) → Nat
  | [] => 0
  | (_, pattern) :: fields => pattern.boundCount + Pattern.boundCountFields fields
end

inductive Term where
  | lit (value : Literal)
  | bvar (index : Nat)
  | global (definition : DefId)
  | member (module : ModuleId) (path : List String) (item : String)
  | app (function argument : Term)
  | abs (binder : String) (type : Con) (body : Term)
  | capp (function : Term) (argument : Con)
  | cabs (binder : String) (kind : Kind) (body : Term)
  | kapp (function : Term) (argument : Kind)
  | kabs (binder : String) (body : Term)
  /-- Assumes that two rows share no label. -/
  | disjointAbs (left right : Con) (body : Term)
  /-- Discharges an assumption of disjointness. -/
  | disjointApp (function : Term)
  | record (fields : List (Con × Term))
  /-- The other fields of the record are `rest`. -/
  | field (record : Term) (name rest : Con)
  | concat (left right : Term) (leftRow rightRow : Con)
  | cut (record : Term) (field rest : Con)
  | cutRow (record : Term) (row rest : Con)
  /-- All cases of the variant are `row`. -/
  | inject (field : Con) (value : Term) (row : Con)
  | case (scrutinee : Term) (arms : List (Pattern × Term)) (type : Con)
  | letVal (name : String) (type : Con) (value body : Term)
  /-- The functions are in scope in each other and in `body`. -/
  | letRec (functions : List (String × Con × Term)) (body : Term)
  | ite (condition yes no : Term)
  | dict (dict : Dict)
  /-- A dictionary that is not known yet; a finished declaration has none. -/
  | slot (id : SlotId)
deriving Inhabited

/-- The name of a dictionary parameter that no program text writes. -/
def dictName : String := "dict"

inductive Declaration where
  | con (id : DefId) (kind : Kind) (definition : Con)
  | class (id : DefId) (kind : Kind) (definition : Option Con)
  | val (id : DefId) (type : Con) (body : Term)
  /-- A group of functions that may refer to each other. -/
  | functions (group : List (DefId × Con × Term))
  | signature (name : String) (id : SignatureId)
  | structure (name : String) (ref : ModuleRef) (decls : List Declaration)
  | opened (ref : ModuleRef)
deriving Inhabited

end RowML
