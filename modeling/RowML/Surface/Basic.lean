import RowML.Span

/-!
# Surface syntax

This is what a parser hands to elaboration: names are not resolved, binders have no indices, and
whatever the programmer left out is absent.  Every node carries its span.
-/

namespace RowML

structure Located (α : Type) where
  node : α
  span : Span
deriving Inhabited

inductive Literal where
  | int (value : Int)
  /-- The bits of a double-precision number. -/
  | float (bits : UInt64)
  | string (value : String)
  | char (value : Char)
  | bool (value : Bool)
deriving DecidableEq, Repr, Inhabited

namespace Surface

inductive KindNode where
  | type
  | unit
  | name
  | arrow (domain codomain : Located KindNode)
  | record (element : Located KindNode)
  | tuple (components : List (Located KindNode))
  | var (name : String)
  | poly (binder : String) (body : Located KindNode)
  /-- A kind to be inferred. -/
  | wild
deriving Inhabited

abbrev Kind := Located KindNode

inductive ConNode where
  | var (name : String)
  | path (modules : List String) (item : String)
  | app (function argument : Located ConNode)
  | abs (binder : String) (kind : Option Kind) (body : Located ConNode)
  | arrow (domain codomain : Located ConNode)
  | poly (binder : String) (implicit : Bool) (kind : Option Kind) (body : Located ConNode)
  | kpoly (binder : String) (body : Located ConNode)
  | disjoint (left right body : Located ConNode)
  | record (row : Located ConNode)
  | variant (row : Located ConNode)
  | row (fields : List (Located ConNode × Located ConNode))
  | label (name : String)
  | concat (left right : Located ConNode)
  | map (function row : Located ConNode)
  | proj (row field : Located ConNode)
  | unit
  | tuple (components : List (Located ConNode))
  /-- A component of a tuple, counted from one. -/
  | component (tuple : Located ConNode) (index : Nat)
  | kabs (binder : String) (body : Located ConNode)
  | kapp (function : Located ConNode) (argument : Kind)
  | annot (con : Located ConNode) (kind : Kind)
  /-- A constructor to be inferred. -/
  | wild
deriving Inhabited

abbrev Con := Located ConNode

inductive PatternNode where
  | wild
  | var (name : String)
  | lit (value : Literal)
  /-- The case `name` of a variant; without a payload it carries the empty record. -/
  | variant (name : String) (payload : Option (Located PatternNode))
  /-- An open pattern allows fields that are not listed. -/
  | record (fields : List (String × Located PatternNode)) (opened : Bool)
  | annot (pattern : Located PatternNode) (type : Con)
deriving Inhabited

abbrev Pattern := Located PatternNode

inductive Param where
  | con (name : String) (implicit : Bool) (kind : Option Kind)
  | disjoint (left right : Con)
  | val (name : String) (type : Option Con)
deriving Inhabited

/-- A function of a recursive group, over the type of its body. -/
structure FunctionOf (ε : Type) where
  name : String
  params : List Param
  result : Option Con
  body : ε
  span : Span

/-- A declaration inside an expression. -/
inductive LocalOf (ε : Type) where
  | val (name : String) (type : Option Con) (body : ε) (span : Span)
  | functions (group : List (FunctionOf ε))

inductive ExprNode where
  | lit (value : Literal)
  | var (name : String)
  | path (modules : List String) (item : String)
  | app (function argument : Located ExprNode)
  | lam (binder : String) (type : Option Con) (body : Located ExprNode)
  | capp (function : Located ExprNode) (argument : Con)
  | cabs (binder : String) (implicit : Bool) (kind : Option Kind) (body : Located ExprNode)
  | kabs (binder : String) (body : Located ExprNode)
  | kapp (function : Located ExprNode) (argument : Kind)
  | disjointAbs (left right : Con) (body : Located ExprNode)
  | record (fields : List (Con × Located ExprNode))
  | field (record : Located ExprNode) (name : Con)
  | concat (left right : Located ExprNode)
  /-- The record without one field. -/
  | cut (record : Located ExprNode) (field : Con)
  /-- The record without the fields of a row. -/
  | cutRow (record : Located ExprNode) (row : Con)
  | inject (field : Con) (value : Located ExprNode)
  | case (scrutinee : Located ExprNode) (arms : List (Pattern × Located ExprNode))
  | letIn (locals : List (LocalOf (Located ExprNode))) (body : Located ExprNode)
  | ite (condition yes no : Located ExprNode)
  | annot (expr : Located ExprNode) (type : Con)

abbrev Expr := Located ExprNode

instance : Inhabited ExprNode := ⟨.var ""⟩

abbrev Function := FunctionOf Expr

abbrev Local := LocalOf Expr

inductive SigItemNode (σ : Type) where
  | con (name : String) (kind : Option Kind) (definition : Option Con)
  | class (name : String) (kind : Option Kind) (definition : Option Con)
  | val (name : String) (type : Con)
  | structure (name : String) (sig : σ)

inductive SigNode where
  | items (items : List (Located (SigItemNode (Located SigNode))))
  | path (modules : List String) (name : String)
  | functor (param : String) (paramSig result : Located SigNode)
  /-- The last element of `path` is the constructor that becomes equal to `con`. -/
  | whereCon (sig : Located SigNode) (path : List String) (con : Con)

abbrev Sig := Located SigNode

abbrev SigItem := Located (SigItemNode Sig)

inductive StrNode (δ : Type) where
  | struct (decls : List δ)
  | path (names : List String)
  | functor (param : String) (paramSig : Sig) (result : Option Sig) (body : Located (StrNode δ))
  | app (functor : List String) (argument : Located (StrNode δ))
  | sealed (body : Located (StrNode δ)) (sig : Sig)

inductive DeclNode where
  | con (name : String) (kind : Option Kind) (definition : Con)
  | class (name : String) (kind : Option Kind) (definition : Option Con)
  | val (name : String) (type : Option Con) (body : Expr)
  | functions (group : List Function)
  | signature (name : String) (sig : Sig)
  | structure (name : String) (sig : Option Sig) (body : Located (StrNode (Located DeclNode)))
  | opened (path : List String)

abbrev Decl := Located DeclNode

abbrev Str := Located (StrNode Decl)

end Surface

end RowML
