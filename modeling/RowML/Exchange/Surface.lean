import RowML.Config
import RowML.Surface.Builder

/-!
# Programs as data
-/

namespace RowML

namespace Surface

open Build (locate expect)

namespace Build

/-! ## Kinds and constructors -/

mutual
def kind : Data → BuildM Kind
  | .text "Type" => locate .type
  | .text "Unit" => locate .unit
  | .text "Name" => locate .name
  | .text "_" => locate .wild
  | .text "\x7bType\x7d" => do
    let element ← locate .type
    locate (.record element)
  | .text name => locate (.var name)
  | .list [.text "arrow", a, b] => do
    let a ← kind a
    let b ← kind b
    locate (.arrow a b)
  | .list [.text "record", k] => do
    let k ← kind k
    locate (.record k)
  | .list [.text "tuple", .list ks] => do
    let ks ← kinds ks
    locate (.tuple ks)
  | .list [.text "poly", x, k] => do
    let x ← text x
    let k ← kind k
    locate (.poly x k)
  | _ => expect "kind"
def kinds : List Data → BuildM (List Kind)
  | [] => pure []
  | k :: ks => do
    let k ← kind k
    let ks ← kinds ks
    pure (k :: ks)
end

/-- Builds a constructor that is written as a text. -/
def conText (text : String) : BuildM Con :=
  match text, Data.afterMark? '#' text, dottedPath? text with
  | "_", _, _ => locate .wild
  | "()", _, _ => locate .unit
  | _, some name, _ => locate (.label name)
  | _, none, some (modules, item) => locate (.path modules item)
  | name, none, none => locate (.var name)

mutual
def con : Data → BuildM Con
  | .text text => conText text
  | .list (.text tag :: parts) => do
    let node ← conNode tag parts
    locate node
  | _ => expect "constructor"
/-- Builds a constructor with parts, its span apart. -/
def conNode (tag : String) : List Data → BuildM ConNode
  | [] => expect "constructor"
  | [a] =>
    match tag with
    | "record" => return .record (← con a)
    | "variant" => return .variant (← con a)
    | "row" => return .row (← conFields a)
    | "row_of" => return .row (← labelled (← namedCons a))
    | "record_of" => do
      let row ← locate (.row (← labelled (← namedCons a)))
      pure (.record row)
    | "tuple" => return .tuple (← conList a)
    | _ => expect "constructor"
  | [a, b] =>
    match tag with
    | "path" => return .path (← path a) (← text b)
    | "app" => return .app (← con a) (← con b)
    | "fun" => return .arrow (← con a) (← con b)
    | "kpoly" => return .kpoly (← text a) (← con b)
    | "concat" => return .concat (← con a) (← con b)
    | "map" => return .map (← con a) (← con b)
    | "proj" => return .proj (← con a) (← con b)
    | "tproj" => return .component (← con a) (← nat b)
    | "kabs" => return .kabs (← text a) (← con b)
    | "kapp" => return .kapp (← con a) (← kind b)
    | "annot" => return .annot (← con a) (← kind b)
    | _ => expect "constructor"
  | [a, b, c] =>
    match tag with
    | "abs" => return .abs (← text a) (← option kind b) (← con c)
    | "disjoint" => return .disjoint (← con a) (← con b) (← con c)
    | _ => expect "constructor"
  | [a, b, c, d] =>
    match tag with
    | "poly" =>
      return .poly (← text a) (← bool b) (← option kind c) (← con d)
    | _ => expect "constructor"
  | _ => expect "constructor"
def conList : Data → BuildM (List Con)
  | .list items => cons items
  | _ => expect "constructors"
def cons : List Data → BuildM (List Con)
  | [] => pure []
  | c :: cs => return (← con c) :: (← cons cs)
def conFields : Data → BuildM (List (Con × Con))
  | .list items => conFieldItems items
  | _ => expect "fields"
def conFieldItems : List Data → BuildM (List (Con × Con))
  | [] => pure []
  | .list [name, value] :: rest => do
    let name ← con name
    let value ← con value
    let rest ← conFieldItems rest
    pure ((name, value) :: rest)
  | _ => expect "field"
def namedCons : Data → BuildM (List (String × Con))
  | .list items => namedConItems items
  | _ => expect "fields"
def namedConItems : List Data → BuildM (List (String × Con))
  | [] => pure []
  | .list [.text name, value] :: rest => do
    let value ← con value
    let rest ← namedConItems rest
    pure ((name, value) :: rest)
  | _ => expect "field"
end

/-! ## Literals and patterns -/

def literal? : Data → Option Literal
  | .int value => some (.int value)
  | .bool value => some (.bool value)
  | .list [.text "fbits", .text digits] =>
    (decimal? digits.toList).map fun bits => .float bits.toUInt64
  | .list [.text "str", .text value] => some (.string value)
  | .list [.text "char", .text value] => (value.toList.head?).map .char
  | _ => none

mutual
def pattern : Data → BuildM Pattern
  | .text "_" => locate .wild
  | .text name => locate (.var name)
  | .list [.text "lit", value] =>
    match literal? value with
    | some value => locate (.lit value)
    | none => expect "literal"
  | .list [.text "variant", name, .null] => do
    let name ← text name
    locate (.variant name none)
  | .list [.text "variant", name, payload] => do
    let name ← text name
    let payload ← pattern payload
    locate (.variant name (some payload))
  | .list [.text "record", .list fields, opened] => do
    let fields ← patternFields fields
    let opened ← bool opened
    locate (.record fields opened)
  | .list [.text "annot", inner, type] => do
    let inner ← pattern inner
    let type ← con type
    locate (.annot inner type)
  | _ => expect "pattern"
def patternFields : List Data → BuildM (List (String × Pattern))
  | [] => pure []
  | .list [.text name, inner] :: rest => do
    let inner ← pattern inner
    let rest ← patternFields rest
    pure ((name, inner) :: rest)
  | _ => expect "field"
end

/-! ## Expressions -/

def param : Data → BuildM Param
  | .list [.text "con", name, implicit, k] =>
    return .con (← text name) (← bool implicit) (← option kind k)
  | .list [.text "dis", left, right] => return .disjoint (← con left) (← con right)
  | .list [.text "val", name, type] => return .val (← text name) (← option con type)
  | _ => expect "parameter"

def params (data : Data) : BuildM (List Param) := do
  let items : List Data ← (data.asList : ReadM (List Data))
  items.mapM param

/-- Builds an expression that is written as a text. -/
def exprText (name : String) : BuildM Expr :=
  match dottedPath? name with
  | some (modules, item) => locate (.path modules item)
  | none => locate (.var name)

mutual
def expr : Data → BuildM Expr
  | .int value => locate (.lit (.int value))
  | .bool value => locate (.lit (.bool value))
  | .text name => exprText name
  | .list [.text "apps", f, .list arguments] => do
    let f ← expr f
    let arguments ← exprs arguments
    applications f arguments
  | .list (.text tag :: parts) => do
    match literal? (.list (.text tag :: parts)) with
    | some value => locate (.lit value)
    | none =>
      let node ← exprNode tag parts
      locate node
  | _ => expect "expression"
/-- Builds an expression with parts, its span apart. -/
def exprNode (tag : String) : List Data → BuildM ExprNode
  | [] => expect "expression"
  | [a] =>
    match tag with
    | "rec" => return .record (← exprFields a)
    | "rec_of" => return .record (← labelled (← namedExprs a))
    | _ => expect "expression"
  | [a, b] =>
    match tag with
    | "path" => return .path (← path a) (← text b)
    | "app" => return .app (← expr a) (← expr b)
    | "capp" => return .capp (← expr a) (← con b)
    | "kabs" => return .kabs (← text a) (← expr b)
    | "kapp" => return .kapp (← expr a) (← kind b)
    | "field" => return .field (← expr a) (← con b)
    | "concat" => return .concat (← expr a) (← expr b)
    | "cut" => return .cut (← expr a) (← con b)
    | "cutm" => return .cutRow (← expr a) (← con b)
    | "inject" => return .inject (← con a) (← expr b)
    | "case" => return .case (← expr a) (← arms b)
    | "let" => return .letIn (← locals a) (← expr b)
    | "annot" => return .annot (← expr a) (← con b)
    | _ => expect "expression"
  | [a, b, c] =>
    match tag with
    | "lam" => return .lam (← text a) (← option con b) (← expr c)
    | "dabs" => return .disjointAbs (← con a) (← con b) (← expr c)
    | "if" => return .ite (← expr a) (← expr b) (← expr c)
    | _ => expect "expression"
  | [a, b, c, d] =>
    match tag with
    | "cabs" => return .cabs (← text a) (← bool b) (← option kind c) (← expr d)
    | _ => expect "expression"
  | _ => expect "expression"
def exprs : List Data → BuildM (List Expr)
  | [] => pure []
  | e :: es => return (← expr e) :: (← exprs es)
def exprFields : Data → BuildM (List (Con × Expr))
  | .list items => exprFieldItems items
  | _ => expect "fields"
def exprFieldItems : List Data → BuildM (List (Con × Expr))
  | [] => pure []
  | .list [name, value] :: rest => do
    let name ← con name
    let value ← expr value
    let rest ← exprFieldItems rest
    pure ((name, value) :: rest)
  | _ => expect "field"
def namedExprs : Data → BuildM (List (String × Expr))
  | .list items => namedExprItems items
  | _ => expect "fields"
def namedExprItems : List Data → BuildM (List (String × Expr))
  | [] => pure []
  | .list [.text name, value] :: rest => do
    let value ← expr value
    let rest ← namedExprItems rest
    pure ((name, value) :: rest)
  | _ => expect "field"
def arms : Data → BuildM (List (Pattern × Expr))
  | .list items => armItems items
  | _ => expect "arms"
def armItems : List Data → BuildM (List (Pattern × Expr))
  | [] => pure []
  | .list [p, body] :: rest => do
    let p ← pattern p
    let body ← expr body
    let rest ← armItems rest
    pure ((p, body) :: rest)
  | _ => expect "arm"
def locals : Data → BuildM (List Local)
  | .list items => localItems items
  | _ => expect "local declarations"
def localItems : List Data → BuildM (List Local)
  | [] => pure []
  | item :: rest => return (← localDecl item) :: (← localItems rest)
def localDecl : Data → BuildM Local
  | .list [.text "val", name, type, body] => do
    let name ← text name
    let type ← option con type
    let body ← expr body
    return .val name type body (← nextSpan)
  | .list [.text "fun", .list group] => return .functions (← functions group)
  | _ => expect "local declaration"
def functions : List Data → BuildM (List Function)
  | [] => pure []
  | f :: rest => return (← function f) :: (← functions rest)
def function : Data → BuildM Function
  | .list [name, parameters, result, body] => do
    let name ← text name
    let parameters ← params parameters
    let result ← option con result
    let body ← expr body
    return ⟨name, parameters, result, body, ← nextSpan⟩
  | _ => expect "function"
end

/-! ## Signatures, structures and declarations -/

mutual
def signature : Data → BuildM Sig
  | .text name => locate (.path [] name)
  | .list [.text "sig", .list entries] => do
    let entries ← signatureItems entries
    locate (.items entries)
  | .list [.text "path", modules, name] => do
    let modules ← path modules
    let name ← text name
    locate (.path modules name)
  | .list [.text "functor", x, p, r] => do
    let x ← text x
    let p ← signature p
    let r ← signature r
    locate (.functor x p r)
  | .list [.text "where", inner, steps, c] => do
    let inner ← signature inner
    let steps ← path steps
    let c ← con c
    locate (.whereCon inner steps c)
  | _ => expect "signature"
def signatureItems : List Data → BuildM (List SigItem)
  | [] => pure []
  | item :: rest => return (← signatureItem item) :: (← signatureItems rest)
def signatureItem : Data → BuildM SigItem
  | .list [.text "con", name, k, definition] => do
    let name ← text name
    let k ← option kind k
    let definition ← option con definition
    locate (.con name k definition)
  | .list [.text "class", name, k, definition] => do
    let name ← text name
    let k ← option kind k
    let definition ← option con definition
    locate (.class name k definition)
  | .list [.text "val", name, type] => do
    let name ← text name
    let type ← con type
    locate (.val name type)
  | .list [.text "str", name, inner] => do
    let name ← text name
    let inner ← signature inner
    locate (.structure name inner)
  | _ => expect "signature item"
end

mutual
def structure_ : Data → BuildM Str
  | .text name => locate (.path (dotted name))
  | .list [.text "struct", .list items] => do
    let items ← decls items
    locate (.struct items)
  | .list [.text "path", names] => do
    let names ← path names
    locate (.path names)
  | .list [.text "functor", x, p, r, body] => do
    let x ← text x
    let p ← signature p
    let r ← option signature r
    let body ← structure_ body
    locate (.functor x p r body)
  | .list [.text "app", names, argument] => do
    let names ← path names
    let argument ← structure_ argument
    locate (.app names argument)
  | .list [.text "seal", body, s] => do
    let body ← structure_ body
    let s ← signature s
    locate (.sealed body s)
  | _ => expect "structure"
def decls : List Data → BuildM (List Decl)
  | [] => pure []
  | d :: ds => return (← decl d) :: (← decls ds)
def decl : Data → BuildM Decl
  | .list (.text tag :: parts) => do
    let node ← declNode tag parts
    locate node
  | _ => expect "declaration"
def declNode (tag : String) : List Data → BuildM DeclNode
  | [a] =>
    match tag with
    | "fun" => do
      let group : List Data ← (a.asList : ReadM (List Data))
      return .functions (← functions group)
    | "open" => return .opened (← path a)
    | _ => expect "declaration"
  | [a, b] =>
    match tag with
    | "sgn" => return .signature (← text a) (← signature b)
    | _ => expect "declaration"
  | [a, b, c] =>
    match tag with
    | "con" => return .con (← text a) (← option kind b) (← con c)
    | "val" => return .val (← text a) (← option con b) (← expr c)
    | "class" => return .class (← text a) (← option kind b) (← option con c)
    | "str" => return .structure (← text a) (← option signature b) (← structure_ c)
    | _ => expect "declaration"
  | _ => expect "declaration"
end

end Build

/-- Reads a program. -/
def programOfData (data : Data) : ReadM (List Decl) := do
  let items ← data.asList
  (Build.decls items).run' 0

end Surface

end RowML
