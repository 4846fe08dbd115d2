import RowML.Constructor.Basic
import RowML.Kind.Printer

/-!
# Constructors as text

The text is the surface syntax.  Definitions, modules and skolems are named by a `Naming`; a bound
variable has the name of its binder if the binder is in view, and a number otherwise.
-/

namespace RowML

/-- How closely the context of a constructor binds.  A form that binds less closely is put in
parentheses. -/
inductive Prec where
  | top
  | arrow
  | app
  | atom
deriving DecidableEq, Repr

namespace Prec

def level : Prec → Nat
  | .top => 0
  | .arrow => 1
  | .app => 2
  | .atom => 3

/-- Whether a form that stands in a context `outer` and binds like `own` needs parentheses. -/
def exceeds (outer own : Prec) : Bool := own.level < outer.level

end Prec

/-- Names for what a constructor refers to by number. -/
structure Naming where
  definition : DefId → Option String
  module : ModuleId → Option String
  skolem : SkolemId → String

namespace Con

def pathText (path : List String) (item : String) : String :=
  String.join ((path ++ [item]).map ("." ++ ·))

mutual
/-- The text of a constructor under constructor binders called `cons` and kind binders called
`kinds`, the innermost first. -/
def render (naming : Naming) (cons kinds : List String) (prec : Prec) : Con → String
  | .prim .int => "int"
  | .prim .float => "float"
  | .prim .string => "string"
  | .prim .char => "char"
  | .prim .bool => "bool"
  | .unit => "()"
  | .error => "<error>"
  | .bvar i => Kind.variableText "_" cons i
  | .global id => (naming.definition id).getD ("def#" ++ toString id)
  | .member id path item => (naming.module id).getD ("mod#" ++ toString id) ++ pathText path item
  | .relative level path item => "^" ++ toString level ++ pathText path item
  | .skolem id => "'" ++ naming.skolem id
  | .mvar id _ => "?" ++ toString id
  | .app f a =>
    Kind.parenthesize (prec.exceeds .app)
      (f.render naming cons kinds .app ++ " " ++ a.render naming cons kinds .atom)
  | .abs x k body =>
    Kind.parenthesize (prec.exceeds .top)
      ("fn " ++ x ++ " :: " ++ k.render kinds ++ " => " ++
        body.render naming (x :: cons) kinds .top)
  | .kabs x body =>
    Kind.parenthesize (prec.exceeds .top)
      ("fn [[" ++ x ++ "]] => " ++ body.render naming cons (x :: kinds) .top)
  | .kapp f k =>
    Kind.parenthesize (prec.exceeds .app)
      (f.render naming cons kinds .app ++ " [[" ++ k.render kinds ++ "]]")
  | .arrow a b =>
    Kind.parenthesize (prec.exceeds .arrow)
      (a.render naming cons kinds .app ++ " -> " ++ b.render naming cons kinds .arrow)
  | .poly x implicit k body =>
    Kind.parenthesize (prec.exceeds .arrow)
      (x ++ (if implicit then " ::: " else " :: ") ++ k.render kinds ++ " -> " ++
        body.render naming (x :: cons) kinds .arrow)
  | .kpoly x body =>
    Kind.parenthesize (prec.exceeds .arrow)
      (x ++ " --> " ++ body.render naming cons (x :: kinds) .arrow)
  | .disjoint l r body =>
    Kind.parenthesize (prec.exceeds .arrow)
      ("[" ++ l.render naming cons kinds .arrow ++ " ~ " ++ r.render naming cons kinds .arrow ++
        "] => " ++ body.render naming cons kinds .arrow)
  | .record r => "$" ++ r.render naming cons kinds .atom
  | .variant r =>
    Kind.parenthesize (prec.exceeds .app) ("variant " ++ r.render naming cons kinds .atom)
  | .row _ fields => "[" ++ ", ".intercalate (renderFields naming cons kinds fields) ++ "]"
  | .label x => "#" ++ x
  | .concat l r =>
    Kind.parenthesize (prec.exceeds .top)
      (l.render naming cons kinds .app ++ " ++ " ++ r.render naming cons kinds .arrow)
  | .map _ _ f r =>
    Kind.parenthesize (prec.exceeds .app)
      ("map " ++ f.render naming cons kinds .atom ++ " " ++ r.render naming cons kinds .atom)
  | .proj r (.label x) => r.render naming cons kinds .atom ++ "[" ++ x ++ "]"
  | .proj r field =>
    r.render naming cons kinds .atom ++ "[" ++ field.render naming cons kinds .top ++ "]"
  | .tuple cs => "(" ++ ", ".intercalate (renderList naming cons kinds cs) ++ ")"
  | .component t i => t.render naming cons kinds .atom ++ "." ++ toString (i + 1)
def renderList (naming : Naming) (cons kinds : List String) : List Con → List String
  | [] => []
  | c :: cs => c.render naming cons kinds .top :: renderList naming cons kinds cs
def renderFields (naming : Naming) (cons kinds : List String) : List (Con × Con) → List String
  | [] => []
  | (.label x, value) :: fields =>
    (x ++ " = " ++ value.render naming cons kinds .arrow) ::
      renderFields naming cons kinds fields
  | (name, value) :: fields =>
    (name.render naming cons kinds .atom ++ " = " ++ value.render naming cons kinds .arrow) ::
      renderFields naming cons kinds fields
end

end Con

end RowML
