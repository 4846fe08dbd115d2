import RowML.Kind.Store

/-!
# Kinds as text

An arrow associates to the right, so only an arrow to the left of an arrow is put in parentheses.
A variable is written by the name of its binder if the binder is in view, and by number otherwise.
-/

namespace RowML

namespace Kind

/-- The name of variable `index` among the names of the binders in view, the innermost first. -/
def variableText (mark : String) (names : List String) (index : Nat) : String :=
  (names[index]?).getD (mark ++ toString index)

def isArrow : Kind → Bool
  | .arrow _ _ => true
  | _ => false

def parenthesize (needed : Bool) (text : String) : String :=
  if needed then "(" ++ text ++ ")" else text

mutual
/-- The text of a kind under binders called `names`. -/
def render (names : List String) : Kind → String
  | .type => "Type"
  | .unit => "Unit"
  | .name => "Name"
  | .error => "<error>"
  | .arrow a b => parenthesize a.isArrow (a.render names) ++ " -> " ++ b.render names
  | .record a => "\x7b" ++ a.render names ++ "\x7d"
  | .tuple ks => "(" ++ " * ".intercalate (renderList names ks) ++ ")"
  | .bvar i => variableText "_k" names i
  | .poly x body => x ++ " --> " ++ body.render (x :: names)
  | .mvar v => "?k" ++ toString v
def renderList (names : List String) : List Kind → List String
  | [] => []
  | k :: ks => k.render names :: renderList names ks
end

end Kind

/-- The text of a kind whose metavariables live in the store. -/
def KindStore.render (store : KindStore) (k : Kind) : String := (store.expand k).render []

end RowML
