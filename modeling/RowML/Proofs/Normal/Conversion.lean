import RowML.Normal.Head
import RowML.Proofs.Store.Reading

/-!
# Convertible constructors

Two constructors are convertible if they are equal up to the solutions of metavariables, the
definitions of the global table, the application of functions, the laws of rows, maps, projections
and tuples, the names of binders and the kinds written on row literals.

A row is an unordered collection of fields and remainders, so the law of projection is restricted to
literals whose labels are distinct constants and which have the field.  Without the restriction the
two fields of a literal that repeats a label, and with them any two constructors, would be
convertible; a projection that passes through a map over the empty row would do the same.
-/

namespace RowML

open RowML.Con

/-- One law of convertibility. -/
inductive Law (globals : Globals) : Con → Con → Prop where
  | definition {id : DefId} {k : Kind} {body : Con}
      (h : globals.definition? id = some (.con k body)) : Law globals (.global id) body
  | classDefinition {id : DefId} {k : Kind} {body : Con}
      (h : globals.definition? id = some (.class k (some body))) : Law globals (.global id) body
  | item {module : ModuleId} {path : List String} {item : String} {k : Kind} {body : Con}
      (h : globals.moduleItem? (globals.canonical ⟨module, path⟩) item .con =
        some (.con k (some body))) :
      Law globals (.member module path item) body
  | classItem {module : ModuleId} {path : List String} {item : String} {k : Kind} {body : Con}
      (h : globals.moduleItem? (globals.canonical ⟨module, path⟩) item .con =
        some (.class k (some body))) :
      Law globals (.member module path item) body
  | canonical (module : ModuleId) (path : List String) (item : String) :
      Law globals (.member module path item)
        (.member (globals.canonical ⟨module, path⟩).module (globals.canonical ⟨module, path⟩).path
          item)
  | beta (x : String) (k : Kind) (body argument : Con) :
      Law globals (.app (.abs x k body) argument) (body.instantiated [argument])
  | kindBeta (x : String) (body : Con) (argument : Kind) :
      Law globals (.kapp (.kabs x body) argument) (body.kindSubstituted argument)
  | renameAbs (x y : String) (k : Kind) (body : Con) : Law globals (.abs x k body) (.abs y k body)
  | renameKabs (x y : String) (body : Con) : Law globals (.kabs x body) (.kabs y body)
  | renamePoly (x y : String) (implicit : Bool) (k : Kind) (body : Con) :
      Law globals (.poly x implicit k body) (.poly y implicit k body)
  | renameKpoly (x y : String) (body : Con) : Law globals (.kpoly x body) (.kpoly y body)
  | rowKind (k k' : Kind) (fields : List (Con × Con)) : Law globals (.row k fields) (.row k' fields)
  | concatEmpty (k : Kind) (r : Con) : Law globals (.concat (.row k []) r) r
  | concatComm (l r : Con) : Law globals (.concat l r) (.concat r l)
  | concatAssoc (a b c : Con) : Law globals (.concat (.concat a b) c) (.concat a (.concat b c))
  | concatRow (k k' : Kind) (fields fields' : List (Con × Con)) :
      Law globals (.concat (.row k fields) (.row k' fields')) (.row k (fields ++ fields'))
  | mapRow (d c k : Kind) (f : Con) (fields : List (Con × Con)) :
      Law globals (.map d c f (.row k fields))
        (.row c (fields.map fun field => (field.1, .app f field.2)))
  | mapConcat (d c : Kind) (f l r : Con) :
      Law globals (.map d c f (.concat l r)) (.concat (.map d c f l) (.map d c f r))
  | mapMap (d c d' c' : Kind) (f g r : Con) :
      Law globals (.map d c f (.map d' c' g r)) (.map d' c (compose d' f g) r)
  | mapIdentity (d c : Kind) (x : String) (k : Kind) (r : Con) :
      Law globals (.map d c (.abs x k (.bvar 0)) r) r
  | projRow {k : Kind} {fields : List (Con × Con)} {x : String} {value : Con}
      (hdistinct : DistinctLabels fields) (h : (.label x, value) ∈ fields) :
      Law globals (.proj (.row k fields) (.label x)) value
  | component {cs : List Con} {i : Nat} {c : Con} (h : cs[i]? = some c) :
      Law globals (.component (.tuple cs) i) c

/-- Convertibility in a store. -/
abbrev Convertible (globals : Globals) (store : Store) : Con → Con → Prop :=
  Congr (fun a b => store.Unfolds a b ∨ Law globals a b) (KindConv store.kinds)

/-- The constructors that the table unfolds are sound. -/
structure Globals.Sound (layout : Layout) (store : Store) (globals : Globals) : Prop where
  definition : ∀ {id k body}, globals.definition? id = some (.con k body) → body.Sound layout store
  classDefinition : ∀ {id k body}, globals.definition? id = some (.class k (some body)) →
    body.Sound layout store
  canonical : ∀ {ref : ModuleRef}, ref.module < layout.modules →
    (globals.canonical ref).module < layout.modules
  item : ∀ {ref : ModuleRef} {item k body}, ref.module < layout.modules →
    globals.moduleItem? ref item .con = some (.con k (some body)) → body.Sound layout store
  classItem : ∀ {ref : ModuleRef} {item k body}, ref.module < layout.modules →
    globals.moduleItem? ref item .con = some (.class k (some body)) → body.Sound layout store

variable {globals : Globals} {layout : Layout} {store store' : Store}

theorem Globals.Sound.mono (h : globals.Sound layout store) (grows : store.Grows store') :
    globals.Sound layout store' :=
  ⟨fun hid => (h.definition hid).mono grows, fun hid => (h.classDefinition hid).mono grows,
    h.canonical, fun href hitem => (h.item href hitem).mono grows,
    fun href hitem => (h.classItem href hitem).mono grows⟩

namespace Convertible

theorem law {a b : Con} (h : Law globals a b) : Convertible globals store a b := .step (.inr h)

theorem of_same {a b : Con} (h : store.Same a b) : Convertible globals store a b :=
  Congr.lift (fun hstep => .step (.inl hstep)) id h

theorem lift {a b : Con} (h : Convertible globals store a b) (grows : store.Grows store')
    (hclosed : store'.kinds.Closed) : Convertible globals store' a b := by
  refine Congr.lift (fun hstep => ?_) grows.kinds.conv h
  rcases hstep with hstep | hlaw
  · exact of_same (grows.same hclosed hstep)
  · exact law hlaw

end Convertible

end RowML
