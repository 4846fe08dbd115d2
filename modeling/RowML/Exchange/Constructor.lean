import RowML.Exchange.Kind

/-!
# Constructors as data
-/

namespace RowML

open Data (form)

/-- The kinds and constructors that data may refer to by name. -/
structure Registers where
  kinds : List (String × Kind)
  cons : List (String × Con)
deriving Inhabited

namespace Con

/-- Reads a constructor that is written as a text. -/
def ofText (registers : Registers) : String → ReadM Con
  | "int" => pure .int
  | "float" => pure .float
  | "string" => pure .string
  | "char" => pure .char
  | "bool" => pure .bool
  | "()" => pure .unit
  | "error" => pure .error
  | "[]" => pure .emptyRow
  | "$[]" => pure .unitType
  | other =>
    match Data.afterMark? '#' other with
    | some name => pure (.label name)
    | none =>
      match (Data.afterMark? '%' other).bind (registers.cons.lookup ·) with
      | some c => pure c
      | none => Data.expect "constructor"

mutual
def ofData (registers : Registers) : Data → ReadM Con
  | .text text => ofText registers text
  | .list (.text tag :: parts) => ofForm registers tag parts
  | _ => Data.expect "constructor"
/-- Reads a constructor with parts. -/
def ofForm (registers : Registers) (tag : String) : List Data → ReadM Con
  | [] => Data.expect "constructor"
  | [a] =>
    match tag with
    | "rel" => return .bvar (← a.asNat)
    | "named" => return .global (← a.asNat)
    | "record" => return .record (← ofData registers a)
    | "variant" => return .variant (← ofData registers a)
    | "record_of" => return .record (.row .type (← ofNamedFields registers a))
    | "empty_row" => return .row (← Kind.ofData registers.kinds a) []
    | "tuple" => return .tuple (← ofDataList registers a)
    | _ => Data.expect "constructor"
  | [a, b] =>
    match tag with
    | "app" => return .app (← ofData registers a) (← ofData registers b)
    | "apps" => return apps (← ofData registers a) (← ofDataList registers b)
    | "kabs" => return .kabs (← a.asText) (← ofData registers b)
    | "kapp" => return .kapp (← ofData registers a) (← Kind.ofData registers.kinds b)
    | "fun" => return .arrow (← ofData registers a) (← ofData registers b)
    | "kpoly" => return .kpoly (← a.asText) (← ofData registers b)
    | "row" => return .row (← Kind.ofData registers.kinds a) (← ofFields registers b)
    | "row_of" => return .row (← Kind.ofData registers.kinds a) (← ofNamedFields registers b)
    | "concat" => return .concat (← ofData registers a) (← ofData registers b)
    | "proj" => return .proj (← ofData registers a) (← ofData registers b)
    | "tproj" => return .component (← ofData registers a) (← b.asNat)
    | _ => Data.expect "constructor"
  | [a, b, c] =>
    match tag with
    | "modproj" => return .member (← a.asNat) (← b.asPath) (← c.asText)
    | "modrel" => return .relative (← a.asNat) (← b.asPath) (← c.asText)
    | "abs" => return .abs (← a.asText) (← Kind.ofData registers.kinds b) (← ofData registers c)
    | "disjoint" =>
      return .disjoint (← ofData registers a) (← ofData registers b) (← ofData registers c)
    | _ => Data.expect "constructor"
  | [a, b, c, d] =>
    match tag with
    | "poly" =>
      return .poly (← a.asText) (← b.asBool) (← Kind.ofData registers.kinds c)
        (← ofData registers d)
    | "map" =>
      return .map (← Kind.ofData registers.kinds a) (← Kind.ofData registers.kinds b)
        (← ofData registers c) (← ofData registers d)
    | _ => Data.expect "constructor"
  | _ => Data.expect "constructor"
def ofDataList (registers : Registers) : Data → ReadM (List Con)
  | .list items => ofItems registers items
  | _ => Data.expect "list"
def ofItems (registers : Registers) : List Data → ReadM (List Con)
  | [] => pure []
  | c :: cs => return (← ofData registers c) :: (← ofItems registers cs)
/-- Reads the fields of a row whose names are constructors. -/
def ofFields (registers : Registers) : Data → ReadM (List (Con × Con))
  | .list items => ofFieldItems registers items
  | _ => Data.expect "fields"
def ofFieldItems (registers : Registers) : List Data → ReadM (List (Con × Con))
  | [] => pure []
  | .list [name, value] :: rest =>
    return (← ofData registers name, ← ofData registers value) :: (← ofFieldItems registers rest)
  | _ => Data.expect "field"
/-- Reads the fields of a row whose names are texts. -/
def ofNamedFields (registers : Registers) : Data → ReadM (List (Con × Con))
  | .list items => ofNamedFieldItems registers items
  | _ => Data.expect "fields"
def ofNamedFieldItems (registers : Registers) : List Data → ReadM (List (Con × Con))
  | [] => pure []
  | .list [name, value] :: rest =>
    return (.label (← name.asText), ← ofData registers value) ::
      (← ofNamedFieldItems registers rest)
  | _ => Data.expect "field"
end

mutual
/-- A constructor as it is stored. -/
def toData : Con → Data
  | .prim .int => .text "int"
  | .prim .float => .text "float"
  | .prim .string => .text "string"
  | .prim .char => .text "char"
  | .prim .bool => .text "bool"
  | .unit => .text "()"
  | .error => .text "error"
  | .label x => .text ("#" ++ x)
  | .bvar i => form "rel" [.nat i]
  | .global d => form "named" [.nat d]
  | .member m p x => form "modproj" [.nat m, .path p, .text x]
  | .relative l p x => form "modrel" [.nat l, .path p, .text x]
  | .skolem s => form "skolem" [.nat s]
  | .mvar v spine => form "meta" [.nat v, .list (toDataList spine)]
  | .app f a => form "app" [f.toData, a.toData]
  | .abs x k c => form "abs" [.text x, k.toData, c.toData]
  | .kabs x c => form "kabs" [.text x, c.toData]
  | .kapp c k => form "kapp" [c.toData, k.toData]
  | .arrow a b => form "fun" [a.toData, b.toData]
  | .poly x i k c => form "poly" [.text x, .bool i, k.toData, c.toData]
  | .kpoly x c => form "kpoly" [.text x, c.toData]
  | .disjoint l r c => form "disjoint" [l.toData, r.toData, c.toData]
  | .record r => form "record" [r.toData]
  | .variant r => form "variant" [r.toData]
  | .row k fields => form "row" [k.toData, .list (toDataFields fields)]
  | .concat l r => form "concat" [l.toData, r.toData]
  | .map d c f r => form "map" [d.toData, c.toData, f.toData, r.toData]
  | .proj r x => form "proj" [r.toData, x.toData]
  | .tuple cs => form "tuple" [.list (toDataList cs)]
  | .component c i => form "tproj" [c.toData, .nat i]
def toDataList : List Con → List Data
  | [] => []
  | c :: cs => c.toData :: toDataList cs
def toDataFields : List (Con × Con) → List Data
  | [] => []
  | (x, c) :: fields => .list [x.toData, c.toData] :: toDataFields fields
end

end Con

end RowML
