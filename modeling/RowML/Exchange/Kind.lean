import RowML.Diagnostic.Summary
import RowML.Exchange.Data

/-!
# Kinds as data
-/

namespace RowML

open Data (form)

namespace KindPredicate

def ofData : Data → ReadM KindPredicate
  | .text "any" => pure .any
  | .text "record" => pure .record
  | data => return .tupleWidth (← data.asNat)

def toData : KindPredicate → Data
  | .any => .text "any"
  | .record => .text "record"
  | .tupleWidth n => .nat n

end KindPredicate

namespace Kind

mutual
/-- Reads a kind; `registers` gives the kinds that the data refers to by name. -/
def ofData (registers : List (String × Kind)) : Data → ReadM Kind
  | .text "Type" => pure .type
  | .text "Unit" => pure .unit
  | .text "Name" => pure .name
  | .text "Error" => pure .error
  | .text "\x7bType\x7d" => pure .typeRow
  | .text other =>
    match (Data.afterMark? '%' other).bind (registers.lookup ·) with
    | some kind => pure kind
    | none => Data.expect "kind"
  | .list [.text "arrow", a, b] => return .arrow (← ofData registers a) (← ofData registers b)
  | .list [.text "record", a] => return .record (← ofData registers a)
  | .list [.text "tuple", .list ks] => return .tuple (← ofDataList registers ks)
  | .list [.text "rel", i] => return .bvar (← i.asNat)
  | .list [.text "poly", x, k] => return .poly (← x.asText) (← ofData registers k)
  | _ => Data.expect "kind"
def ofDataList (registers : List (String × Kind)) : List Data → ReadM (List Kind)
  | [] => pure []
  | k :: ks => return (← ofData registers k) :: (← ofDataList registers ks)
end

mutual
/-- A kind as it is stored. -/
def toData : Kind → Data
  | .type => .text "Type"
  | .unit => .text "Unit"
  | .name => .text "Name"
  | .error => .text "Error"
  | .arrow a b => form "arrow" [a.toData, b.toData]
  | .record a => form "record" [a.toData]
  | .tuple ks => form "tuple" [.list (toDataList ks)]
  | .bvar i => form "rel" [.nat i]
  | .poly x k => form "poly" [.text x, k.toData]
  | .mvar v => form "meta" [.nat v]
def toDataList : List Kind → List Data
  | [] => []
  | k :: ks => k.toData :: toDataList ks
end

end Kind

def KindVarState.toData : KindVarState → Data
  | .unbound demand components =>
    form "unbound" [demand.toData, .list (components.map fun (i, k) => .list [.nat i, k.toData])]
  | .link target => form "link" [target.toData]

end RowML
