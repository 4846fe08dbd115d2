import RowML.Class.Evidence
import RowML.Exchange.Rendered

/-!
# Modules and definitions as data
-/

namespace RowML

open Data (form formM optionM listM)

namespace ModuleRef

def ofData (data : Data) : ReadM ModuleRef := do
  let (module, path) ← data.asPair Data.asNat Data.asPath
  pure ⟨module, path⟩

def toData (ref : ModuleRef) : Data := .list [.nat ref.module, .path ref.path]

end ModuleRef

namespace Namespace

def ofData : Data → ReadM Namespace
  | .text "con" => pure .con
  | .text "val" => pure .val
  | .text "mod" => pure .module
  | .text "sgn" => pure .signature
  | _ => Data.expect "namespace"

end Namespace

namespace Definition

def ofData (registers : Registers) : Data → ReadM Definition
  | .list [.text "con", k, c] =>
    return .con (← Kind.ofData registers.kinds k) (← Con.ofData registers c)
  | .list [.text "class", k, c] =>
    return .class (← Kind.ofData registers.kinds k) (← c.asOption (Con.ofData registers))
  | .list [.text "val", c] => return .val (← Con.ofData registers c)
  | _ => Data.expect "definition"

def rendered : Definition → WriteM Data
  | .con k c => formM "con" [k.rendered, c.rendered]
  | .class k c => formM "class" [k.rendered, optionM Con.rendered c]
  | .val c => formM "val" [c.rendered]

end Definition

def DefinitionEntry.rendered (entry : DefinitionEntry) : WriteM Data := do
  let definition ← entry.definition.rendered
  pure (.record [("name", .text entry.name), ("qualified", .path entry.qualified),
    ("def", definition), ("span", .text entry.span.render)])

namespace Signature

mutual
def ofData (registers : Registers) : Data → ReadM Signature
  | .text "error" => pure .error
  | .list [.text "functor", x, p, r] =>
    return .functor (← x.asText) (← ofData registers p) (← ofData registers r)
  | .list [.text "sig", .list entries] => return .items (← ofDataItems registers entries)
  | _ => Data.expect "signature"
def ofDataItem (registers : Registers) : Data → ReadM SignatureItem
  | .list [.text "con", x, k, c] =>
    return .con (← x.asText) (← Kind.ofData registers.kinds k) (← c.asOption (Con.ofData registers))
  | .list [.text "class", x, k, c] =>
    return .class (← x.asText) (← Kind.ofData registers.kinds k)
      (← c.asOption (Con.ofData registers))
  | .list [.text "val", x, c] => return .val (← x.asText) (← Con.ofData registers c)
  | .list [.text "str", x, s] => return .structure (← x.asText) (← ofData registers s)
  | .list [.text "sgn", x, s] => return .signature (← x.asText) (← ofData registers s)
  | _ => Data.expect "signature item"
def ofDataItems (registers : Registers) : List Data → ReadM (List SignatureItem)
  | [] => pure []
  | entry :: rest => return (← ofDataItem registers entry) :: (← ofDataItems registers rest)
end

mutual
def rendered : Signature → WriteM Data
  | .error => pure (.text "error")
  | .functor x p r => return form "functor" [.text x, ← p.rendered, ← r.rendered]
  | .items entries => return form "sig" [.list (← renderedItems entries)]
def renderedItem : SignatureItem → WriteM Data
  | .con x k c => formM "con" [pure (.text x), k.rendered, optionM Con.rendered c]
  | .class x k c => formM "class" [pure (.text x), k.rendered, optionM Con.rendered c]
  | .val x c => formM "val" [pure (.text x), c.rendered]
  | .structure x s => return form "str" [.text x, ← s.rendered]
  | .signature x s => return form "sgn" [.text x, ← s.rendered]
def renderedItems : List SignatureItem → WriteM (List Data)
  | [] => pure []
  | entry :: rest => return (← renderedItem entry) :: (← renderedItems rest)
end

end Signature

def SignatureEntry.rendered (entry : SignatureEntry) : WriteM Data :=
  return .list [.text entry.name, .path entry.qualified, ← entry.sig.rendered]

namespace ModuleItem

def rendered : ModuleItem → WriteM Data
  | .con k c => formM "con" [k.rendered, optionM Con.rendered c]
  | .class k c => formM "class" [k.rendered, optionM Con.rendered c]
  | .val c => formM "val" [c.rendered]

end ModuleItem

namespace ModuleOrigin

/-- Reads the origin of a module that is no result of an application. -/
def ofData : Data → ReadM ModuleOrigin
  | .text "struct" => pure .struct
  | .text "param" => pure .param
  | .text "poison" => pure .poison
  | data => return .sealed (← data.asNat)

def toData : ModuleOrigin → Data
  | .struct => .text "struct"
  | .param => .text "param"
  | .poison => .text "poison"
  | .sealed inner => form "sealed" [.nat inner]
  | .applied functor argument => form "applied" [.nat functor, .nat argument]

end ModuleOrigin

/-- A module with everything that is known of it; its members are in the order of their names. -/
def ModuleId.describe (id : ModuleId) : WriteM Data := do
  let globals ← read
  let entry := globals.module id
  let sig ← entry.sig.rendered
  let members := entry.members.mergeSort fun a b => a.1 ≤ b.1
  pure (.record [("name", .text entry.name), ("qualified", .path entry.qualified),
    ("shown", .option .text (globals.moduleName? id)), ("sgn", sig),
    ("origin", entry.origin.toData),
    ("members", .list (members.map fun (x, inner) => .list [.text x, .nat inner]))])

namespace InstanceSource

def ofData : Data → ReadM InstanceSource
  | .list [m, p, x] => return .member ⟨← m.asNat, ← p.asPath⟩ (← x.asText)
  | data => return .definition (← data.asNat)

def rendered : InstanceSource → WriteM Data
  | .definition id => formM "def" [DefId.rendered id]
  | .member ref item =>
    formM "mod" [ModuleId.rendered ref.module, pure (.path ref.path), pure (.text item)]

end InstanceSource

def Instance.rendered (inst : Instance) : WriteM Data :=
  return .list [← inst.source.rendered, ← inst.type.rendered]

namespace Abstraction

/-- Reads an abstraction: what is anchored at the root of a structure, then single anchors. -/
def ofData (globals : Globals) (data : Data) : ReadM Abstraction := do
  let listed {α : Type} (name : String) (read : Data → ReadM α) : ReadM (List α) :=
    match data.field? name with
    | some items => items.asListOf read
    | none => pure []
  let definitions ← listed "anchor" (·.asPair Data.asNat Data.asPath)
  let modules ← listed "anchor_mods" (·.asPair Data.asNat Data.asPath)
  let anchoredDefinitions ← listed "defs" fun
    | .list [id, up, path, item] =>
      return (← id.asNat, (⟨← up.asNat, ← path.asPath⟩ : Anchor), ← item.asText)
    | _ => Data.expect "anchored definition"
  let anchoredModules ← listed "mods" fun
    | .list [id, up, path] => return (← id.asNat, (⟨← up.asNat, ← path.asPath⟩ : Anchor))
    | _ => Data.expect "anchored module"
  let map := anchoredDefinitions.foldl
    (fun map (id, anchor, item) => map.insertDefinition id anchor item)
    (globals.anchorAll definitions modules)
  pure (anchoredModules.foldl (fun map (id, anchor) => map.insertModule id anchor) map)

end Abstraction

/-! ## Dictionaries -/

def LocalDict.ofData (registers : Registers) : Data → ReadM LocalDict
  | .list [level, type, depth] =>
    return ⟨← level.asNat, ← Con.ofData registers type, ← depth.asNat⟩
  | _ => Data.expect "local dictionary"

namespace Dict

mutual
def rendered : Dict → WriteM Data
  | .local index => pure (form "local" [.nat index])
  | .instance source kinds cons dicts => do
    let source ← source.rendered
    let kinds ← listM Kind.rendered kinds
    let cons ← listM Con.rendered cons
    let dicts ← renderedList dicts
    pure (form "inst" [source, kinds, cons, .list dicts])
  | .record fields => return form "rec" [.list (← renderedFields fields)]
def renderedList : List Dict → WriteM (List Data)
  | [] => pure []
  | dict :: rest => return (← dict.rendered) :: (← renderedList rest)
def renderedFields : List (Con × Dict) → WriteM (List Data)
  | [] => pure []
  | (name, dict) :: rest =>
    return .list [← name.rendered, ← dict.rendered] :: (← renderedFields rest)
end

end Dict

end RowML
