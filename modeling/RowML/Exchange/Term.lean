import RowML.Elaboration.Program
import RowML.Exchange.Diagnostic

/-!
# Elaborated programs as data
-/

namespace RowML

open Data (form formM listM optionM)

def Literal.toData : Literal → Data
  | .int value => .int value
  | .float bits => form "fbits" [.text (toString bits.toNat)]
  | .string value => form "str" [.text value]
  | .char value => form "char" [.text value.toString]
  | .bool value => .bool value

namespace Pattern

mutual
def rendered : Pattern → WriteM Data
  | .wild => pure (.text "_")
  | .var name type => formM "var" [pure (.text name), type.rendered]
  | .lit value => pure (form "lit" [value.toData])
  | .variant field payload => return form "variant" [← field.rendered, ← payload.rendered]
  | .record fields rest =>
    return form "record" [.list (← renderedFields fields), ← optionM Con.rendered rest]
def renderedFields : List (Con × Pattern) → WriteM (List Data)
  | [] => pure []
  | (name, pattern) :: rest =>
    return .list [← name.rendered, ← pattern.rendered] :: (← renderedFields rest)
end

end Pattern

namespace Term

mutual
def rendered : Term → WriteM Data
  | .lit value => pure value.toData
  | .bvar index => pure (form "rel" [.nat index])
  | .global id => formM "named" [DefId.rendered id]
  | .member module path item =>
    formM "modproj" [ModuleId.rendered module, pure (.path path), pure (.text item)]
  | .app f argument => return form "app" [← f.rendered, ← argument.rendered]
  | .abs x type body => return form "abs" [.text x, ← type.rendered, ← body.rendered]
  | .capp f argument => return form "capp" [← f.rendered, ← argument.rendered]
  | .cabs x kind body => return form "cabs" [.text x, ← kind.rendered, ← body.rendered]
  | .kapp f argument => return form "kapp" [← f.rendered, ← argument.rendered]
  | .kabs x body => return form "kabs" [.text x, ← body.rendered]
  | .disjointAbs left right body =>
    return form "dabs" [← left.rendered, ← right.rendered, ← body.rendered]
  | .disjointApp f => return form "dapp" [← f.rendered]
  | .record fields => return form "rec" [.list (← renderedFields fields)]
  | .field inner name rest =>
    return form "field" [← inner.rendered, ← name.rendered, ← rest.rendered]
  | .concat left right leftRow rightRow =>
    return form "concat"
      [← left.rendered, ← right.rendered, ← leftRow.rendered, ← rightRow.rendered]
  | .cut inner label rest =>
    return form "cut" [← inner.rendered, ← label.rendered, ← rest.rendered]
  | .cutRow inner row rest =>
    return form "cutm" [← inner.rendered, ← row.rendered, ← rest.rendered]
  | .inject label value row =>
    return form "inject" [← label.rendered, ← value.rendered, ← row.rendered]
  | .case scrutinee arms type =>
    return form "case" [← scrutinee.rendered, .list (← renderedArms arms), ← type.rendered]
  | .letVal x type value body => do
    let binding := form "val" [.text x, ← type.rendered, ← value.rendered]
    return form "let" [binding, ← body.rendered]
  | .letRec functions body => do
    let binding := form "rec" [.list (← renderedFunctions functions)]
    return form "let" [binding, ← body.rendered]
  | .ite condition yes no =>
    return form "if" [← condition.rendered, ← yes.rendered, ← no.rendered]
  | .dict evidence => return form "dict" [← evidence.rendered]
  | .slot id => pure (form "slot" [.nat id])
def renderedFields : List (Con × Term) → WriteM (List Data)
  | [] => pure []
  | (name, value) :: rest =>
    return .list [← name.rendered, ← value.rendered] :: (← renderedFields rest)
def renderedArms : List (Pattern × Term) → WriteM (List Data)
  | [] => pure []
  | (pattern, body) :: rest =>
    return .list [← pattern.rendered, ← body.rendered] :: (← renderedArms rest)
def renderedFunctions : List (String × Con × Term) → WriteM (List Data)
  | [] => pure []
  | (name, type, body) :: rest =>
    return .list [.text name, ← type.rendered, ← body.rendered] :: (← renderedFunctions rest)
end

end Term

namespace Declaration

mutual
def rendered : Declaration → WriteM Data
  | .con id kind definition => formM "con" [DefId.rendered id, kind.rendered, definition.rendered]
  | .class id kind definition =>
    formM "class" [DefId.rendered id, kind.rendered, optionM Con.rendered definition]
  | .val id type body => formM "val" [DefId.rendered id, type.rendered, body.rendered]
  | .functions group => do
    let functions ← listM (fun (id, type, body) => do
      return .list [← DefId.rendered id, ← type.rendered, ← body.rendered]) group
    pure (form "fun" [functions])
  | .signature name id => do
    let entry := (← read).signature id
    return form "sgn" [.text name, .nat id, .path entry.qualified, ← entry.sig.rendered]
  | .structure name ref decls =>
    return form "str" [.text name, ref.toData, .list (← renderedList decls)]
  | .opened ref => pure (form "open" [ref.toData])
def renderedList : List Declaration → WriteM (List Data)
  | [] => pure []
  | decl :: rest => return (← decl.rendered) :: (← renderedList rest)
end

end Declaration

/-- Everything that an elaboration has made. -/
def Elaborated.rendered (elaborated : Elaborated) : WriteM (List (String × Data)) := do
  let globals := elaborated.globals
  let decls ← Declaration.renderedList elaborated.decls
  let errors ← listM Diagnostic.rendered elaborated.errors
  let definitions ← listM DefinitionEntry.rendered globals.definitions.toList
  let modules ← listM ModuleId.describe (List.range globals.modules.size)
  let instances ← listM Instance.rendered globals.instances.toList
  pure [("decls", .list decls), ("errors", errors), ("ok", .bool elaborated.errors.isEmpty),
    ("defs", definitions), ("modules", modules), ("instances", instances)]

end RowML
