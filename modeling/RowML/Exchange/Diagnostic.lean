import RowML.Diagnostic.Printer
import RowML.Diagnostic.Summary
import RowML.Exchange.Module
import RowML.Obligation.Basic

/-!
# Diagnostics and obligations as data
-/

namespace RowML

open Data (form formM)

namespace MismatchReason

def ofData (registers : Registers) : Data → ReadM MismatchReason
  | .text "structural" => pure .structural
  | .text "occurs" => pure .occurs
  | .text "escape" => pure .escape
  | .list [.text "missing", c] => return .missingField (← Con.ofData registers c)
  | .list [.text "arity", m, n] => return .arity (← m.asNat) (← n.asNat)
  | _ => Data.expect "reason"

def rendered : MismatchReason → WriteM Data
  | .structural => pure (.text "structural")
  | .occurs => pure (.text "occurs")
  | .escape => pure (.text "escape")
  | .missingField c => formM "missing" [c.rendered]
  | .arity m n => pure (form "arity" [.nat m, .nat n])

end MismatchReason

namespace ItemMismatch

def ofData (registers : Registers) : Data → ReadM ItemMismatch
  | .text "missing" => pure .missing
  | .text "shape" => pure .shape
  | .list [.text "ns", expected] => return .sort (← Namespace.ofData expected)
  | .list [.text "kind", a, b] =>
    return .kind (← Kind.ofData registers.kinds a) (← Kind.ofData registers.kinds b)
  | .list [.text "type", a, b, reason] =>
    return .type (← Con.ofData registers a) (← Con.ofData registers b)
      (← MismatchReason.ofData registers reason)
  | .list [.text "def", a, b] =>
    return .definition (← Con.ofData registers a) (← Con.ofData registers b)
  | .list [.text "nested", x, inner] => return .nested (← x.asText) (← ofData registers inner)
  | _ => Data.expect "mismatch"

/-- The reason of a mismatch of types, which may lie in a nested structure. -/
def reason? : ItemMismatch → Option MismatchReason
  | .type _ _ reason => some reason
  | .nested _ inner => inner.reason?
  | _ => none

end ItemMismatch

namespace Cause

def ofData (registers : Registers) : Data → ReadM Cause
  | .list (.text tag :: parts) =>
    let con := Con.ofData registers
    let kind := Kind.ofData registers.kinds
    match tag, parts with
    | "mismatch", [a, b, reason] =>
      return ofUnifyError (.mismatch (← con a) (← con b) (← MismatchReason.ofData registers reason))
    | "kmismatch", [a, b, site] =>
      return ofKindError (.mismatch (← kind a) (← kind b)) (← site.asOption con)
    | "kpred", [demand, k, site] =>
      return ofKindError (.predicate (← KindPredicate.ofData demand) (← kind k))
        (← site.asOption con)
    | "koccurs", [var, k] => do
      match ← kind var with
      | .mvar var => return ofUnifyError (.kind (.occurs var (← kind k)))
      | _ => Data.expect "kind metavariable"
    | "overlap", [field, l, r] => return ofOverlap ⟨← con field, ← con l, ← con r⟩
    | "unprovable", [l, r] => return .unprovableDisjointness (← con l) (← con r)
    | "unbound", [x, sort] => return .unbound (← x.asText) (← Namespace.ofData sort)
    | "noinst", [goal] => return ofClassError (.noInstance (← con goal))
    | "depth", [goal] => return ofClassError (.depthExceeded (← con goal))
    | "notclass", [goal] => return ofClassError (.notAClass (← con goal))
    | "ambinst", [goal, sources] =>
      return ofClassError (.ambiguous (← con goal) (← sources.asListOf InstanceSource.ofData))
    | "sigmis", [x, sort, mismatch] =>
      return .signatureMismatch (← x.asText) (← Namespace.ofData sort)
        (← ItemMismatch.ofData registers mismatch)
    | "ambty", [.int var] => pure (.ambiguousType var.toNat)
    | "ambty", [c] => do
      match ← con c with
      | .mvar var _ => pure (.ambiguousType var)
      | _ => Data.expect "metavariable"
    | "notstr", [path] => return .notAStructure (← path.asPath)
    | "notfun", [path] => return .notAFunctor (← path.asPath)
    | _, _ => Data.expect "diagnostic"
  | _ => Data.expect "diagnostic"

/-- What a report adds to the message. -/
def detail : Cause → WriteM Data
  | .typeMismatch _ _ reason => reason.rendered
  | .signatureMismatch _ _ mismatch => Data.optionM MismatchReason.rendered mismatch.reason?
  | .ambiguousInstance _ candidates => Data.listM InstanceSource.rendered candidates
  | _ => pure .null

end Cause

def Diagnostic.rendered (diagnostic : Diagnostic) : WriteM Data := do
  let text ← WriteM.onStore fun globals => diagnostic.message globals ampleFuel
  let detail ← diagnostic.cause.detail
  pure (.record [("code", .text diagnostic.cause.code), ("span", .text diagnostic.span.render),
    ("text", .text text), ("display", .text diagnostic.summary), ("detail", detail)])

/-- A cause without a place. -/
def Cause.rendered (cause : Cause) : WriteM Data := Diagnostic.rendered ⟨Span.nowhere, cause⟩

def KindError.rendered (error : KindError) : WriteM Data := do
  let demand := match error with
    | .predicate demand _ => demand.toData
    | _ => .null
  pure (.record [("display", .text error.summary), ("pred", demand),
    ("elab", ← (Cause.ofKindError error none).rendered)])

def UnifyError.rendered (error : UnifyError) : WriteM Data :=
  return .record [("display", .text error.summary),
    ("source", .option (fun inner => .text inner.summary) error.kindError?),
    ("elab", ← (Cause.ofUnifyError error).rendered)]

def Overlap.rendered (overlap : Overlap) : WriteM Data :=
  return .record [("display", .text overlap.summary),
    ("elab", ← (Cause.ofOverlap overlap).rendered)]

namespace ClassError

def label : ClassError → String
  | .noInstance _ => "NoInstance"
  | .ambiguous _ _ => "Ambiguous"
  | .notAClass _ => "NotAClass"
  | .depthExceeded _ => "DepthExceeded"

def rendered (error : ClassError) : WriteM Data :=
  return .record [("kind", .text error.label), ("display", .text error.summary),
    ("elab", ← (Cause.ofClassError error).rendered)]

end ClassError

namespace Obligation

/-- Reads an obligation at `span`, without facts and with no dictionary in scope. -/
def ofData (registers : Registers) (span : Span) : Data → ReadM Obligation
  | .list [.text "unify", a, b, depth] =>
    return ⟨.unify (← Con.ofData registers a) (← Con.ofData registers b), ← depth.asNat, span⟩
  | .list [.text "disjoint", l, r, depth] =>
    return ⟨.disjoint (← Con.ofData registers l) (← Con.ofData registers r) [],
      ← depth.asNat, span⟩
  | .list [.text "class", slot, goal, valDepth, depth] =>
    return ⟨.class (← slot.asNat) (← Con.ofData registers goal) [] [] (← valDepth.asNat),
      ← depth.asNat, span⟩
  | _ => Data.expect "obligation"

def rendered (obligation : Obligation) : WriteM Data :=
  let place : List (WriteM Data) :=
    [pure (.nat obligation.depth), pure (.text obligation.span.render)]
  match obligation.demand with
  | .unify a b => formM "unify" ([a.rendered, b.rendered] ++ place)
  | .disjoint l r _ => formM "disjoint" ([l.rendered, r.rendered] ++ place)
  | .class slot goal _ _ valDepth =>
    formM "class" ([pure (.nat slot), goal.rendered, pure (.nat valDepth)] ++ place)

end Obligation

end RowML
