import RowML.Module.Globals

/-!
# Manifest items

An abstract constructor of a structure is equal to nothing but itself.  `selfify` writes this into a
signature: every abstract item becomes an item defined as itself in a given structure, so the item
keeps its identity where the signature is used elsewhere.  `withManifest` gives one abstract item a
definition.
-/

namespace RowML

namespace Globals

mutual
/-- Defines the abstract items of a signature as the items of `ref`. -/
def selfify (globals : Globals) (ref : ModuleRef) : Signature → Signature
  | .items entries => .items (globals.selfifyItems ref entries)
  | .functor param paramSig result => .functor param paramSig result
  | .error => .error
def selfifyItem (globals : Globals) (ref : ModuleRef) : SignatureItem → SignatureItem
  | .con x kind none => .con x kind (some (.member ref.module ref.path x))
  | .class x kind none => .class x kind (some (.member ref.module ref.path x))
  | .structure x sig => .structure x (globals.selfify (globals.canonical (ref.child x)) sig)
  | .con x kind (some definition) => .con x kind (some definition)
  | .class x kind (some definition) => .class x kind (some definition)
  | .val x type => .val x type
  | .signature x sig => .signature x sig
def selfifyItems (globals : Globals) (ref : ModuleRef) :
    List SignatureItem → List SignatureItem
  | [] => []
  | entry :: rest => globals.selfifyItem ref entry :: globals.selfifyItems ref rest
end

end Globals

namespace Signature

/-- Changes the last item of a list that satisfies `p`. -/
def modifyLast (p : SignatureItem → Bool) (f : SignatureItem → SignatureItem) :
    List SignatureItem → List SignatureItem
  | [] => []
  | entry :: rest =>
    if rest.any p then entry :: modifyLast p f rest
    else if p entry then f entry :: rest
    else entry :: rest

/-- The item with a definition. -/
def define (definition : Con) : SignatureItem → SignatureItem
  | .con x kind _ => .con x kind (some definition)
  | .class x kind _ => .class x kind (some definition)
  | other => other

/-- The signature in which the constructor `item` of the structure at `path` has a definition. -/
def withManifest (item : String) (definition : Con) : List String → Signature → Signature
  | [], .items entries =>
    .items (modifyLast (fun entry => entry.name == item && entry.sort == .con)
      (define definition) entries)
  | step :: rest, .items entries =>
    .items (modifyLast (fun entry => entry.name == step && entry.sort == .module)
      (fun
        | .structure x sig => .structure x (withManifest item definition rest sig)
        | other => other)
      entries)
  | _, sig => sig

end Signature

end RowML
