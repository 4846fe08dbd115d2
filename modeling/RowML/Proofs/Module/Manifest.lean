import RowML.Module.Manifest
import RowML.Proofs.Module.Contents

/-!
# What a where clause changes

A where clause gives one abstract constructor of a signature a definition.  The items that a path
leads to are looked up before and after: the constructor has the definition, and every other item is
what it was.  Read through a structure, levels in a constructor become references to the structures
around it, and a level counts from where the constructor stands.  So a definition that is put
further in reads as it did at the root if it mentions no level, and in general only if it is put at
the root itself.
-/

namespace RowML

namespace SignatureItem

/-- The kind and the definition of a constructor or class. -/
def kinded? : SignatureItem → Option (Kind × Option Con)
  | .con _ kind definition => some (kind, definition)
  | .class _ kind definition => some (kind, definition)
  | _ => none

/-- The definition of a constructor or class. -/
def definition? (item : SignatureItem) : Option (Option Con) := item.kinded?.map (·.2)

/-- The predicate by which items are looked up. -/
def isNamed (name : String) (sort : Namespace) (item : SignatureItem) : Bool :=
  item.name == name && item.sort == sort

theorem isNamed_iff {name : String} {sort : Namespace} {item : SignatureItem} :
    item.isNamed name sort = true ↔ item.name = name ∧ item.sort = sort := by
  simp [isNamed]

end SignatureItem

/-- The definition of a constructor or class that is found through a module. -/
def ModuleItem.definition? : ModuleItem → Option (Option Con)
  | .con _ definition => some definition
  | .class _ definition => some definition
  | .val _ => none

namespace Signature

variable {sig : Signature} {entries : List SignatureItem} {name : String} {sort : Namespace}

/-! ## Items and paths -/

/-- The signature of the structure that a path leads to, as it is written. -/
def nestedAt? (sig : Signature) : List String → Option Signature
  | [] => some sig
  | step :: rest => (sig.nested? step).bind (·.nestedAt? rest)

/-- The item that a path and a name lead to, as it is written. -/
def itemAt? (sig : Signature) (path : List String) (name : String) (sort : Namespace) :
    Option SignatureItem :=
  (sig.nestedAt? path).bind (·.item? name sort)

theorem itemAt?_cons (step : String) (rest : List String) :
    sig.itemAt? (step :: rest) name sort = (sig.nested? step).bind (·.itemAt? rest name sort) := by
  rw [itemAt?, nestedAt?, Option.bind_assoc]
  rfl

theorem item?_items :
    (Signature.items entries).item? name sort =
      entries.reverse.find? (·.isNamed name sort) := rfl

theorem item?_sort {item : SignatureItem} (h : sig.item? name sort = some item) :
    item.isNamed name sort = true := by
  cases sig with
  | items entries => exact List.find?_some h
  | functor | error => cases h

/-! ## Changing the last item of a name -/

section ModifyLast

variable {p q : SignatureItem → Bool} {f : SignatureItem → SignatureItem}

theorem find?_modifyLast_self (hf : ∀ item, p item = true → p (f item) = true)
    (entries : List SignatureItem) :
    (modifyLast p f entries).reverse.find? p = (entries.reverse.find? p).map f := by
  induction entries with
  | nil => rfl
  | cons entry rest ih =>
    rw [modifyLast, List.reverse_cons, List.find?_append]
    split
    next hany =>
      obtain ⟨item, hitem⟩ := Option.isSome_iff_exists.mp
        (List.find?_isSome.mpr (by simpa using hany) : (rest.reverse.find? p).isSome)
      rw [List.reverse_cons, List.find?_append, ih, hitem]
      rfl
    next hnone =>
      have hrest : rest.reverse.find? p = none := by simpa using hnone
      split
      next hentry => simp [hrest, hentry, hf]
      next hentry => simp [hrest, hentry]

theorem find?_modifyLast_other (hf : ∀ item, p item = true → q item = false ∧ q (f item) = false)
    (entries : List SignatureItem) :
    (modifyLast p f entries).reverse.find? q = entries.reverse.find? q := by
  induction entries with
  | nil => rfl
  | cons entry rest ih =>
    rw [modifyLast, List.reverse_cons, List.find?_append]
    split
    next => rw [List.reverse_cons, List.find?_append, ih]
    next =>
      split
      next hentry =>
        obtain ⟨hbefore, hafter⟩ := hf entry hentry
        simp [List.find?_append, hbefore, hafter]
      next => rw [List.reverse_cons, List.find?_append]

/-- The change keeps the name and the sort of an item. -/
def KeepsName (f : SignatureItem → SignatureItem) : Prop :=
  ∀ item, (f item).name = item.name ∧ (f item).sort = item.sort

theorem item?_modifyLast_self (hf : KeepsName f) :
    (Signature.items (modifyLast (·.isNamed name sort) f entries)).item? name sort =
      ((Signature.items entries).item? name sort).map f := by
  rw [item?_items, item?_items]
  refine find?_modifyLast_self (fun item hitem => ?_) entries
  rw [SignatureItem.isNamed_iff] at hitem ⊢
  rwa [(hf item).1, (hf item).2]

theorem item?_modifyLast_other (hf : KeepsName f) {name' : String} {sort' : Namespace}
    (hne : (name', sort') ≠ (name, sort)) :
    (Signature.items (modifyLast (·.isNamed name sort) f entries)).item? name' sort' =
      (Signature.items entries).item? name' sort' := by
  rw [item?_items, item?_items]
  refine find?_modifyLast_other (fun item hitem => ?_) entries
  rw [SignatureItem.isNamed_iff] at hitem
  have hother : ¬ (item.name = name' ∧ item.sort = sort') := by
    rintro ⟨hname, hsort⟩
    exact hne (by rw [← hname, ← hsort, hitem.1, hitem.2])
  rw [← Bool.not_eq_true, ← Bool.not_eq_true, SignatureItem.isNamed_iff, SignatureItem.isNamed_iff,
    (hf item).1, (hf item).2]
  exact ⟨hother, hother⟩

end ModifyLast

/-! ## The definition of an item -/

theorem keepsName_define (definition : Con) : KeepsName (define definition) := by
  intro item
  cases item <;> exact ⟨rfl, rfl⟩

/-- Changes the signature of a structure. -/
def inside (f : Signature → Signature) : SignatureItem → SignatureItem
  | .structure x sig => .structure x (f sig)
  | other => other

theorem keepsName_inside (f : Signature → Signature) : KeepsName (inside f) := by
  intro item
  cases item <;> exact ⟨rfl, rfl⟩

theorem nested?_modifyLast_self (f : Signature → Signature) (step : String) :
    (Signature.items (modifyLast (·.isNamed step .module) (inside f) entries)).nested? step =
      ((Signature.items entries).nested? step).map f := by
  unfold nested?
  rw [item?_modifyLast_self (keepsName_inside f)]
  cases hitem : (Signature.items entries).item? step .module with
  | none => rfl
  | some item =>
    have hsort := (SignatureItem.isNamed_iff.mp (item?_sort hitem)).2
    cases item with
    | «structure» => rfl
    | _ => cases hsort

theorem nested?_modifyLast_other {f : SignatureItem → SignatureItem} (hf : KeepsName f)
    {step : String} (hne : (step, .module) ≠ (name, sort)) :
    (Signature.items (modifyLast (·.isNamed name sort) f entries)).nested? step =
      (Signature.items entries).nested? step := by
  unfold nested?
  rw [item?_modifyLast_other hf hne]

theorem withManifest_items_nil (item : String) (definition : Con) (entries : List SignatureItem) :
    withManifest item definition [] (.items entries) =
      .items (modifyLast (·.isNamed item .con) (define definition) entries) := rfl

theorem withManifest_items_cons (item : String) (definition : Con) (step : String)
    (rest : List String) (entries : List SignatureItem) :
    withManifest item definition (step :: rest) (.items entries) =
      .items (modifyLast (·.isNamed step .module)
        (inside (withManifest item definition rest)) entries) := by
  rw [withManifest]
  congr 2

/-- The constructor has the definition. -/
theorem itemAt?_withManifest_self (item : String) (definition : Con) (path : List String)
    (sig : Signature) :
    (withManifest item definition path sig).itemAt? path item .con =
      (sig.itemAt? path item .con).map (define definition) := by
  induction path generalizing sig with
  | nil =>
    cases sig with
    | items entries => exact item?_modifyLast_self (keepsName_define definition)
    | functor | error => rfl
  | cons step rest ih =>
    cases sig with
    | items entries =>
      rw [itemAt?_cons, itemAt?_cons, withManifest_items_cons, nested?_modifyLast_self]
      cases (Signature.items entries).nested? step with
      | none => rfl
      | some inner => exact ih inner
    | functor | error => rfl

/-- The item `name` of the structure at `path` is neither the constructor `item` of the structure at
`target` nor a structure around it. -/
structure Apart (target : List String) (item : String) (path : List String) (name : String)
    (sort : Namespace) : Prop where
  con : sort = .con → (path, name) ≠ (target, item)
  module : sort = .module → ¬ path ++ [name] <+: target

/-- Every other item is what it was. -/
theorem itemAt?_withManifest_other {item : String} (definition : Con) {target path : List String}
    (h : Apart target item path name sort) (sig : Signature) :
    (withManifest item definition target sig).itemAt? path name sort =
      sig.itemAt? path name sort := by
  induction target generalizing path sig with
  | nil =>
    cases sig with
    | functor | error => rfl
    | items entries =>
      rw [withManifest_items_nil]
      cases path with
      | nil =>
        refine item?_modifyLast_other (keepsName_define definition) fun heq => ?_
        cases heq
        exact h.con rfl rfl
      | cons step rest =>
        rw [itemAt?_cons, itemAt?_cons,
          nested?_modifyLast_other (keepsName_define definition) (by simp)]
  | cons first target ih =>
    cases sig with
    | functor | error => rfl
    | items entries =>
      rw [withManifest_items_cons]
      cases path with
      | nil =>
        refine item?_modifyLast_other (keepsName_inside _) fun heq => ?_
        cases heq
        exact h.module rfl (by simp)
      | cons step rest =>
        rw [itemAt?_cons, itemAt?_cons]
        by_cases hstep : step = first
        · subst hstep
          rw [nested?_modifyLast_self]
          cases (Signature.items entries).nested? step with
          | none => rfl
          | some inner =>
            refine ih ⟨fun hsort heq => h.con hsort ?_, fun hsort hprefix =>
              h.module hsort ?_⟩ inner
            · rw [Prod.mk.injEq] at heq ⊢
              exact ⟨congrArg _ heq.1, heq.2⟩
            · simpa using hprefix
        · rw [nested?_modifyLast_other (keepsName_inside _) (by simp [hstep])]

/-! ## Reading through structures -/

section MapCons

variable {f g : Nat → Con → Con}

theorem mapConsItem_name (level : Nat) (item : SignatureItem) :
    (mapConsItem f level item).name = item.name ∧ (mapConsItem f level item).sort = item.sort := by
  cases item <;> exact ⟨rfl, rfl⟩

theorem mapConsItems_eq (level : Nat) (entries : List SignatureItem) :
    mapConsItems f level entries = entries.map (mapConsItem f level) := by
  induction entries with
  | nil => rfl
  | cons entry rest ih => rw [mapConsItems, ih, List.map_cons]

theorem item?_mapCons (level : Nat) (sig : Signature) :
    (sig.mapCons f level).item? name sort = (sig.item? name sort).map (mapConsItem f level) := by
  cases sig with
  | items entries =>
    rw [mapCons, item?_items, item?_items, mapConsItems_eq, ← List.map_reverse, List.find?_map]
    congr 2
    funext item
    simp [SignatureItem.isNamed, mapConsItem_name]
  | functor | error => rfl

theorem nested?_mapCons (level : Nat) (sig : Signature) (step : String) :
    (sig.mapCons f level).nested? step = (sig.nested? step).map (·.mapCons f (level + 1)) := by
  unfold nested?
  rw [item?_mapCons]
  cases sig.item? step .module with
  | none => rfl
  | some item => cases item <;> rfl

mutual
theorem mapCons_succ (sig : Signature) (level : Nat) :
    sig.mapCons f (level + 1) = sig.mapCons (fun level => f (level + 1)) level := by
  cases sig with
  | items entries => simp only [mapCons, mapConsItems_succ entries]
  | functor param paramSig result => simp only [mapCons, mapCons_succ paramSig, mapCons_succ result]
  | error => rfl
theorem mapConsItem_succ (item : SignatureItem) (level : Nat) :
    mapConsItem f (level + 1) item = mapConsItem (fun level => f (level + 1)) level item := by
  cases item with
  | «structure» x sig => simp only [mapConsItem, mapCons_succ sig]
  | signature x sig => simp only [mapConsItem, mapCons_succ sig]
  | _ => rfl
theorem mapConsItems_succ (entries : List SignatureItem) (level : Nat) :
    mapConsItems f (level + 1) entries =
      mapConsItems (fun level => f (level + 1)) level entries := by
  cases entries with
  | nil => rfl
  | cons entry rest => simp only [mapConsItems, mapConsItem_succ entry, mapConsItems_succ rest]
end

mutual
theorem mapCons_mapCons (sig : Signature) (level : Nat) :
    (sig.mapCons f level).mapCons g level =
      sig.mapCons (fun level c => g level (f level c)) level := by
  cases sig with
  | items entries => simp only [mapCons, mapConsItems_mapCons entries]
  | functor param paramSig result =>
    simp only [mapCons, mapCons_mapCons paramSig, mapCons_mapCons result]
  | error => rfl
theorem mapConsItem_mapCons (item : SignatureItem) (level : Nat) :
    mapConsItem g level (mapConsItem f level item) =
      mapConsItem (fun level c => g level (f level c)) level item := by
  cases item with
  | con x k definition => simp only [mapConsItem, Option.map_map]; rfl
  | «class» x k definition => simp only [mapConsItem, Option.map_map]; rfl
  | val => rfl
  | «structure» x sig => simp only [mapConsItem, mapCons_mapCons sig]
  | signature x sig => simp only [mapConsItem, mapCons_mapCons sig]
theorem mapConsItems_mapCons (entries : List SignatureItem) (level : Nat) :
    mapConsItems g level (mapConsItems f level entries) =
      mapConsItems (fun level c => g level (f level c)) level entries := by
  cases entries with
  | nil => rfl
  | cons entry rest =>
    simp only [mapConsItems, mapConsItem_mapCons entry, mapConsItems_mapCons rest]
end

mutual
theorem mapCons_id (sig : Signature) (level : Nat) : sig.mapCons (fun _ c => c) level = sig := by
  cases sig with
  | items entries => simp only [mapCons, mapConsItems_id entries]
  | functor param paramSig result => simp only [mapCons, mapCons_id paramSig, mapCons_id result]
  | error => rfl
theorem mapConsItem_id (item : SignatureItem) (level : Nat) :
    mapConsItem (fun _ c => c) level item = item := by
  cases item with
  | con x k definition | «class» x k definition => simp only [mapConsItem, Option.map_id']
  | val => rfl
  | «structure» x sig | signature x sig => simp only [mapConsItem, mapCons_id sig]
theorem mapConsItems_id (entries : List SignatureItem) (level : Nat) :
    mapConsItems (fun _ c => c) level entries = entries := by
  cases entries with
  | nil => rfl
  | cons entry rest => simp only [mapConsItems, mapConsItem_id entry, mapConsItems_id rest]
end

end MapCons

/-- How a constructor of the structure at a path reads, by the number of levels that it lies below
that structure, if `f` says how one reads below `here`. -/
def readThrough (f : Nat → Con → Con) (here : ModuleRef) (outer : List ModuleRef) :
    List String → Nat → Con → Con
  | [] => f
  | step :: rest =>
    readThrough (fun level c => (f (level + 1) c).substModules (level + 1) outer) (here.child step)
      (here.child step :: outer) rest

theorem nestedSignature?_mapCons (f : Nat → Con → Con) (here : ModuleRef) (outer : List ModuleRef)
    (path : List String) (sig : Signature) :
    Globals.nestedSignature? (sig.mapCons f 0) here outer path =
      (sig.nestedAt? path).map (·.mapCons (readThrough f here outer path) 0) := by
  induction path generalizing sig f here outer with
  | nil => rfl
  | cons step rest ih =>
    rw [Globals.nestedSignature?, nestedAt?, nested?_mapCons]
    cases sig.nested? step with
    | none => rfl
    | some inner =>
      simp only [Option.map_some, Option.bind_some, readThrough]
      rw [← ih, mapCons_succ, rebase, mapCons_mapCons]

/-- The definition of the constructor `item` of the structure at `path`, read through the structure
`here` with the structures `outer` around it, the nearest first. -/
def definitionThrough (sig : Signature) (here : ModuleRef) (outer : List ModuleRef)
    (path : List String) (item : String) : Option (Option Con) :=
  (Globals.nestedSignature? (sig.rebase outer) here (here :: outer) path).bind fun target =>
    (target.item? item .con).bind fun found => found.definition?.map fun definition =>
      definition.map (·.substModules 0 [⟨here.module, here.path ++ path⟩])

theorem definitionThrough_eq (sig : Signature) (here : ModuleRef) (outer : List ModuleRef)
    (path : List String) (item : String) :
    sig.definitionThrough here outer path item =
      (sig.itemAt? path item .con).bind fun found => found.definition?.map fun definition =>
        definition.map fun c =>
          (readThrough (fun level c => c.substModules (level + 1) outer) here (here :: outer) path 0
            c).substModules 0 [⟨here.module, here.path ++ path⟩] := by
  rw [definitionThrough, rebase, nestedSignature?_mapCons, itemAt?]
  cases sig.nestedAt? path with
  | none => rfl
  | some target =>
    simp only [Option.map_some, Option.bind_some, item?_mapCons]
    cases target.item? item .con with
    | none => rfl
    | some found =>
      cases found with
      | con x k definition => cases definition <;> rfl
      | «class» x k definition => cases definition <;> rfl
      | _ => rfl

/-- This is how the table answers for a structure of a module. -/
theorem moduleItem?_definition {globals : Globals} {ref : ModuleRef} {target : Signature}
    (hcanonical : globals.canonical ref = ref)
    (htarget : globals.moduleSignature? ref = some target)
    (herror : target.isError = false) (item : String) :
    (globals.moduleItem? ref item .con).bind ModuleItem.definition? =
      (globals.module ref.module).sig.definitionThrough (.root ref.module) [] ref.path item := by
  have hrebase : ∀ sig : Signature, sig.rebase [] = sig := fun sig => mapCons_id sig 0
  have hnested : Globals.nestedSignature? (globals.module ref.module).sig (.root ref.module)
      [.root ref.module] ref.path = some target := by
    simpa [Globals.moduleSignature?, hcanonical] using htarget
  rw [definitionThrough, hrebase, hnested]
  unfold Globals.moduleItem?
  simp only [hcanonical, htarget, Option.bind_some]
  cases target with
  | error => cases herror
  | functor | items =>
    simp only
    cases item? _ item .con with
    | none => rfl
    | some found => cases found <;> rfl

/-- A constructor that mentions no level reads as itself. -/
theorem readThrough_of_fixed {c : Con} (hc : ∀ first refs, c.substModules first refs = c)
    {f : Nat → Con → Con} (hf : ∀ level, f level c = c) (here : ModuleRef)
    (outer : List ModuleRef) (path : List String) (level : Nat) :
    readThrough f here outer path level c = c := by
  induction path generalizing f here outer with
  | nil => exact hf level
  | cons step rest ih =>
    refine ih (fun level => ?_) _ _
    rw [hf, hc]

end Signature

/-- A constructor that is written at the root of a signature, read through the structure `here` with
the structures `outer` around it. -/
def Con.seenFrom (c : Con) (here : ModuleRef) (outer : List ModuleRef) : Con :=
  (c.substModules 1 outer).substModules 0 [here]

theorem Con.substModules_of_has {c : Con} (hc : c.has .relative = false) (first : Nat)
    (refs : List ModuleRef) : c.substModules first refs = c := by
  unfold substModules
  split
  next => rfl
  next =>
    unfold rebuild
    cases c <;> simp [rebuildM, orRebuild, hc]

theorem Con.seenFrom_of_has {c : Con} (hc : c.has .relative = false) (here : ModuleRef)
    (outer : List ModuleRef) : c.seenFrom here outer = c := by
  rw [seenFrom, substModules_of_has hc, substModules_of_has hc]

namespace Signature

variable {sig : Signature}

/-- A definition reads as it does at the root of the signature if it stands there or mentions no
level. -/
theorem definitionThrough_of_defined {path : List String} {item : String} {found : SignatureItem}
    (hfound : sig.itemAt? path item .con = some found) {c : Con}
    (hdefined : found.definition? = some (some c)) (hc : path = [] ∨ c.has .relative = false)
    (here : ModuleRef) (outer : List ModuleRef) :
    sig.definitionThrough here outer path item = some (some (c.seenFrom here outer)) := by
  rw [definitionThrough_eq, hfound]
  simp only [Option.map_some, Option.bind_some, hdefined, Option.some.injEq]
  rcases hc with rfl | hc
  · rw [List.append_nil]
    rfl
  · rw [readThrough_of_fixed (Con.substModules_of_has hc) fun level =>
      Con.substModules_of_has hc (level + 1) outer, Con.seenFrom_of_has hc,
      Con.substModules_of_has hc]

/-- The constructor that has been given a definition reads as the definition does at the root of the
signature. -/
theorem definitionThrough_withManifest {path : List String} {item : String} {found : SignatureItem}
    (hfound : sig.itemAt? path item .con = some found) {c : Con}
    (hc : path = [] ∨ c.has .relative = false) (here : ModuleRef) (outer : List ModuleRef) :
    (withManifest item c path sig).definitionThrough here outer path item =
      some (some (c.seenFrom here outer)) := by
  have hdefined : (define c found).definition? = some (some c) := by
    have hsort : found.sort = .con := by
      obtain ⟨target, -, htarget⟩ := Option.bind_eq_some_iff.mp hfound
      exact (SignatureItem.isNamed_iff.mp (item?_sort htarget)).2
    cases found <;> first | rfl | cases hsort
  refine definitionThrough_of_defined ?_ hdefined hc here outer
  rw [itemAt?_withManifest_self, hfound, Option.map_some]

/-- The second signature is the first one where the constructor `item` of the structure at `path` is
`c`, and nothing else is another. -/
structure Manifests (sig sig' : Signature) (path : List String) (item : String) (c : Con) :
    Prop where
  manifest : path = [] ∨ c.has .relative = false → ∀ here outer,
    sig'.definitionThrough here outer path item = some (some (c.seenFrom here outer))
  unchanged : ∀ {path' name sort}, Apart path item path' name sort →
    sig'.itemAt? path' name sort = sig.itemAt? path' name sort

end Signature

end RowML
