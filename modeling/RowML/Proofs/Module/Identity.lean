import RowML.Proofs.Module.Reading
import RowML.Proofs.Normal.Conversion

/-!
# Structures that show where they come from

A signature that has been selfified for a structure, and is given to a module of its own, defines
its items as those of the structure.  Then every item of the module is convertible to the item of
the structure: an abstract one unfolds to it, and the definitions of a manifest one are read through
the module or through the structure, which makes them differ in items that are convertible by the
same argument.  The argument comes to an end where the definitions do.
-/

namespace RowML

/-! ## Canonical references -/

namespace Globals

variable {globals globals' : Globals}

theorem canonicalFrom_path_le (globals : Globals) (module : ModuleId) (path : List String) :
    (globals.canonicalFrom module path).path.length ≤ path.length := by
  induction path generalizing module with
  | nil => rfl
  | cons name rest ih =>
    rw [canonicalFrom]
    split
    next inner _ => exact Nat.le_succ_of_le (ih inner)
    next => rfl

/-- A reference is canonical if the first structure on its path has no identity of its own. -/
theorem canonical_eq_iff {ref : ModuleRef} :
    globals.canonical ref = ref ↔
      ∀ name, ref.path.head? = some name →
        (globals.module ref.module).members.lookup name = none := by
  obtain ⟨module, _ | ⟨name, rest⟩⟩ := ref
  · simp [canonical, canonicalFrom]
  · simp only [canonical, canonicalFrom, List.head?_cons, Option.some.injEq, forall_eq']
    split
    next inner hinner =>
      simp only [hinner, reduceCtorEq, iff_false]
      intro heq
      have hlength := globals.canonicalFrom_path_le inner rest
      rw [heq] at hlength
      exact absurd hlength (by simp)
    next hnone => simp [hnone]

theorem canonical_append {ref : ModuleRef} (hcanonical : globals.canonical ref = ref)
    (hpath : ref.path ≠ []) (path : List String) :
    globals.canonical ⟨ref.module, ref.path ++ path⟩ = ⟨ref.module, ref.path ++ path⟩ := by
  rw [canonical_eq_iff] at hcanonical ⊢
  simpa [List.head?_append_of_ne_nil _ hpath] using hcanonical

/-- Structures without members of their own are told apart by their paths. -/
theorem canonical_of_members {module : ModuleId} (h : (globals.module module).members = [])
    (path : List String) : globals.canonical ⟨module, path⟩ = ⟨module, path⟩ :=
  canonical_eq_iff.mpr fun name _ => by simp [h]

/-! ## More modules -/

theorem module_addModule (globals : Globals) (entry : ModuleEntry) (id : ModuleId) :
    (globals.addModule entry).2.module id =
      if id = globals.modules.size then entry else globals.module id := by
  simp only [module, addModule, Array.getElem?_push]
  split <;> rfl

/-- A module without members changes no identity. -/
theorem canonical_addModule {entry : ModuleEntry} (h : entry.members = []) (ref : ModuleRef) :
    (globals.addModule entry).2.canonical ref = globals.canonical ref := by
  obtain ⟨module, path⟩ := ref
  unfold canonical
  induction path generalizing module with
  | nil => rfl
  | cons name rest ih =>
    simp only [canonicalFrom, module_addModule]
    by_cases hmodule : module = globals.modules.size
    · have hout : globals.module globals.modules.size = default := by simp [Globals.module]
      simp [hmodule, h, hout, show (default : ModuleEntry).members = [] from rfl]
    · rw [if_neg hmodule]
      split
      next inner _ => exact ih inner
      next => rfl

theorem module_eq_of_grown (h : globals.modules.toList <+: globals'.modules.toList) {id : ModuleId}
    (hid : id < globals.modules.size) : globals'.module id = globals.module id := by
  have hentry := List.prefix_iff_getElem?.mp h id (by simpa using hid)
  simp only [Array.getElem?_toList, Array.getElem_toList] at hentry
  rw [module, module, hentry, Array.getElem?_eq_getElem hid]

/-! ## Signatures of nested structures -/

/-- The structures around the one that a path leads to from `here`, which has `outer` around it. -/
def around (here : ModuleRef) (outer : List ModuleRef) : List String → List ModuleRef
  | [] => outer
  | step :: rest => around (here.child step) (here :: outer) rest

theorem nestedSignature?_append (sig : Signature) (here : ModuleRef) (outer : List ModuleRef)
    (path path' : List String) :
    nestedSignature? sig here (here :: outer) (path ++ path') =
      (nestedSignature? sig here (here :: outer) path).bind fun inner =>
        nestedSignature? inner ⟨here.module, here.path ++ path⟩
          (⟨here.module, here.path ++ path⟩ :: around here outer path) path' := by
  induction path generalizing sig here outer with
  | nil => simp [nestedSignature?, around]
  | cons step rest ih =>
    cases hinner : sig.nested? step with
    | none => simp [nestedSignature?, hinner]
    | some inner =>
      simp only [List.cons_append, nestedSignature?, hinner]
      rw [ih]
      simp [ModuleRef.child, around]

theorem nestedSignature?_eq (sig : Signature) (here : ModuleRef) (outer : List ModuleRef)
    (path : List String) : nestedSignature? sig here outer path =
      (sig.nestedAt? path).map
        (·.mapCons (Signature.readThrough (fun _ c => c) here outer path) 0) := by
  conv_lhs => rw [← Signature.mapCons_id sig 0]
  exact Signature.nestedSignature?_mapCons _ _ _ _ _

theorem moduleSignature?_eq {ref : ModuleRef} (hcanonical : globals.canonical ref = ref) :
    globals.moduleSignature? ref =
      nestedSignature? (globals.module ref.module).sig (.root ref.module) [.root ref.module]
        ref.path := by
  simp [moduleSignature?, hcanonical]

/-- A structure inside a module is not one of a module that the table does not have. -/
theorem lt_of_moduleSignature? {ref : ModuleRef} {sig : Signature}
    (hcanonical : globals.canonical ref = ref) (hpath : ref.path ≠ [])
    (hsig : globals.moduleSignature? ref = some sig) : ref.module < globals.modules.size := by
  by_contra hout
  have hmodule : globals.module ref.module = default := by
    simp [module, Array.getElem?_eq_none (Nat.le_of_not_lt hout)]
  obtain ⟨step, rest, hsteps⟩ := List.exists_cons_of_ne_nil hpath
  rw [moduleSignature?_eq hcanonical, hmodule, hsteps] at hsig
  cases hsig

/-! ## Selfified signatures -/

variable {ref : ModuleRef} {sig : Signature} {name : String} {sort : Namespace}

theorem selfifyItem_name (item : SignatureItem) :
    (globals.selfifyItem ref item).name = item.name ∧
      (globals.selfifyItem ref item).sort = item.sort := by
  cases item with
  | con x kind definition | «class» x kind definition => cases definition <;> exact ⟨rfl, rfl⟩
  | _ => exact ⟨rfl, rfl⟩

theorem selfifyItems_eq (entries : List SignatureItem) :
    globals.selfifyItems ref entries = entries.map (globals.selfifyItem ref) := by
  induction entries with
  | nil => rfl
  | cons entry rest ih => rw [selfifyItems, ih, List.map_cons]

theorem item?_selfify (sig : Signature) :
    (globals.selfify ref sig).item? name sort =
      (sig.item? name sort).map (globals.selfifyItem ref) := by
  cases sig with
  | items entries =>
    rw [selfify, Signature.item?_items, Signature.item?_items, selfifyItems_eq, ← List.map_reverse,
      List.find?_map]
    congr 2
    funext item
    simp [SignatureItem.isNamed, selfifyItem_name]
  | functor | error => rfl

theorem nested?_selfify (sig : Signature) (step : String) :
    (globals.selfify ref sig).nested? step =
      (sig.nested? step).map (globals.selfify (globals.canonical (ref.child step))) := by
  unfold Signature.nested?
  rw [item?_selfify]
  cases hitem : sig.item? step .module with
  | none => rfl
  | some item =>
    obtain ⟨hname, hsort⟩ := SignatureItem.isNamed_iff.mp (Signature.item?_sort hitem)
    cases item with
    | «structure» =>
      cases hname
      rfl
    | _ => cases hsort

theorem nestedAt?_selfify (hcanonical : globals.canonical ref = ref) (hpath : ref.path ≠ [])
    (sig : Signature) (path : List String) :
    (globals.selfify ref sig).nestedAt? path =
      (sig.nestedAt? path).map (globals.selfify ⟨ref.module, ref.path ++ path⟩) := by
  induction path generalizing ref sig with
  | nil => simp [Signature.nestedAt?]
  | cons step rest ih =>
    have hchild : globals.canonical (ref.child step) = ref.child step :=
      canonical_append hcanonical hpath [step]
    rw [Signature.nestedAt?, Signature.nestedAt?, nested?_selfify, hchild]
    cases sig.nested? step with
    | none => rfl
    | some inner =>
      simp only [Option.map_some, Option.bind_some]
      rw [ih hchild (by simp [ModuleRef.child])]
      simp [ModuleRef.child]

theorem itemAt?_selfify (hcanonical : globals.canonical ref = ref) (hpath : ref.path ≠ [])
    (sig : Signature) (path : List String) :
    (globals.selfify ref sig).itemAt? path name sort =
      (sig.itemAt? path name sort).map (globals.selfifyItem ⟨ref.module, ref.path ++ path⟩) := by
  rw [Signature.itemAt?, Signature.itemAt?, nestedAt?_selfify hcanonical hpath]
  cases sig.nestedAt? path with
  | none => rfl
  | some inner => exact item?_selfify inner

end Globals

/-! ## Items with a definition -/

section Laws

variable {globals : Globals} {ref : ModuleRef} {target : Signature} {name : String}

/-- A manifest item is convertible to its definition, read through its structure. -/
theorem Law.of_definition (found : SignatureItem) {c : Con}
    (hcanonical : globals.canonical ref = ref)
    (htarget : globals.moduleSignature? ref = some target)
    (hfound : target.item? name .con = some found) (hc : found.definition? = some (some c)) :
    Law globals (.member ref.module ref.path name) (c.substModules 0 [ref]) := by
  cases target with
  | items entries =>
    cases found with
    | con x kind definition =>
      cases hc
      refine .item (k := kind) ?_
      rw [hcanonical]
      simp only [Globals.moduleItem?, hcanonical, htarget, hfound, Option.map_some]
    | «class» x kind definition =>
      cases hc
      refine .classItem (k := kind) ?_
      rw [hcanonical]
      simp only [Globals.moduleItem?, hcanonical, htarget, hfound, Option.map_some]
    | _ => cases hc
  | functor | error => cases hfound

/-- Every item of a poisoned structure is poison. -/
theorem Law.of_poisoned (hcanonical : globals.canonical ref = ref)
    (htarget : globals.moduleSignature? ref = some .error) :
    Law globals (.member ref.module ref.path name) .error := by
  refine .item (k := .error) ?_
  rw [hcanonical]
  unfold Globals.moduleItem?
  simp only [hcanonical, htarget]

end Laws

/-! ## Items that two structures share -/

/-- Following definitions from the constructor `name` of the structure at `path` leads to abstract
or poisoned items of the signature in the end. -/
inductive Signature.Founded (sig : Signature) : List String → String → Prop where
  | abstract {path : List String} {name : String} {found : SignatureItem}
      (hfound : sig.itemAt? path name .con = some found) (hc : found.definition? = some none) :
      Founded sig path name
  | manifest {path : List String} {name : String} {found : SignatureItem} {c : Con}
      (hfound : sig.itemAt? path name .con = some found) (hc : found.definition? = some (some c))
      (hlevels : ∀ level below x, c.Refers level below x → level ≤ path.length)
      (hitems : ∀ level below x, c.Refers level below x →
        Founded sig (path.take (path.length - level) ++ below) x) :
      Founded sig path name
  | poisoned {path : List String} (name : String) (h : sig.nestedAt? path = some .error) :
      Founded sig path name

/-- The table has `sig` for the structure `ref` and the structures inside it. -/
structure Globals.Reads (globals : Globals) (ref : ModuleRef) (sig : Signature)
    (outer : List ModuleRef) : Prop where
  canonical : ∀ path, globals.canonical ⟨ref.module, ref.path ++ path⟩ =
    ⟨ref.module, ref.path ++ path⟩
  signature : ∀ path, globals.moduleSignature? ⟨ref.module, ref.path ++ path⟩ =
    Globals.nestedSignature? sig ref (ref :: outer) path

open Globals (canonical_append canonical_of_members canonical_eq_iff moduleSignature?_eq)

variable {globals globals₀ : Globals} {ref : ModuleRef} {sig : Signature} {outer : List ModuleRef}

theorem Globals.Reads.of_module (globals : Globals) {id : ModuleId}
    (h : (globals.module id).members = []) :
    globals.Reads (.root id) (globals.module id).sig [] where
  canonical _ := canonical_of_members h _
  signature _ := moduleSignature?_eq (canonical_of_members h _)

theorem Globals.Reads.of_structure (hcanonical : globals.canonical ref = ref)
    (hpath : ref.path ≠ []) (hsig : globals.moduleSignature? ref = some sig) :
    ∃ outer, globals.Reads ref sig outer := by
  refine ⟨Globals.around (.root ref.module) [] ref.path,
    fun path => canonical_append hcanonical hpath path, fun path => ?_⟩
  rw [moduleSignature?_eq hcanonical] at hsig
  rw [moduleSignature?_eq (canonical_append hcanonical hpath path)]
  refine (Globals.nestedSignature?_append _ (.root ref.module) [] ref.path path).trans ?_
  rw [hsig]
  rfl

/-- What a table reads in a module depends on the module only. -/
theorem Globals.Reads.of_module_eq {globals' : Globals} (h : globals.Reads ref sig outer)
    (hmodule : globals'.module ref.module = globals.module ref.module) :
    globals'.Reads ref sig outer := by
  have hcanonical : ∀ path, globals'.canonical ⟨ref.module, ref.path ++ path⟩ =
      ⟨ref.module, ref.path ++ path⟩ := fun path => by
    have := h.canonical path
    rw [canonical_eq_iff] at this ⊢
    rwa [hmodule]
  refine ⟨hcanonical, fun path => ?_⟩
  rw [← h.signature, moduleSignature?_eq (hcanonical path), moduleSignature?_eq (h.canonical path)]
  exact hmodule ▸ rfl

theorem Globals.Reads.definition (h : globals.Reads ref sig outer) {path : List String}
    {name : String} {found : SignatureItem} {c : Con}
    (hfound : sig.itemAt? path name .con = some found) (hc : found.definition? = some (some c)) :
    Law globals (.member ref.module (ref.path ++ path) name)
      ((Signature.readThrough (fun _ c => c) ref (ref :: outer) path 0 c).substModules 0
        [⟨ref.module, ref.path ++ path⟩]) := by
  obtain ⟨target, htarget, hitem⟩ := Option.bind_eq_some_iff.mp hfound
  have hsignature := h.signature path
  rw [Globals.nestedSignature?_eq, htarget, Option.map_some] at hsignature
  refine Law.of_definition
    (Signature.mapConsItem (Signature.readThrough (fun _ c => c) ref (ref :: outer) path) 0 found)
    (h.canonical path) hsignature (by rw [Signature.item?_mapCons, hitem, Option.map_some]) ?_
  cases found with
  | con | «class» =>
    cases hc
    rfl
  | _ => cases hc

theorem Globals.Reads.poisoned (h : globals.Reads ref sig outer) {path : List String}
    (hpath : sig.nestedAt? path = some .error) (name : String) :
    Law globals (.member ref.module (ref.path ++ path) name) .error := by
  refine Law.of_poisoned (h.canonical path) ?_
  rw [h.signature, Globals.nestedSignature?_eq, hpath]
  rfl

/-- A module with the selfified signature of a structure shares its items with the structure. -/
theorem Signature.Founded.convertible (store : Store) {double : ModuleId}
    (hcanonical : globals₀.canonical ref = ref) (hpath : ref.path ≠ [])
    (href : globals.Reads ref sig outer)
    (hdouble : globals.Reads (.root double) (globals₀.selfify ref sig) [])
    {path : List String} {name : String} (h : sig.Founded path name) :
    Convertible globals store (.member double path name)
      (.member ref.module (ref.path ++ path) name) := by
  induction h with
  | @abstract path name found hfound hc =>
    have hshown : (globals₀.selfify ref sig).itemAt? path name .con =
        some (globals₀.selfifyItem ⟨ref.module, ref.path ++ path⟩ found) := by
      rw [Globals.itemAt?_selfify hcanonical hpath, hfound, Option.map_some]
    have hname : found.name = name := by
      obtain ⟨target, -, hitem⟩ := Option.bind_eq_some_iff.mp hfound
      exact (SignatureItem.isNamed_iff.mp (Signature.item?_sort hitem)).1
    have hdefined : (globals₀.selfifyItem ⟨ref.module, ref.path ++ path⟩ found).definition? =
        some (some (.member ref.module (ref.path ++ path) name)) := by
      cases found with
      | con x kind definition | «class» x kind definition =>
        cases hc
        cases hname
        rfl
      | _ => cases hc
    have hlaw := hdouble.definition hshown hdefined
    rw [Signature.readThrough_of_fixed (Con.substModules_of_has rfl) fun _ => rfl,
      Con.substModules_of_has rfl] at hlaw
    exact .law hlaw
  | @manifest path name found c hfound hc hlevels hitems ih =>
    have hshown : (globals₀.selfify ref sig).itemAt? path name .con = some found := by
      rw [Globals.itemAt?_selfify hcanonical hpath, hfound, Option.map_some]
      cases found with
      | con | «class» =>
        cases hc
        rfl
      | _ => cases hc
    have hstart : Con.Twins double ref path
        (fun below name => Convertible globals store (.member double below name)
          (.member ref.module (ref.path ++ below) name)) (path.length + 1) c c :=
      .of_refers fun level below x hrefers =>
        ⟨Nat.lt_succ_of_le (hlevels level below x hrefers), ih level below x hrefers⟩
    have hread := Con.twins_readThrough (fun _ c => c) (fun _ c => c) [] outer [] path rfl hstart
    have hlast := hread.substModules [] []
    rw [Nat.sub_zero, List.take_length] at hlast
    have hequal : Convertible globals store _ _ :=
      hlast.congr (fun _ _ hshared => hshared) fun k => .refl k
    refine .trans (Convertible.law (hdouble.definition hshown hc)) (.trans ?_
      (.symm (Convertible.law (href.definition hfound hc))))
    rw [List.append_nil] at hequal
    exact hequal
  | @poisoned path name h =>
    have hshown : (globals₀.selfify ref sig).nestedAt? path = some .error := by
      rw [Globals.nestedAt?_selfify hcanonical hpath, h]
      rfl
    exact .trans (Convertible.law (hdouble.poisoned hshown name))
      (.symm (Convertible.law (href.poisoned h name)))

end RowML
