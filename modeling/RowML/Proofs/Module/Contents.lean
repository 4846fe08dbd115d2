import RowML.Module.Globals

/-!
# The constructors in a global table

What the table answers with is made of the constructors that are written in it.  An item of a module
is read through the module, which replaces references to signatures by references to modules; a
property that survives this and that poison has is a property of every answer if it is one of every
constructor in the table.
-/

namespace RowML

mutual
/-- The constructors that are written in a signature. -/
def Signature.cons : Signature → List Con
  | .items entries => SignatureItem.consOfList entries
  | .functor _ paramSig result => paramSig.cons ++ result.cons
  | .error => []
def SignatureItem.cons : SignatureItem → List Con
  | .con _ _ definition => definition.toList
  | .class _ _ definition => definition.toList
  | .val _ type => [type]
  | .structure _ sig => sig.cons
  | .signature _ sig => sig.cons
def SignatureItem.consOfList : List SignatureItem → List Con
  | [] => []
  | entry :: rest => entry.cons ++ SignatureItem.consOfList rest
end

namespace Signature

variable {P : Con → Prop} {f : Nat → Con → Con}

mutual
/-- Rebuilding a signature rebuilds its constructors. -/
theorem mapCons_cons (hf : ∀ level c, P c → P (f level c)) (sig : Signature) (level : Nat)
    (h : ∀ c ∈ sig.cons, P c) : ∀ c ∈ (sig.mapCons f level).cons, P c := by
  cases sig with
  | items entries => exact mapConsItems_cons hf entries level h
  | functor param paramSig result =>
    simp only [cons, List.mem_append] at h
    simp only [mapCons, cons, List.mem_append]
    rintro c (hc | hc)
    · exact mapCons_cons hf paramSig _ (fun c hc => h c (.inl hc)) c hc
    · exact mapCons_cons hf result _ (fun c hc => h c (.inr hc)) c hc
  | error => simp [mapCons, cons]
theorem mapConsItem_cons (hf : ∀ level c, P c → P (f level c)) (item : SignatureItem) (level : Nat)
    (h : ∀ c ∈ item.cons, P c) : ∀ c ∈ (mapConsItem f level item).cons, P c := by
  cases item with
  | con x k definition | «class» x k definition =>
    cases definition with
    | none => simp [mapConsItem, SignatureItem.cons]
    | some c => simpa [mapConsItem, SignatureItem.cons] using hf level c (h c (by
        simp [SignatureItem.cons]))
  | val x type => simpa [mapConsItem, SignatureItem.cons] using hf level type (h type (by
      simp [SignatureItem.cons]))
  | «structure» x sig => exact mapCons_cons hf sig _ h
  | signature x sig => exact mapCons_cons hf sig _ h
theorem mapConsItems_cons (hf : ∀ level c, P c → P (f level c)) (entries : List SignatureItem)
    (level : Nat) (h : ∀ c ∈ SignatureItem.consOfList entries, P c) :
    ∀ c ∈ SignatureItem.consOfList (mapConsItems f level entries), P c := by
  cases entries with
  | nil => simp [mapConsItems, SignatureItem.consOfList]
  | cons entry rest =>
    simp only [SignatureItem.consOfList, List.mem_append] at h
    simp only [mapConsItems, SignatureItem.consOfList, List.mem_append]
    rintro c (hc | hc)
    · exact mapConsItem_cons hf entry level (fun c hc => h c (.inl hc)) c hc
    · exact mapConsItems_cons hf rest level (fun c hc => h c (.inr hc)) c hc
end

theorem cons_of_mem {entries : List SignatureItem} {item : SignatureItem} (hitem : item ∈ entries)
    {c : Con} (hc : c ∈ item.cons) : c ∈ SignatureItem.consOfList entries := by
  induction entries with
  | nil => cases hitem
  | cons entry rest ih =>
    rw [SignatureItem.consOfList, List.mem_append]
    rcases List.mem_cons.mp hitem with rfl | hitem
    · exact .inl hc
    · exact .inr (ih hitem)

theorem cons_of_item {sig : Signature} {name : String} {sort : Namespace} {item : SignatureItem}
    (h : sig.item? name sort = some item) {c : Con} (hc : c ∈ item.cons) : c ∈ sig.cons := by
  cases sig with
  | items entries => exact cons_of_mem (List.mem_reverse.mp (List.mem_of_find?_eq_some h)) hc
  | functor | error => cases h

theorem cons_of_nested {sig inner : Signature} {name : String} (h : sig.nested? name = some inner)
    {c : Con} (hc : c ∈ inner.cons) : c ∈ sig.cons := by
  unfold nested? at h
  split at h
  next hitem =>
    cases h
    exact cons_of_item hitem hc
  next => cases h

end Signature

namespace Globals

theorem canonical_canonical (globals : Globals) (ref : ModuleRef) :
    globals.canonical (globals.canonical ref) = globals.canonical ref := by
  obtain ⟨module, path⟩ := ref
  unfold canonical
  induction path generalizing module with
  | nil => rfl
  | cons name rest ih =>
    simp only [canonicalFrom]
    split
    next inner _ => exact ih inner
    next hnone => simp only [canonicalFrom, hnone]

/-- The constructors that the definitions and modules of a table are made of. -/
def cons (globals : Globals) : List Con :=
  globals.definitions.toList.flatMap (fun entry =>
    match entry.definition with
    | .con _ body => [body]
    | .class _ body => body.toList
    | .val type => [type]) ++
  globals.modules.toList.flatMap fun entry => entry.sig.cons

variable {globals : Globals} {P : Con → Prop}

theorem definition_holds (h : ∀ c ∈ globals.cons, P c) {id : DefId} {kind : Kind} {body : Con}
    (hid : globals.definition? id = some (.con kind body) ∨
      globals.definition? id = some (.class kind (some body))) : P body := by
  refine h body (List.mem_append_left _ (List.mem_flatMap.mpr ?_))
  unfold definition? at hid
  rcases hentry : globals.definitions[id]? with _ | entry
  · simp [hentry] at hid
  · refine ⟨entry, Array.mem_toList_iff.mpr (Array.mem_of_getElem? hentry), ?_⟩
    simp only [hentry, Option.map_some, Option.some.injEq] at hid
    rcases hid with hid | hid <;> simp [hid]

theorem nestedSignature_holds (hsubst : ∀ c first refs, P c → P (c.substModules first refs))
    {path : List String} {sig sig' : Signature} {here : ModuleRef} {outer : List ModuleRef}
    (h : ∀ c ∈ sig.cons, P c) (hsig : nestedSignature? sig here outer path = some sig') :
    ∀ c ∈ sig'.cons, P c := by
  induction path generalizing sig here outer with
  | nil =>
    cases hsig
    exact h
  | cons name rest ih =>
    simp only [nestedSignature?] at hsig
    split at hsig
    next => cases hsig
    next inner hinner =>
      refine ih ?_ hsig
      exact Signature.mapCons_cons (fun level c hc => hsubst c _ _ hc) inner 0
        fun c hc => h c (Signature.cons_of_nested hinner hc)

theorem moduleSignature_holds (hsubst : ∀ c first refs, P c → P (c.substModules first refs))
    (h : ∀ c ∈ globals.cons, P c) {ref : ModuleRef} {sig : Signature}
    (hsig : globals.moduleSignature? ref = some sig) : ∀ c ∈ sig.cons, P c := by
  refine nestedSignature_holds hsubst (fun c hc => ?_) hsig
  unfold module at hc
  rcases hentry : globals.modules[(globals.canonical ref).module]? with _ | entry
  · rw [hentry] at hc
    cases hc
  · rw [hentry] at hc
    refine h c (List.mem_append_right _ (List.mem_flatMap.mpr ⟨entry, ?_, hc⟩))
    exact Array.mem_toList_iff.mpr (Array.mem_of_getElem? hentry)

theorem moduleItem_holds (hsubst : ∀ c first refs, P c → P (c.substModules first refs))
    (herror : P .error) (h : ∀ c ∈ globals.cons, P c) {ref : ModuleRef} {name : String}
    {kind : Kind} {body : Con}
    (hitem : globals.moduleItem? ref name .con = some (.con kind (some body)) ∨
      globals.moduleItem? ref name .con = some (.class kind (some body))) : P body := by
  have hdefinition : ∀ {sig : Signature} {item : SignatureItem} {definition : Option Con},
      globals.moduleSignature? (globals.canonical ref) = some sig →
      sig.item? name .con = some item → item.cons = definition.toList →
      definition.map (·.substModules 0 [globals.canonical ref]) = some body → P body := by
    intro sig item definition hmodule hfound hcons hbody
    obtain ⟨c, rfl, rfl⟩ := Option.map_eq_some_iff.mp hbody
    have hsig := moduleSignature_holds hsubst h hmodule
    exact hsubst c _ _ (hsig c (Signature.cons_of_item hfound (by simp [hcons])))
  unfold moduleItem? at hitem
  simp only at hitem
  split at hitem
  next => simp at hitem
  next =>
    simp only [Option.some.injEq, ModuleItem.con.injEq, reduceCtorEq, or_false] at hitem
    exact hitem.2 ▸ herror
  next sig _ hmodule =>
    split at hitem
    next kind' definition hfound =>
      simp only [Option.some.injEq, ModuleItem.con.injEq, reduceCtorEq, or_false] at hitem
      exact hdefinition hmodule hfound rfl hitem.2
    next kind' definition hfound =>
      simp only [Option.some.injEq, ModuleItem.class.injEq, reduceCtorEq, false_or] at hitem
      exact hdefinition hmodule hfound rfl hitem.2
    next => simp at hitem
    next => simp at hitem

/-- In the empty table every module is poisoned. -/
theorem eq_error_of_item_empty {ref : ModuleRef} {item : String} {found : ModuleItem}
    (h : empty.moduleItem? ref item .con = some found) :
    found = .con .error (some .error) := by
  have hcanonical : ∀ ref : ModuleRef, empty.canonical ref = ref := by
    rintro ⟨module, _ | ⟨name, path⟩⟩ <;> rfl
  have hsig : ∀ ref : ModuleRef, empty.moduleSignature? ref =
      if ref.path = [] then some .error else none := by
    rintro ⟨module, _ | ⟨name, path⟩⟩ <;> rfl
  unfold Globals.moduleItem? at h
  simp only [hcanonical, hsig] at h
  by_cases hpath : ref.path = []
  · simp only [if_pos hpath] at h
    cases h
    rfl
  · simp only [if_neg hpath, reduceCtorEq] at h

end Globals

end RowML
