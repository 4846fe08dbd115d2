import RowML.Module.Globals

/-!
# Growth of the global table

Most declarations only add to the global table, so that what was in a table is in the same place in
the larger one.  The two operations that do more keep to what is younger than the smaller table: the
final type of a function and the retraction of instances.
-/

namespace RowML

namespace Globals

/-- Everything in the first table is in the same place in the second one. -/
structure Extends (globals globals' : Globals) : Prop where
  definitions : globals.definitions.toList <+: globals'.definitions.toList
  modules : globals.modules.toList <+: globals'.modules.toList
  signatures : globals.signatures.toList <+: globals'.signatures.toList
  instances : globals.instances.toList <+: globals'.instances.toList

variable {globals globals' globals'' : Globals}

theorem Extends.refl (globals : Globals) : globals.Extends globals :=
  ⟨List.prefix_rfl, List.prefix_rfl, List.prefix_rfl, List.prefix_rfl⟩

theorem Extends.trans (h : globals.Extends globals') (h' : globals'.Extends globals'') :
    globals.Extends globals'' where
  definitions := h.definitions.trans h'.definitions
  modules := h.modules.trans h'.modules
  signatures := h.signatures.trans h'.signatures
  instances := h.instances.trans h'.instances

theorem addDefinition_extends (globals : Globals) (entry : DefinitionEntry) :
    globals.Extends (globals.addDefinition entry).2 :=
  { Extends.refl globals with definitions := by simp [addDefinition] }

theorem addModule_extends (globals : Globals) (entry : ModuleEntry) :
    globals.Extends (globals.addModule entry).2 :=
  { Extends.refl globals with modules := by simp [addModule] }

theorem addSignature_extends (globals : Globals) (entry : SignatureEntry) :
    globals.Extends (globals.addSignature entry).2 :=
  { Extends.refl globals with signatures := by simp [addSignature] }

theorem addInstance_extends (globals : Globals) (inst : Instance) :
    globals.Extends (globals.addInstance inst) :=
  { Extends.refl globals with instances := by simp [addInstance] }

theorem applyFunctor_extends {functor argument id : ModuleId} {name : String}
    (h : globals.applyFunctor functor argument name = some (id, globals')) :
    globals.Extends globals' := by
  unfold applyFunctor at h
  split at h
  · cases h
    exact .refl globals
  · split at h
    · cases h
      exact { addModule_extends globals _ with }
    · cases h

/-- What a functor has given before, it gives again. -/
theorem applyFunctor_known {functor argument id : ModuleId}
    (h : globals.applications.lookup (functor, argument) = some id) (name : String) :
    globals.applyFunctor functor argument name = some (id, globals) := by
  simp [applyFunctor, h]

theorem applyFunctor_applications {functor argument id : ModuleId} {name : String}
    (h : globals.applyFunctor functor argument name = some (id, globals')) :
    globals'.applications.lookup (functor, argument) = some id ∧
      ∀ {key : ModuleId × ModuleId} {known : ModuleId},
        globals.applications.lookup key = some known →
        globals'.applications.lookup key = some known := by
  unfold applyFunctor at h
  split at h
  next known hknown =>
    cases h
    exact ⟨hknown, fun h => h⟩
  next hnew =>
    split at h
    · cases h
      refine ⟨by simp, fun {key known} hknown => ?_⟩
      have hne : key ≠ (functor, argument) := by
        rintro rfl
        cases hnew.symm.trans hknown
      simpa [List.lookup_cons, beq_eq_false_iff_ne.mpr hne] using hknown
    · cases h

/-! ## Changes of what is younger -/

theorem Extends.setDefinition (h : globals.Extends globals') {id : DefId}
    (hid : globals.definitions.size ≤ id) (definition : Definition) :
    globals.Extends (globals'.setDefinition id definition) :=
  { h with
    definitions := by
      refine List.prefix_iff_getElem?.mpr fun i hi => ?_
      have hne : id ≠ i := by
        rintro rfl
        exact absurd hi (by simpa using hid)
      have hentry := List.prefix_iff_getElem?.mp h.definitions i hi
      simp [Globals.setDefinition, hne, hentry] }

theorem Extends.setDefinitions (h : globals.Extends globals') {ids : List DefId}
    (hids : ∀ id ∈ ids, globals.definitions.size ≤ id) (definition : Definition) :
    globals.Extends
      (ids.foldl (fun globals id => globals.setDefinition id definition) globals') := by
  induction ids generalizing globals' with
  | nil => exact h
  | cons id ids ih =>
    obtain ⟨hid, hids⟩ := List.forall_mem_cons.mp hids
    exact ih (h.setDefinition hid definition) hids

/-- The types of definitions are not a matter of modules. -/
theorem setDefinitions_modules (ids : List DefId) (definition : Definition) (globals : Globals) :
    (ids.foldl (fun globals id => globals.setDefinition id definition) globals).modules =
        globals.modules ∧
      (ids.foldl (fun globals id => globals.setDefinition id definition) globals).applications =
        globals.applications := by
  induction ids generalizing globals with
  | nil => exact ⟨rfl, rfl⟩
  | cons id ids ih => exact ih (globals.setDefinition id definition)

theorem Extends.retractInstances (h : globals.Extends globals') {count : Nat}
    (hcount : globals.instances.size ≤ count) :
    globals.Extends (globals'.retractInstances count) :=
  { h with
    instances := by
      simpa [Globals.retractInstances, List.prefix_take_iff] using ⟨h.instances, hcount⟩ }

end Globals

end RowML
