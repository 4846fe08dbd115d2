import RowML.Proofs.Constructor.Step
import RowML.Proofs.Store.Delay

/-!
# Following links

A solution is a link from a metavariable to a constructor, which is instantiated at the spine of the
occurrence.  The head of a constructor is followed one link at a time, until it is nothing that is
solved, and then its parts are.  A link that leads to another link can be replaced by one that leads
past it: no end is another one then.
-/

namespace RowML

namespace Con

variable {base ks : KindStore} {θ : MetaId → Option Con} {c e e' r r' target : Con} {i w : MetaId}
  {spine arguments : List Con}

/-! ## Annotations that are spelled out -/

/-- Where nothing is solved, spelling a constructor out is spelling its annotations out. -/
theorem spell_none (c : Con) : c.spell base (fun _ => none) = c.expandKinds base := by
  induction c using inductionOnParts with
  | step c ih =>
    have hstays : c.Stays fun _ => none := fun _ _ _ => rfl
    refine eq_of_frame ?_ ?_ ?_
    · rw [frame_spell hstays, frame_expandKinds]
    · rw [annotations_spell hstays, annotations_expandKinds]
    · rw [parts_spell hstays, parts_expandKinds]
      exact List.map_congr_left ih

private theorem served_none (c : Con) : c.Served fun _ => none := by
  induction c using inductionOnParts with
  | step c ih => exact All.iff.mpr ⟨fun _ _ _ _ h => (Option.some_ne_none _ h.symm).elim, ih⟩

theorem bound_expandKinds {n : Nat} (h : c.bound ≤ n) : (c.expandKinds base).bound ≤ n := by
  rw [← spell_none]
  exact bound_spell (served_none c) h

@[simp] theorem expandKinds_mvar (i : MetaId) (spine : List Con) :
    (Con.mvar i spine).expandKinds base = .mvar i (spine.map (expandKinds base)) :=
  traverse_mvar i spine

/-- Instantiation goes along with spelling annotations out. -/
theorem expandKinds_instantiate (same : base.SameChains ks) (hclosed : base.Closed) (c : Con)
    (spine : List Con) :
    base.SameChains ((c.instantiate spine).run ks).2 ∧
      ((c.instantiate spine).run ks).1.expandKinds base =
        (c.expandKinds base).instantiated (spine.map (expandKinds base)) := by
  obtain ⟨same', halike⟩ := instantiate_expands same hclosed c spine
  have hspell := spell_instantiated same.acyclic.1 hclosed (served_none c)
    fun a (_ : a ∈ spine) => served_none a
  rw [← spell_alike halike] at hspell
  simp only [spell_none, funext spell_none] at hspell
  exact ⟨same', hspell⟩

theorem annotated_expandKinds (acyclic : base.Acyclic) (c : Con) :
    (c.expandKinds base).Annotated base.Spelled := by
  rw [← spell_none]
  exact annotated_spell acyclic (fun h => (Option.some_ne_none _ h.symm).elim) c

theorem expandKinds_of_spelled (acyclic : base.Acyclic) (h : c.Annotated base.Spelled) :
    c.expandKinds base = c := by
  have hexpand : ∀ k, base.Spelled k → base.expand k = k := fun k hk => by
    rw [← acyclic.zonk_eq, hk.zonk]
  induction c using inductionOnParts with
  | step c ih =>
    refine eq_of_frame (frame_expandKinds c) ?_ ?_
    · rw [annotations_expandKinds, List.map_congr_left fun k hk => hexpand k (h.kind hk),
        List.map_id']
    · rw [parts_expandKinds, List.map_congr_left fun p hp => ih p hp (h.part hp), List.map_id']

/-! ## The head -/

/-- Following what `θ` gives at the head of the first constructor, one link at a time, ends at the
second one. -/
inductive EndsAt (θ : MetaId → Option Con) : Con → Con → Prop
  | stop {c : Con} (stays : c.Stays θ) : EndsAt θ c c
  | link {i : MetaId} {spine : List Con} {target e : Con} (hi : θ i = some target)
      (rest : EndsAt θ (target.instantiated spine) e) : EndsAt θ (.mvar i spine) e

namespace EndsAt

theorem mvar_iff (hi : θ i = some target) :
    EndsAt θ (.mvar i spine) e ↔ EndsAt θ (target.instantiated spine) e := by
  refine ⟨fun h => ?_, .link hi⟩
  cases h with
  | stop stays => exact absurd (hi.symm.trans (stays i spine rfl)) (Option.some_ne_none _)
  | link hi' rest =>
    cases hi.symm.trans hi'
    exact rest

theorem unique (h : EndsAt θ c e) (h' : EndsAt θ c e') : e = e' := by
  induction h with
  | stop stays =>
    cases h' with
    | stop => rfl
    | link hi => exact absurd (hi.symm.trans (stays _ _ rfl)) (Option.some_ne_none _)
  | link hi _ ih => exact ih ((mvar_iff hi).mp h')

theorem stays (h : EndsAt θ c e) : e.Stays θ := by
  induction h with
  | stop stays => exact stays
  | link _ _ ih => exact ih

theorem annotated {P : Kind → Prop}
    (hinstantiated : ∀ {c : Con} {spine : List Con}, c.Annotated P →
      (∀ a ∈ spine, a.Annotated P) → (c.instantiated spine).Annotated P)
    (hθ : ∀ {i target}, θ i = some target → target.Annotated P) (h : EndsAt θ c e)
    (hc : c.Annotated P) : e.Annotated P := by
  induction h with
  | stop => exact hc
  | link hi _ ih => exact ih (hinstantiated (hθ hi) fun a ha => hc.part ha)

/-- What two links in a row lead to. -/
theorem instantiated_iff (hw : θ w = some target) (hbound : target.bound ≤ arguments.length)
    (spine : List Con) : EndsAt θ ((Con.mvar w arguments).instantiated spine) e ↔
      EndsAt θ ((target.instantiated arguments).instantiated spine) e := by
  have hmvar : (Con.mvar w arguments).instantiated spine =
      .mvar w (arguments.map (instantiatedAt spine Depth.zero)) := traverse_mvar w arguments
  rw [hmvar, mvar_iff hw, ← instantiatedAt_instantiated hbound, ← instantiated]

/-- A link that leads to another link may lead past it instead. -/
theorem update_iff (hi : θ i = some (.mvar w arguments)) (hw : θ w = some target) (hne : w ≠ i)
    (hbound : target.bound ≤ arguments.length) :
    EndsAt (Function.update θ i (some (target.instantiated arguments))) c e ↔ EndsAt θ c e := by
  have hnew : Function.update θ i (some (target.instantiated arguments)) i =
      some (target.instantiated arguments) := Function.update_self ..
  have hold : ∀ {j}, j ≠ i → Function.update θ i (some (target.instantiated arguments)) j = θ j :=
    fun hj => Function.update_of_ne hj ..
  generalize Function.update θ i (some (target.instantiated arguments)) = θ' at hnew hold ⊢
  have hstays : ∀ {c : Con}, c.Stays θ' ↔ c.Stays θ := by
    refine forall₃_congr fun j spine _ => ?_
    by_cases hj : j = i
    · subst hj
      simp [hnew, hi]
    · rw [hold hj]
  refine ⟨fun h => ?_, fun h => ?_⟩
  · induction h with
    | stop stays => exact .stop (hstays.mp stays)
    | @link j spine target' e hj _ ih =>
      by_cases hji : j = i
      · subst hji
        cases hnew.symm.trans hj
        exact .link hi ((instantiated_iff hw hbound spine).mpr ih)
      · exact .link ((hold hji).symm.trans hj) ih
  · induction h with
    | stop stays => exact .stop (hstays.mpr stays)
    | @link j spine target' e hj _ ih =>
      by_cases hji : j = i
      · subst hji
        cases hi.symm.trans hj
        exact .link hnew ((instantiated_iff ((hold hne).trans hw) hbound spine).mp ih)
      · exact .link ((hold hji).trans hj) ih

end EndsAt

/-! ## All nodes -/

/-- Every node of the second constructor is where following ends that starts at the first one and at
what it leads to. -/
inductive Settles (θ : MetaId → Option Con) : Con → Con → Prop
  | intro {c e r : Con} (head : EndsAt θ c e) (frame : e.frame = r.frame)
      (annotations : e.annotations = r.annotations)
      (parts : ∀ (n : Nat) (p p' : Con), e.parts[n]? = some p → r.parts[n]? = some p' →
        Settles θ p p') :
      Settles θ c r

namespace Settles

theorem of_forall₂ (head : EndsAt θ c e) (frame : e.frame = r.frame)
    (annotations : e.annotations = r.annotations)
    (parts : List.Forall₂ (Settles θ) e.parts r.parts) : Settles θ c r := by
  refine .intro head frame annotations fun n p p' hp hp' => ?_
  obtain ⟨hn, rfl⟩ := List.getElem?_eq_some_iff.mp hp
  obtain ⟨hn', rfl⟩ := List.getElem?_eq_some_iff.mp hp'
  exact (List.forall₂_iff_get.mp parts).2 n hn hn'

/-- Only where following ends matters. -/
theorem of_endsAt {c' : Con} (h : Settles θ c r) (hends : ∀ {e}, EndsAt θ c e → EndsAt θ c' e) :
    Settles θ c' r := by
  cases h with
  | intro head frame annotations parts => exact .intro (hends head) frame annotations parts

theorem unique (h : Settles θ c r) (h' : Settles θ c r') : r = r' := by
  induction h generalizing r' with
  | @intro c e r head frame annotations parts ih =>
    obtain ⟨head', frame', annotations', parts'⟩ := h'
    obtain rfl := head.unique head'
    refine eq_of_frame (frame.symm.trans frame') (annotations.symm.trans annotations') ?_
    have hlength := length_parts_eq frame
    have hlength' := length_parts_eq frame'
    refine List.ext_getElem (hlength.symm.trans hlength') fun n hn hn' => ?_
    have hget := List.getElem?_eq_getElem (hlength ▸ hn)
    exact ih n _ _ hget (List.getElem?_eq_getElem hn)
      (parts' n _ _ hget (List.getElem?_eq_getElem hn'))

/-- Nothing that is left stands for something. -/
theorem stays (h : Settles θ c r) {i : MetaId} (hi : r.Mentions i) : θ i = none := by
  induction h with
  | @intro c e r head frame annotations parts ih =>
    cases hi with
    | here spine =>
      exact head.stays i _ (eq_mvar_of_frame frame.symm)
    | part hp hi =>
      obtain ⟨n, hn, rfl⟩ := List.getElem_of_mem hp
      have hget := List.getElem?_eq_getElem (length_parts_eq frame ▸ hn)
      exact ih n _ _ hget (List.getElem?_eq_getElem hn) hi

theorem self (h : ∀ i, r.Mentions i → θ i = none) : Settles θ r r := by
  induction r using inductionOnParts with
  | step r ih =>
    have hstays : r.Stays θ := fun i spine hr => h i (hr ▸ .here spine)
    refine .of_forall₂ (.stop hstays) rfl rfl (List.forall₂_same.mpr fun p hp => ?_)
    exact ih p hp fun i hi => h i (.part hp hi)

theorem annotated {P : Kind → Prop}
    (hinstantiated : ∀ {c : Con} {spine : List Con}, c.Annotated P →
      (∀ a ∈ spine, a.Annotated P) → (c.instantiated spine).Annotated P)
    (hθ : ∀ {i target}, θ i = some target → target.Annotated P) (h : Settles θ c r)
    (hc : c.Annotated P) : r.Annotated P := by
  induction h with
  | @intro c e r head frame annotations parts ih =>
    have he := head.annotated hinstantiated hθ hc
    refine .intro (annotations ▸ fun k hk => he.kind hk) fun p' hp' => ?_
    obtain ⟨n, hn, rfl⟩ := List.getElem_of_mem hp'
    have hget := List.getElem?_eq_getElem (length_parts_eq frame ▸ hn)
    exact ih n _ _ hget (List.getElem?_eq_getElem hn) (he.part (List.mem_of_getElem? hget))

end Settles

end Con

end RowML
