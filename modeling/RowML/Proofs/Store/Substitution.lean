import RowML.Proofs.Store.Discipline
import RowML.Store.Subst

/-!
# Substitution in a store of kinds

The operations that move constructors under binders or put arguments for variables agree with the
traversals that leave metavariables alone, up to the kinds that they read.
-/

namespace RowML

/-- The store with other kinds. -/
def Store.withKinds (store : Store) (kinds : KindStore) : Store := { store with kinds }

namespace Con

/-! ## Relations between annotations -/

/-- Every kind annotation has the property. -/
def Annotated (P : Kind → Prop) (c : Con) : Prop := c.All fun node => ∀ k ∈ node.annotations, P k

namespace Annotated

variable {P P' : Kind → Prop} {c p : Con}

theorem part (h : c.Annotated P) (hp : p ∈ c.parts) : p.Annotated P := (All.iff.mp h).2 p hp

theorem kind (h : c.Annotated P) {k : Kind} (hk : k ∈ c.annotations) : P k := (All.iff.mp h).1 k hk

theorem mono (h : c.Annotated P) (himp : ∀ k, P k → P' k) : c.Annotated P' :=
  All.mono h fun _ hnode k hk => himp k (hnode k hk)

theorem of_forall (h : ∀ k, P k) : c.Annotated P := by
  induction c using inductionOnParts with
  | step c ih => exact .intro (fun k _ => h k) ih

theorem bvar (i : Nat) : (Con.bvar i).Annotated P :=
  .intro (by simp [annotations]) (by simp [parts])

theorem traverse {vars : Depth → Nat → Con} {kinds : Depth → Kind → Kind} (h : c.Annotated P)
    (hvars : ∀ d i, (vars d i).Annotated P) (hkinds : ∀ d k, P k → P (kinds d k)) (d : Depth) :
    (c.traverse vars kinds d).Annotated P := by
  induction c using inductionOnParts generalizing d with
  | step c ih =>
    by_cases hbvar : ∃ i, c = .bvar i
    · obtain ⟨i, rfl⟩ := hbvar
      exact hvars d i
    · have hbvar : ∀ i, c ≠ .bvar i := fun i hi => hbvar ⟨i, hi⟩
      refine .intro ?_ ?_
      · rw [annotations_traverse hbvar]
        exact List.forall_mem_map.mpr fun k hk => hkinds d k (h.kind hk)
      · rw [parts_traverse hbvar]
        exact List.forall_mem_map.mpr fun p hp => ih p hp (h.part hp) _

end Annotated

/-- A relation between the kinds that go into a pass and those that come out of it. -/
structure Relates (D : Discipline KindStore) (Pre : KindStore → Kind → Prop)
    (R : KindStore → Kind → Kind → Prop) : Prop where
  pre_grows : ∀ {ks ks' k}, D.Ok ks' → D.Grows ks ks' → Pre ks k → Pre ks' k
  grows : ∀ {ks ks' k k'}, D.Ok ks' → D.Grows ks ks' → R ks k k' → R ks' k k'
  refl : ∀ {ks k}, Pre ks k → R ks k k

section Passes

variable {D : Discipline KindStore} {Pre : KindStore → Kind → Prop}
  {R : KindStore → Kind → Kind → Prop} {ks : KindStore} {c : Con}

/-- The specification of a pass that carries out a traversal, up to a relation between the kinds. -/
private def relating (Pre : KindStore → Kind → Prop) (R : KindStore → Kind → Kind → Prop)
    (around : KindStore → Prop) (vars : Depth → Nat → Con) (kinds : Depth → Kind → Kind) :
    PassSpec KindStore where
  Pre ks _ c := c.Annotated (Pre ks) ∧ around ks
  KindPre ks _ k := Pre ks k
  Enters _ _ c := ∀ i, c ≠ .bvar i
  Post ks d c c' := Alike (R ks) (c.traverse vars kinds d) c'
  KindPost ks d k k' := R ks (kinds d k) k'

private theorem relating_pass (H : Relates D Pre R) {around : KindStore → Prop}
    {vars : Depth → Nat → Con} {kinds : Depth → Kind → Kind}
    {node : Depth → Con → KindM (Option Con)} {kind : Depth → Kind → KindM Kind}
    (haround : ∀ {ks ks'}, D.Ok ks' → D.Grows ks ks' → around ks → around ks')
    (hnode : ∀ {ks d c}, D.Ok ks → around ks → c.Annotated (Pre ks) →
      Yields D ks (node d c) ((relating Pre R around vars kinds).Hook d c))
    (hkind : ∀ {ks d k}, D.Ok ks → Pre ks k →
      Yields D ks (kind d k) fun k' ks' => R ks' (kinds d k) k') :
    Pass D (relating Pre R around vars kinds) node kind where
  pre_grows ok grows h := ⟨h.1.mono fun _ hk => H.pre_grows ok grows hk, haround ok grows h.2⟩
  kindPre_grows ok grows h := H.pre_grows ok grows h
  enters_grows _ _ h := h
  post_grows ok grows h := h.mono fun _ _ hk => H.grows ok grows hk
  kindPost_grows ok grows h := H.grows ok grows h
  pre_part h hp := ⟨h.1.part hp, h.2⟩
  pre_kind h hk := h.1.kind hk
  node_yields ok h := hnode ok h.2 h.1
  kind_yields ok h := hkind ok h
  close := by
    intro ks d c c' _ _ hc related
    refine Alike.of_forall₂ ((frame_traverse hc).trans related.frame) ?_ ?_
    · rw [annotations_traverse hc, List.forall₂_map_left_iff]
      exact related.annotations
    · rw [parts_traverse hc, List.forall₂_map_left_iff]
      exact related.parts

/-- A part that the traversal leaves alone may be kept. -/
private theorem Relates.kept (H : Relates D Pre R) {c c' : Con} (hc : c.Annotated (Pre ks))
    (h : c' = c) : Alike (R ks) c' c := by
  subst h
  exact Alike.refl (hc.mono fun _ hk => H.refl hk)

/-! ## Kinds -/

/-- A constructor in which no kind variable is written does not change with its kind variables. -/
private theorem traverse_of_has {kinds : Depth → Kind → Kind} {d : Depth} {c : Con}
    (hkinds : ∀ d k, k.hasBVar = false → kinds d k = k) (h : c.has .kindBVar = false) :
    c.traverse (fun _ i => .bvar i) kinds d = c := by
  refine traverse_eq_self d Depth.zero ((has_eq_false_iff.mp h).mono fun e node hnode => ?_)
  refine ⟨fun i _ => rfl, fun k hk => hkinds _ k ?_⟩
  simp only [exhibits, List.any_eq_false] at hnode
  simpa using hnode k hk

/-- A pass over the annotations that skips the parts in which no kind variable is written. -/
private theorem Relates.rebuildM (H : Relates D Pre R) {kinds : Depth → Kind → Kind}
    {kind : Depth → Kind → KindM Kind} (hkinds : ∀ d k, k.hasBVar = false → kinds d k = k)
    (hkind : ∀ {ks d k}, D.Ok ks → Pre ks k →
      Yields D ks (kind d k) fun k' ks' => R ks' (kinds d k) k')
    (ok : D.Ok ks) (hc : c.Annotated (Pre ks)) :
    Yields D ks
      (c.rebuildM (fun _ node => pure (if node.has .kindBVar then none else some node)) kind
      Depth.zero) fun c' ks' =>
        Alike (R ks') (c.traverse (fun _ i => .bvar i) kinds Depth.zero) c' := by
  have haround : ∀ {ks ks'}, D.Ok ks' → D.Grows ks ks' → True → True := fun _ _ h => h
  refine (relating_pass H haround (fun {ks d c} ok _ hc => ?_) hkind).rebuildM_yields c ok
    ⟨hc, trivial⟩
  refine Yields.pure ok ?_
  split
  next h =>
    rintro i rfl
    simp [has, foldNodes, exhibits, annotations] at h
  next h => exact H.kept hc (traverse_of_has hkinds (by simpa using h))

theorem Relates.substKind (H : Relates D Pre R) {argument : Kind}
    (hsubst : ∀ {ks k} (index : Nat), D.Ok ks → Pre ks k →
      Yields D ks (KindStore.subst k argument index) fun k' ks' =>
        R ks' (k.substitute argument index) k')
    (ok : D.Ok ks) (hc : c.Annotated (Pre ks)) :
    Yields D ks (c.substKind argument) fun c' ks' =>
      Alike (R ks') (c.kindSubstituted argument) c' := by
  refine H.rebuildM (fun d k h => ?_) (fun {ks d k} ok hk => hsubst d.kind ok hk) ok hc
  exact Kind.mapVars_of_hasBVar h 0

/-- Shifting kinds in the store does, up to the relation, what it does without a store. -/
def Shifts (D : Discipline KindStore) (Pre : KindStore → Kind → Prop)
    (R : KindStore → Kind → Kind → Prop) : Prop :=
  ∀ {ks k} (amount cutoff : Nat), D.Ok ks → Pre ks k →
    Yields D ks (KindStore.lift k amount cutoff) fun k' ks' => R ks' (k.shift amount cutoff) k'

theorem Relates.liftKinds (H : Relates D Pre R) (hlift : Shifts D Pre R) (amount : Nat)
    (ok : D.Ok ks) (hc : c.Annotated (Pre ks)) :
    Yields D ks (c.liftKinds amount) fun c' ks' =>
      Alike (R ks') (c.traverse (fun _ i => .bvar i) (fun d k => k.shift amount d.kind) Depth.zero)
        c' := by
  unfold Con.liftKinds
  split
  next h =>
    subst h
    refine Yields.pure ok (H.kept hc ?_)
    exact traverse_eq_self Depth.zero Depth.zero (Nodes.of_forall fun _ _ => by simp)
  next =>
    refine H.rebuildM (fun d k h => ?_) (fun {ks d k} ok hk => hlift amount d.kind ok hk) ok hc
    exact Kind.mapVars_of_hasBVar h 0

/-! ## Weakening -/

theorem lift_eq_traverse (c : Con) (amount : Nat) :
    c.lift amount = c.traverse (weakenVar ⟨amount, 0⟩) (fun _ k => k) Depth.zero := by
  have hself : ∀ {d : Depth} {c : Con}, c.bound ≤ d.con →
      c.traverse (weakenVar ⟨amount, 0⟩) (fun _ k => k) d = c := by
    intro d c hc
    refine traverse_eq_self d Depth.zero ?_
    rw [← Nat.add_zero d.con, bound_le_add_iff, ← Depth.add_zero d, Nodes.shift] at hc
    refine hc.mono fun e node hnode => ⟨fun i hi => ?_, fun _ _ => rfl⟩
    rw [weakenVar, if_pos (by simpa using hnode i hi)]
  unfold lift liftAbove
  split
  next h =>
    rcases h with rfl | h
    · refine (traverse_eq_self Depth.zero Depth.zero (Nodes.of_forall fun d _ => ?_)).symm
      exact ⟨fun i _ => by simp [weakenVar], fun _ _ => rfl⟩
    · exact (hself h).symm
  next =>
    refine rebuild_eq_traverse (fun d c c' h => ?_) fun d i => ?_
    · split at h
      next hbound =>
        cases h
        exact hself (by simpa using hbound)
      next hbound =>
        split at h
        next i =>
          cases h
          rw [bound_bvar] at hbound
          rw [traverse_bvar, weakenVar, if_neg (by omega)]
        next => cases h
    · split <;> simp

/-- Variables are moved first, then kinds. -/
theorem lift_weakened (c : Con) (depth : Depth) :
    (c.lift depth.con).traverse (fun _ i => .bvar i) (fun d k => k.shift depth.kind d.kind)
      Depth.zero = c.weakened depth := by
  rw [lift_eq_traverse]
  exact traverse_traverse Depth.zero Depth.zero Depth.zero Depth.zero
    (Nodes.of_forall fun _ _ _ _ => rfl) fun _ _ => rfl

theorem Relates.weaken (H : Relates D Pre R) (hlift : Shifts D Pre R) (depth : Depth) (ok : D.Ok ks)
    (hc : c.Annotated (Pre ks)) :
    Yields D ks (c.weaken depth) fun c' ks' => Alike (R ks') (c.weakened depth) c' := by
  have hlifted : (c.lift depth.con).Annotated (Pre ks) := by
    rw [lift_eq_traverse]
    exact hc.traverse (fun _ _ => .bvar _) (fun _ _ hk => hk) _
  refine (H.liftKinds hlift depth.kind ok hlifted).mono fun c' ks' _ _ h => ?_
  rwa [lift_weakened] at h

/-! ## Instantiation -/

theorem Relates.instantiate (H : Relates D Pre R) (hlift : Shifts D Pre R) {spine : List Con}
    (ok : D.Ok ks) (hc : c.Annotated (Pre ks)) (hspine : ∀ a ∈ spine, a.Annotated (Pre ks)) :
    Yields D ks (c.instantiate spine) fun c' ks' => Alike (R ks') (c.instantiated spine) c' := by
  unfold Con.instantiate
  split
  next h =>
    refine Yields.pure ok (H.kept hc ?_)
    rcases h with h | h
    · rw [List.isEmpty_iff.mp h, instantiated_nil]
    · exact instantiatedAt_of_bound (Nat.le_of_eq h)
  next =>
  have haround : ∀ {ks ks'}, D.Ok ks' → D.Grows ks ks' → (∀ a ∈ spine, a.Annotated (Pre ks)) →
      ∀ a ∈ spine, a.Annotated (Pre ks') :=
    fun ok grows h a ha => (h a ha).mono fun _ hk => H.pre_grows ok grows hk
  refine (relating_pass H haround (fun {ks d c} ok hspine hc => ?_) fun ok hk =>
    Yields.pure ok (H.refl hk)).rebuildM_yields c ok ⟨hc, hspine⟩
  split
  next hbound => exact Yields.pure ok (H.kept hc (instantiatedAt_of_bound hbound))
  next hbound =>
    split
    next i =>
      rw [bound_bvar] at hbound
      have hi : d.con ≤ i := by omega
      split
      next argument hget =>
        have hmem : argument ∈ spine := List.mem_reverse.mp (List.mem_of_getElem? hget)
        refine Yields.map ok
          ((H.weaken hlift d ok (hspine argument hmem)).mono fun c' ks' _ _ h => ?_)
        rw [← spineVar_of_some hi hget] at h
        exact h
      next hget => exact Yields.pure ok (H.kept (.bvar _) (spineVar_of_none hi hget))
    next hne => exact Yields.pure ok fun i hi => hne i hi

/-- Substitution is instantiation with a spine of one constructor. -/
theorem subst_eq_instantiate (body argument : Con) :
    body.subst argument = body.instantiate [argument] := by
  unfold Con.subst Con.instantiate
  simp only [List.isEmpty_cons, Bool.false_eq_true, false_or]
  split
  · rfl
  congr 1
  funext d c
  split
  next => rfl
  next hbound =>
    cases c with
    | bvar i =>
      rw [bound_bvar] at hbound
      by_cases hi : i = d.con
      · simp [hi]
      · have hget : [argument].reverse[i - d.con]? = none := by
          simp only [List.reverse_singleton, List.getElem?_eq_none_iff, List.length_singleton]
          omega
        simp only [if_neg hi, hget]
        rfl
    | _ => rfl

end Passes

/-! ## Sound constructors -/

section Sound

variable {layout : Layout} {store : Store}

theorem bvar_sound (i : Nat) : (Con.bvar i).Sound layout store :=
  .intro ⟨by simp, by simp, by simp [annotations], trivial⟩ (by simp [parts])

private theorem kind_bvar_sound (size i : Nat) : (Kind.bvar i).Sound size :=
  .intro ⟨by simp, by simp⟩ (by simp [Kind.parts])

theorem Sound.weakened {c : Con} (hc : c.Sound layout store) (d : Depth) :
    (c.weakened d).Sound layout store :=
  hc.traverse (fun _ _ => bvar_sound _)
    (fun _ _ hk => hk.mapVars (fun _ _ => kind_bvar_sound _ _) 0) _

theorem Sound.instantiated {c : Con} {spine : List Con} (hc : c.Sound layout store)
    (hspine : ∀ a ∈ spine, a.Sound layout store) : (c.instantiated spine).Sound layout store := by
  refine hc.traverse (fun d i => ?_) (fun _ _ hk => hk) _
  unfold spineVar
  split
  · exact bvar_sound _
  · split
    next argument hget =>
      exact (hspine argument (List.mem_reverse.mp (List.mem_of_getElem? hget))).weakened d
    next => exact bvar_sound _

theorem Sound.kindSubstituted {c : Con} {argument : Kind} (hc : c.Sound layout store)
    (hargument : argument.Sound store.kinds.vars.size) :
    (c.kindSubstituted argument).Sound layout store := by
  refine hc.traverse (fun _ _ => bvar_sound _) (fun d k hk => hk.mapVars (fun e i => ?_) 0) _
  unfold Kind.substVar
  split
  · exact hargument.mapVars (fun _ _ => kind_bvar_sound _ _) 0
  · exact kind_bvar_sound _ _

theorem relates_reads : Relates KindStore.discipline (fun ks k => k.Sound ks.vars.size)
    KindStore.Reads where
  pre_grows _ grows h := h.mono grows.size
  grows _ grows h := h.grows grows
  refl := .refl

private theorem Sound.annotated {ks : KindStore} {c : Con}
    (hc : c.Sound layout (store.withKinds ks)) : c.Annotated fun k => k.Sound ks.vars.size :=
  All.mono hc fun _ hnode => hnode.kinds

theorem substKind_yields {c : Con} {argument : Kind} {ks : KindStore} (ok : ks.WellFormed)
    (hc : c.Sound layout (store.withKinds ks)) (hargument : argument.Sound ks.vars.size) :
    Yields KindStore.discipline ks (c.substKind argument) fun c' ks' =>
      Alike ks'.Reads (c.kindSubstituted argument) c' := by
  have H : Relates KindStore.discipline
      (fun ks k => k.Sound ks.vars.size ∧ argument.Sound ks.vars.size) KindStore.Reads :=
    ⟨fun _ grows h => ⟨h.1.mono grows.size, h.2.mono grows.size⟩, fun _ grows h => h.grows grows,
      fun h => .refl h.1⟩
  exact H.substKind (fun index ok h => KindStore.subst_yields index ok h.1 h.2) ok
    (hc.annotated.mono fun _ hk => ⟨hk, hargument⟩)

theorem instantiate_yields {c : Con} {spine : List Con} {ks : KindStore} (ok : ks.WellFormed)
    (hc : c.Sound layout (store.withKinds ks))
    (hspine : ∀ a ∈ spine, a.Sound layout (store.withKinds ks)) :
    Yields KindStore.discipline ks (c.instantiate spine) fun c' ks' =>
      Alike ks'.Reads (c.instantiated spine) c' :=
  relates_reads.instantiate (fun amount cutoff ok hk =>
    KindStore.lift_yields amount cutoff ok hk) ok
    hc.annotated fun a ha => (hspine a ha).annotated

theorem subst_yields {body argument : Con} {ks : KindStore} (ok : ks.WellFormed)
    (hbody : body.Sound layout (store.withKinds ks))
    (hargument : argument.Sound layout (store.withKinds ks)) :
    Yields KindStore.discipline ks (body.subst argument) fun c' ks' =>
      Alike ks'.Reads (body.instantiated [argument]) c' := by
  rw [subst_eq_instantiate]
  exact instantiate_yields ok hbody (by simpa using hargument)

end Sound

end Con

end RowML
