import RowML.Proofs.Store.KindCommutation
import RowML.Proofs.Store.Plain

/-!
# The algebra of shifting and substitution

Lifting, strengthening and substitution are traversals that differ in what they do at a variable, so
their laws are decided at the variables.  What a substitution puts there has to be moved under
binders of both sorts; moving it under kind binders follows solved kind metavariables, and leaves
the constructor variables where they are.
-/

namespace RowML

namespace Con

/-! ## Lifting -/

section Lifting

/-- A variable under `depth` binders after a shift by `amount` above a cutoff. -/
def raiseVar (amount cutoff : Nat) (depth : Depth) (i : Nat) : Con :=
  .bvar (if cutoff + depth.con ≤ i then i + amount else i)

theorem liftAbove_eq_traverse (c : Con) (amount cutoff : Nat) :
    c.liftAbove amount cutoff = c.traverse (raiseVar amount cutoff) (fun _ k => k) Depth.zero := by
  rw [liftAbove_eq_plain]
  rfl

theorem lift_lift (c : Con) (n m : Nat) : (c.lift n).lift m = c.lift (n + m) := by
  simp only [lift, liftAbove_eq_traverse]
  refine traverse_traverse Depth.zero Depth.zero Depth.zero Depth.zero
    (Nodes.of_forall fun e _ i _ => ?_) fun _ _ => rfl
  simp only [raiseVar, traverse_bvar, Con.bvar.injEq]
  split_ifs <;> omega

/-- Two traversals of which the second takes back what the first does to the variables. -/
theorem traverse_traverse_self {vars vars' : Depth → Nat → Con} {c : Con} (d : Depth)
    (h : Nodes (fun e node => ∀ i, node = .bvar i →
      (vars' (d + e) i).traverse vars (fun _ k => k) (d + e) = .bvar i) Depth.zero c) :
    (c.traverse vars' (fun _ k => k) d).traverse vars (fun _ k => k) d = c := by
  conv_rhs => rw [← traverse_self c Depth.zero]
  exact traverse_traverse d d Depth.zero Depth.zero h fun _ _ => rfl

end Lifting

/-! ## Strengthening -/

section Strengthening

variable {c d : Con} {n : Nat}

/-- A variable under `depth` binders after the `amount` innermost binders around them are gone. -/
def lowerVar (amount : Nat) (depth : Depth) (i : Nat) : Con :=
  .bvar (if i < depth.con then i else i - amount)

/-- The constructor with its free variables shifted down. -/
def lowered (c : Con) (amount : Nat) : Con :=
  c.traverse (lowerVar amount) (fun _ k => k) Depth.zero

theorem lowered_lift (c : Con) (n : Nat) : (c.lift n).lowered n = c := by
  rw [lift, liftAbove_eq_traverse]
  refine traverse_traverse_self Depth.zero (Nodes.of_forall fun e _ i _ => ?_)
  simp only [raiseVar, traverse_bvar, lowerVar, Depth.zero_add, Con.bvar.injEq]
  split_ifs <;> omega

/-- None of the innermost variables is free. -/
def Avoids (n : Nat) (c : Con) : Prop := ∀ i, Free i c → n ≤ i

theorem avoids_iff : c.Avoids n ↔
    Nodes (fun e node => ∀ i, node = .bvar i → e.con ≤ i → n ≤ i - e.con) Depth.zero c := by
  simpa [Avoids] using (nodes_iff_free (P := (n ≤ ·)) (c := c) Depth.zero).symm

theorem lift_lowered (h : c.Avoids n) : (c.lowered n).lift n = c := by
  rw [lift, liftAbove_eq_traverse]
  refine traverse_traverse_self Depth.zero ((avoids_iff.mp h).mono fun e node hnode i hi => ?_)
  have := hnode i hi
  simp only [raiseVar, traverse_bvar, lowerVar, Depth.zero_add, Con.bvar.injEq]
  split_ifs <;> omega

private theorem free_raised {i : Nat} (d : Depth)
    (h : Free i (c.traverse (raiseVar n 0) (fun _ k => k) d)) : d.con ≤ i → n + d.con ≤ i := by
  induction c using inductionOnParts generalizing i d with
  | step c ih =>
    intro hle
    by_cases hbvar : ∃ j, c = .bvar j
    · obtain ⟨j, rfl⟩ := hbvar
      rcases free_iff.mp h with hi | ⟨p, hp, -⟩
      · simp only [traverse_bvar, raiseVar, Con.bvar.injEq] at hi
        split_ifs at hi <;> omega
      · cases hp
    · have hbvar : ∀ j, c ≠ .bvar j := fun j hj => hbvar ⟨j, hj⟩
      rcases free_iff.mp h with hi | ⟨p, hp, hfree⟩
      · exact absurd hi (ne_bvar_of_frame (frame_traverse hbvar) hbvar i)
      · rw [parts_traverse hbvar] at hp
        obtain ⟨q, hq, rfl⟩ := List.mem_map.mp hp
        rw [binders_eq (frame_traverse hbvar)] at hfree
        have := ih q hq _ hfree (by simpa using hle)
        simp only [Depth.add_con] at this
        omega

theorem lift_avoids (c : Con) (n : Nat) : (c.lift n).Avoids n := by
  intro i hi
  rw [lift, liftAbove_eq_traverse] at hi
  simpa using free_raised Depth.zero hi (Nat.zero_le i)

theorem strengthen_of_avoids (h : c.Avoids n) : c.strengthen n = some (c.lowered n) := by
  rw [strengthen_eq_plain]
  refine rebuildM_onVars ((avoids_iff.mp h).mono fun e node hnode i hi => ?_)
  have := hnode i hi
  rw [lowerVar]
  split_ifs
  · rfl
  · omega
  · rfl

/-- What a pass that gives an answer has not met. -/
private def avoiding (n : Nat) : Con.PassSpec Unit where
  Pre _ _ _ := True
  KindPre _ _ _ := True
  Enters _ _ c := ∀ i, c ≠ .bvar i
  Post _ d c _ := Nodes (fun e node => ∀ i, node = .bvar i → e.con ≤ i → n ≤ i - e.con) d c
  KindPost _ _ _ _ := True

theorem avoids_of_strengthen (h : c.strengthen n = some d) : c.Avoids n := by
  rw [strengthen_eq_plain] at h
  have hpass : Pass (m := Option) stateless (avoiding n)
      (Plain.onVars fun depth i =>
        if i < depth.con then some (.bvar i)
        else if i - depth.con < n then none
        else some (.bvar (i - n))) (fun _ k => pure k) :=
    { pre_grows := fun _ _ h => h
      kindPre_grows := fun _ _ h => h
      enters_grows := fun _ _ h => h
      post_grows := fun _ _ h => h
      kindPost_grows := fun _ _ h => h
      pre_part := fun _ _ => trivial
      pre_kind := fun _ _ => trivial
      node_yields := by
        intro s d c _ _
        cases c with
        | bvar i =>
          have hvar : (i < d.con ∨ d.con + n ≤ i) →
              (avoiding n).Hook d (.bvar i) (some (.bvar i)) s :=
            fun h => .intro (by rintro _ ⟨⟩ _; omega) (by simp [parts])
          simp only [Plain.onVars]
          split_ifs
          · exact Yields.pure (m := Option) trivial (hvar (by omega))
          · exact Yields.of_none rfl
          · exact Yields.pure (m := Option) trivial (hvar (by omega))
        | _ => exact Yields.pure trivial (by simp [avoiding, PassSpec.Hook])
      kind_yields := fun _ _ => Yields.pure trivial trivial
      close := by
        intro s d c c' _ _ hc related
        refine .intro (fun i hi => absurd hi (hc i)) fun p hp => ?_
        obtain ⟨j, hj, rfl⟩ := List.getElem_of_mem hp
        obtain ⟨hlength, hget⟩ := List.forall₂_iff_get.mp related.parts
        exact hget j hj (hlength ▸ hj) }
  exact avoids_iff.mpr (((hpass.rebuildM_yields c (s := ()) trivial trivial) _ _
    (congrArg (Option.map fun x => (some x, ())) h)).2.2 d rfl)

/-- Strengthening brings nothing new in. -/
theorem mentions_of_strengthen {v : MetaId} (h : c.strengthen n = some d)
    (hv : d.Mentions v) : c.Mentions v := by
  rw [Con.strengthen_of_avoids (Con.avoids_of_strengthen h)] at h
  cases h
  rcases Con.mentions_traverse hv with hv | ⟨e, i, hv⟩
  · exact hv
  · unfold Con.lowerVar at hv
    split at hv <;> cases hv with
    | part hp _ => cases hp

end Strengthening

/-! ## Moving under kind binders -/

section Kinds

variable {ks ks' : KindStore} {amount : Nat} {c c' : Con} {d : Depth}

/-- The annotations of every part in which a kind variable is written have been shifted in the
store, and the other parts are as they were. -/
inductive KindsLifted (ks : KindStore) (amount : Nat) : Depth → Con → Con → Prop
  | kept {d : Depth} {c : Con} (unwritten : c.has .kindBVar = false) : KindsLifted ks amount d c c
  | lifted {d : Depth} {c c' : Con} (written : c.has .kindBVar = true) (frame : c.frame = c'.frame)
      (annotations : c.annotations.map (fun k => ((KindStore.lift k amount d.kind).run ks).1) =
        c'.annotations)
      (parts : ∀ (i : Nat) (p p' : Con), c.parts[i]? = some p → c'.parts[i]? = some p' →
        KindsLifted ks amount (d + c.binders) p p') : KindsLifted ks amount d c c'

/-- A constructor with other variables. -/
def renamed (r : Depth → Nat → Nat) (d : Depth) (c : Con) : Con :=
  c.traverse (fun e i => .bvar (r e i)) (fun _ k => k) d

theorem has_kindBVar_renamed (r : Depth → Nat → Nat) (e : Depth) (c : Con) :
    (c.renamed r e).has .kindBVar = c.has .kindBVar := by
  induction c using inductionOnParts generalizing e with
  | step c ih =>
    by_cases hbvar : ∃ i, c = .bvar i
    · obtain ⟨i, rfl⟩ := hbvar
      rfl
    · have hbvar : ∀ i, c ≠ .bvar i := fun i hi => hbvar ⟨i, hi⟩
      have hparts : (c.parts.map fun p => (p.renamed r (e + c.binders)).has .kindBVar) =
          c.parts.map (·.has .kindBVar) := List.map_congr_left fun p hp => ih p hp _
      have hany := congrArg (List.any · id) hparts
      simp only [List.any_map, Function.id_comp] at hany
      rw [has_node, has_node .kindBVar c, renamed, parts_traverse hbvar, List.any_map]
      simp only [exhibits, annotations_traverse hbvar, List.map_id']
      exact congrArg _ hany

/-- Shifting kinds does not see the variables. -/
theorem KindsLifted.renamed (h : KindsLifted ks amount d c c') (r : Depth → Nat → Nat) (e : Depth) :
    KindsLifted ks amount d (c.renamed r e) (c'.renamed r e) := by
  induction h generalizing e with
  | kept unwritten => exact .kept ((has_kindBVar_renamed r e _).trans unwritten)
  | @lifted d c c' written frame annotations parts ih =>
    have hbvar : ∀ i, c ≠ .bvar i := by
      rintro i rfl
      cases written
    have hbvar' := ne_bvar_of_frame frame.symm hbvar
    have hframe : (c.renamed r e).frame = c.frame := frame_traverse hbvar
    refine .lifted ((has_kindBVar_renamed r e _).trans written) ?_ ?_ fun i p p' hp hp' => ?_
    · rw [hframe, frame]
      exact (frame_traverse hbvar').symm
    · rw [Con.renamed, Con.renamed, annotations_traverse hbvar, annotations_traverse hbvar',
        List.map_id', List.map_id', annotations]
    · rw [Con.renamed, parts_traverse hbvar, List.getElem?_map, Option.map_eq_some_iff] at hp
      rw [Con.renamed, parts_traverse hbvar', List.getElem?_map, Option.map_eq_some_iff] at hp'
      obtain ⟨q, hq, rfl⟩ := hp
      obtain ⟨q', hq', rfl⟩ := hp'
      rw [binders_eq hframe, ← binders_eq frame]
      exact ih i q q' hq hq' (e + c.binders)

theorem KindsLifted.unique {c'' : Con} (h : KindsLifted ks amount d c c')
    (h' : KindsLifted ks amount d c c'') : c' = c'' := by
  induction h generalizing c'' with
  | kept unwritten =>
    cases h' with
    | kept => rfl
    | lifted written => simp [unwritten] at written
  | @lifted d c c' written frame annotations parts ih =>
    cases h' with
    | kept unwritten => simp [unwritten] at written
    | lifted _ frame' annotations' parts' =>
      refine eq_of_frame (frame.symm.trans frame') (annotations.symm.trans annotations') ?_
      have hlength := length_parts_eq frame
      have hlength' := length_parts_eq frame'
      refine List.ext_getElem (hlength.symm.trans hlength') fun i hi hi' => ?_
      have hget := List.getElem?_eq_getElem (hlength ▸ hi)
      exact ih i _ _ hget (List.getElem?_eq_getElem hi)
        (parts' i _ _ hget (List.getElem?_eq_getElem hi'))

private def liftingKinds (ks : KindStore) (amount : Nat) : Con.PassSpec KindStore where
  Pre _ _ _ := True
  KindPre _ _ _ := True
  Enters _ _ c := c.has .kindBVar = true
  Post _ d c c' := KindsLifted ks amount d c c'
  KindPost _ d k k' := ((KindStore.lift k amount d.kind).run ks).1 = k'

private theorem liftKinds_lifts (same : ks.SameChains ks') (hamount : amount ≠ 0) (c : Con) :
    KindsLifted ks amount Depth.zero c ((c.liftKinds amount).run ks').1 := by
  have hpass : Pass (KindStore.rereading ks) (liftingKinds ks amount)
      (fun _ node => pure (if node.has .kindBVar then none else some node))
      (fun depth k => KindStore.lift k amount depth.kind) :=
    { pre_grows := fun _ _ h => h
      kindPre_grows := fun _ _ h => h
      enters_grows := fun _ _ h => h
      post_grows := fun _ _ h => h
      kindPost_grows := fun _ _ h => h
      pre_part := fun _ _ => trivial
      pre_kind := fun _ _ => trivial
      node_yields := by
        intro s d c ok _
        refine Yields.pure ok ?_
        cases hhas : c.has .kindBVar with
        | true => exact hhas
        | false => exact .kept hhas
      kind_yields := by
        intro s d k ok _
        have hfollows : KindStore.OnlyFollows (KindStore.lift k amount d.kind) :=
          fun hr => KindStore.lift_throughout hr k amount d.kind
        exact (hfollows.yields ok).mono fun _ _ _ _ h => h.symm
      close := by
        intro s d c c' _ _ written related
        refine .lifted written related.frame (map_eq_of_forall₂ related.annotations)
          fun i p p' hp hp' => ?_
        obtain ⟨hi, rfl⟩ := List.getElem?_eq_some_iff.mp hp
        obtain ⟨hi', rfl⟩ := List.getElem?_eq_some_iff.mp hp'
        exact (List.forall₂_iff_get.mp related.parts).2 i hi hi' }
  rw [liftKinds, if_neg hamount]
  exact ((hpass.rebuildM_yields c same trivial) _ _ rfl).2.2 _ rfl

private theorem KindsLifted.zero (d : Depth) (c : Con) : KindsLifted ks 0 d c c := by
  induction c using inductionOnParts generalizing d with
  | step c ih =>
    cases hhas : c.has .kindBVar with
    | false => exact .kept hhas
    | true =>
      refine .lifted hhas rfl (List.map_id' _) fun i p p' hp hp' => ?_
      rw [hp, Option.some.injEq] at hp'
      exact hp' ▸ ih p (List.mem_of_getElem? hp) _

theorem weaken_lifts (same : ks.SameChains ks') (c : Con) (d : Depth) :
    KindsLifted ks d.kind Depth.zero (c.lift d.con) ((c.weaken d).run ks').1 := by
  by_cases hkind : d.kind = 0
  · rw [weaken, hkind]
    exact .zero _ _
  · exact liftKinds_lifts same hkind _

/-- The constructor as it reads under binders, in a store of kinds. -/
def weakenedIn (ks : KindStore) (d : Depth) (c : Con) : Con := ((c.weaken d).run ks).1

/-- Shifting above a cutoff commutes with moving under binders. -/
theorem weakenedIn_liftAbove (acyclic : ks.Acyclic) (c : Con) (n cutoff : Nat) (d : Depth) :
    (c.liftAbove n cutoff).weakenedIn ks d =
      (c.weakenedIn ks d).traverse (raiseVar n cutoff) (fun _ k => k) d := by
  have hlift : (c.liftAbove n cutoff).lift d.con =
      (c.lift d.con).traverse (raiseVar n cutoff) (fun _ k => k) d := by
    simp only [lift, liftAbove_eq_traverse]
    refine traverse_square Depth.zero Depth.zero d Depth.zero (fun e i => ?_) (fun _ _ => rfl)
      Depth.zero c
    simp only [raiseVar, traverse_bvar, Depth.zero_add, Depth.add_con, Con.bvar.injEq]
    split_ifs <;> omega
  have hlifts := weaken_lifts (.refl acyclic) (c.liftAbove n cutoff) d
  rw [hlift] at hlifts
  exact hlifts.unique ((weaken_lifts (.refl acyclic) c d).renamed _ d)

end Kinds

/-! ## Substitution -/

section Substitution

variable {ks ks' : KindStore}

/-- A variable under `depth` binders after `argument` is put for the innermost variable around
them. -/
def substVar (ks : KindStore) (argument : Con) (depth : Depth) (i : Nat) : Con :=
  if i < depth.con then .bvar i
  else if i = depth.con then argument.weakenedIn ks depth
  else .bvar (i - 1)

theorem substVar_of_lt {argument : Con} {depth : Depth} {i : Nat} (h : i < depth.con) :
    substVar ks argument depth i = .bvar i := if_pos h

theorem substVar_self {argument : Con} {depth : Depth} :
    substVar ks argument depth depth.con = argument.weakenedIn ks depth := by
  simp [substVar]

theorem substVar_of_gt {argument : Con} {depth : Depth} {i : Nat} (h : depth.con < i) :
    substVar ks argument depth i = .bvar (i - 1) := by
  rw [substVar, if_neg (by omega), if_neg (by omega)]

/-- The body with `argument` for its innermost variable. -/
def substituted (ks : KindStore) (body argument : Con) : Con :=
  body.traverse (substVar ks argument) (fun _ k => k) Depth.zero

private def substituting (ks : KindStore) (argument : Con) : Con.PassSpec KindStore where
  Pre _ _ _ := True
  KindPre _ _ _ := True
  Enters _ _ c := ∀ i, c ≠ .bvar i
  Post _ d c c' := c.traverse (substVar ks argument) (fun _ k => k) d = c'
  KindPost _ _ k k' := k = k'

/-- Substitution gives the same in all stores with the same chains. -/
theorem subst_run (same : ks.SameChains ks') (body argument : Con) :
    ((body.subst argument).run ks').1 = body.substituted ks argument ∧
      ks.SameChains ((body.subst argument).run ks').2 := by
  have hfollows : KindStore.OnlyFollows (body.subst argument) :=
    fun hr => subst_throughout hr body argument
  refine ⟨?_, (hfollows.yields same _ _ rfl).1⟩
  have hpass : Pass (KindStore.rereading ks) (substituting ks argument)
      (Plain.onVars (Plain.substVar weaken argument)) (fun _ k => pure k) :=
    { pre_grows := fun _ _ h => h
      kindPre_grows := fun _ _ h => h
      enters_grows := fun _ _ h => h
      post_grows := fun _ _ h => h
      kindPost_grows := fun _ _ h => h
      pre_part := fun _ _ => trivial
      pre_kind := fun _ _ => trivial
      node_yields := by
        intro s d c ok _
        cases c with
        | bvar i =>
          refine Yields.map (f := some) ok ?_
          change Yields _ _ _ fun c' _ => substVar ks argument d i = c'
          unfold substVar Plain.substVar
          split_ifs
          · exact Yields.pure ok rfl
          · exact (KindStore.OnlyFollows.yields (fun hr => weaken_throughout hr argument d) ok).mono
              fun _ _ _ _ h => h.symm
          · exact Yields.pure ok rfl
        | _ => exact Yields.pure ok (by simp [substituting, PassSpec.Hook])
      kind_yields := fun ok _ => Yields.pure ok rfl
      close := by
        intro s d c c' _ _ hbvar related
        refine eq_of_frame ((frame_traverse hbvar).trans related.frame) ?_ ?_
        · rw [annotations_traverse hbvar]
          exact map_eq_of_forall₂ related.annotations
        · rw [parts_traverse hbvar]
          exact map_eq_of_forall₂ related.parts }
  rw [subst_eq_replaceM]
  exact (((hpass.rebuildM_yields body same trivial) _ _ rfl).2.2 _ rfl).symm

/-- A constructor without the innermost variable is left alone, whatever the argument. -/
theorem subst_lift (c argument : Con) : (c.lift 1).subst argument = pure c := by
  rw [subst_eq_replaceM, ← congrArg pure (lowered_lift c 1)]
  refine rebuildM_onVars ((avoids_iff.mp (lift_avoids c 1)).mono fun e node hnode i hi => ?_)
  have := hnode i hi
  rw [lowerVar, Plain.substVar]
  split_ifs
  · rfl
  · omega
  · rfl

/-- What has been lifted past a variable does not change when the variable is replaced. -/
theorem traverse_substVar_raised (argument c : Con) (d : Depth) :
    (c.traverse (raiseVar 1 0) (fun _ k => k) d).traverse (substVar ks argument) (fun _ k => k) d =
      c := by
  refine traverse_traverse_self d (Nodes.of_forall fun e _ i _ => ?_)
  rw [raiseVar, traverse_bvar, substVar]
  split_ifs <;> first | omega | rfl

/-- Shifting above a cutoff goes into the body and into the argument. -/
theorem liftAbove_substituted (acyclic : ks.Acyclic) (c a : Con) (n cutoff : Nat) :
    (c.liftAbove n (cutoff + 1)).substituted ks (a.liftAbove n cutoff) =
      (c.substituted ks a).liftAbove n cutoff := by
  rw [liftAbove_eq_traverse c, liftAbove_eq_traverse (c.substituted ks a)]
  refine traverse_square Depth.zero Depth.zero Depth.zero Depth.zero (fun e i => ?_)
    (fun _ _ => rfl) Depth.zero c
  simp only [Depth.zero_add]
  rw [raiseVar, traverse_bvar]
  rcases Nat.lt_trichotomy i e.con with hi | rfl | hi
  · rw [if_neg (by omega), substVar_of_lt hi, substVar_of_lt hi, traverse_bvar, raiseVar,
      if_neg (by omega)]
  · rw [if_neg (by omega), substVar_self, substVar_self, weakenedIn_liftAbove acyclic]
  · rw [substVar_of_gt (by split <;> omega), substVar_of_gt hi, traverse_bvar, raiseVar,
      Con.bvar.injEq]
    split_ifs <;> omega

/-- A variable under `depth` binders after the two innermost variables around them have changed
places. -/
def exchangeVar (depth : Depth) (i : Nat) : Con :=
  .bvar (if i = depth.con then i + 1 else if i = depth.con + 1 then depth.con else i)

/-- The constructor with its two innermost free variables exchanged. -/
def exchanged (c : Con) : Con := c.traverse exchangeVar (fun _ k => k) Depth.zero

/-- What is put for a variable and has been lifted past another one does not see the other one
replaced. -/
private theorem traverse_substVar_self (acyclic : ks.Acyclic) (a b : Con) (e : Depth) :
    (substVar ks (a.lift 1) e e.con).traverse (substVar ks b) (fun _ k => k) e =
      a.weakenedIn ks e := by
  rw [substVar_self, lift, weakenedIn_liftAbove acyclic, traverse_substVar_raised]

/-- The two innermost variables may be replaced in either order. -/
theorem substituted_substituted (acyclic : ks.Acyclic) (c a b : Con) :
    (c.substituted ks (a.lift 1)).substituted ks b =
      (c.exchanged.substituted ks (b.lift 1)).substituted ks a := by
  have hexchanged : c.exchanged.substituted ks (b.lift 1) =
      c.traverse (fun e i => (exchangeVar e i).traverse (substVar ks (b.lift 1)) (fun _ k => k) e)
        (fun _ k => k) Depth.zero :=
    traverse_traverse Depth.zero Depth.zero Depth.zero Depth.zero
      (Nodes.of_forall fun _ _ _ _ => rfl) fun _ _ => rfl
  rw [hexchanged]
  refine traverse_square Depth.zero Depth.zero Depth.zero Depth.zero (fun e i => ?_)
    (fun _ _ => rfl) Depth.zero c
  simp only [Depth.zero_add]
  rw [exchangeVar, traverse_bvar]
  rcases Nat.lt_trichotomy i e.con with hi | rfl | hi
  · rw [if_neg (by omega), if_neg (by omega), substVar_of_lt hi, substVar_of_lt hi, traverse_bvar,
      traverse_bvar, substVar_of_lt hi, substVar_of_lt hi]
  · rw [if_pos rfl, traverse_substVar_self acyclic, substVar_of_gt (Nat.lt_add_one _),
      traverse_bvar, Nat.add_sub_cancel, substVar_self]
  · rw [if_neg (by omega), substVar_of_gt hi, traverse_bvar]
    by_cases hnext : i = e.con + 1
    · rw [if_pos hnext, traverse_substVar_self acyclic, hnext, Nat.add_sub_cancel, substVar_self]
    · rw [if_neg hnext, substVar_of_gt hi, traverse_bvar, substVar_of_gt (by omega),
        substVar_of_gt (by omega)]

end Substitution

/-! ## Results -/

/-- The laws of lifting, strengthening and substitution.  Substitution reads solved kind
metavariables; its laws hold whatever has been read before in the store. -/
theorem shifting_laws {ks : KindStore} (acyclic : ks.Acyclic) (c a b : Con) (n m cutoff : Nat) :
    (c.lift n).strengthen n = some c ∧
    (∀ d, c.strengthen n = some d → d.lift n = c) ∧
    (c.strengthen n = none ↔ ∃ i < n, Free i c) ∧
    (c.lift n).lift m = c.lift (n + m) ∧
    (c.lift 1).subst a = pure c ∧
    ∀ ks', ks.SameChains ks' →
      (((c.subst a).run ks).1).liftAbove n cutoff =
        (((c.liftAbove n (cutoff + 1)).subst (a.liftAbove n cutoff)).run ks').1 ∧
      ((do (← c.subst (a.lift 1)).subst b : KindM Con).run ks).1 =
        ((do (← c.exchanged.subst (b.lift 1)).subst a : KindM Con).run ks').1 ∧
      ks.SameChains ((c.subst a).run ks').2 := by
  have hrefl : ks.SameChains ks := .refl acyclic
  have htwice : ∀ {ks'}, ks.SameChains ks' → ∀ x y z : Con,
      ((do (← x.subst y).subst z : KindM Con).run ks').1 =
        (x.substituted ks y).substituted ks z := by
    intro ks' same x y z
    obtain ⟨hfirst, same'⟩ := subst_run same x y
    have hsecond := (subst_run same' (x.substituted ks y) z).1
    rw [← hfirst] at hsecond ⊢
    exact hsecond
  refine ⟨?_, fun d hd => ?_, ⟨fun hnone => ?_, ?_⟩, lift_lift c n m, subst_lift c a,
    fun ks' same => ⟨?_, ?_, (subst_run same c a).2⟩⟩
  · rw [strengthen_of_avoids (lift_avoids c n), lowered_lift]
  · have havoids := avoids_of_strengthen hd
    rw [strengthen_of_avoids havoids] at hd
    rw [← Option.some.inj hd, lift_lowered havoids]
  · by_contra hfree
    have havoids : c.Avoids n := fun i hi => Nat.le_of_not_lt fun hlt => hfree ⟨i, hlt, hi⟩
    rw [strengthen_of_avoids havoids] at hnone
    cases hnone
  · rintro ⟨i, hlt, hi⟩
    refine Option.eq_none_iff_forall_ne_some.mpr fun d hd => ?_
    exact Nat.not_le_of_lt hlt (avoids_of_strengthen hd i hi)
  · rw [(subst_run hrefl c a).1, (subst_run same _ _).1, liftAbove_substituted acyclic]
  · rw [htwice hrefl, htwice same, substituted_substituted acyclic]

/-- An argument is moved under a kind binder and into a spine; its annotation mentions a kind
metavariable that is solved by a variable. -/
theorem shifting_laws_underKindBinder :
    let c := Con.kabs "k" (.mvar 3 [.abs "x" .type (.app (.bvar 1) (.bvar 2))])
    let a := Con.abs "y" (.arrow (.mvar 0) (.bvar 0)) (.bvar 1)
    let b := Con.label "b"
    ((c.subst a).run linkedToVariable).1 = .kabs "k" (.mvar 3 [.abs "x" .type
      (.app (.abs "y" (.arrow (.bvar 1) (.bvar 1)) (.bvar 2)) (.bvar 1))]) ∧
    (((c.subst a).run linkedToVariable).1).liftAbove 2 1 =
      (((c.liftAbove 2 2).subst (a.liftAbove 2 1)).run linkedToVariable).1 ∧
    ((do (← c.subst (a.lift 1)).subst b : KindM Con).run linkedToVariable).1 =
      ((do (← c.exchanged.subst (b.lift 1)).subst a : KindM Con).run linkedToVariable).1 := by
  intro c a b
  obtain ⟨-, -, -, -, -, hlaws⟩ := shifting_laws acyclic_linkedToVariable c a b 2 0 1
  obtain ⟨hlift, hswap, -⟩ := hlaws linkedToVariable (.refl acyclic_linkedToVariable)
  exact ⟨rfl, hlift, hswap⟩

end Con

end RowML
