import RowML.Proofs.Elaboration.Steps
import RowML.Proofs.Kind.Final
import RowML.Proofs.Store.Journal

/-!
# The kinds of a store

What is computed with a store reaches its kinds only through operations on these, each of them
closing every snapshot that it opens, so that no cycle of links arises.  Reading constructors
shortens chains of links and nothing more; closing them gives defaults in addition, and then their
annotations have their final form.
-/

namespace RowML

namespace Store

variable {store store' : Store} {α : Type}

/-! ## Following solutions -/

section Following

variable {R : Store → Store → Prop} [IsPreorder Store R]
  (hkinds : ∀ {β : Type} {x : KindM β}, KindStore.OnlyFollows x → Within R (onKinds x))
  (hset : ∀ (id : MetaId) (solution : Option Con), Within R (setSolution id solution))
include hkinds hset

/-- Following solutions sets solutions, and follows links of kinds in what it answers. -/
private theorem resolve_within (c : Con) : Within R (resolve c) := by
  suffices hwithin : ∀ n c, Within R (resolveWithin n c) from
    fun store store' heffect => hwithin store.cells.size c store store' heffect
  intro n
  induction n with
  | zero =>
    intro c
    have hrun : resolveWithin 0 c = pure c := by cases c <;> rfl
    rw [hrun]
    exact .pure c
  | succ n ih =>
    intro c
    cases c with
    | mvar id spine =>
      unfold resolveWithin
      refine .bind (.still fun h => h.symm) fun store => ?_
      split
      · exact .pure _
      · refine .bind (ih _) fun final => ?_
        have hread : Within R (onKinds (final.instantiate spine)) :=
          hkinds fun hresolve => final.instantiate_throughout hresolve spine
        simp only
        split
        · exact .bind (hset id _) fun _ => hread
        · exact hread
    | _ => exact .pure _

end Following

/-! ## Runs of operations on kinds -/

/-- What happens to the kinds is made up of operations on kinds. -/
def RunsKinds (store store' : Store) : Prop := store.kinds.Runs store'.kinds

instance : IsPreorder Store RunsKinds where
  refl store := .refl store.kinds
  trans _ _ _ := .trans

private theorem runsKinds_of_eq (h : store'.kinds = store.kinds) : store.RunsKinds store' := by
  rw [RunsKinds, h]
  exact .refl _

private theorem onKinds_runs {x : KindM α} (h : Throughout KindStore.Orderly x) :
    Within RunsKinds (onKinds x) := by
  rintro store _ rfl
  have h : KindStore.Orderly α (liftM x) := h
  exact h.runs (a := (x.run store.kinds).1) rfl

private theorem setSolution_runs (id : MetaId) (solution : Option Con) :
    Within RunsKinds (setSolution id solution) := by
  rintro store _ rfl
  exact runsKinds_of_eq rfl

private theorem assign_runs (id : MetaId) (solution : Con) :
    Within RunsKinds (assign id solution).run := by
  intro store store' heffect
  have heffect : ((assign id solution).run.run store).2 = store' := heffect
  rw [assign_run] at heffect
  cases hsolution : store.solution? id <;> rw [hsolution] at heffect <;> subst heffect <;>
    exact runsKinds_of_eq rfl

theorem Composed.runsKinds {x : FuelM α} (h : Composed α x) : Within RunsKinds x := by
  induction h with
  | pure a => exact .pure a
  | bind _ _ ihx ihf => exact .bind ihx ihf
  | outOfFuel => exact within_outOfFuel
  | read _ _ ih => exact fun s s' heffect => ih s s s' heffect
  | resolve c =>
    exact within_fuelled (resolve_within
      (fun hx => onKinds_runs (hx KindStore.Orderly.resolve)) setSolution_runs c)
  | assign id solution => exact within_fuelled (assign_runs id solution)
  | freshWithSpine | freshSkolem =>
    refine within_fuelled ?_
    rintro store _ rfl
    exact runsKinds_of_eq rfl
  | kinds hx =>
    rintro store store' ⟨a, heffect⟩
    obtain ⟨r, hrun, hr⟩ := Option.map_eq_some_iff.mp heffect
    cases hr
    exact hx.runs hrun
  | speculate _ keep ih =>
    rintro store store' ⟨a, heffect⟩
    obtain ⟨store₁, hrun, rfl⟩ := speculate_eq_some heffect
    have hruns : store.kinds.opened.Runs store₁.kinds := ih _ _ ⟨a, hrun⟩
    split
    · exact KindStore.Runs.committed hruns
    · exact KindStore.Runs.rolledBack hruns

/-! ## Reading and closing -/

/-- The second store has the same skolems and knows all that the first one knows of kinds, if the
links of these have no cycle. -/
def Closes (store store' : Store) : Prop :=
  store'.skolems = store.skolems ∧
    (store.kinds.Acyclic → store'.kinds.Acyclic ∧ store.kinds.Learns store'.kinds)

instance : IsPreorder Store Closes where
  refl _ := ⟨rfl, fun acyclic => ⟨acyclic, .refl _⟩⟩
  trans _ _ _ h h' := ⟨h'.1.trans h.1, fun acyclic =>
    have ⟨acyclic', learns⟩ := h.2 acyclic
    have ⟨acyclic'', learns'⟩ := h'.2 acyclic'
    ⟨acyclic'', learns.trans learns'⟩⟩

private theorem onKinds_closes {x : KindM α} (hx : KindStore.OnlyFollows x) :
    Within Closes (onKinds x) := by
  rintro store _ rfl
  refine ⟨rfl, fun acyclic => ?_⟩
  have hchains := (hx.again (.refl acyclic)).2
  exact ⟨hchains.acyclic.2, hchains.learns⟩

private theorem setSolution_closes (id : MetaId) (solution : Option Con) :
    Within Closes (setSolution id solution) := by
  rintro store _ rfl
  exact ⟨rfl, fun acyclic => ⟨acyclic, .refl _⟩⟩

instance : Following fun _ x => Within Closes x where
  pure a := .pure a
  bind hx hf := .bind hx hf
  outOfFuel := within_outOfFuel
  resolve c := within_fuelled (resolve_within onKinds_closes setSolution_closes c)
  kinds hx := within_fuelled (onKinds_closes hx)

/-- The discipline of closing kinds. -/
private def closing : Discipline KindStore where
  Ok := KindStore.Acyclic
  Grows := KindStore.Learns
  refl store _ := .refl store
  trans _ _ _ := .trans

private theorem closes_of_yields {x : Fuelled KindStore α}
    (h : ∀ {kinds : KindStore}, kinds.Acyclic → Yields closing kinds x fun _ _ => True) :
    Within Closes (onKindsFuelled x) := by
  rintro store store' ⟨a, heffect⟩
  obtain ⟨r, hrun, hr⟩ := Option.map_eq_some_iff.mp heffect
  cases hr
  refine ⟨rfl, fun acyclic => ?_⟩
  obtain ⟨acyclic', learns, -⟩ := h acyclic _ _ (exec_of_run hrun)
  exact ⟨acyclic', learns⟩

private theorem default_yields {kinds : KindStore} (acyclic : kinds.Acyclic)
    (fuel : Nat) (k : Kind) :
    Yields closing kinds (KindStore.defaultUnsolved fuel k) fun k' kinds' =>
      ∀ {later : KindStore}, kinds'.Learns later → later.Acyclic → k' = later.final k := by
  intro r kinds' hexec
  obtain ⟨⟨k', kinds''⟩, hrun, hr⟩ := Option.map_eq_some_iff.mp hexec
  cases hr
  obtain ⟨learns, hfinal⟩ := acyclic.defaultUnsolved_final hrun
  refine ⟨acyclic.defaulted hrun, learns, ?_⟩
  rintro _ ⟨⟩
  exact hfinal

/-- Zonking and defaulting give the final form of an annotation. -/
private theorem closeAnnotation_yields {kinds : KindStore} (acyclic : kinds.Acyclic) (fuel : Nat)
    (k : Kind) :
    Yields closing kinds
      (do KindStore.defaultUnsolved fuel (← KindStore.zonk k) : Fuelled KindStore Kind)
      fun k' kinds' => ∀ {later : KindStore}, kinds'.Learns later → later.Acyclic →
        k' = later.final k := by
  have hchains := (KindStore.OnlyFollows.again (fun hr => KindStore.zonk_throughout hr k)
    (.refl acyclic)).2
  have hrun : exec (liftM (KindStore.zonk k) : Fuelled KindStore Kind) kinds =
      some (some (kinds.expand k), ((KindStore.zonk k).run kinds).2) := by
    rw [← acyclic.zonk_eq k]
    rfl
  refine Yields.next hrun acyclic hchains.acyclic.2 hchains.learns ?_
  refine (default_yields hchains.acyclic.2 fuel _).mono fun k' kinds' _ learns hfinal => ?_
  intro later learns' acyclic'
  rw [hfinal learns' acyclic']
  exact acyclic.final_expand (hchains.learns.trans (learns.trans learns')) acyclic' k

/-- What closing makes of a constructor: no kind metavariable is left, and annotations that are
changed have their final form. -/
private def closed : Con.PassSpec KindStore where
  Pre _ _ _ := True
  KindPre _ _ _ := True
  Enters _ _ _ := True
  Post kinds _ c c' := c'.has .kindMVar = false ∧
    ∀ {later : KindStore}, kinds.Learns later → later.Acyclic → c.Alike later.Keeps c'
  KindPost kinds _ k k' := ∀ {later : KindStore}, kinds.Learns later → later.Acyclic →
    k' = later.final k

private theorem defaultKinds_yields {kinds : KindStore} (acyclic : kinds.Acyclic) (fuel : Nat)
    (c : Con) : Yields closing kinds (c.defaultKinds fuel) fun c' kinds' =>
      c'.has .kindMVar = false ∧
        ∀ {later : KindStore}, kinds'.Learns later → later.Acyclic → c.Alike later.Keeps c' := by
  have pass : Con.Pass closing closed
      (fun _ node => pure (if node.has .kindMVar then none else some node))
      (fun _ k => do
        KindStore.defaultUnsolved fuel (← (KindStore.zonk k : Fuelled KindStore Kind))) :=
    { pre_grows := fun _ _ _ => trivial
      kindPre_grows := fun _ _ _ => trivial
      enters_grows := fun _ _ _ => trivial
      post_grows := fun _ learns h => ⟨h.1, fun learns' => h.2 (learns.trans learns')⟩
      kindPost_grows := fun _ learns h _ learns' => h (learns.trans learns')
      pre_part := fun _ _ => trivial
      pre_kind := fun _ _ => trivial
      node_yields := by
        intro kinds d c acyclic _
        refine Yields.pure acyclic ?_
        split
        next => trivial
        next hhas =>
          exact ⟨by simpa using hhas, fun _ _ => .refl (Con.Annotated.of_forall fun _ => .inl rfl)⟩
      kind_yields := fun acyclic _ => closeAnnotation_yields acyclic fuel _
      close := by
        intro kinds d c c' acyclic _ _ related
        refine ⟨Con.has_iff_parts.mpr ⟨?_, ?_⟩, fun learns acyclic' => .of_forall₂ related.frame
          (related.annotations.imp fun _ _ h => .inr (h learns acyclic'))
          (related.parts.imp fun _ _ h => h.2 learns acyclic')⟩
        · refine List.any_eq_false.mpr (Con.forall_mem_of_forall₂ related.annotations ?_)
          intro k k' _ hk
          rw [hk (.refl kinds) acyclic]
          simp [Kind.hasMVar, KindStore.mvars_final]
        · exact Con.forall_mem_of_forall₂ related.parts fun _ _ _ h => h.1 }
  exact pass.rebuildM_yields c acyclic trivial

/-- The constructor is left alone or closed, and what is left of its annotations are final forms. -/
theorem defaultKinds_alike {fuel : Nat} {c c' : Con}
    (h : onKindsFuelled (c.defaultKinds fuel) store = some (c', store'))
    (acyclic : store.kinds.Acyclic)
    {later : Store} (closes : store'.Closes later) : c.Alike later.kinds.Keeps c' := by
  obtain ⟨⟨c', kinds⟩, hrun, hr⟩ := Option.map_eq_some_iff.mp h
  cases hr
  obtain ⟨acyclic', -, hclosed⟩ := defaultKinds_yields acyclic fuel c _ _ (exec_of_run hrun)
  obtain ⟨acyclic'', learns⟩ := closes.2 acyclic'
  exact (hclosed c' rfl).2 learns acyclic''

theorem defaultKinds_kindMVar {fuel : Nat} {c c' : Con}
    (h : onKindsFuelled (c.defaultKinds fuel) store = some (c', store'))
    (acyclic : store.kinds.Acyclic) : c'.has .kindMVar = false := by
  obtain ⟨⟨c', kinds⟩, hrun, hr⟩ := Option.map_eq_some_iff.mp h
  cases hr
  obtain ⟨-, -, hclosed⟩ := defaultKinds_yields acyclic fuel c _ _ (exec_of_run hrun)
  exact (hclosed c' rfl).1

theorem Closing.closes {x : FuelM α} (h : Closing x) : Within Closes x := by
  cases h with
  | zonkKind kind =>
    exact within_fuelled (onKinds_closes fun hresolve => KindStore.zonk_throughout hresolve kind)
  | defaultKind fuel kind =>
    exact closes_of_yields fun acyclic => (default_yields acyclic fuel kind).mono
      fun _ _ _ _ _ => trivial
  | defaultKinds fuel c =>
    exact closes_of_yields fun acyclic =>
      (defaultKinds_yields acyclic fuel c).mono fun _ _ _ _ _ => trivial
  | zonk fuel c => exact zonk_throughout (P := fun _ x => Within Closes x) fuel c
  | unsolvedMVars fuel c =>
    exact unsolvedMVars_throughout (P := fun _ x => Within Closes x) fuel c

end Store

end RowML
