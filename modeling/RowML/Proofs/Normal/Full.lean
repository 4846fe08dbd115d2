import RowML.Normal.Full
import RowML.Proofs.Constructor.Children
import RowML.Proofs.Kind.Zonk
import RowML.Proofs.Normal.Form
import RowML.Proofs.Unify.Composition

/-!
# Normal forms stay

A constructor is in normal form if every node of it is in head normal form and its kinds are spelled
out.  Normalization answers with normal forms, and from a normal form it comes to an end at once and
changes nothing.  So both reductions are idempotent where no solution is a variable.
-/

namespace RowML

open RowML.Con

variable {globals : Globals} {store store' : Store} {c : Con}

namespace Store

/-! ## What is learnt of kinds -/

/-- Every run of the computation condenses the store of kinds. -/
def Condensing (α : Type) (x : FuelM α) : Prop :=
  ∀ s a s', x s = some (a, s') → s.kinds.Condenses s'.kinds

private theorem onKinds_condenses {α : Type} {x : KindM α} (h : KindStore.OnlyFollows x)
    (store : Store) : store.kinds.Condenses (x.run store.kinds).2 :=
  .of_run (h KindStore.resolve_condensing) store.kinds

private theorem resolveWithin_condenses (n : Nat) (c : Con) (store : Store) :
    store.kinds.Condenses ((resolveWithin n c).run store).2.kinds := by
  induction n generalizing c with
  | zero =>
    have hrun : resolveWithin 0 c = pure c := by cases c <;> rfl
    rw [hrun]
    exact .refl _
  | succ n ih =>
    by_cases hunsolved : store.HeadUnsolved c
    · rw [resolveWithin_unsolved hunsolved]
      exact .refl _
    · simp only [HeadUnsolved] at hunsolved
      push Not at hunsolved
      obtain ⟨i, spine, rfl, hsolved⟩ := hunsolved
      have hsolved : store.isSolved i = true := by simpa using hsolved
      obtain ⟨target, hi⟩ := Option.isSome_iff_exists.mp hsolved
      rw [resolveWithin_solved n spine hi]
      have hnext := ih target
      generalize (resolveWithin n target).run store = next at hnext ⊢
      simp only
      refine KindStore.Condenses.trans ?_
        (onKinds_condenses (fun hresolve => instantiate_throughout hresolve next.1 spine) _)
      split
      · rwa [kinds_put]
      · exact hnext

instance : Following Condensing where
  pure a s b s' h := by
    cases h
    exact .refl _
  bind {α β x f} hx hf s b s'' h := by
    obtain ⟨⟨a, s'⟩, hx', hf'⟩ := Option.bind_eq_some_iff.mp h
    exact (hx s a s' hx').trans (hf a s' b s'' hf')
  outOfFuel s a s' h := by cases h
  resolve c s a s' h := by
    obtain rfl : ((resolveWithin s.cells.size c).run s).2 = s' :=
      congrArg Prod.snd (Option.some.inj h)
    exact resolveWithin_condenses s.cells.size c s
  kinds {α x} hx s a s' h := by
    cases h
    exact onKinds_condenses hx s

/-- The discipline of computations that solve nothing, neither constructors nor kinds, where
solutions imitate. -/
def condensation : Discipline Store where
  Ok store := imitation.Ok store ∧ store.kinds.Acyclic
  Grows store store' := store.Compresses store' ∧ store.kinds.Condenses store'.kinds
  refl store ok := ⟨imitation.refl store ok.1, .refl _⟩
  trans _ _ _ h h' := ⟨h.1.trans h'.1, h.2.trans h'.2⟩

theorem yields_condensing {α : Type} {x : FuelM α} {Post : α → Store → Prop}
    (h : Throughout Condensing x) (ok : condensation.Ok store)
    (hx : Yields imitation store x Post) :
    Yields condensation store x Post := by
  intro r s' hexec
  obtain ⟨ok', compresses, post⟩ := hx r s' hexec
  obtain ⟨⟨a, s''⟩, hrun, heq⟩ := Option.map_eq_some_iff.mp hexec
  cases heq
  have condenses := h store a s'' hrun
  exact ⟨⟨ok', condenses.acyclic ok.2⟩, ⟨compresses, condenses⟩, post⟩

theorem zonkKind_spells (ok : condensation.Ok store) (k : Kind) :
    Yields condensation store (liftM (onKinds (KindStore.zonk k)) : FuelM Kind) fun k' store' =>
      store'.kinds.Spelled k' := by
  have hzonk : Yields imitation store (liftM (onKinds (KindStore.zonk k)) : FuelM Kind)
      fun k' store' => store'.kinds.Spelled k' := by
    have same : SameCells store (store.withKinds ((KindStore.zonk k).run store.kinds).2) :=
      sameCells_withKinds _ _
    exact .of_exec rfl ⟨same.steady ok.1.1, Imitates.sameCells ok.1.2 same⟩ (.of_sameCells same)
      (KindStore.zonk_spells ok.2 k).2
  have hcondensing : Condensing Kind (liftM (onKinds (KindStore.zonk k))) :=
    Following.kinds fun hresolve => KindStore.zonk_throughout hresolve k
  exact yields_condensing hcondensing ok hzonk

end Store

/-! ## Normal forms -/

/-- Every node is in head normal form, and the kinds are spelled out. -/
def Con.NormalForm (globals : Globals) (store : Store) (c : Con) : Prop :=
  c.All fun node => HeadForm globals store node ∧ ∀ k ∈ node.annotations, store.kinds.Spelled k

theorem Con.NormalForm.grows (h : c.NormalForm globals store)
    (grows : Store.condensation.Grows store store') : c.NormalForm globals store' :=
  h.mono fun _ hnode => ⟨hnode.1.compresses grows.1, fun k hk => (hnode.2 k hk).condenses grows.2⟩

/-- A node with the frame of one that fits, over parts that fit. -/
theorem Con.Fits.of_parallel {kinds : Kind → Kind → Prop} {c' : Con} (hc : c.NodeFits store)
    (h : Parallel kinds (fun _ p' => p'.Fits store) c c') : c'.Fits store :=
  .intro (hc.of_frame h.frame) (forall_mem_of_forall₂ h.parts fun _ _ _ hp => hp)

/-- Normalization answers with normal forms. -/
theorem normalize_form (n : Nat) (ok : Store.condensation.Ok store) (hg : globals.Fits store)
    (hc : c.Fits store) :
    Yields Store.condensation store (normalize globals n c) fun r store' =>
      r.NormalForm globals store' ∧ r.Fits store' := by
  induction n generalizing store c with
  | zero => exact Yields.of_none rfl
  | succ n ih =>
    unfold normalize
    have hhead := Store.yields_condensing (headNormal_throughout n c) ok
      ((headNormal_form n ok.1 hg hc).and (headNormal_keeps n ok.1.1 hg hc))
    refine Yields.bind ok hhead ?_
    rintro head store₁ ok₁ grows₁ ⟨hform, hfits⟩
    have hg₁ := hg.evolves grows₁.1.toEvolves
    have hchildren := mapChildrenM_yields (f := normalize globals n) (c := head) ok₁
      (K := fun _ k' s => s.kinds.Spelled k')
      (Q := fun _ p' s => p'.NormalForm globals s ∧ p'.Fits s)
      (fun _ grows h => h.condenses grows.2)
      (fun _ grows h => ⟨h.1.grows grows, h.2.evolves grows.1.toEvolves⟩)
      (fun k _ s' ok' _ => Store.zonkKind_spells ok' k)
      fun p hp s' ok' grows => ih ok' (hg₁.evolves grows.1.toEvolves)
        ((hfits.part hp).evolves grows.1.toEvolves)
    refine Yields.bind ok₁ hchildren ?_
    intro rebuilt store₂ ok₂ grows₂ parallel
    have hfits₂ := hfits.evolves grows₂.1.toEvolves
    split
    next heq =>
      subst heq
      refine Yields.pure ok₂ ⟨.intro ⟨hform.compresses grows₂.1, ?_⟩ ?_, hfits₂⟩
      · exact forall_mem_of_forall₂ parallel.annotations fun _ _ _ hk => hk
      · exact forall_mem_of_forall₂ parallel.parts fun _ _ _ hp => hp.1
    next =>
      have hrebuilt : rebuilt.Fits store₂ := .of_parallel hfits₂.top
        ⟨parallel.frame, parallel.annotations, parallel.parts.imp fun _ _ h => h.2⟩
      exact ih ok₂ (hg₁.evolves grows₂.1.toEvolves) hrebuilt

/-! ## Idempotence -/

/-- A bound for each of finitely many things is exceeded by one bound for all. -/
private theorem exists_common_bound {α : Type} {P : α → Nat → Prop} {xs : List α}
    (h : ∀ x ∈ xs, ∃ n, ∀ m, n ≤ m → P x m) : ∃ n, ∀ m, n ≤ m → ∀ x ∈ xs, P x m := by
  induction xs with
  | nil => exact ⟨0, by simp⟩
  | cons x xs ih =>
    obtain ⟨hx, hxs⟩ := List.forall_mem_cons.mp h
    obtain ⟨n, hn⟩ := hx
    obtain ⟨n', hn'⟩ := ih hxs
    exact ⟨max n n', fun m hm => List.forall_mem_cons.mpr
      ⟨hn m (le_of_max_le_left hm), hn' m (le_of_max_le_right hm)⟩⟩

theorem Con.HeadForm.run (h : HeadForm globals store c) :
    ∃ n, ∀ m, n ≤ m → headNormal globals m c store = some (c, store) := by
  obtain ⟨n, a, s', hrun, -, rfl, rfl⟩ := h.stays.1
  exact ⟨n, fun m hm => run_of_exec (hrun m hm)⟩

theorem Con.NormalForm.run (h : c.NormalForm globals store) :
    ∃ n, ∀ m, n ≤ m → normalize globals m c store = some (c, store) := by
  induction h with
  | @intro c hnode _ ih =>
    obtain ⟨hform, hkinds⟩ := hnode
    obtain ⟨n, hhead⟩ := hform.run
    obtain ⟨n', hparts⟩ := exists_common_bound ih
    refine ⟨max n n' + 1, fun m hm => ?_⟩
    obtain ⟨m, rfl⟩ : ∃ k, m = k + 1 := ⟨m - 1, by omega⟩
    have hchildren : exec (c.mapChildrenM (normalize globals m)
        fun k => do onKinds (KindStore.zonk k)) store = some (some c, store) := by
      refine exec_mapChildrenM_self (fun k hk => ?_) fun p hp => ?_
      · have hzonk := (hkinds k hk).zonk
        change some (some ((KindStore.zonk k).run store.kinds).1,
          store.withKinds ((KindStore.zonk k).run store.kinds).2) = _
        rw [hzonk]
        rfl
      · exact exec_of_run (hparts m (by omega) p hp)
    refine run_of_exec ?_
    rw [normalize, exec_bind, exec_of_run (hhead m (by omega))]
    simp only [exec_bind, hchildren, if_true, exec_pure]

/-- The head normal form of a head normal form is itself. -/
theorem headNormal_idempotent (ok : Store.imitation.Ok store) (hg : globals.Fits store)
    (hc : c.Fits store) {n : Nat} {r : Con} (h : headNormal globals n c store = some (r, store')) :
    ∃ n', ∀ m, n' ≤ m → headNormal globals m r store' = some (r, store') :=
  ((headNormal_form n ok hg hc _ _ (exec_of_run h)).2.2 r rfl).run

theorem normalize_idempotent (ok : Store.condensation.Ok store) (hg : globals.Fits store)
    (hc : c.Fits store) {n : Nat} {r : Con} (h : normalize globals n c store = some (r, store')) :
    ∃ n', ∀ m, n' ≤ m → normalize globals m r store' = some (r, store') :=
  ((normalize_form n ok hg hc _ _ (exec_of_run h)).2.2 r rfl).1.run

end RowML
