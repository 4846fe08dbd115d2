import RowML.Proofs.Kind.Defaults
import RowML.Proofs.Kind.Journal

/-!
# The stores that the operations reach

Unification links a variable only to a kind that it does not occur in, and a rollback leaves the
links that were there before.  So no sequence of operations makes a cycle of links.  What is
demanded of a tuple is beyond the occurs check: a tuple may be made equal to one of its own
components before it has any, and defaulting such a tuple has no end.
-/

namespace RowML

namespace KindStore

variable {store store' : KindStore} {v : KindVar}

/-! ## Unification -/

/-- The discipline of computations that make no cycle. -/
def acyclicity : Discipline KindStore where
  Ok := Acyclic
  Grows _ _ := True
  refl _ _ := trivial
  trans _ _ _ _ _ := trivial

/-- No run of the computation from the store makes a cycle. -/
def StaysAcyclic {m : Type → Type} [Monad m] [Executes m KindStore] {α : Type} (store : KindStore)
    (x : m α) : Prop :=
  Yields acyclicity store x fun _ _ => True

theorem not_linked_put_unbound {u : KindVar} (hu : ¬ store.Linked u) {predicate : KindPredicate}
    {components : List (Nat × Kind)} :
      ¬ (store.put v (.unbound predicate components)).Linked u := by
  rintro ⟨target, htarget⟩
  by_cases hlt : v < store.vars.size
  · rw [stateOf_put hlt] at htarget
    split at htarget
    · cases htarget
    · exact hu ⟨target, htarget⟩
  · rw [stateOf_put_of_le (Nat.le_of_not_lt hlt)] at htarget
    exact hu ⟨target, htarget⟩

/-- An unbound variable mentions only itself. -/
theorem occurs_of_ne {u : KindVar} (hne : v ≠ u) (hu : ¬ store.Linked u) :
    store.occurs v (.mvar u) = false := by
  by_contra hoccurs
  rw [Bool.not_eq_false, occurs_iff] at hoccurs
  obtain ⟨w, hw, hmem⟩ := hoccurs
  obtain rfl : w = u := by simpa [Kind.mvars] using hw
  rw [spelled_of_not_linked hu] at hmem
  exact hne (by simpa [Kind.mvars] using hmem)

section Unify

variable {unify : Kind → Kind → KindUnifyM Unit}
  (H : ∀ a b {store}, Acyclic store → StaysAcyclic store (unify a b))
include H

private theorem forM_staysAcyclic (acyclic : store.Acyclic) (pairs : List (Kind × Kind)) :
    StaysAcyclic store (pairs.forM fun pair => unify pair.1 pair.2) :=
  (Yields.forM (Q := fun _ _ => True) acyclic (fun _ _ _ => trivial)
    fun _ _ _ acyclic' _ => H _ _ acyclic').mono fun _ _ _ _ _ => trivial

theorem solve_staysAcyclic (acyclic : store.Acyclic) (v : KindVar) (target : Kind) :
    StaysAcyclic store (solve unify v target) := by
  refine Yields.read (rfl : exec get store = some (some store, store)) acyclic ?_
  split
  next => exact Yields.pure acyclic trivial
  next predicate components hv =>
    refine Yields.read (rfl : exec get store = some (some store, store)) acyclic ?_
    split
    next => exact Yields.of_failure acyclic rfl
    next hoccurs =>
      split
      next =>
        have acyclic' := acyclic.put_link (not_linked_iff.mpr ⟨_, _, hv⟩)
          (Bool.not_eq_true _ ▸ hoccurs)
        exact Yields.next (rfl : exec _ store = some (some (), store.put v (.link target)))
          acyclic acyclic' trivial (forM_staysAcyclic H acyclic' (demandedPairs components target))
      next => exact Yields.of_failure acyclic rfl

theorem mergeVars_staysAcyclic (acyclic : store.Acyclic) {left right : KindVar}
    (hne : left ≠ right) : StaysAcyclic store (mergeVars unify left right) := by
  refine Yields.read (rfl : exec get store = some (some store, store)) acyclic ?_
  refine Yields.read (rfl : exec get store = some (some store, store)) acyclic ?_
  split
  next leftPredicate leftComponents rightPredicate rightComponents hl hr =>
    split
    next => exact Yields.of_failure acyclic rfl
    next predicate _ =>
      let store₁ := store.put right (.unbound predicate
        (mergeComponents rightComponents leftComponents).1)
      let store₂ := store₁.put left (.link (.mvar right))
      have acyclic₁ : store₁.Acyclic := acyclic.put_unbound right _ _
      have acyclic₂ : store₂.Acyclic :=
        acyclic₁.put_link (not_linked_put_unbound (not_linked_iff.mpr ⟨_, _, hl⟩))
          (occurs_of_ne hne (not_linked_put_unbound (not_linked_iff.mpr ⟨_, _, hr⟩)))
      refine Yields.next (rfl : exec _ store = some (some (), store₁)) acyclic acyclic₁ trivial ?_
      exact Yields.next (rfl : exec _ store₁ = some (some (), store₂)) acyclic₁ acyclic₂ trivial
        (forM_staysAcyclic H acyclic₂ (mergeComponents rightComponents leftComponents).2)
  next => exact Yields.pure acyclic trivial

end Unify

private theorem resolve_staysAcyclic (acyclic : store.Acyclic) (k : Kind) :
    StaysAcyclic store (resolve k) := by
  intro r store' h
  cases h
  exact ⟨((Condenses.of_run (resolve_condensing k) store)).acyclic acyclic, trivial,
    fun _ _ => trivial⟩

theorem unify_staysAcyclic (fuel : Nat) (a b : Kind) {store : KindStore} (acyclic : store.Acyclic) :
    StaysAcyclic store (unify fuel a b) := by
  induction fuel generalizing store a b with
  | zero => exact Yields.of_none rfl
  | succ fuel ih =>
    simp only [unify]
    split
    next => exact Yields.pure acyclic trivial
    next =>
    refine Yields.bind acyclic (.of_exec_eq rfl (resolve_staysAcyclic acyclic a)) ?_
    intro a store₁ acyclic₁ _ _
    refine Yields.bind acyclic₁ (.of_exec_eq rfl (resolve_staysAcyclic acyclic₁ b)) ?_
    intro b store₂ acyclic₂ _ _
    split
    next => exact Yields.pure acyclic₂ trivial
    next hne =>
      split
      next left right =>
        refine mergeVars_staysAcyclic ih acyclic₂ ?_
        rintro rfl
        exact hne (.inl rfl)
      next => exact solve_staysAcyclic ih acyclic₂ _ _
      next => exact solve_staysAcyclic ih acyclic₂ _ _
      next =>
        exact Yields.bind acyclic₂ (ih _ _ acyclic₂) fun _ _ acyclic₃ _ _ => ih _ _ acyclic₃
      next => exact ih _ _ acyclic₂
      next ks ks' =>
        split
        · exact forM_staysAcyclic ih acyclic₂ (ks.zip ks')
        · exact Yields.of_failure acyclic₂ rfl
      next => exact ih _ _ acyclic₂
      next => exact Yields.of_failure acyclic₂ rfl

/-! ## New variables -/

theorem Acyclic.extend (acyclic : store.Acyclic) (predicate : KindPredicate) :
    (store.extend predicate).Acyclic := by
  refine acyclic.mono fun u w ⟨target, hu, hw⟩ => ⟨target, ?_, hw⟩
  rw [stateOf_extend] at hu
  split at hu
  · cases hu
  · exact hu

theorem tupleComponent_staysAcyclic (acyclic : store.Acyclic) (k : Kind) (index : Nat) :
    StaysAcyclic store (tupleComponent k index) := by
  refine Yields.bind acyclic (.of_exec_eq rfl (resolve_staysAcyclic acyclic k)) ?_
  intro root store₁ acyclic₁ _ _
  split
  next =>
    split
    · exact Yields.pure acyclic₁ trivial
    · exact Yields.of_failure acyclic₁ rfl
  next v =>
    refine Yields.read (rfl : exec get store₁ = some (some store₁, store₁)) acyclic₁ ?_
    split
    next => exact Yields.pure acyclic₁ trivial
    next predicate components hv =>
      split
      next => exact Yields.of_failure acyclic₁ rfl
      next predicate' _ =>
        split
        next => exact Yields.pure acyclic₁ trivial
        next =>
          have acyclic₂ := acyclic₁.extend .any
          refine Yields.next (rfl : exec _ store₁ = some (some (.mvar store₁.vars.size),
            store₁.extend .any)) acyclic₁ acyclic₂ trivial ?_
          have acyclic₃ := acyclic₂.put_unbound v predicate'
            (components ++ [(index, .mvar store₁.vars.size)])
          exact Yields.next (rfl : exec _ (store₁.extend .any) = some (some (), _)) acyclic₂
            acyclic₃ trivial (Yields.pure acyclic₃ trivial)
  next => exact Yields.pure acyclic₁ trivial
  next => exact Yields.of_failure acyclic₁ rfl

/-! ## Operations -/

/-- The operations on a store of kinds, snapshots apart. -/
inductive Operation : (α : Type) → Fuelled KindStore α → Prop where
  | fresh (predicate : KindPredicate) : Operation _ (liftM (fresh predicate))
  | tupleComponent (k : Kind) (index : Nat) : Operation _ (liftM (tupleComponent k index).run)
  | unify (fuel : Nat) (a b : Kind) : Operation _ (unify fuel a b).run
  | resolve (k : Kind) : Operation _ (liftM (resolve k))
  | zonk (k : Kind) : Operation _ (liftM (zonk k))
  | lift (k : Kind) (amount cutoff : Nat) : Operation _ (liftM (lift k amount cutoff))
  | subst (k argument : Kind) (index : Nat) : Operation _ (liftM (subst k argument index))
  | defaultUnsolved (fuel : Nat) (k : Kind) : Operation _ (defaultUnsolved fuel k)

namespace Operation

variable {α : Type} {x : Fuelled KindStore α}

theorem composed (h : Operation α x) : Composed α x := by
  cases h with
  | fresh predicate => exact .fresh predicate
  | tupleComponent k index => exact tupleComponent_throughout k index
  | unify fuel a b => exact unify_throughout fuel a b
  | resolve k => exact resolve_throughout k
  | zonk k => exact zonk_throughout resolve_throughout k
  | lift k amount cutoff => exact lift_throughout resolve_throughout k amount cutoff
  | subst k argument index => exact subst_throughout resolve_throughout k argument index
  | defaultUnsolved fuel k => exact defaultUnsolved_throughout fuel k

theorem acyclic (h : Operation α x) {a : α} (acyclic : store.Acyclic)
    (hrun : x store = some (a, store')) : store'.Acyclic := by
  have condensing : ∀ {β : Type} {y : KindM β}, Throughout Condensing y → ∀ {b},
      (liftM y : Fuelled KindStore β) store = some (b, store') → store'.Acyclic :=
    fun hy _ hrun => (hy _ _ _ hrun).acyclic acyclic
  cases h with
  | fresh predicate =>
    cases hrun
    exact acyclic.extend predicate
  | tupleComponent k index =>
    refine (tupleComponent_staysAcyclic acyclic k index (succeeded a) store' ?_).1
    exact congrArg (Option.map fun r => (succeeded r.1, r.2)) hrun
  | unify fuel k l =>
    refine (unify_staysAcyclic fuel k l acyclic (succeeded a) store' ?_).1
    change ((Option.map _ ((KindStore.unify fuel k l).run.run store)).map _) = _
    rw [show (KindStore.unify fuel k l).run.run store = _ from hrun]
    rfl
  | resolve k => exact condensing (resolve_condensing k) hrun
  | zonk k => exact condensing (zonk_throughout resolve_condensing k) hrun
  | lift k amount cutoff => exact condensing (lift_throughout resolve_condensing k _ _) hrun
  | subst k argument index => exact condensing (subst_throughout resolve_condensing k _ _) hrun
  | defaultUnsolved fuel k => exact acyclic.defaulted hrun

end Operation

/-! ## Runs -/

/-- The operations lead from the first store to the second one, with every snapshot that is opened
on the way closed again. -/
inductive Runs : KindStore → KindStore → Prop where
  | refl (store : KindStore) : Runs store store
  | trans {s s' s'' : KindStore} (h : Runs s s') (h' : Runs s' s'') : Runs s s''
  | operation {α : Type} {x : Fuelled KindStore α} (h : Operation α x) {s s' : KindStore} {a : α}
      (hrun : x s = some (a, s')) : Runs s s'
  | rolledBack {s s' : KindStore} (h : Runs s.opened s') : Runs s (s'.rolledBack s.trail.length)
  | committed {s s' : KindStore} (h : Runs s.opened s') : Runs s s'.committed

/-- The stores that the operations reach from the empty one, some snapshots still being open. -/
inductive Reached : KindStore → Prop where
  | empty : Reached .empty
  | runs {s s' : KindStore} (h : Reached s) (h' : Runs s s') : Reached s'
  | opened {s : KindStore} (h : Reached s) : Reached s.opened

theorem Runs.records (h : Runs store store') : ∃ entries, Records store store' entries := by
  induction h with
  | refl store => exact ⟨[], .none store⟩
  | trans _ _ ih ih' =>
    obtain ⟨entries, h⟩ := ih
    obtain ⟨entries', h'⟩ := ih'
    exact ⟨entries' ++ entries, h.onTop h'⟩
  | operation h hrun => exact h.composed.exact.records hrun
  | rolledBack _ ih =>
    obtain ⟨entries, h⟩ := ih
    exact ⟨[], (restores_rolledBack h).records⟩
  | committed _ ih =>
    obtain ⟨entries, h⟩ := ih
    exact ⟨entries, records_committed h⟩

/-- What a rollback restores has only links that were there before. -/
theorem Restores.acyclic (h : Restores store store') (acyclic : store.Acyclic) :
    store'.Acyclic := by
  refine acyclic.mono fun v w ⟨target, hv, hw⟩ => ⟨target, ?_, hw⟩
  by_cases hlt : v < store.vars.size
  · rwa [h.old v hlt] at hv
  · obtain ⟨predicate, hblank⟩ := h.new v (Nat.le_of_not_lt hlt)
    rw [hblank] at hv
    cases hv

theorem Acyclic.of_vars (acyclic : store.Acyclic) (h : store.vars = store'.vars) :
    store'.Acyclic :=
  acyclic.mono fun v _ ⟨target, hv, hw⟩ => ⟨target, (stateOf_congr h v).trans hv, hw⟩

theorem Runs.acyclic (h : Runs store store') (acyclic : store.Acyclic) : store'.Acyclic := by
  induction h with
  | refl => exact acyclic
  | trans _ _ ih ih' => exact ih' (ih acyclic)
  | operation h hrun => exact h.acyclic acyclic hrun
  | rolledBack h _ =>
    obtain ⟨_, hrecords⟩ := h.records
    exact (restores_rolledBack hrecords).acyclic acyclic
  | committed _ ih => exact (ih (acyclic.of_vars rfl)).of_vars rfl

/-! ## Computations made up of operations -/

inductive Orderly : (α : Type) → Fuelled KindStore α → Prop where
  | pure {α : Type} (a : α) : Orderly α (pure a)
  | bind {α β : Type} {x : Fuelled KindStore α} {f : α → Fuelled KindStore β}
      (hx : Orderly α x) (hf : ∀ a, Orderly β (f a)) : Orderly β (x >>= f)
  | outOfFuel {α : Type} : Orderly α outOfFuel
  | size {α : Type} {f : Nat → Fuelled KindStore α} (hf : ∀ n, Orderly α (f n)) :
      Orderly α (get >>= fun s => f s.vars.size)
  | operation {α : Type} {x : Fuelled KindStore α} (h : Operation α x) : Orderly α x

instance : Sized Orderly := { pure := .pure, bind := .bind, size := .size }

namespace Orderly

variable {α : Type} {x : Fuelled KindStore α}

theorem resolve (k : Kind) : Throughout Orderly (resolve k) := Orderly.operation (.resolve k)

theorem unify (fuel : Nat) (a b : Kind) : Throughout Orderly (unify fuel a b) :=
  Orderly.operation (.unify fuel a b)

theorem fresh (predicate : KindPredicate) : Throughout Orderly (fresh predicate) :=
  Orderly.operation (.fresh predicate)

theorem defaultUnsolved (fuel : Nat) (k : Kind) : Throughout Orderly (defaultUnsolved fuel k) :=
  Orderly.operation (.defaultUnsolved fuel k)

theorem composed (h : Orderly α x) : Composed α x := by
  induction h with
  | pure a => exact .pure a
  | bind _ _ ihx ihf => exact .bind ihx ihf
  | outOfFuel => exact .outOfFuel
  | size _ ih => exact .read (fun s => ih s.vars.size) fun h => by rw [h]
  | operation h => exact h.composed

theorem runs (h : Orderly α x) {a : α} (hrun : x store = some (a, store')) : Runs store store' := by
  induction h generalizing store store' with
  | pure =>
    cases hrun
    exact .refl _
  | bind _ _ ihx ihf =>
    obtain ⟨⟨b, s⟩, hx, hf⟩ := Option.bind_eq_some_iff.mp hrun
    exact .trans (ihx hx) (ihf b hf)
  | outOfFuel => cases hrun
  | size _ ih => exact ih store.vars.size hrun
  | operation h => exact .operation h hrun

end Orderly

theorem Reached.acyclic (h : Reached store) : store.Acyclic := by
  induction h with
  | empty => exact ⟨fun _ => 0, fun _ _ ⟨_, h, _⟩ => by cases h⟩
  | runs _ h' ih => exact h'.acyclic ih
  | opened _ ih => exact ih.of_vars rfl

/-- Everything that reads kinds ends, and so does defaulting, except for kinds in which a variable
is demanded as a component of itself. -/
structure Ends (store : KindStore) : Prop where
  unreached : ∀ v, ¬ Relation.TransGen store.Mentions v v
  resolve : ∀ (k : Kind) (fuel : Nat), store.vars.size ≤ fuel →
    (resolveWithin fuel k).run store = (KindStore.resolve k).run store
  expand : ∀ (k : Kind) (fuel : Nat), store.vars.size < fuel →
    store.expandWithin fuel k = store.expand k
  /-- The passes of `zonk`, `lift` and `subst` are of this form. -/
  rebuild : ∀ (keep : Kind → Bool) (onBVar : Nat → Nat → KindM Kind),
    (∀ d i, Throughout Condensing (onBVar d i)) → ∀ (depth : Nat) (k : Kind) (fuel : Nat),
    store.vars.size < fuel → (rebuildWithin keep onBVar fuel depth k).run store =
      (rebuildWithin keep onBVar (store.vars.size + 1) depth k).run store
  default : ∀ k, (∃ fuel r, defaultUnsolved fuel k store = some r) ↔ store.Defaultable k
  solved : ∀ {fuel k k' store'}, defaultUnsolved fuel k store = some (k', store') → k'.mvars = []

/-- In every store that the operations reach, no variable is reached from its own solution. -/
theorem Reached.ends (h : Reached store) : store.Ends where
  unreached := Acyclic.iff.mp h.acyclic
  resolve k _ := h.acyclic.resolveWithin_eq k
  expand k _ := h.acyclic.expandWithin_eq_of_lt k
  rebuild _ _ hbvar depth k _ := h.acyclic.rebuildWithin_eq hbvar depth k
  default _ := h.acyclic.defaultUnsolved_ends_iff
  solved hrun := (h.acyclic.defaultable_of_run hrun).2

/-- A tuple that has been made equal to its first component. -/
def ownComponent : KindStore where
  vars := #[.link (.mvar 1), .unbound (.tupleWidth 1) [(0, .mvar 1)]]
  trail := []
  snapshots := 0

private theorem reached_ownComponent : Reached ownComponent := by
  let demanding : KindStore :=
    ⟨#[.unbound (.tupleWidth 1) [(0, .mvar 1)], .unbound .any []], [], 0⟩
  have hfresh : Runs .empty ⟨#[.unbound .any []], [], 0⟩ :=
    .operation (.fresh .any) (a := .mvar 0) rfl
  have hcomponent : Runs ⟨#[.unbound .any []], [], 0⟩ demanding :=
    .operation (.tupleComponent (.mvar 0) 0) (a := .ok (.mvar 1)) rfl
  have hunify : Runs demanding ownComponent :=
    .operation (.unify 1 (.mvar 0) (.mvar 1)) (a := .ok ()) rfl
  exact .runs .empty (.trans hfresh (.trans hcomponent hunify))

theorem ends_ownComponent : Reached ownComponent ∧ ownComponent.Ends :=
  ⟨reached_ownComponent, Reached.ends reached_ownComponent⟩

/-- The tuple is nowhere reached from its own solution, but there is no end to its default. -/
theorem default_ownComponent_endless :
    Reached ownComponent ∧ ∀ fuel, defaultUnsolved fuel (.mvar 0) ownComponent = none := by
  refine ⟨reached_ownComponent, fun fuel => ?_⟩
  have hlink : ownComponent.Awaits 0 1 := List.mem_singleton_self 1
  have hself : ownComponent.Awaits 1 1 := List.mem_singleton_self 1
  by_contra hends
  obtain ⟨r, hr⟩ := Option.ne_none_iff_exists'.mp hends
  have hdefault := reached_ownComponent.acyclic.defaultUnsolved_ends_iff.mp ⟨fuel, r, hr⟩
  exact hdefault 0 (by simp [Kind.mvars]) 1 (.single hlink) (.single hself)

end KindStore

end RowML
