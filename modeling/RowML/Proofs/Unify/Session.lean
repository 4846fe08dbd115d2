import RowML.Proofs.Store.Snapshot
import RowML.Proofs.Store.Termination
import RowML.Proofs.Unify.Integrity

/-!
# Sessions

A session is what a client of the store can do from an empty store on: build constructors, make
metavariables, unify, normalise, read solutions, solve metavariables with skolems, and open and
close snapshots.  One step keeps the store in order, so every session does; and every step but a
rollback leaves each solved cell with what it stands for.
-/

namespace RowML

/-! ## Speculative unification -/

theorem tryUnify_keeps {globals : Globals} {store : Store} (fuel depth : Nat) {a b : Con}
    (ok : store.Steady) (hg : globals.Fits store) (ha : a.Fits store) (hb : b.Fits store) :
    Yields Store.evolution store (tryUnify globals fuel depth a b) fun _ _ => True := by
  have hopened : ∀ {c : Con}, c.Fits store → c.Fits store.opened := fun hc =>
    hc.mono (Nat.le_refl _) fun _ _ => rfl
  let mark := (Store.snapshot.run store).1
  intro r store' hexec
  have hsnapshot : exec (liftM Store.snapshot : FuelM Snapshot) store =
      some (some mark, store.opened) := rfl
  unfold tryUnify at hexec
  rw [exec_bind, hsnapshot] at hexec
  simp only at hexec
  rw [exec_bind] at hexec
  rcases hrun : exec (unify globals fuel depth a b) store.opened with _ | ⟨_ | answer, store₁⟩ <;>
    rw [hrun] at hexec
  · cases hexec
  · obtain ⟨⟨_, _⟩, -, hsome⟩ := Option.map_eq_some_iff.mp hrun
    cases hsome
  obtain ⟨ok₁, evolves₁, -⟩ := unify_keeps fuel depth ok.opened (fun c hc => hopened (hg c hc))
    (hopened ha) (hopened hb) _ _ hrun
  have hback : (store₁.rolledBack mark).Steady ∧ store.Evolves (store₁.rolledBack mark) :=
    Store.evolves_rolledBack ok ok₁ evolves₁ rfl
  -- every outcome but the first goes back to the snapshot
  have hcases : store' = store₁.committed ∨ store' = store₁.rolledBack mark := by
    obtain ⟨_ | ⟨⟩, _ | _⟩ := answer <;> cases hexec
    · exact .inr rfl
    · exact .inr rfl
    · exact .inl rfl
    · exact .inr rfl
  rcases hcases with rfl | rfl
  · exact ⟨ok₁.committed, Store.evolves_committed evolves₁, fun _ _ => trivial⟩
  · exact ⟨hback.1, hback.2, fun _ _ => trivial⟩

/-! ## Building constructors -/

namespace Con

variable {store : Store} {c : Con}

theorem Fits.liftAbove (hc : c.Fits store) (amount cutoff : Nat) :
    (c.liftAbove amount cutoff).Fits store := by
  unfold Con.liftAbove
  split
  · exact hc
  · apply hc.rebuild
    intro d c c' hc h
    split at h
    · cases h
      exact hc
    · split at h <;> cases h
      exact .bvar _

theorem Fits.abstractSkolems (hc : c.Fits store) (skolems : List SkolemId) (base : Nat) :
    (c.abstractSkolems skolems base).Fits store := by
  unfold Con.abstractSkolems
  split
  · exact hc
  · apply hc.rebuild
    intro d c c' hc h
    split at h
    · cases h
      exact hc
    · split at h
      · obtain ⟨j, -, rfl⟩ := Option.map_eq_some_iff.mp h
        exact .bvar _
      · cases h

theorem Fits.abstractModules (hc : c.Fits store) (level : Nat) (map : Abstraction) :
    (c.abstractModules level map).Fits store := by
  unfold Con.abstractModules
  split
  · exact hc
  · apply hc.rebuild
    intro d c c' hc h
    split at h
    · cases h
      exact hc
    · split at h
      · obtain ⟨_, -, rfl⟩ := Option.map_eq_some_iff.mp h
        exact .leaf (by simp) rfl
      · obtain ⟨_, -, rfl⟩ := Option.map_eq_some_iff.mp h
        exact .leaf (by simp) rfl
      · cases h

theorem Fits.of_rebuildM {node : Depth → Con → Option (Option Con)}
    {kind : Depth → Kind → Option Kind} {d : Depth} {c' : Con}
    (hpass : Pass (.indifferent Unit) (fitting store) node kind) (hc : c.Fits store)
    (h : c.rebuildM node kind d = some c') : c'.Fits store := by
  have hyields := hpass.rebuildM_yields c (s := ()) (d := d) trivial hc
  exact (hyields _ () (congrArg (Option.map fun a => (some a, ())) h)).2.2 _ rfl

theorem Fits.strengthen (hc : c.Fits store) {amount : Nat} {c' : Con}
    (h : c.strengthen amount = some c') : c'.Fits store := by
  unfold Con.strengthen at h
  split at h
  · cases h
    exact hc
  · refine Fits.of_rebuildM (fitting_pass ?_) hc h
    intro s d c hc
    split
    · apply Yields.pure trivial
      rintro _ ⟨⟩
      exact hc
    · split
      · split
        · exact Yields.of_none rfl
        · apply Yields.pure trivial
          rintro _ ⟨⟩
          exact .bvar _
      · exact Yields.pure trivial (by simp)

end Con

/-! ## Steps -/

/-- The store, the constructors that have been built so far, and the open snapshots, the innermost
first. -/
structure Store.Session where
  store : Store
  known : List Con
  marks : List Snapshot

namespace Store.Session

def start : Session := ⟨Store.empty, [], []⟩

/-- The session after a computation that leaves `store` and gives the constructors `new`. -/
def after (S : Session) (store : Store) (new : List Con) : Session :=
  ⟨store, new ++ S.known, S.marks⟩

/-- A constructor built from constructors at hand, and what this makes of the kinds. -/
inductive Builds (known : List Con) (kinds : KindStore) : Con → KindStore → Prop where
  | node {c : Con} (hmvar : ∀ id spine, c ≠ .mvar id spine) (hparts : ∀ p ∈ c.parts, p ∈ known) :
      Builds known kinds c kinds
  | part {c p : Con} (hc : c ∈ known) (hp : p ∈ c.parts) : Builds known kinds p kinds
  | lift {c : Con} (hc : c ∈ known) (amount cutoff : Nat) :
      Builds known kinds (c.liftAbove amount cutoff) kinds
  | strengthen {c c' : Con} (hc : c ∈ known) {amount : Nat} (h : c.strengthen amount = some c') :
      Builds known kinds c' kinds
  | abstractSkolems {c : Con} (hc : c ∈ known) (skolems : List SkolemId) (base : Nat) :
      Builds known kinds (c.abstractSkolems skolems base) kinds
  | substModules {c : Con} (hc : c ∈ known) (first : Nat) (refs : List ModuleRef) :
      Builds known kinds (c.substModules first refs) kinds
  | abstractModules {c : Con} (hc : c ∈ known) (level : Nat) (map : Abstraction) :
      Builds known kinds (c.abstractModules level map) kinds
  | liftKinds {c : Con} (hc : c ∈ known) (amount : Nat) :
      Builds known kinds ((c.liftKinds amount).run kinds).1 ((c.liftKinds amount).run kinds).2
  | substKind {c : Con} (hc : c ∈ known) (argument : Kind) :
      Builds known kinds ((c.substKind argument).run kinds).1 ((c.substKind argument).run kinds).2
  | subst {body argument : Con} (hbody : body ∈ known) (hargument : argument ∈ known) :
      Builds known kinds ((body.subst argument).run kinds).1 ((body.subst argument).run kinds).2
  | instantiate {c : Con} {spine : List Con} (hc : c ∈ known) (hspine : ∀ a ∈ spine, a ∈ known) :
      Builds known kinds ((c.instantiate spine).run kinds).1 ((c.instantiate spine).run kinds).2

/-- A step other than a rollback.  Computations that need fuel take the step if they return. -/
inductive Advances : Session → Session → Prop where
  | build {S : Session} {c : Con} {kinds : KindStore}
      (h : Builds S.known S.store.kinds c kinds) :
        Advances S (S.after (S.store.withKinds kinds) [c])
  | fresh (S : Session) (kind : Kind) (depth : Nat) :
      Advances S (S.after ((Store.fresh kind depth).run S.store).2
        [((Store.fresh kind depth).run S.store).1])
  | freshWithSpine {S : Session} (kind : Kind) {spine : List Con}
      (hspine : ∀ c ∈ spine, c ∈ S.known) :
      Advances S (S.after ((Store.freshWithSpine kind spine).run S.store).2
        [((Store.freshWithSpine kind spine).run S.store).1])
  | unify {S : Session} {globals : Globals} {fuel depth : Nat} {a b : Con}
      {result : Except UnifyError Unit} {postponed : List Postponed} {store' : Store}
      (hglobals : ∀ c ∈ globals.cons, c ∈ S.known) (ha : a ∈ S.known) (hb : b ∈ S.known)
      (hrun : (unify globals fuel depth a b).run S.store = some ((result, postponed), store')) :
      Advances S (S.after store' (postponed.flatMap fun e => [e.expected, e.found]))
  | tryUnify {S : Session} {globals : Globals} {fuel depth : Nat} {a b : Con}
      {result : TryResult} {store' : Store}
      (hglobals : ∀ c ∈ globals.cons, c ∈ S.known) (ha : a ∈ S.known) (hb : b ∈ S.known)
      (hrun : (tryUnify globals fuel depth a b).run S.store = some (result, store')) :
      Advances S (S.after store' [])
  | headNormal {S : Session} {globals : Globals} {fuel : Nat} {c c' : Con} {store' : Store}
      (hglobals : ∀ c ∈ globals.cons, c ∈ S.known) (hc : c ∈ S.known)
      (hrun : (headNormal globals fuel c).run S.store = some (c', store')) :
      Advances S (S.after store' [c'])
  | resolve {S : Session} {c : Con} (hc : c ∈ S.known) :
      Advances S (S.after ((Store.resolve c).run S.store).2 [((Store.resolve c).run S.store).1])
  | zonk {S : Session} {fuel : Nat} {c c' : Con} {store' : Store} (hc : c ∈ S.known)
      (hrun : (Store.zonk fuel c).run S.store = some (c', store')) :
      Advances S (S.after store' [c'])
  | onKinds {α : Type} (S : Session) (x : KindM α) :
      Advances S (S.after ((RowML.onKinds x).run S.store).2 [])
  | quantify {S : Session} (name : String) (kind : Kind) {id : MetaId}
      (hid : id < S.store.cells.size) :
      Advances S (S.after ((Store.assign id (.skolem S.store.skolems.size)).run.run
        ((Store.freshSkolem name kind).run S.store).2).2 [.skolem S.store.skolems.size])
  | takeSolved (S : Session) : Advances S (S.after (Store.takeSolved.run S.store).2 [])
  | snapshot (S : Session) :
      Advances S
        ⟨(Store.snapshot.run S.store).2, S.known, (Store.snapshot.run S.store).1 :: S.marks⟩
  | commit {S : Session} {mark : Snapshot} {marks : List Snapshot} (h : S.marks = mark :: marks) :
      Advances S ⟨(Store.commit.run S.store).2, S.known, marks⟩

/-- The rollback to the innermost snapshot. -/
inductive Retreats : Session → Session → Prop where
  | rollback {S : Session} {mark : Snapshot} {marks : List Snapshot} (h : S.marks = mark :: marks) :
      Retreats S ⟨((Store.rollback mark).run S.store).2, S.known, marks⟩

/-- A session that can come about. -/
def Reachable (S : Session) : Prop :=
  Relation.ReflTransGen (fun S S' => Advances S S' ∨ Retreats S S') start S

/-! ## What every step keeps -/

/-- The store is in order, all constructors fit it, and the outermost snapshot was taken with an
empty trail. -/
structure Intact (S : Session) : Prop where
  store : S.store.Steady
  known : ∀ c ∈ S.known, c.Fits S.store
  marks : S.marks.length = S.store.snapshots
  outermost : ∀ mark, S.marks.getLast? = some mark → mark.trail = 0

variable {S S' : Session}

theorem intact_start : start.Intact where
  store := Store.steady_empty
  known := by simp [start]
  marks := rfl
  outermost := by simp [start]

theorem Intact.after (h : S.Intact) {store' : Store} {new : List Con} (ok : store'.Steady)
    (evolves : S.store.Evolves store') (hnew : ∀ c ∈ new, c.Fits store') :
    (S.after store' new).Intact where
  store := ok
  known c hc := by
    rcases List.mem_append.mp hc with hc | hc
    · exact hnew c hc
    · exact (h.known c hc).evolves evolves
  marks := h.marks.trans evolves.snapshots.symm
  outermost := h.outermost

/-- A step that a computation takes. -/
theorem Intact.of_yields {m : Type → Type} [Monad m] [Executes m Store] {α : Type} {x : m α}
    (h : S.Intact) {Post : α → Store → Prop} (hx : Yields Store.evolution S.store x Post) {a : α}
    {store' : Store} (hrun : exec x S.store = some (some a, store')) {new : List Con}
    (hnew : Post a store' → ∀ c ∈ new, c.Fits store') :
    (S.after store' new).Intact ∧ S.store.Preserves store' := by
  obtain ⟨ok, evolves, post⟩ := hx _ _ hrun
  exact ⟨h.after ok evolves (hnew (post a rfl)), evolves.toPreserves⟩

theorem Builds.fits {kinds kinds' : KindStore} {c : Con} (h : S.Intact)
    (hc : Builds S.known kinds c kinds') : c.Fits S.store := by
  have hfits := h.known
  cases hc with
  | node hmvar hparts => exact .node hmvar fun p hp => hfits p (hparts p hp)
  | part hc hp => exact (hfits _ hc).part hp
  | lift hc amount cutoff => exact (hfits _ hc).liftAbove amount cutoff
  | strengthen hc h => exact (hfits _ hc).strengthen h
  | abstractSkolems hc skolems base => exact (hfits _ hc).abstractSkolems skolems base
  | substModules hc first refs => exact (hfits _ hc).substModules first refs
  | abstractModules hc level map => exact (hfits _ hc).abstractModules level map
  | liftKinds hc amount => exact (hfits _ hc).of_alike (Con.liftKinds_resembles _ amount kinds)
  | substKind hc argument =>
    exact (hfits _ hc).of_alike (Con.substKind_resembles _ argument kinds)
  | subst hbody hargument =>
    have hinstantiated := (hfits _ hbody).instantiated
      (List.forall_mem_singleton.mpr (hfits _ hargument))
    exact hinstantiated.of_alike (Con.subst_resembles _ _ kinds)
  | instantiate hc hspine =>
    have hinstantiated := (hfits _ hc).instantiated fun a ha => hfits a (hspine a ha)
    exact hinstantiated.of_alike (Con.instantiate_resembles _ _ kinds)

/-- A skolem is a solution for every cell. -/
theorem assign_skolem_keeps {store : Store} (ok : store.Steady) {id : MetaId}
    (hid : id < store.cells.size) (skolem : SkolemId) :
    ((Store.assign id (.skolem skolem)).run.run store).2.Steady ∧
      store.Evolves ((Store.assign id (.skolem skolem)).run.run store).2 := by
  rw [Store.assign_run]
  split
  · exact ⟨ok, .refl store⟩
  next hunsolved =>
    have hmentions : ∀ j, ¬ (Con.skolem skolem).Mentions j := by
      intro j hj
      rcases hj with _ | ⟨hp, -⟩
      cases hp
    have hbound : (Con.skolem skolem).bound ≤ (store.cell id).arity :=
      Con.bound_le_iff_parts.mpr ⟨by simp, by simp [Con.parts]⟩
    obtain ⟨ok', evolves⟩ := ok.solve hid hunsolved (.leaf (by simp) rfl) hbound
      fun j hj => absurd hj (hmentions j)
    have same : Store.SameCells (store.put id (.skolem skolem))
        (store.assigned id (.skolem skolem)) := ⟨rfl, rfl, rfl⟩
    exact ⟨same.steady ok', evolves.trans same.evolves⟩

theorem Advances.keeps (h : S.Intact) (hstep : S.Advances S') :
    S'.Intact ∧ S.store.Preserves S'.store := by
  cases hstep with
  | @build _ c kinds hc =>
    have same := Store.sameCells_withKinds S.store kinds
    refine ⟨h.after (same.steady h.store) same.evolves ?_, same.evolves.toPreserves⟩
    exact List.forall_mem_singleton.mpr ((hc.fits h).evolves same.evolves)
  | fresh _ kind depth =>
    exact h.of_yields (Unify.fresh_keeps h.store kind depth) rfl fun hc =>
      List.forall_mem_singleton.mpr hc
  | freshWithSpine kind hspine =>
    exact h.of_yields (Unify.freshWithSpine_keeps h.store kind fun c hc => h.known c (hspine c hc))
      rfl fun hc => List.forall_mem_singleton.mpr hc
  | unify hglobals ha hb hrun =>
    refine h.of_yields (unify_keeps _ _ h.store (fun c hc => h.known c (hglobals c hc))
      (h.known _ ha) (h.known _ hb)) (congrArg (Option.map fun r => (some r.1, r.2)) hrun) ?_
    intro hpostponed c hc
    obtain ⟨equation, hequation, hc⟩ := List.mem_flatMap.mp hc
    rcases List.mem_pair.mp hc with rfl | rfl
    · exact (hpostponed equation hequation).1
    · exact (hpostponed equation hequation).2
  | tryUnify hglobals ha hb hrun =>
    exact h.of_yields (tryUnify_keeps _ _ h.store (fun c hc => h.known c (hglobals c hc))
      (h.known _ ha) (h.known _ hb)) (congrArg (Option.map fun r => (some r.1, r.2)) hrun) (by simp)
  | @headNormal _ globals fuel _ _ _ hglobals hc hrun =>
    have hkeeps := headNormal_keeps fuel h.store (fun c hc => h.known c (hglobals c hc))
      (h.known _ hc)
    exact h.of_yields hkeeps.of_compression (congrArg (Option.map fun r => (some r.1, r.2)) hrun)
      fun hc' => List.forall_mem_singleton.mpr hc'.2
  | resolve hc =>
    exact h.of_yields (Store.resolve_keeps h.store (h.known _ hc)).of_compression rfl
      fun hc' => List.forall_mem_singleton.mpr hc'.2.fits
  | zonk hc hrun =>
    exact h.of_yields (Store.zonk_keeps _ h.store (h.known _ hc)).of_compression
      (congrArg (Option.map fun r => (some r.1, r.2)) hrun)
      fun hc' => List.forall_mem_singleton.mpr hc'.2.fits
  | onKinds _ x =>
    exact h.of_yields (Store.onKinds_keeps x h.store).of_compression rfl (by simp)
  | quantify name kind hid =>
    have same : Store.SameCells S.store ((Store.freshSkolem name kind).run S.store).2 :=
      ⟨rfl, rfl, rfl⟩
    obtain ⟨ok, evolves⟩ := assign_skolem_keeps (same.steady h.store) hid S.store.skolems.size
    have evolves := same.evolves.trans evolves
    exact ⟨h.after ok evolves (List.forall_mem_singleton.mpr (.leaf (by simp) rfl)),
      evolves.toPreserves⟩
  | takeSolved =>
    have same : Store.SameCells S.store (Store.takeSolved.run S.store).2 := ⟨rfl, rfl, rfl⟩
    exact ⟨h.after (same.steady h.store) same.evolves (by simp), same.evolves.toPreserves⟩
  | snapshot =>
    refine ⟨⟨h.store.opened, fun c hc => ?_, congrArg Nat.succ h.marks, fun mark hmark => ?_⟩,
      Store.preserves_opened S.store⟩
    · exact (h.known c hc).mono (Nat.le_refl _) fun _ _ => rfl
    · cases hmarks : S.marks with
      | nil =>
        -- no snapshot is open, so the trail is empty
        have hidle := h.store.idle (by rw [← h.marks, hmarks]; rfl)
        rw [hmarks] at hmark
        cases hmark
        exact congrArg List.length hidle
      | cons mark' marks =>
        rw [hmarks, List.getLast?_cons_cons, ← hmarks] at hmark
        exact h.outermost mark hmark
  | @commit _ mark marks hmarks =>
    refine ⟨⟨h.store.committed, fun c hc => ?_, ?_, fun mark' hmark' => ?_⟩,
      Store.preserves_committed S.store⟩
    · exact (h.known c hc).mono (Nat.le_refl _) fun _ _ => rfl
    · have hlength := h.marks
      rw [hmarks, List.length_cons] at hlength
      change marks.length = S.store.snapshots - 1
      omega
    · apply h.outermost mark'
      rw [hmarks, List.getLast?_cons, hmark']
      rfl

theorem Retreats.keeps (h : S.Intact) (hstep : S.Retreats S') : S'.Intact := by
  cases hstep with
  | @rollback mark marks hmarks =>
    have hlength := h.marks
    rw [hmarks, List.length_cons] at hlength
    have hidle : S.store.snapshots ≤ 1 → mark.trail = 0 := by
      intro hle
      have hnil : marks = [] := List.length_eq_zero_iff.mp (by omega)
      apply h.outermost mark
      rw [hmarks, hnil]
      rfl
    have hback := Store.rolledBack_spec h.store mark
    refine ⟨h.store.rolledBack hidle, fun c hc => ?_, ?_, fun mark' hmark' => ?_⟩
    · exact (h.known c hc).mono (Nat.le_of_eq hback.size.symm) fun i _ => hback.arity i
    · exact Nat.eq_sub_of_add_eq hlength
    · apply h.outermost mark'
      rw [hmarks, List.getLast?_cons, hmark']
      rfl

theorem Reachable.intact (h : S.Reachable) : S.Intact := by
  induction h with
  | refl => exact intact_start
  | tail _ hstep ih =>
    rcases hstep with hstep | hstep
    · exact (hstep.keeps ih).1
    · exact hstep.keeps ih

/-! ## The invariant -/

end Store.Session

/-- A constructor that is read at the variables of its own context. -/
theorem Con.instantiated_identitySpine {c : Con} {n : Nat} (hc : c.bound ≤ n) :
    c.instantiated (Store.identitySpine n) = c := by
  refine traverse_eq_self Depth.zero Depth.zero ((bound_le_iff.mp hc).mono fun d node hnode => ?_)
  refine ⟨fun i hi => ?_, fun _ _ => rfl⟩
  have hlt := hnode i hi
  rw [Depth.zero_add]
  by_cases hd : i < d.con
  · exact spineVar_of_lt hd
  · have hget : (Store.identitySpine n).reverse[i - d.con]? = some (.bvar (i - d.con)) := by
      have hindex : i - d.con < n := by omega
      simp [Store.identitySpine, hindex]
    rw [spineVar_of_some (by omega) hget, weakened, traverse_bvar, weakenVar]
    simp only [Depth.zero_con, Nat.not_lt_zero, if_false, Con.bvar.injEq]
    omega

namespace Store

variable {store store' : Store}

theorem isSolved_of_retains (h : Relation.ReflTransGen Retains store store') {i : MetaId} {x : Con}
    (hx : store.solution? i = some x) : ∃ y, store'.solution? i = some y := by
  induction h with
  | refl => exact ⟨x, hx⟩
  | tail _ hretains ih =>
    obtain ⟨y, hy⟩ := ih
    obtain ⟨z, hz, -⟩ := hretains i y hy
    exact ⟨z, hz⟩

/-- The solution that a cell had and the one that it has. -/
theorem Preserves.solution (h : store.Preserves store') (ok : store.Steady) (ok' : store'.Steady)
    {i : MetaId} {x : Con} (hx : store.solution? i = some x) :
    ∃ y, store'.solution? i = some y ∧ store'.Agrees x y := by
  obtain ⟨y, hy⟩ := isSolved_of_retains h.retains hx
  let spine := identitySpine (store.cell i).arity
  have hlength : spine.length = (store.cell i).arity := by simp [spine, identitySpine]
  have harity := h.arity i (lt_of_solution hx)
  have hold := h.agrees (.intro hx hlength)
  have hnew : store'.Agrees (.mvar i spine) (y.instantiated spine) :=
    .step (.intro hy (hlength.trans harity.symm))
  rw [Con.instantiated_identitySpine (ok.bounds hx)] at hold
  rw [Con.instantiated_identitySpine (harity ▸ ok'.bounds hy)] at hnew
  exact ⟨y, hy, hold.symm.trans hnew⟩

end Store

namespace Store.Session

variable {S S' : Session}

/-- What holds of the store of a session. -/
structure Invariant (S : Session) : Prop where
  /-- No cell is reached from its own solution through solved cells. -/
  acyclic : ∀ i, ¬ Relation.TransGen S.store.Leads i i
  /-- Following the head of a constructor ends: more fuel than there are cells changes nothing. -/
  resolve_ends : ∀ c n, S.store.cells.size ≤ n →
    (Store.resolveWithin n c).run S.store = (Store.resolve c).run S.store
  /-- Replacing all solved metavariables ends. -/
  zonk_ends : ∀ c, c.Fits S.store →
    ∃ n r, ∀ fuel, n ≤ fuel → (Store.zonk fuel c).run S.store = some r
  /-- The free variables of a solution are smaller than the arity of the cell. -/
  bounds : ∀ i x, S.store.solution? i = some x → x.bound ≤ (S.store.cell i).arity
  /-- Every occurrence of a cell has a spine of the length of its arity. -/
  spines : ∀ c, c ∈ S.known ∨ (∃ i, S.store.solution? i = some c) → c.Fits S.store
  /-- A step other than a rollback leaves a solved cell with its solution, or with one that is
  obtained by reading the solved metavariable at the head of a solution. -/
  retained : ∀ S', S.Advances S' → Relation.ReflTransGen Store.Retains S.store S'.store
  /-- After such a step the old and the new solution are convertible. -/
  convertible : ∀ S', S.Advances S' → ∀ i x, S.store.solution? i = some x →
    ∃ y, S'.store.solution? i = some y ∧ S'.store.Agrees x y

theorem invariant_of_reachable (h : S.Reachable) : S.Invariant := by
  have intact := h.intact
  constructor
  · obtain ⟨rank, hrank⟩ := intact.store.acyclic
    have hfalls : ∀ {i j}, Relation.TransGen S.store.Leads i j → rank j < rank i := by
      intro i j hij
      induction hij with
      | single hleads => exact hrank _ _ hleads
      | tail _ hleads ih => exact Nat.lt_trans (hrank _ _ hleads) ih
    exact fun i hi => Nat.lt_irrefl _ (hfalls hi)
  · exact fun c n hn => intact.store.acyclic.resolveWithin_eq c hn
  · exact fun c hc => Store.zonk_ends intact.store hc
  · exact fun i x hx => intact.store.bounds hx
  · rintro c (hc | ⟨i, hi⟩)
    · exact intact.known c hc
    · exact intact.store.fits hi
  · exact fun S' hstep => (hstep.keeps intact).2.retains
  · intro S' hstep i x hx
    obtain ⟨intact', preserves⟩ := hstep.keeps intact
    exact preserves.solution intact.store intact'.store hx

/-- Two metavariables under one binder. -/
def chainStore (first second : Option Con) (solved : Array MetaId) : Store :=
  ⟨KindStore.empty, #[⟨.type, 1, first⟩, ⟨.type, 1, second⟩], #[], [], 0, solved⟩

/-- The first metavariable is solved by the second one, the second one by the variable, and then the
first one is read: its solution is rewritten to the variable. -/
theorem invariant_of_chain : ∃ S S' : Session, S.Reachable ∧ S.Advances S' ∧
    S.store.solution? 0 = some (.mvar 1 [.bvar 0]) ∧ S'.store.solution? 0 = some (.bvar 0) ∧
    S.Invariant ∧ S'.store.Agrees (.mvar 1 [.bvar 0]) (.bvar 0) := by
  let v : Con := .bvar 0
  let first : Con := .mvar 0 [v]
  let second : Con := .mvar 1 [v]
  let S₁ : Session := ⟨⟨KindStore.empty, #[⟨.type, 1, none⟩], #[], [], 0, #[]⟩, [first], []⟩
  let S₂ : Session := ⟨chainStore none none #[], [second, first], []⟩
  let S₃ : Session := ⟨chainStore (some second) none #[0], [second, first], []⟩
  let S₄ : Session := ⟨chainStore (some second) none #[0], [v, second, first], []⟩
  let S₅ : Session := ⟨chainStore (some second) (some v) #[0, 1], [v, second, first], []⟩
  have h₁ : start.Advances S₁ := .fresh start .type 1
  have h₂ : S₁.Advances S₂ := .fresh S₁ .type 1
  have h₃ : S₂.Advances S₃ :=
    @Advances.unify S₂ Globals.empty 10 1 first second (.ok ()) [] _ (by decide) (by simp [S₂])
      (by simp [S₂]) rfl
  have h₄ : S₃.Advances S₄ := .build (.node (by simp) (by simp [Con.parts]))
  have h₅ : S₄.Advances S₅ :=
    @Advances.unify S₄ Globals.empty 10 1 second v (.ok ()) [] _ (by decide) (by simp [S₄])
      (by simp [S₄]) rfl
  have h₆ := @Advances.resolve S₅ first (by simp [S₅])
  have hreachable : S₅.Reachable := ((((Relation.ReflTransGen.single (.inl h₁)).tail (.inl h₂)).tail
    (.inl h₃)).tail (.inl h₄)).tail (.inl h₅)
  have hinvariant := invariant_of_reachable hreachable
  obtain ⟨y, hy, hagrees⟩ := hinvariant.convertible _ h₆ 0 second rfl
  cases hy
  exact ⟨S₅, _, hreachable, h₆, rfl, rfl, hinvariant, hagrees⟩

end Store.Session

end RowML
